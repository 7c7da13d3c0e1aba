import RoastTelemetry.Json.Record
import Mathlib.Data.List.Nodup

/-!
# What a record takes from an object

An object is read as a record exactly if all its keys are text and no field is written twice. The
record then has under each name what the one member of that name has for a value, wherever it
stands. Members with other keys leave no trace, so their order, their number and their values are
all the same.
-/

namespace RoastTelemetry.Json

/-- In a list without repeated keys, a key stands for what is in the list with it. -/
theorem lookup_eq_some_iff_mem {fields : List (String × Value)}
    (h : (fields.map Prod.fst).Nodup) {name : String} {v : Value} :
    fields.lookup name = some v ↔ (name, v) ∈ fields := by
  induction fields with
  | nil => simp
  | cons field rest ih =>
      obtain ⟨key, first⟩ := field
      obtain ⟨hnew, hrest⟩ := List.nodup_cons.mp h
      rw [List.lookup_cons, List.mem_cons, Prod.mk.injEq]
      by_cases hkey : name = key
      · subst hkey
        -- no later field has this key
        have hlater : (name, v) ∉ rest := fun hmem => hnew (List.mem_map.mpr ⟨_, hmem, rfl⟩)
        rw [beq_self_eq_true, Option.some.injEq]
        exact ⟨fun heq => .inl ⟨rfl, heq.symm⟩, fun hor => (hor.resolve_right hlater).2.symm⟩
      · rw [beq_eq_false_iff_ne.mpr hkey, ih hrest]
        exact ⟨.inr, fun hor => hor.resolve_left fun hand => hkey hand.1⟩

namespace Value

variable {names : List String} {members members' : List (RawString × Value)}

/-- The members whose keys are text, under that text. -/
def texts (members : List (RawString × Value)) : List (String × Value) :=
  members.filterMap fun member => member.1.decode?.map (·, member.2)

/-- Those under one of the names. -/
def known (names : List String) (members : List (RawString × Value)) : List (String × Value) :=
  (texts members).filter fun field => names.contains field.1

/-- What is asked of an object that is read as a record. -/
structure Readable (names : List String) (members : List (RawString × Value)) : Prop where
  /-- Every key is text. -/
  keys_text : ∀ member ∈ members, member.1.decode?.isSome = true
  /-- No field is written twice. -/
  nodup : ((known names members).map Prod.fst).Nodup

theorem texts_cons {key : RawString} {name : String} (hkey : key.decode? = some name) (v : Value) :
    texts ((key, v) :: members) = (name, v) :: texts members :=
  List.filterMap_cons_some (by rw [hkey, Option.map_some])

theorem readKeys?_eq_some_iff {fields : List (String × Value)} :
    readKeys? members = some fields ↔
      (∀ member ∈ members, member.1.decode?.isSome = true) ∧ texts members = fields := by
  induction members generalizing fields with
  | nil => simp [readKeys?, texts]
  | cons member rest ih =>
      obtain ⟨key, v⟩ := member
      have hcons : readKeys? ((key, v) :: rest) =
          key.decode?.bind fun name => (readKeys? rest).map ((name, v) :: ·) := by
        rw [readKeys?]
        cases key.decode? <;> cases readKeys? rest <;> rfl
      rw [hcons, List.forall_mem_cons]
      cases hkey : key.decode? with
      | none => simp
      | some name =>
          rw [Option.bind_some, Option.map_eq_some_iff, texts_cons hkey]
          constructor
          · rintro ⟨later, hlater, rfl⟩
            obtain ⟨hrest, rfl⟩ := ih.mp hlater
            exact ⟨⟨rfl, hrest⟩, rfl⟩
          · rintro ⟨⟨-, hrest⟩, rfl⟩
            exact ⟨_, ih.mpr ⟨hrest, rfl⟩, rfl⟩

theorem record?_object_eq_some_iff {r : Record} :
    (object members).record? names = some r ↔
      Readable names members ∧ ⟨.named, known names members⟩ = r := by
  have hrecord : (object members).record? names = (readKeys? members).bind fun fields =>
      if ((fields.filter fun field => names.contains field.1).map Prod.fst).Nodup then
        some ⟨.named, fields.filter fun field => names.contains field.1⟩
      else none := rfl
  rw [hrecord, Option.bind_eq_some_iff]
  constructor
  · rintro ⟨fields, hfields, hr⟩
    obtain ⟨htext, rfl⟩ := readKeys?_eq_some_iff.mp hfields
    split at hr
    · rename_i hnodup
      exact ⟨⟨htext, hnodup⟩, Option.some.inj hr⟩
    · cases hr
  · rintro ⟨hreadable, rfl⟩
    exact ⟨_, readKeys?_eq_some_iff.mpr ⟨hreadable.keys_text, rfl⟩, if_pos hreadable.nodup⟩

theorem mem_known {name : String} {v : Value} :
    (name, v) ∈ known names members ↔
      name ∈ names ∧ ∃ key, (key, v) ∈ members ∧ key.decode? = some name := by
  unfold known texts
  simp only [List.mem_filter, List.mem_filterMap, Option.map_eq_some_iff, List.contains_iff_mem]
  constructor
  · rintro ⟨⟨⟨key, v⟩, hmem, name, hkey, ⟨⟩⟩, hname⟩
    exact ⟨hname, key, hmem, hkey⟩
  · rintro ⟨hname, key, hmem, hkey⟩
    exact ⟨⟨⟨key, v⟩, hmem, name, hkey, rfl⟩, hname⟩

theorem known_cons_of_mem {key : RawString} {name : String} (hkey : key.decode? = some name)
    (hname : name ∈ names) (v : Value) :
    known names ((key, v) :: members) = (name, v) :: known names members := by
  unfold known
  rw [texts_cons hkey]
  exact List.filter_cons_of_pos (List.contains_iff_mem.mpr hname)

/-- A member with another key leaves no trace. -/
theorem known_cons_of_not_mem {key : RawString} {name : String} (hkey : key.decode? = some name)
    (hname : name ∉ names) (v : Value) :
    known names ((key, v) :: members) = known names members := by
  unfold known
  rw [texts_cons hkey]
  exact List.filter_cons_of_neg fun h => hname (List.contains_iff_mem.mp h)

namespace Readable

/-- What stands under a name is the value of a member of that name. -/
theorem lookup_eq_some_iff (h : Readable names members) {name : String} {v : Value} :
    (known names members).lookup name = some v ↔
      name ∈ names ∧ ∃ key, (key, v) ∈ members ∧ key.decode? = some name := by
  rw [lookup_eq_some_iff_mem h.nodup, mem_known]

theorem perm (h : Readable names members) (hperm : members.Perm members') :
    Readable names members' where
  keys_text member hmember := h.keys_text member (hperm.mem_iff.mpr hmember)
  nodup := (((hperm.filterMap _).filter _).map Prod.fst).nodup_iff.mp h.nodup

/-- The order of the members does not matter. -/
theorem lookup_perm (h : Readable names members) (hperm : members.Perm members')
    (name : String) :
    (known names members').lookup name = (known names members).lookup name := by
  refine Option.ext fun v => ?_
  rw [(h.perm hperm).lookup_eq_some_iff, h.lookup_eq_some_iff]
  simp only [hperm.mem_iff]

end Readable

theorem readable_cons_of_not_mem {key : RawString} {name : String}
    (hkey : key.decode? = some name) (hname : name ∉ names) (v : Value) :
    Readable names ((key, v) :: members) ↔ Readable names members := by
  constructor
  · rintro ⟨htext, hnodup⟩
    rw [known_cons_of_not_mem hkey hname] at hnodup
    exact ⟨(List.forall_mem_cons.mp htext).2, hnodup⟩
  · rintro ⟨htext, hnodup⟩
    refine ⟨List.forall_mem_cons.mpr ⟨by rw [hkey]; rfl, htext⟩, ?_⟩
    rw [known_cons_of_not_mem hkey hname]
    exact hnodup

/-- A member may be added under a name that no other member has. -/
theorem readable_cons_of_new {key : RawString} {name : String} (hkey : key.decode? = some name)
    (hname : name ∈ names) (hnew : ∀ member ∈ members, member.1.decode? ≠ some name) (v : Value) :
    Readable names ((key, v) :: members) ↔ Readable names members := by
  have habsent : name ∉ (known names members).map Prod.fst := by
    intro hmem
    obtain ⟨⟨name', v'⟩, hfield, rfl⟩ := List.mem_map.mp hmem
    obtain ⟨-, key', hmember, hkey'⟩ := mem_known.mp hfield
    exact hnew _ hmember hkey'
  constructor
  · rintro ⟨htext, hnodup⟩
    rw [known_cons_of_mem hkey hname] at hnodup
    exact ⟨(List.forall_mem_cons.mp htext).2, (List.nodup_cons.mp hnodup).2⟩
  · rintro ⟨htext, hnodup⟩
    refine ⟨List.forall_mem_cons.mpr ⟨by rw [hkey]; rfl, htext⟩, ?_⟩
    rw [known_cons_of_mem hkey hname]
    exact List.nodup_cons.mpr ⟨habsent, hnodup⟩

end Value

end RoastTelemetry.Json
