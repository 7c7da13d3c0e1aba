import RoastTelemetry.Json.Record
import RoastTelemetry.Proofs.Json.Trees

/-!
# Records are read as they were written

What is written of a record is a list of fields, some of which have a value and some not. The
reader finds under a name what was written for that field. So each way of reading a field needs one
lemma, and a record is read back field by field.
-/

namespace RoastTelemetry.Json

/-- The members for the fields that have a value. -/
def written (fields : List (String × Option Value)) : List (String × Value) :=
  fields.filterMap fun field => field.2.map (field.1, ·)

section Written

variable {fields : List (String × Option Value)} {name : String}

theorem written_nil : written [] = [] := rfl

theorem written_some (v : Value) :
    written ((name, some v) :: fields) = (name, v) :: written fields := rfl

theorem written_present {α : Type} (write : α → Value) (x : Option α) :
    written ((name, x.map write) :: fields) = Value.present name write x ++ written fields := by
  cases x <;> rfl

theorem mem_names_of_written {member : String × Value} (h : member ∈ written fields) :
    member.1 ∈ fields.map Prod.fst := by
  obtain ⟨field, hfield, hvalue⟩ := List.mem_filterMap.mp h
  obtain ⟨v, -, rfl⟩ := Option.map_eq_some_iff.mp hvalue
  exact List.mem_map_of_mem hfield

theorem nodup_written (h : (fields.map Prod.fst).Nodup) :
    ((written fields).map Prod.fst).Nodup := by
  induction fields with
  | nil => exact List.nodup_nil
  | cons field rest ih =>
      obtain ⟨key, value⟩ := field
      obtain ⟨hnew, hrest⟩ := List.nodup_cons.mp h
      cases value with
      | none => exact ih hrest
      | some v =>
          refine List.nodup_cons.mpr ⟨fun hmem => hnew ?_, ih hrest⟩
          obtain ⟨member, hmember, rfl⟩ := List.mem_map.mp hmem
          exact mem_names_of_written hmember

/-- Under the name of a field stands what was written for it. -/
theorem lookup_written (h : (fields.map Prod.fst).Nodup) {value : Option Value}
    (hfield : (name, value) ∈ fields) : (written fields).lookup name = value := by
  induction fields with
  | nil => cases hfield
  | cons field rest ih =>
      obtain ⟨key, first⟩ := field
      obtain ⟨hnew, hrest⟩ := List.nodup_cons.mp h
      rcases List.mem_cons.mp hfield with heq | hmem
      · obtain ⟨rfl, rfl⟩ := Prod.mk.inj heq
        cases value with
        | some v => simp [written]
        | none =>
            refine List.lookup_eq_none_iff.mpr fun member hmember => ?_
            rw [bne_iff_ne]
            rintro rfl
            exact hnew (mem_names_of_written hmember)
      · have hne : name ≠ key := by
          rintro rfl
          exact hnew (List.mem_map.mpr ⟨(name, value), hmem, rfl⟩)
        cases first with
        | none => exact ih hrest hmem
        | some v =>
            rw [written_some, List.lookup_cons, beq_eq_false_iff_ne.mpr hne]
            exact ih hrest hmem

end Written

namespace Value

theorem readKeys?_ofString (members : List (String × Value)) :
    readKeys? (members.map fun (key, v) => (RawString.ofString key, v)) = some members := by
  induction members with
  | nil => rfl
  | cons member rest ih =>
      obtain ⟨key, v⟩ := member
      simp only [List.map_cons, readKeys?, RawString.decode?_ofString, ih]
      rfl

/-- A record is read with the members it was written with. -/
theorem record?_record {names : List String} {members : List (String × Value)}
    (hnames : ∀ member ∈ members, member.1 ∈ names) (hkeys : (members.map Prod.fst).Nodup) :
    (record members).record? names = some ⟨.named, members⟩ := by
  have hknown : members.filter (fun member => names.contains member.1) = members := by
    rw [List.filter_eq_self]
    intro member hmember
    rw [List.contains_iff_mem]
    exact hnames member hmember
  unfold record record?
  simp only [readKeys?_ofString, Option.bind_eq_bind, Option.bind_some, hknown]
  rw [if_pos hkeys]

/-- **A record is read with what was written for each of its fields.** -/
theorem exists_record {names : List String} {fields : List (String × Option Value)}
    (hnames : fields.map Prod.fst = names) (hnodup : names.Nodup) :
    ∃ r : Record, (record (written fields)).record? names = some r ∧
      ∀ name value, (name, value) ∈ fields → r.get? name = value := by
  have hfields : (fields.map Prod.fst).Nodup := hnames ▸ hnodup
  have hknown : ∀ member ∈ written fields, member.1 ∈ names :=
    fun member hmember => hnames ▸ mem_names_of_written hmember
  exact ⟨_, record?_record hknown (nodup_written hfields), fun _ _ h => lookup_written hfields h⟩

theorem plain_record {members : List (String × Value)} (h : ∀ m ∈ members, m.2.Plain) :
    (record members).Plain := by
  refine plain_object ?_
  intro m hm
  obtain ⟨⟨key, v⟩, hmember, rfl⟩ := List.mem_map.mp hm
  exact ⟨fun part hpart => RawString.isPlain_of_mem_ofString hpart, h _ hmember⟩

/-- A value that is not null is read as a value that is there. -/
theorem option?_of_ne_null {α : Type} {read : Value → Option α} {v : Value} {a : α}
    (hv : v ≠ .null) (ha : read v = some a) : option? read v = some (some a) := by
  unfold option?
  split
  · exact absurd rfl hv
  · rw [ha, Option.map_some]

theorem option?_option {α : Type} {write : α → Value} {read : Value → Option α} {x : Option α}
    (h : ∀ a ∈ x, write a ≠ .null ∧ read (write a) = some a) :
    option? read (option write x) = some x := by
  cases x with
  | none => rfl
  | some a =>
      obtain ⟨hnull, hread⟩ := h a rfl
      exact option?_of_ne_null hnull hread

theorem list?_list {α : Type} {write : α → Value} {read : Value → Option α} {xs : List α}
    (h : ∀ x ∈ xs, read (write x) = some x) : list? read (list write xs) = some xs := by
  have hitems : (xs.map write).mapM read = some xs := by
    induction xs with
    | nil => rfl
    | cons x rest ih =>
        obtain ⟨hx, hrest⟩ := List.forall_mem_cons.mp h
        rw [List.map_cons, List.mapM_cons, hx, ih hrest]
        rfl
  exact hitems

end Value

namespace Record

variable {α β : Type} {r : Record} {name : String} {read : Value → Option α}

theorem required_of_get? {v : Value} (h : r.get? name = some v) :
    r.required name read = read v := by
  unfold required
  rw [h, Option.bind_some]

theorem withDefault_of_get? {default : α} {v : Value} (h : r.get? name = some v) :
    r.withDefault name default read = read v := by
  unfold withDefault
  rw [h]

theorem optional_of_get? {v : Value} (h : r.get? name = some v) :
    r.optional name read = Value.option? read v := by
  unfold optional
  rw [h]

/-- A field that is written only if it has a value is read as what is kept of its value. -/
theorem nullable_of_get? {write : α → Value} {kept : α → Option α} {x : Option α}
    (h : r.get? name = x.map write) (hx : ∀ a ∈ x, Value.option? read (write a) = some (kept a)) :
    r.nullable name read = some (x.bind kept) := by
  unfold nullable withDefault
  cases x with
  | none => rw [h]; rfl
  | some a => rw [h]; exact hx a rfl

/-- One more field of a record is read. -/
theorem bind_field {field : Option α} {next : α → Option β} {a : α} {b : β}
    (hfield : field = some a) (hnext : next a = some b) : (field >>= next) = some b := by
  rw [hfield]
  exact hnext

end Record

end RoastTelemetry.Json
