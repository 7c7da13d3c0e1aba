import RoastTelemetry.Proofs.Json.Records

/-!
# Records with members left out

A record that has lost some of its members is still a record, and is read with what is left of them.
A field with a default is then the default if its member is gone, and what was written if it is not.
-/

namespace RoastTelemetry.Json

namespace Value

/-- An object without the members that are gone. -/
def without (gone : String → Bool) : Value → Value
  | .object members => .object (members.filter fun member => !member.1.decode?.any gone)
  | v => v

theorem without_record (gone : String → Bool) (members : List (String × Value)) :
    (record members).without gone = record (members.filter fun member => !gone member.1) := by
  simp only [record, without, List.filter_map, Function.comp_def, RawString.decode?_ofString,
    Option.any_some]

/-- Nothing is lost if nothing is gone. -/
theorem without_none (members : List (String × Value)) :
    (record members).without (fun _ => false) = record members := by
  rw [without_record]
  exact congrArg record (List.filter_eq_self.mpr fun _ _ => rfl)

/-- What is left is what is written of the fields that are not gone. -/
theorem filter_eq_written (gone : String → Bool) (members : List (String × Value)) :
    (members.filter fun member => !gone member.1) = written
      (members.map fun member => (member.1, if gone member.1 then none else some member.2)) := by
  induction members with
  | nil => rfl
  | cons member rest ih =>
      obtain ⟨key, v⟩ := member
      cases hgone : gone key with
      | true =>
          rw [List.filter_cons_of_neg (by simp [hgone]), ih]
          simp [written, hgone]
      | false =>
          rw [List.filter_cons_of_pos (by simp [hgone]), ih]
          simp [written, hgone]

/-- **A record that has lost members is read with what is left of its fields.** -/
theorem exists_record_without {names : List String} (members : List (String × Value))
    (gone : String → Bool) (hnames : members.map Prod.fst = names) (hnodup : names.Nodup) :
    ∃ r : Record, ((record members).without gone).record? names = some r ∧
      ∀ key v, (key, v) ∈ members → r.get? key = if gone key then none else some v := by
  have hkept : (members.map fun member =>
      (member.1, if gone member.1 then none else some member.2)).map Prod.fst = names := by
    rw [List.map_map]
    exact hnames
  rw [without_record, filter_eq_written]
  obtain ⟨r, hr, hget⟩ := exists_record hkept hnodup
  exact ⟨r, hr, fun key v hmem => hget key _ (List.mem_map.mpr ⟨(key, v), hmem, rfl⟩)⟩

theorem plain_without {members : List (String × Value)} (h : ∀ m ∈ members, m.2.Plain)
    (gone : String → Bool) : ((record members).without gone).Plain := by
  rw [without_record]
  exact plain_record fun m hm => h m (List.mem_filter.mp hm).1

end Value

/-- A field whose member may be gone is read as the default if it is, and as what was written if it
is not. -/
theorem Record.withDefault_of_kept {α : Type} {r : Record} {name : String} {default a : α}
    {read : Value → Option α} {gone : Bool} {v : Value}
    (h : r.get? name = if gone then none else some v) (hread : read v = some a) :
    r.withDefault name default read = some (if gone then default else a) := by
  unfold withDefault
  rw [h]
  cases gone
  · exact hread
  · rfl

end RoastTelemetry.Json
