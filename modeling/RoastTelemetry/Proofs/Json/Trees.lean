import RoastTelemetry.Json.Printer
import RoastTelemetry.Json.Reader
import RoastTelemetry.Proofs.Json.Tokens

/-!
# Documents are read as they were written

The builder goes through the tokens of a value from where a value is expected to where the value is
complete, with what was open around it untouched. This is one induction over values, their further
items and their further members. A number is never right behind another one, since an item follows
a comma and the value of a member follows a colon. So the text of a value is read back as that
value, if its strings have a written form.
-/

namespace RoastTelemetry.Json

namespace Builder

/-- The end of an array does not begin a value, so the first item of an array is read as any
value is. -/
theorem foldlM_firstItem (v : Value) (frames : List Frame) :
    v.tokens.foldlM step ⟨.firstItem, frames⟩ =
      v.tokens.foldlM step ⟨.value, .array [] :: frames⟩ := by
  have hstep {t : Token} (ht : t ≠ .endArray) :
      step ⟨.firstItem, frames⟩ t = step ⟨.value, .array [] :: frames⟩ t := by
    cases t <;> first | rfl | exact absurd rfl ht
  unfold Value.tokens
  split <;> simp only [List.cons_append, List.foldlM_cons] <;> rw [hstep (by simp)]

mutual

/-- **The tokens of a value are built into that value.** -/
theorem foldlM_tokens (v : Value) (frames : List Frame) :
    v.tokens.foldlM step ⟨.value, frames⟩ = some ⟨.separator v, frames⟩ := by
  cases v with
  | null | bool b | number n | string s => rfl
  | array items =>
      cases items with
      | nil => rfl
      | cons first rest =>
          unfold Value.tokens
          simp only [List.cons_append, List.foldlM_cons, List.foldlM_append, step, beginValue,
            Option.bind_eq_bind, Option.bind_some]
          rw [foldlM_firstItem, foldlM_tokens first, Option.bind_some, foldlM_itemTokens rest]
          rfl
  | object members =>
      cases members with
      | nil => rfl
      | cons first rest =>
          obtain ⟨key, value⟩ := first
          unfold Value.tokens
          simp only [List.cons_append, List.foldlM_cons, List.foldlM_append, step, beginValue,
            Option.bind_eq_bind, Option.bind_some]
          rw [foldlM_tokens value, Option.bind_some, foldlM_memberTokens rest]
          rfl

/-- The items after one that is complete. -/
theorem foldlM_itemTokens (rest : List Value) (v : Value) (items : List Value)
    (frames : List Frame) :
    (itemTokens rest).foldlM step ⟨.separator v, .array items :: frames⟩ =
      some ⟨.separator (.array ((v :: items).reverse ++ rest)), frames⟩ := by
  cases rest with
  | nil =>
      rw [itemTokens, List.append_nil]
      rfl
  | cons next rest =>
      unfold itemTokens
      simp only [List.cons_append, List.foldlM_cons, List.foldlM_append, step, afterValue,
        Option.bind_eq_bind, Option.bind_some]
      rw [foldlM_tokens next, Option.bind_some, foldlM_itemTokens rest, List.reverse_cons,
        List.append_assoc]
      rfl

/-- The members after one that is complete. -/
theorem foldlM_memberTokens (rest : List (RawString × Value)) (v : Value)
    (members : List (RawString × Value)) (key : RawString) (frames : List Frame) :
    (memberTokens rest).foldlM step ⟨.separator v, .object members key :: frames⟩ =
      some ⟨.separator (.object (((key, v) :: members).reverse ++ rest)), frames⟩ := by
  cases rest with
  | nil =>
      rw [memberTokens, List.append_nil]
      rfl
  | cons next rest =>
      obtain ⟨nextKey, value⟩ := next
      unfold memberTokens
      simp only [List.cons_append, List.foldlM_cons, List.foldlM_append, step, afterValue,
        Option.bind_eq_bind, Option.bind_some]
      rw [foldlM_tokens value, Option.bind_some, foldlM_memberTokens rest, List.reverse_cons,
        List.append_assoc]
      rfl

end

end Builder

theorem build?_tokens (v : Value) : build? v.tokens = some v := by
  unfold build? Builder.start
  rw [Builder.foldlM_tokens, Option.bind_some]
  rfl

namespace Token

theorem apart_left {a : Token} (ha : a.isNumber = false) (b : Token) : a.Apart b := by
  simp [Apart, ha]

theorem apart_right {b : Token} (hb : b.isNumber = false) (a : Token) : a.Apart b := by
  simp [Apart, hb]

/-- Tokens that keep apart still do so with a token in front that is no number. -/
theorem isChain_cons {t : Token} (ht : t.isNumber = false) {tokens : List Token}
    (h : tokens.IsChain Apart) : (t :: tokens).IsChain Apart :=
  List.isChain_cons.mpr ⟨fun next _ => apart_left ht next, h⟩

/-- Two lists of tokens that keep apart do so together if the second does not begin with a
number. -/
theorem isChain_append {front back : List Token} (hfront : front.IsChain Apart)
    (hback : back.IsChain Apart) (hhead : ∀ t ∈ back.head?, t.isNumber = false) :
    (front ++ back).IsChain Apart :=
  List.isChain_append.mpr
    ⟨hfront, hback, fun last _ next hnext => apart_right (hhead next hnext) last⟩

end Token

theorem head?_itemTokens (rest : List Value) :
    ∀ t ∈ (itemTokens rest).head?, t.isNumber = false := by
  cases rest <;> simp [itemTokens, Token.isNumber]

theorem head?_memberTokens (rest : List (RawString × Value)) :
    ∀ t ∈ (memberTokens rest).head?, t.isNumber = false := by
  cases rest <;> simp [memberTokens, Token.isNumber]

mutual

/-- The tokens of a value keep apart. -/
theorem isChain_tokens (v : Value) : v.tokens.IsChain Token.Apart := by
  cases v with
  | null | bool b | number n | string s =>
      unfold Value.tokens
      exact List.isChain_singleton _
  | array items =>
      cases items with
      | nil =>
          unfold Value.tokens
          exact Token.isChain_cons rfl (List.isChain_singleton _)
      | cons first rest =>
          unfold Value.tokens
          exact Token.isChain_append (Token.isChain_cons rfl (isChain_tokens first))
            (isChain_itemTokens rest) (head?_itemTokens rest)
  | object members =>
      cases members with
      | nil =>
          unfold Value.tokens
          exact Token.isChain_cons rfl (List.isChain_singleton _)
      | cons first rest =>
          obtain ⟨key, value⟩ := first
          unfold Value.tokens
          exact Token.isChain_append (Token.isChain_cons rfl (Token.isChain_cons rfl
            (Token.isChain_cons rfl (isChain_tokens value)))) (isChain_memberTokens rest)
            (head?_memberTokens rest)

theorem isChain_itemTokens (rest : List Value) : (itemTokens rest).IsChain Token.Apart := by
  cases rest with
  | nil =>
      unfold itemTokens
      exact List.isChain_singleton _
  | cons next rest =>
      unfold itemTokens
      exact Token.isChain_append (Token.isChain_cons rfl (isChain_tokens next))
        (isChain_itemTokens rest) (head?_itemTokens rest)

theorem isChain_memberTokens (rest : List (RawString × Value)) :
    (memberTokens rest).IsChain Token.Apart := by
  cases rest with
  | nil =>
      unfold memberTokens
      exact List.isChain_singleton _
  | cons next rest =>
      obtain ⟨key, value⟩ := next
      unfold memberTokens
      exact Token.isChain_append (Token.isChain_cons rfl (Token.isChain_cons rfl
        (Token.isChain_cons rfl (isChain_tokens value)))) (isChain_memberTokens rest)
        (head?_memberTokens rest)

end

namespace Value

/-- A value all of whose strings have only parts with a written form of their own. -/
def Plain (v : Value) : Prop := ∀ t ∈ v.tokens, t.Plain

theorem plain_itemTokens {rest : List Value} (h : ∀ v ∈ rest, v.Plain) :
    ∀ t ∈ itemTokens rest, t.Plain := by
  induction rest with
  | nil => simp [itemTokens, Token.Plain]
  | cons next rest ih =>
      obtain ⟨hnext, hrest⟩ := List.forall_mem_cons.mp h
      simp only [itemTokens, List.cons_append, List.forall_mem_cons, List.forall_mem_append]
      exact ⟨trivial, hnext, ih hrest⟩

theorem plain_memberTokens {rest : List (RawString × Value)}
    (h : ∀ m ∈ rest, (Token.string m.1).Plain ∧ m.2.Plain) :
    ∀ t ∈ memberTokens rest, t.Plain := by
  induction rest with
  | nil => simp [memberTokens, Token.Plain]
  | cons next rest ih =>
      obtain ⟨⟨hkey, hvalue⟩, hrest⟩ := List.forall_mem_cons.mp h
      simp only [memberTokens, List.cons_append, List.forall_mem_cons, List.forall_mem_append]
      exact ⟨trivial, hkey, trivial, hvalue, ih hrest⟩

theorem plain_array {items : List Value} (h : ∀ v ∈ items, v.Plain) : (array items).Plain := by
  unfold Plain
  cases items with
  | nil => simp [tokens, Token.Plain]
  | cons first rest =>
      obtain ⟨hfirst, hrest⟩ := List.forall_mem_cons.mp h
      simp only [tokens, List.cons_append, List.forall_mem_cons, List.forall_mem_append]
      exact ⟨trivial, hfirst, plain_itemTokens hrest⟩

theorem plain_object {members : List (RawString × Value)}
    (h : ∀ m ∈ members, (Token.string m.1).Plain ∧ m.2.Plain) : (object members).Plain := by
  unfold Plain
  cases members with
  | nil => simp [tokens, Token.Plain]
  | cons first rest =>
      obtain ⟨⟨hkey, hvalue⟩, hrest⟩ := List.forall_mem_cons.mp h
      simp only [tokens, List.cons_append, List.forall_mem_cons, List.forall_mem_append]
      exact ⟨trivial, hkey, trivial, hvalue, plain_memberTokens hrest⟩

end Value

/-- **The text of a value is read back as that value.** -/
theorem parse?_bytes {v : Value} (hv : v.Plain) : parse? v.bytes = some v := by
  unfold parse? Value.bytes
  rw [scan?_bytes hv (isChain_tokens v), Option.bind_some, build?_tokens]

end RoastTelemetry.Json
