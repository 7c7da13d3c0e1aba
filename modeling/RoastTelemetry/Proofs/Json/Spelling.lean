import RoastTelemetry.Proofs.Json.Trees

/-!
# A document has the tree that it spells

That the text of a tree is read back as the tree says nothing of other texts. The builder adds
nothing and leaves nothing out, whatever it reads: at every point the tokens read so far are those
of what is open and of what is expected next. So the tree of a document has exactly the tokens of
the document, and what is proved of the members of an object speaks of what stands in the text.
-/

namespace RoastTelemetry.Json

/-- The tokens of items, each with a comma behind it. -/
def openItems (items : List Value) : List Token := items.flatMap fun v => v.tokens ++ [.comma]

/-- The tokens of members, each with a comma behind it. -/
def openMembers (members : List (RawString × Value)) : List Token :=
  members.flatMap fun (key, v) => .string key :: .colon :: v.tokens ++ [.comma]

theorem itemTokens_concat (rest : List Value) (v : Value) :
    itemTokens (rest ++ [v]) = .comma :: openItems rest ++ v.tokens ++ [.endArray] := by
  induction rest with
  | nil => simp [itemTokens, openItems]
  | cons next rest ih => simp [itemTokens, openItems, ih]

theorem memberTokens_concat (rest : List (RawString × Value)) (key : RawString) (v : Value) :
    memberTokens (rest ++ [(key, v)]) =
      .comma :: openMembers rest ++ .string key :: .colon :: v.tokens ++ [.endObject] := by
  induction rest with
  | nil => simp [memberTokens, openMembers]
  | cons next rest ih => simp [memberTokens, openMembers, ih]

theorem tokens_array_concat (items : List Value) (v : Value) :
    (Value.array (items ++ [v])).tokens =
      .beginArray :: openItems items ++ v.tokens ++ [.endArray] := by
  cases items with
  | nil => simp [Value.tokens, itemTokens, openItems]
  | cons first rest => simp [Value.tokens, itemTokens_concat, openItems]

theorem tokens_object_concat (members : List (RawString × Value)) (key : RawString) (v : Value) :
    (Value.object (members ++ [(key, v)])).tokens =
      .beginObject :: openMembers members ++ .string key :: .colon :: v.tokens
        ++ [.endObject] := by
  cases members with
  | nil => simp [Value.tokens, memberTokens, openMembers]
  | cons first rest => simp [Value.tokens, memberTokens_concat, openMembers]

namespace Builder

/-- The tokens of an array or object up to where it is still open. -/
def frameTokens : Frame → List Token
  | .array items => .beginArray :: openItems items.reverse
  | .object members key => .beginObject :: openMembers members.reverse ++ [.string key, .colon]

/-- The tokens that brought about what is expected next. -/
def expectationTokens : Expectation → List Token
  | .value => []
  | .firstItem => [.beginArray]
  | .firstKey => [.beginObject]
  | .key members => .beginObject :: openMembers members.reverse
  | .colon members key => .beginObject :: openMembers members.reverse ++ [.string key]
  | .separator v => v.tokens

/-- The tokens that lead to a state of the machine. -/
def consumed (m : Builder) : List Token :=
  m.frames.reverse.flatMap frameTokens ++ expectationTokens m.expects

theorem consumed_beginValue {frames : List Frame} {t : Token} {m : Builder}
    (h : beginValue frames t = some m) :
    m.consumed = frames.reverse.flatMap frameTokens ++ [t] := by
  cases t
  case null | bool | number | string | beginArray | beginObject =>
    obtain rfl := Option.some.inj h
    simp [consumed, expectationTokens, Value.tokens]
  case endArray | endObject | colon | comma => cases h

theorem consumed_afterValue {v : Value} {frames : List Frame} {t : Token} {m : Builder}
    (h : afterValue v frames t = some m) :
    m.consumed = frames.reverse.flatMap frameTokens ++ v.tokens ++ [t] := by
  unfold afterValue at h
  split at h
  case h_5 => cases h
  all_goals
    obtain rfl := Option.some.inj h
    simp [consumed, frameTokens, expectationTokens, openItems, openMembers, tokens_array_concat,
      tokens_object_concat]

/-- **A step reads one token**, and the tokens that lead to the state are one more. -/
theorem consumed_step {m m' : Builder} {t : Token} (h : m.step t = some m') :
    m'.consumed = m.consumed ++ [t] := by
  obtain ⟨expects, frames⟩ := m
  cases expects with
  | value =>
      rw [consumed_beginValue h]
      simp [consumed, expectationTokens]
  | firstItem =>
      by_cases hend : t = .endArray
      · subst hend
        obtain rfl := Option.some.inj h
        simp [consumed, expectationTokens, Value.tokens]
      · -- the first item is read as any value is, in an array that has just begun
        have hbegin : beginValue (.array [] :: frames) t = some m' := by
          rw [← h]
          cases t <;> first | rfl | exact absurd rfl hend
        rw [consumed_beginValue hbegin]
        simp [consumed, expectationTokens, frameTokens, openItems]
  | firstKey | key members | colon members key =>
      cases t <;> cases h <;>
        simp [consumed, expectationTokens, frameTokens, openMembers, Value.tokens]
  | separator v =>
      rw [consumed_afterValue h]
      simp [consumed, expectationTokens]

theorem consumed_foldlM {tokens : List Token} {m m' : Builder}
    (h : tokens.foldlM step m = some m') : m'.consumed = m.consumed ++ tokens := by
  induction tokens generalizing m with
  | nil =>
      obtain rfl := Option.some.inj h
      rw [List.append_nil]
  | cons t rest ih =>
      rw [List.foldlM_cons] at h
      obtain ⟨next, hnext, hrest⟩ := Option.bind_eq_some_iff.mp h
      rw [ih hrest, consumed_step hnext, List.append_assoc]
      rfl

end Builder

/-- **Tokens build a tree exactly if they are the tokens of that tree.** -/
theorem build?_eq_some_iff {tokens : List Token} {v : Value} :
    build? tokens = some v ↔ tokens = v.tokens := by
  constructor
  · intro h
    obtain ⟨m, hm, hfinish⟩ := Option.bind_eq_some_iff.mp h
    have hconsumed := Builder.consumed_foldlM hm
    unfold Builder.finish? at hfinish
    split at hfinish
    · obtain rfl := Option.some.inj hfinish
      exact hconsumed.symm
    · cases hfinish
  · rintro rfl
    exact build?_tokens v

/-- **A text has a tree exactly if it is scanned to the tokens of that tree.** -/
theorem parse?_eq_some_iff {text : List UInt8} {v : Value} :
    parse? text = some v ↔ scan? text = some v.tokens := by
  unfold parse?
  rw [Option.bind_eq_some_iff]
  constructor
  · rintro ⟨tokens, hscan, hbuild⟩
    rw [hscan, build?_eq_some_iff.mp hbuild]
  · intro hscan
    exact ⟨v.tokens, hscan, build?_tokens v⟩

end RoastTelemetry.Json
