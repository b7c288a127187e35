import SyntaxForest.Token.Stream

/-!
The text of a range of a stream. The range is clamped to the stream, and the text joins what the
positions in the range have to offer, in order. A few laws determine it: a range splits behind each
of its positions, it ends with the stream, and a single position has the text of its token.
-/

namespace SyntaxForest

/-- A missing text adds nothing when texts are joined. -/
theorem join_map_getD {α : Type} (text? : α → Option String) (items : List α) :
    String.join (items.map fun item => (text? item).getD "") =
      String.join (items.filterMap text?) := by
  induction items with
  | nil => rfl
  | cons item rest ih =>
      rw [List.map_cons, String.join_cons, ih]
      cases found : text? item with
      | none => rw [List.filterMap_cons_none found, Option.getD_none, String.empty_append]
      | some text => rw [List.filterMap_cons_some found, Option.getD_some, String.join_cons]

/-- The clamped range lists the positions below the size that lie between both ends. -/
theorem clampedRange_eq_filter (start stop size : Nat) :
    List.range' start (min (stop + 1) size - start) =
      (List.range size).filter fun position => start ≤ position ∧ position ≤ stop := by
  -- The induction is on the size. The last position joins the range or it lies outside.
  induction size with
  | zero => simp
  | succ size ih =>
      rw [List.range_succ, List.filter_append, ← ih]
      by_cases inside : start ≤ size ∧ size ≤ stop
      · have count : min (stop + 1) (size + 1) - start = min (stop + 1) size - start + 1 := by omega
        have last : start + (min (stop + 1) size - start) = size := by omega
        rw [count, List.range'_1_concat, last]
        simp [inside]
      · have count : min (stop + 1) (size + 1) - start = min (stop + 1) size - start := by omega
        rw [count]
        simp [inside]

/-- Two clamped ranges that follow each other make one. -/
theorem clampedRange_append {start middle stop : Nat} (size : Nat) (ordered : start ≤ middle + 1)
    (later : middle ≤ stop) :
    List.range' start (min (middle + 1) size - start) ++
        List.range' (middle + 1) (min (stop + 1) size - (middle + 1)) =
      List.range' start (min (stop + 1) size - start) := by
  -- Where the stream ends before the split, the second range is empty and starts too late to join.
  by_cases inside : middle < size
  · have meets : start + (min (middle + 1) size - start) = middle + 1 := by omega
    have count : min (middle + 1) size - start + (min (stop + 1) size - (middle + 1)) =
        min (stop + 1) size - start := by omega
    rw [← count, ← List.range'_append_1, meets]
  · have nothing : min (stop + 1) size - (middle + 1) = 0 := by omega
    have same : min (middle + 1) size = min (stop + 1) size := by omega
    rw [nothing, same, List.range'_zero, List.append_nil]

/-- The entries at consecutive positions form a part of the list. -/
theorem filterMap_getElem?_range' {α : Type} (items : List α) (start count : Nat) :
    (List.range' start count).filterMap (fun position => items[position]?) =
      (items.drop start).take count := by
  induction count generalizing start with
  | zero => simp
  | succ count ih =>
      rw [List.range'_succ, List.filterMap_cons, ih]
      cases found : items[start]? with
      | none =>
          have short := List.getElem?_eq_none_iff.mp found
          rw [List.drop_eq_nil_of_le short, List.drop_eq_nil_of_le (Nat.le_succ_of_le short)]
          simp
      | some item =>
          obtain ⟨inside, rfl⟩ := List.getElem?_eq_some_iff.mp found
          rw [List.drop_eq_getElem_cons inside, List.take_succ_cons]

namespace TokenStream

variable {stream : TokenStream} {reading other : Nat → Nat → String} {start middle stop : Nat}

/-- The texts at the positions that are asked for, in order. A position without a token, or with a
textless token, is passed over. -/
def textsAt (stream : TokenStream) (wanted : Nat → Prop) [DecidablePred wanted] : List String :=
  ((List.range stream.size).filter wanted).filterMap fun position =>
    (stream.get? position).bind Token.text

/-- Only the positions of the stream matter. -/
theorem textsAt_congr {wanted other : Nat → Prop} [DecidablePred wanted] [DecidablePred other]
    (same : ∀ position < stream.size, wanted position ↔ other position) :
    stream.textsAt wanted = stream.textsAt other := by
  unfold textsAt
  congr 1
  apply List.filter_congr
  intro position member
  rw [decide_eq_decide]
  exact same position (List.mem_range.mp member)

/-- The text of a range joins the texts that the stream holds between both ends. -/
theorem text_eq_join_textsAt (stream : TokenStream) (start stop : Nat) :
    stream.text start stop =
      String.join (stream.textsAt fun position => start ≤ position ∧ position ≤ stop) := by
  rw [text, clampedRange_eq_filter]
  exact join_map_getD _ _

/-- The text of a range splits behind every position of the range. -/
theorem text_append (ordered : start ≤ middle + 1) (later : middle ≤ stop) :
    stream.text start middle ++ stream.text (middle + 1) stop = stream.text start stop := by
  rw [text, text, text, ← String.join_append, ← List.map_append, clampedRange_append _ ordered later]

/-- All ranges that start alike and reach the last position have one text. -/
theorem text_eq_of_reaches {further : Nat} (reaches : stream.size ≤ stop + 1)
    (reachesToo : stream.size ≤ further + 1) :
    stream.text start stop = stream.text start further := by
  rw [text_eq_join_textsAt, text_eq_join_textsAt]
  congr 1
  apply textsAt_congr
  intro position inside
  omega

/-- A range without a position of the stream has no text. -/
theorem text_of_vacant (vacant : stop < start ∨ stream.size ≤ start) :
    stream.text start stop = "" := by
  have nothing : min (stop + 1) stream.size - start = 0 := by omega
  rw [text, nothing]
  rfl

/-- A single position of the stream has the text of its token. -/
theorem text_single {position : Nat} (inside : position < stream.size) :
    stream.text position position = stream.textAt position := by
  have one : min (position + 1) stream.size - position = 1 := by omega
  rw [text, one, List.range'_one, List.map_singleton, String.join_cons, String.join_nil,
    String.append_empty]

/-- A reading gives a text to every range of positions, both ends included. The stream yields a
reading that splits behind every position of a range, that ends with the last position of the stream,
that gives nothing to a range without positions, and that gives a single position the text of its
token. -/
structure Yields (stream : TokenStream) (reading : Nat → Nat → String) : Prop where
  splits : ∀ start middle stop, start ≤ middle → middle < stop →
    reading start stop = reading start middle ++ reading (middle + 1) stop
  clamps : 0 < stream.size → ∀ start stop further, stream.size - 1 ≤ stop →
    stream.size - 1 ≤ further → reading start stop = reading start further
  vacant : ∀ start stop, stop < start ∨ stream.size ≤ start ∨ stream.size = 0 →
    reading start stop = ""
  single : ∀ position < stream.size,
    reading position position = ((stream.get? position).bind Token.text).getD ""

theorem yields_text (stream : TokenStream) : stream.Yields stream.text where
  splits _ _ _ ordered later := by
    rw [text_append (by omega) (by omega)]
  clamps _ _ _ _ reaches reachesToo := by
    apply text_eq_of_reaches <;> omega
  vacant _ _ vacant := by
    apply text_of_vacant
    omega
  single _ inside := text_single inside

namespace Yields

/-- Inside the stream two readings agree, since both are made of single positions. -/
theorem eq_inside (yields : stream.Yields reading) (yieldsOther : stream.Yields other)
    (ordered : start ≤ stop) (inside : stop < stream.size) :
    reading start stop = other start stop := by
  -- The induction is on the end of the range, whose last position is split off.
  induction ordered with
  | refl => rw [yields.single start inside, yieldsOther.single start inside]
  | @step stop ordered ih =>
      have before := ih (Nat.lt_of_succ_lt inside)
      have shorter := Nat.lt_succ_self stop
      rw [yields.splits start stop _ ordered shorter, yieldsOther.splits start stop _ ordered shorter,
        before, yields.single _ inside, yieldsOther.single _ inside]

/-- The laws of a reading leave no choice. -/
theorem unique (yields : stream.Yields reading) (yieldsOther : stream.Yields other) :
    reading = other := by
  funext start stop
  by_cases vacant : stop < start ∨ stream.size ≤ start ∨ stream.size = 0
  · rw [yields.vacant start stop vacant, yieldsOther.vacant start stop vacant]
  · by_cases inside : stop < stream.size
    · exact yields.eq_inside yieldsOther (by omega) inside
    · -- A range beyond the end has the text of the range up to the last position.
      have present : 0 < stream.size := by omega
      have beyond : stream.size - 1 ≤ stop := by omega
      rw [yields.clamps present start stop _ beyond (Nat.le_refl _),
        yieldsOther.clamps present start stop _ beyond (Nat.le_refl _)]
      exact yields.eq_inside yieldsOther (by omega) (by omega)

end Yields

end TokenStream

namespace TokenBuffer

theorem size_ofTokens (tokens : List Token) :
    (ofTokens tokens).toStream.size = tokens.length :=
  List.length_mapIdx

/-- A new buffer holds the given tokens with their positions as indexes. -/
theorem getElem?_ofTokens (tokens : List Token) (position : Nat) :
    (ofTokens tokens).tokens[position]? =
      tokens[position]?.map fun token => token.withIndex position :=
  List.getElem?_mapIdx

/-- The new indexes do not show in the texts. -/
theorem textAt_ofTokens (tokens : List Token) (position : Nat) :
    (ofTokens tokens).toStream.textAt position = (tokens[position]?.bind Token.text).getD "" := by
  change ((ofTokens tokens).tokens[position]?.bind Token.text).getD "" = _
  rw [getElem?_ofTokens]
  cases tokens[position]? <;> rfl

/-- The text of a range of a new buffer joins the texts of the tokens in the range. -/
theorem text_ofTokens (tokens : List Token) (start stop : Nat) :
    (ofTokens tokens).toStream.text start stop =
      String.join (((tokens.take (stop + 1)).drop start).filterMap Token.text) := by
  have part : (tokens.drop start).take (min (stop + 1) tokens.length - start) =
      (tokens.take (stop + 1)).drop start := by
    rw [List.drop_take, List.take_eq_take_iff, List.length_drop]
    omega
  rw [TokenStream.text, size_ofTokens, funext (textAt_ofTokens tokens), join_map_getD, ← part,
    ← filterMap_getElem?_range', List.filterMap_filterMap]

end TokenBuffer

namespace TokenStream

/-- The text of a stream splits behind every position of a range. It ends with the stream, and a range
without positions has no text. No other reading of the stream obeys these laws and agrees on single
positions. A new buffer holds the given tokens in their order and changes nothing but the indexes,
which are the positions, and its whole text joins the texts of all tokens that have one. -/
theorem range_text_splits_and_clamps (stream : TokenStream) (tokens : List Token) :
    stream.Yields stream.text ∧
    (∀ reading, stream.Yields reading → reading = stream.text) ∧
    (TokenBuffer.ofTokens tokens).toStream.size = tokens.length ∧
    (∀ position, (TokenBuffer.ofTokens tokens).toStream.get? position =
      tokens[position]?.map fun token => { token with index := some position }) ∧
    (TokenBuffer.ofTokens tokens).toStream.text 0 (TokenBuffer.ofTokens tokens).toStream.size =
      String.join (tokens.filterMap Token.text) := by
  refine ⟨yields_text stream, ?_, TokenBuffer.size_ofTokens tokens,
    TokenBuffer.getElem?_ofTokens tokens, ?_⟩
  · intro reading yields
    exact yields.unique (yields_text stream)
  · have whole : tokens.take (tokens.length + 1) = tokens :=
      List.take_of_length_le (Nat.le_succ tokens.length)
    rw [TokenBuffer.text_ofTokens, TokenBuffer.size_ofTokens, whole, List.drop_zero]

/-- A stream that announces four positions. The second slot is empty, and there is no fourth one. -/
def gaps : TokenStream where
  size := 4
  get? position := [some (.imaginary 4 "a"), none, some (.imaginary 4 "b")][position]?.join

/-- Only the first and the third position of the gaps have a text. -/
def gapsText (start stop : Nat) : String :=
  (if start = 0 then "a" else "") ++ if start ≤ 2 ∧ 2 ≤ stop then "b" else ""

theorem yields_gapsText : gaps.Yields gapsText where
  splits start middle stop ordered later := by
    have inner : middle + 1 ≠ 0 := by omega
    by_cases third : middle < 2
    · have left : ¬ 2 ≤ middle := by omega
      have right : start ≤ 2 ∧ middle + 1 ≤ 2 := by omega
      simp only [gapsText, inner, left, right, true_and, and_false, if_false, String.append_empty,
        String.empty_append]
    · have left : 2 ≤ middle ∧ 2 ≤ stop := by omega
      have right : ¬ middle + 1 ≤ 2 := by omega
      simp only [gapsText, inner, left, right, and_true, if_false, String.append_empty]
  clamps _ start stop further reaches reachesToo := by
    change 3 ≤ stop at reaches
    change 3 ≤ further at reachesToo
    have inside : 2 ≤ stop ∧ 2 ≤ further := by omega
    simp only [gapsText, inside, and_true]
  vacant start stop vacant := by
    change stop < start ∨ 4 ≤ start ∨ 4 = 0 at vacant
    have late : start ≠ 0 := by omega
    have outside : ¬ (start ≤ 2 ∧ 2 ≤ stop) := by omega
    simp only [gapsText, late, outside, if_false, String.append_empty]
  single := by decide

/-- The laws settle the text of every range of the gaps, also where it splits behind the empty slot
or ends far beyond the stream. A buffer passes over a token without a text. -/
theorem range_text_splits_and_clamps_gaps :
    gaps.text = gapsText ∧
    gaps.text 0 (UInt64.size - 1) = gaps.text 0 1 ++ gaps.text 2 (UInt64.size - 1) ∧
    gaps.text 2 (UInt64.size - 1) = gaps.text 2 3 ∧
    gaps.text 3 2 = "" ∧
    (TokenBuffer.ofTokens [.imaginary 4 "a", .textless 4, .imaginary 4 "b"]).toStream.text 0 3 =
      "ab" := by
  obtain ⟨yields, only, _, _, whole⟩ := range_text_splits_and_clamps gaps
    [.imaginary 4 "a", .textless 4, .imaginary 4 "b"]
  exact ⟨(only gapsText yields_gapsText).symm, yields.splits 0 1 _ (by decide) (by decide),
    yields.clamps (by decide) 2 _ 3 (by decide) (by decide), yields.vacant 3 2 (by decide), whole⟩

end TokenStream

end SyntaxForest
