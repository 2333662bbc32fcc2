import XmlHighlight.Proofs.StepTokens
import XmlHighlight.Proofs.WrittenNames

/-!
# Token order — tags in pairs, and offsets that go up

Two things can be said about a list of tokens without looking at the tree from which it has been
read. Its tags may nest, each start tag with an end tag of the same name. And its tokens may stand
at offsets that never go down, so that the lines and columns in them never do.

* `TextPos.AtMost`, `Source.posOf_atMost` — the order of positions is the order of offsets;
* `Nests`, `Nests.append`, `Nests.countP_eq` — tokens whose tags nest;
* `TokensWithin`, `TokensWithin.append` — tokens at offsets in order;
* `TokensWithin.pairwise` — what this says about their positions.
-/

namespace XmlHighlight

/-! ### Positions in order -/

/-- A position is not behind another one. -/
def TextPos.AtMost (a b : TextPos) : Prop :=
  a.line < b.line ∨ a.line = b.line ∧ a.column ≤ b.column

instance (a b : TextPos) : Decidable (a.AtMost b) := inferInstanceAs (Decidable (_ ∨ _))

theorem TextPos.AtMost.trans {a b c : TextPos} (h : a.AtMost b) (h' : b.AtMost c) : a.AtMost c := by
  unfold AtMost at *
  omega

/-- A cursor goes from a position to a later one. -/
theorem LineCursor.pos_step (s : Source) (c : LineCursor) : c.pos.AtMost (c.step s).pos := by
  unfold step
  split
  · exact .inl (Nat.lt_succ_self _)
  · exact .inr ⟨rfl, Nat.le_succ _⟩

variable {s : Source} {i j k m lo hi : Nat}

/-- So it never goes back. -/
theorem LineCursor.pos_atOffset (h : i ≤ j) : (atOffset s i).pos.AtMost (atOffset s j).pos := by
  induction j, h using Nat.le_induction with
  | base => exact .inr ⟨rfl, Nat.le_refl _⟩
  | succ j _ ih =>
    rw [atOffset_succ]
    exact ih.trans (pos_step s _)

/-- Positions are in the order of their offsets. -/
theorem Source.posOf_atMost (h : i ≤ j) : (s.posOf i).AtMost (s.posOf j) :=
  LineCursor.pos_atOffset (by omega)

/-! ### Tokens that nest -/

/-- A start tag or an end tag. -/
def Token.isTag : Token → Bool
  | startTag .. | endTag .. => true
  | _ => false

/-- A start tag that is not empty. -/
def Token.isOpening : Token → Bool
  | startTag _ _ _ empty => !empty
  | _ => false

/-- An end tag. -/
def Token.isClosing : Token → Bool
  | endTag .. => true
  | _ => false

/-- The name of a tag. -/
def Token.tagName : Token → String
  | startTag name .. => name
  | endTag name _ => name
  | _ => ""

/-- The tags in some tokens nest: every start tag that is not empty is followed by an end tag with
    the same name, and the tags between the two nest. So many elements lie in no other. -/
inductive Nests : Nat → List Token → Prop where
  | nil : Nests 0 []
  | plain {k : Nat} {token : Token} {tokens : List Token} (plain : token.isTag = false)
      (rest : Nests k tokens) : Nests k (token :: tokens)
  | empty {k : Nat} {name : String} {pos : TextPos} {attrs : List TagAttribute}
      {tokens : List Token} (rest : Nests k tokens) :
      Nests (k + 1) (.startTag name pos attrs true :: tokens)
  | element {j k : Nat} {name name' : String} {pos pos' : TextPos} {attrs : List TagAttribute}
      {inner tokens : List Token} (inside : Nests j inner) (same : SameName name name')
      (rest : Nests k tokens) :
      Nests (k + 1) (.startTag name pos attrs false :: (inner ++ .endTag name' pos' :: tokens))

variable {found more : List Token}

/-- Tags that nest may be followed by others that do. No start tag is left open at the seam. -/
theorem Nests.append (h : Nests j found) (h' : Nests k more) : Nests (j + k) (found ++ more) := by
  induction h with
  | nil => rwa [Nat.zero_add]
  | plain hplain _ ih => exact .plain hplain ih
  | empty _ ih =>
    rw [Nat.succ_add]
    exact .empty ih
  | element inside same _ _ ih =>
    rw [Nat.succ_add, List.cons_append, List.append_assoc, List.cons_append]
    exact .element inside same ih

/-- Where tags nest, as many elements are closed as are opened. -/
theorem Nests.countP_eq (h : Nests k found) :
    found.countP Token.isOpening = found.countP Token.isClosing := by
  induction h with
  | nil => rfl
  | @plain k token tokens hplain _ ih =>
    have hnone : token.isOpening = false ∧ token.isClosing = false := by
      cases token with
      | startTag | endTag => cases hplain
      | text | comment | instruction | lone => exact ⟨rfl, rfl⟩
    simp [hnone, ih]
  | empty _ ih => simp [Token.isOpening, Token.isClosing, ih]
  | element _ _ _ ihinside ih =>
    simp only [List.countP_cons, List.countP_append, ihinside, ih]
    simp [Token.isOpening, Token.isClosing]
    omega

/-! ### Tokens at offsets in order -/

variable (s) in
/-- Tokens stand at offsets in order between `lo` and `hi`, with room for the names of tags. -/
def TokensWithin (lo hi : Nat) : List Token → Prop
  | [] => lo ≤ hi
  | token :: rest =>
    ∃ i, lo ≤ i ∧ token.pos = s.posOf i ∧ TokensWithin (i + token.tagName.utf8ByteSize) hi rest

theorem TokensWithin.le (h : TokensWithin s lo hi found) : lo ≤ hi := by
  induction found generalizing lo with
  | nil => exact h
  | cons token rest ih =>
    obtain ⟨i, hlo, -, hrest⟩ := h
    have := ih hrest
    omega

/-- Tokens up to an offset may be followed by tokens from that offset on. -/
theorem TokensWithin.append (h : TokensWithin s lo m found) (h' : TokensWithin s m hi more) :
    TokensWithin s lo hi (found ++ more) := by
  induction found generalizing lo with
  | nil =>
    cases more with
    | nil => exact Nat.le_trans h h'
    | cons token rest =>
      obtain ⟨i, hm, hrest⟩ := h'
      exact ⟨i, Nat.le_trans h hm, hrest⟩
  | cons token rest ih =>
    obtain ⟨i, hlo, hpos, hrest⟩ := h
    exact ⟨i, hlo, hpos, ih hrest⟩

/-- Tokens in a part of the text lie in one that begins earlier as well. -/
theorem TokensWithin.mono_left (h : TokensWithin s m hi found) (hle : lo ≤ m) :
    TokensWithin s lo hi found :=
  TokensWithin.append (show TokensWithin s lo m [] from hle) h

/-- Each of the tokens stands between the two offsets, and none of them behind a later one. -/
theorem TokensWithin.pairwise (h : TokensWithin s lo hi found) :
    (∀ token ∈ found,
      ∃ i, lo ≤ i ∧ token.pos = s.posOf i ∧ i + token.tagName.utf8ByteSize ≤ hi) ∧
      found.Pairwise fun a b => a.pos.AtMost b.pos := by
  induction found generalizing lo with
  | nil => exact ⟨List.forall_mem_nil _, .nil⟩
  | cons token rest ih =>
    obtain ⟨i, hlo, hpos, hrest⟩ := h
    obtain ⟨hall, hpairwise⟩ := ih hrest
    refine ⟨List.forall_mem_cons.mpr ⟨⟨i, hlo, hpos, hrest.le⟩, fun other hother => ?_⟩,
      .cons (fun other hother => ?_) hpairwise⟩
    · obtain ⟨j, hj, hother⟩ := hall other hother
      exact ⟨j, by omega, hother⟩
    · obtain ⟨j, hj, hother, -⟩ := hall other hother
      rw [hpos, hother]
      exact Source.posOf_atMost (by omega)

end XmlHighlight
