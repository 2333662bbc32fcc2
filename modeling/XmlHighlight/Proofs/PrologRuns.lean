import XmlHighlight.Proofs.Layout

/-!
# Prologs — what reading them keeps

Whatever comes before the root element is read piece by piece: comments and instructions, and in a
document type also entities. A property of what has been read that holds at the beginning, and that
no piece breaks, holds in the end.

* `PrologKeeps` — a property that no piece breaks;
* `PrologKeeps.readMisc`, `PrologKeeps.readSubset`, `PrologKeeps.readDoctype` — the parts of a
  prolog;
* `PrologKeeps.readProlog` — all of it;
* `IsQuoted`, `readProlog_isQuoted` — the value of an entity stands before a quote.
-/

namespace XmlHighlight

open Xml

variable (s : Source)

/-- A property of what has been read of a prolog up to an offset. It still holds further on, and no
    comment, instruction or entity breaks it. -/
structure PrologKeeps (P : Nat → Prolog → Prop) : Prop where
  mono : ∀ {i j : Nat} {done : Prolog}, i ≤ j → P i done → P j done
  comment : ∀ {i : Nat} {done : Prolog} {r : Found i Extent}, readComment s s.size i = .ok r →
    P i done →
    P r.next { done with pieces := done.pieces.push (.comment r.value) }
  instruction : ∀ {i : Nat} {done : Prolog} {r : Found i Extent},
    readInstruction s s.size i = .ok r →
    P i done → P r.next { done with pieces := done.pieces.push (.instruction r.value) }
  entity : ∀ {i : Nat} {done : Prolog} {r : Found i (Option Entity)},
    readEntity s s.size i = .ok r →
    P i done → P r.next { done with entities := done.entities ++ r.value.toArray }

namespace PrologKeeps

variable {s} {P : Nat → Prolog → Prop} {i k : Nat} {done prolog : Prolog}

/-- Comments, instructions and white space. -/
theorem readMisc (hkeeps : PrologKeeps s P) {found pieces : Array Markup} (entities : Array Entity)
    (hdone : P i ⟨found, entities⟩) (h : Xml.readMisc s s.size i found = .ok (pieces, k)) :
    P k ⟨pieces, entities⟩ := by
  fun_induction Xml.readMisc s s.size i found with
  | case1 i found hi hle j hopening extent l hl hread ih =>
    exact ih (hkeeps.comment hread (hkeeps.mono hle hdone)) h
  | case3 i found hi hle j hcomment hopening extent l hl hread ih =>
    exact ih (hkeeps.instruction hread (hkeeps.mono hle hdone)) h
  | case2 | case4 => cases h
  | case5 i found hi hle =>
    rw [Except.ok.injEq, Prod.mk.injEq] at h
    rw [← h.1, ← h.2]
    exact hkeeps.mono hle hdone
  | case6 =>
    cases h
    exact hdone

/-- The same inside a document type, with declarations between them. Only those of entities are
    recorded. -/
theorem readSubset (hkeeps : PrologKeeps s P) {start : Nat} (hdone : P i done)
    (h : Xml.readSubset s start s.size i done = .ok (prolog, k)) : P k prolog := by
  fun_induction Xml.readSubset s start s.size i done with
  | case1 i done hi hle j hentity entity l hl hread ih =>
    exact ih (hkeeps.entity hread (hkeeps.mono hle hdone)) h
  | case3 i done hi hle j hentity hcomment extent l hl hread ih =>
    exact ih (hkeeps.comment hread (hkeeps.mono hle hdone)) h
  | case5 i done hi hle j hentity hcomment hinstruction extent l hl hread ih =>
    exact ih (hkeeps.instruction hread (hkeeps.mono hle hdone)) h
  -- The document type ends here.
  | case7 i done hi hle j hentity hcomment hinstruction hbracket l hclose =>
    rw [Except.ok.injEq, Prod.mk.injEq] at h
    rw [← h.1, ← h.2]
    have := le_skipSpaces s s.size (j + 1)
    exact hkeeps.mono (by omega) hdone
  -- Another declaration takes up room.
  | case9 i done hi hle j _ _ _ _ _ _ _ _ ih =>
    refine ih ?_ h
    exact hkeeps.mono (Nat.le_succ_of_le (Nat.le_trans hle (s.le_skipWhile _ _ _))) hdone
  | case2 | case4 | case6 | case8 | case10 | case11 => cases h
  | case12 =>
    cases h
    exact hdone

/-- What stands behind the name of a document type and its external identifier. -/
theorem readDoctype_ending (hkeeps : PrologKeeps s P) {start j : Nat} (hdone : P i done)
    (hij : i ≤ j)
    (h : (match s.byteIn? s.size j with
      | none => refuse .endOfInput j
      | some 91 => Xml.readSubset s start s.size (j + 1) done
      | some 62 => .ok (done, j + 1)
      | some found => refuse (.expected "'[' or '>'" found) j) = .ok (prolog, k)) : P k prolog := by
  have hbehind := hkeeps.mono (Nat.le_succ_of_le hij) hdone
  split at h
  · cases h
  · exact hkeeps.readSubset hbehind h
  · cases h
    exact hbehind
  · cases h

/-- What declarations and markup keep is kept by the document type. -/
theorem readDoctype (hkeeps : PrologKeeps s P) (hdone : P i done)
    (h : Xml.readDoctype s s.size i done = .ok (prolog, k)) : P k prolog := by
  rw [Xml.readDoctype, bind_eq_ok] at h
  obtain ⟨⟨j₁, h₁⟩, -, h⟩ := h
  rw [bind_eq_ok] at h
  obtain ⟨⟨j₂, h₂⟩, -, h⟩ := h
  dsimp only at h
  rw [bind_eq_ok] at h
  obtain ⟨external, -, h⟩ := h
  have h₃ := le_skipSpaces s s.size j₂
  -- The name of an external subset may stand before the declarations.
  rcases external with _ | ⟨j₄, h₄⟩
  · have h₅ := le_skipSpaces s s.size (skipSpaces s s.size j₂)
    have hle : i ≤ skipSpaces s s.size (skipSpaces s s.size j₂) := by omega
    exact hkeeps.readDoctype_ending hdone hle h
  · have h₅ := le_skipSpaces s s.size j₄
    have hle : i ≤ skipSpaces s s.size j₄ := by omega
    exact hkeeps.readDoctype_ending hdone hle h

/-- **Run.** What no piece of a prolog breaks holds behind it. -/
theorem readProlog (hkeeps : PrologKeeps s P) (hstart : P 0 ⟨#[], #[]⟩)
    (h : Xml.readProlog s s.size = .ok (prolog, i)) : P i prolog := by
  rw [Xml.readProlog] at h
  dsimp only at h
  generalize (if s.startsWith "\uFEFF" s.size 0 = true then 3 else 0) = first at h
  -- The same follows with a declaration and without one.
  split at h
  all_goals
    rw [bind_eq_ok] at h
    obtain ⟨start, -, h⟩ := h
    rw [bind_eq_ok] at h
    obtain ⟨⟨pieces, j⟩, hmisc, h⟩ := h
    have hpieces := hkeeps.readMisc #[] (hkeeps.mono (Nat.zero_le start) hstart) hmisc
    have hspaces := hkeeps.mono (le_skipSpaces s s.size j) hpieces
    dsimp only at h
    split at h
    · rw [bind_eq_ok] at h
      obtain ⟨⟨prolog', j'⟩, hdoctype, h⟩ := h
      rw [bind_eq_ok] at h
      obtain ⟨⟨pieces', k⟩, hmisc', h⟩ := h
      cases h
      have hsubset := hkeeps.readDoctype hspaces hdoctype
      exact hkeeps.mono (le_skipSpaces s s.size k) (hkeeps.readMisc prolog'.entities hsubset hmisc')
    · cases h
      exact hspaces

end PrologKeeps

/-! ### Values of entities -/

/-- The value of an entity stands before a quote. -/
def IsQuoted (value : Extent) : Prop :=
  value.start ≤ value.stop ∧ ∃ b, s.byte? value.stop = some b ∧ isQuote b = true

variable {s} {stop i : Nat}

/-- A literal is quoted where it was read. -/
theorem readLiteral_isQuoted {r : Found i Extent} (h : readLiteral s stop i = .ok r) :
    r.value.start = i + 1 ∧ IsQuoted s r.value ∧ r.value.stop < r.next := by
  rw [readLiteral, bind_eq_ok] at h
  obtain ⟨quote, hquote, h⟩ := h
  dsimp only at h
  rw [bind_eq_ok] at h
  obtain ⟨_, hclosing, h⟩ := h
  cases h
  exact ⟨rfl, ⟨s.le_skipWhile _ _ _, quote, (byte?_of_expectByte hclosing).2,
    (byte?_of_expectQuote hquote).2⟩, Nat.lt_succ_self _⟩

/-- The value of an entity, if it has one in the text, is quoted where it was read. -/
theorem readEntityValue_isQuoted {isGeneral : Bool} {r : Found i (Option Extent)}
    (h : readEntityValue s isGeneral stop i = .ok r) :
    ∀ value ∈ r.value, i < value.start ∧ IsQuoted s value ∧ value.stop < r.next := by
  rw [readEntityValue] at h
  split at h
  · cases h
  · split at h
    · rw [bind_eq_ok] at h
      obtain ⟨⟨value, j, hj⟩, hliteral, h⟩ := h
      cases h
      obtain ⟨hstart, hquoted, hlt⟩ := readLiteral_isQuoted hliteral
      rintro value ⟨⟩
      exact ⟨Nat.lt_of_lt_of_eq (Nat.lt_succ_self i) hstart.symm, hquoted, hlt⟩
    -- An entity of another document has no value here.
    · split at h
      · rw [bind_eq_ok] at h
        obtain ⟨external, -, h⟩ := h
        rcases external with _ | ⟨j, hj⟩
        · cases h
        · dsimp only at h
          split at h
          · rw [bind_eq_ok] at h
            obtain ⟨⟨l, hl⟩, -, h⟩ := h
            rw [bind_eq_ok] at h
            obtain ⟨⟨m, hm⟩, -, h⟩ := h
            cases h
            rintro value ⟨⟩
          · cases h
            rintro value ⟨⟩
      · cases h

/-- The value of an entity stands inside its declaration. -/
theorem readEntity_isQuoted {r : Found i (Option Entity)} (h : readEntity s stop i = .ok r) :
    ∀ entity ∈ r.value, i < entity.value.start ∧ IsQuoted s entity.value ∧
    entity.value.stop < r.next := by
  rw [readEntity, bind_eq_ok] at h
  obtain ⟨⟨j, hj⟩, -, h⟩ := h
  dsimp only at h
  -- The name of an entity for the document type stands behind a sign and white space.
  split at h
  case' isFalse =>
    rw [bind_eq_ok] at h
    obtain ⟨_, -, h⟩ := h
  all_goals
    rw [bind_eq_ok] at h
    obtain ⟨⟨j', hj'⟩, -, h⟩ := h
    rw [bind_eq_ok] at h
    obtain ⟨⟨name, k, hk⟩, -, h⟩ := h
    rw [bind_eq_ok] at h
    obtain ⟨⟨l, hl⟩, -, h⟩ := h
    rw [bind_eq_ok] at h
    obtain ⟨⟨value, m, hm⟩, hvalue, h⟩ := h
    rw [bind_eq_ok] at h
    obtain ⟨_, -, h⟩ := h
    cases h
    intro entity hentity
    obtain ⟨extent, hextent, rfl⟩ := Option.map_eq_some_iff.mp hentity
    obtain ⟨hlt, hquoted, hstop⟩ := readEntityValue_isQuoted hvalue extent hextent
    have hspaces := le_skipSpaces s stop m
    dsimp only at hk hl hlt hstop ⊢
    exact ⟨by omega, hquoted, by omega⟩

theorem forall_mem_append_toArray {entities : Array Entity} {entity : Option Entity}
    {P : Entity → Prop}
    (h : ∀ e ∈ entities, P e) (hentity : ∀ e ∈ entity, P e) :
    ∀ e ∈ entities ++ entity.toArray, P e := by
  intro e he
  rcases Array.mem_append.mp he with he | he
  · exact h e he
  · exact hentity e (Option.mem_toArray.mp he)

/-- The entities of a document have their values before its root element. -/
theorem readProlog_isQuoted {prolog : Prolog} (h : readProlog s s.size = .ok (prolog, i)) :
    ∀ entity ∈ prolog.entities, IsQuoted s entity.value ∧ entity.value.stop < i := by
  refine PrologKeeps.readProlog (P := fun i done =>
    ∀ entity ∈ done.entities, IsQuoted s entity.value ∧ entity.value.stop < i) ⟨?_, ?_, ?_, ?_⟩ ?_ h
  · intro i j done hij hdone entity hentity
    exact ⟨(hdone entity hentity).1, Nat.lt_of_lt_of_le (hdone entity hentity).2 hij⟩
  · intro i done r _ hdone entity hentity
    exact ⟨(hdone entity hentity).1, Nat.lt_trans (hdone entity hentity).2 r.lt_next⟩
  · intro i done r _ hdone entity hentity
    exact ⟨(hdone entity hentity).1, Nat.lt_trans (hdone entity hentity).2 r.lt_next⟩
  · intro i done r hread hdone
    refine forall_mem_append_toArray (fun entity hentity => ?_) fun entity hentity => ?_
    · exact ⟨(hdone entity hentity).1, Nat.lt_trans (hdone entity hentity).2 r.lt_next⟩
    · exact (readEntity_isQuoted hread entity hentity).2
  · simp

end XmlHighlight
