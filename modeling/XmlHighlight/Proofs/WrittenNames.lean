import Mathlib.Data.List.TakeWhile
import XmlHighlight.Proofs.TagTokens

/-!
# Names as written

The name of a tag stands in the text, and a token repeats it. The reader of a document splits a name
into a prefix and a local name, and a token leaves out whatever comes behind a blank character in a
name.

* `Source.slice_append`, `Source.toList_slice` — texts that are cut out next to each other;
* `untilBlank`, `qualifiedName_eq` — the name that a token repeats;
* `Xml.QName.IsWrittenAs`, `readQName_isWrittenAs` — how a name with a prefix is written;
* `SameName`, `Xml.QName.IsWrittenAs.sameName` — the names of two tags that belong together.
-/

namespace XmlHighlight

open Xml (QName Found readQName isSpace isNameChar)

variable {s : Source} {i j k stop : Nat} {c : Char}

/-! ### Texts cut out of a text -/

namespace Source

@[simp] theorem slice_self (s : Source) (i : Nat) : s.slice i i = "" := by
  rw [slice, slice?]
  split
  · rw [ByteArray.extract_same]
    rfl
  · rfl

/-- A slice can be cut at a boundary. -/
theorem slice_append (hi : s.isBoundary i = true) (hj : s.isBoundary j = true)
    (hk : s.isBoundary k = true) (hij : i ≤ j) (hjk : j ≤ k) :
    s.slice i k = s.slice i j ++ s.slice j k := by
  rw [← String.toByteArray_inj, String.toByteArray_append,
    toByteArray_slice hi hk (Nat.le_trans hij hjk), toByteArray_slice hi hj hij,
    toByteArray_slice hj hk hjk]
  exact ByteArray.extract_eq_extract_append_extract j hij hjk

/-- The slice of one character is that character. -/
theorem slice_char (h : s.utf8.utf8DecodeChar? i = some c) :
    s.slice i (i + c.utf8Size) = String.singleton c := by
  rw [← String.toByteArray_inj, String.toByteArray_singleton, List.utf8Encode_singleton,
    toByteArray_slice (isBoundary_of_decode h) (isBoundary_add_utf8Size h) (Nat.le_add_right _ _)]
  exact extract_of_decode h

/-- A text that is cut out begins with the character at its beginning. -/
theorem toList_slice (h : s.utf8.utf8DecodeChar? i = some c) (hj : s.isBoundary j = true)
    (hle : i + c.utf8Size ≤ j) :
    (s.slice i j).toList = c :: (s.slice (i + c.utf8Size) j).toList := by
  rw [slice_append (isBoundary_of_decode h) (isBoundary_add_utf8Size h) hj (Nat.le_add_right _ _)
    hle,
    slice_char h, String.toList_append, String.toList_singleton, List.singleton_append]

variable {p r : Char → Bool}

/-- What holds of all characters in a part holds of those of its slice. -/
theorem AllChars.forall_mem (h : s.AllChars p i j) (hj : s.isBoundary j = true) :
    ∀ c ∈ (s.slice i j).toList, p c = true := by
  induction h with
  | nil i =>
    rw [slice_self]
    exact List.forall_mem_nil _
  | cons char holds rest ih =>
    rw [toList_slice char hj rest.le]
    exact List.forall_mem_cons.mpr ⟨holds, ih hj⟩

/-- A run of characters through a stretch takes as much of it as satisfies the predicate of the
    run. -/
theorem toList_slice_skipChars (h : s.AllChars p i j) (hj : s.isBoundary j = true)
    (hstop : j ≤ stop)
    (hends : ∀ c, s.char? stop j = some c → r c = false) :
    (s.slice i (s.skipChars (fun _ => r) stop i)).toList = (s.slice i j).toList.takeWhile r := by
  induction h with
  | nil i =>
    have hend : s.skipChars (fun _ => r) stop i = i := by
      rw [skipChars]
      split
      · split
        · next c hc => rw [if_neg (by simp [hends c hc])]
        · rfl
      · rfl
    rw [hend, slice_self]
    rfl
  | @cons i j c char holds rest ih =>
    have hlt : i < stop := by
      have := rest.le
      have := c.utf8Size_pos
      omega
    rw [toList_slice char hj rest.le, skipChars, if_pos hlt, char?_eq_some_iff.mpr ⟨hlt, char⟩]
    dsimp only
    by_cases hr : r c = true
    · -- The run goes on behind the character, as far as the rest of the stretch lets it.
      rw [if_pos hr, List.takeWhile_cons_of_pos hr, ← ih hj hstop hends]
      have hrun := s.allChars_skipChars r stop (i + c.utf8Size)
      exact toList_slice char (hrun.isBoundary_right (isBoundary_add_utf8Size char)) hrun.le
    · rw [if_neg hr, List.takeWhile_cons_of_neg hr, slice_self]
      rfl

end Source

/-! ### The name in a token -/

/-- The part of a name before its first blank character. -/
def untilBlank (name : String) : String := .ofList (name.toList.takeWhile fun c => !isBlank c)

/-- Predicates that agree on the members of a list take the same beginning of it. -/
theorem takeWhile_eq_of_forall {p r : Char → Bool} {chars : List Char}
    (h : ∀ c ∈ chars, p c = r c) :
    chars.takeWhile p = chars.takeWhile r := by
  induction chars with
  | nil => rfl
  | cons c rest ih =>
    obtain ⟨hc, hrest⟩ := List.forall_mem_cons.mp h
    rw [List.takeWhile_cons, List.takeWhile_cons, hc, ih hrest]

/-- No character of a name is one of the delimiters that end a name in a token. -/
theorem ends_iff_of_isNameChar (h : isNameChar c = true) :
    (!isBlank c && c != '/' && c != '>') = !isBlank c := by
  have hslash : c ≠ '/' := by
    rintro rfl
    exact absurd h (by decide)
  have hgreater : c ≠ '>' := by
    rintro rfl
    exact absurd h (by decide)
  rw [bne_iff_ne.mpr hslash, bne_iff_ne.mpr hgreater, Bool.and_true, Bool.and_true]

/-- **Names.** The name that is read from the text again is the name of the tag, up to its first
    blank character. -/
theorem qualifiedName_eq {nameEnd : Nat} {b : UInt8} (h : NameStandsAt s stop i nameEnd)
    (hnext : s.byte? nameEnd = some b) (hb : isSpace b = true ∨ b = byteOf '/' ∨ b = byteOf '>') :
    qualifiedName s i = untilBlank (s.slice i nameEnd) := by
  obtain ⟨hascii, hends⟩ := ends_qualifiedName hb
  have hend := Source.isBoundary_of_ascii hnext hascii
  have hstops : ∀ c, s.char? s.size nameEnd = some c →
      (!isBlank c && c != '/' && c != '>') = false := by
    intro c hc
    obtain ⟨-, hdecode⟩ := Source.char?_eq_some_iff.mp hc
    rw [Source.decode_of_ascii hnext hascii, Option.some.injEq] at hdecode
    rw [← hdecode]
    exact hends
  have hrun := Source.toList_slice_skipChars h.chars hend (Source.le_size_of_isBoundary hend) hstops
  have hsame := takeWhile_eq_of_forall fun c hc =>
    ends_iff_of_isNameChar (h.chars.forall_mem hend c hc)
  rw [qualifiedName, untilBlank, ← String.toList_inj, String.toList_ofList, hrun, hsame]

/-! ### Names with a prefix -/

/-- A name is written with its prefix and a colon before it. A colon may also stand there without a
    prefix. -/
def Xml.QName.IsWrittenAs (name : QName) (text : String) : Prop :=
  text = name.text ∨ name.qualifier = "" ∧ text = ":" ++ name.text

/-- A name has its prefix and a colon in front, or no prefix at all. -/
theorem text_of_qualifier (name : QName) :
    name.qualifier ++ ":" ++ name.localName = name.text ∨
      name.qualifier = "" ∧ name.qualifier ++ ":" ++ name.localName = ":" ++ name.text := by
  rw [QName.text]
  by_cases hempty : name.qualifier.isEmpty = true
  · rw [if_pos hempty]
    have hnone : name.qualifier = "" := String.isEmpty_iff.mp hempty
    exact .inr ⟨hnone, by rw [hnone, String.empty_append]⟩
  · rw [if_neg hempty]
    exact .inl rfl

/-- A name has been read from where it is written. -/
theorem readQName_isWrittenAs (hi : s.isBoundary i = true) {r : Found i QName}
    (h : readQName s stop i = .ok r) (hnext : s.isBoundary r.next = true) :
    r.value.IsWrittenAs (s.slice i r.next) := by
  have hprefix : i ≤ Xml.ncNameEnd s stop i := s.le_skipChars _ _ _
  unfold readQName at h
  dsimp only at h
  split at h
  · next hcolon =>
    obtain ⟨hlt, hbyte⟩ := byteIn?_eq_some_iff.mp (beq_iff_eq.mp hcolon)
    split at h
    · cases h
    · split at h
      · cases h
      · split at h
        · next hlocal =>
          cases h
          -- The colon stands between the two parts.
          have hstands := Source.decode_of_ascii hbyte (by decide)
          have hbefore := Source.isBoundary_of_ascii hbyte (by decide)
          have hafter := Source.isBoundary_succ hbyte (by decide)
          have hle := Nat.le_of_lt (startsName_lt hlocal)
          have htext : s.slice i (Xml.ncNameEnd s stop (Xml.ncNameEnd s stop i + 1))
              = s.slice i (Xml.ncNameEnd s stop i) ++ ":"
                ++ s.slice (Xml.ncNameEnd s stop i + 1)
                  (Xml.ncNameEnd s stop (Xml.ncNameEnd s stop i + 1)) := by
            have hmark : s.slice (Xml.ncNameEnd s stop i) (Xml.ncNameEnd s stop i + 1) = ":" :=
              Source.slice_char hstands
            rw [Source.slice_append hi hbefore hnext hprefix (Nat.le_of_succ_le hle),
              Source.slice_append hbefore hafter hnext (Nat.le_succ _) hle, hmark,
              String.append_assoc]
          have hparts := text_of_qualifier ⟨s.slice i (Xml.ncNameEnd s stop i),
            s.slice (Xml.ncNameEnd s stop i + 1)
              (Xml.ncNameEnd s stop (Xml.ncNameEnd s stop i + 1))⟩
          rw [← htext] at hparts
          exact hparts
        · cases h
  · split at h
    · cases h
      exact .inl rfl
    · cases h

/-! ### Names that belong together -/

/-- Two names are the same but for a colon without a prefix. -/
def SameName (a b : String) : Prop := a = b ∨ a = ":" ++ b ∨ b = ":" ++ a

theorem untilBlank_colon (name : String) : untilBlank (":" ++ name) = ":" ++ untilBlank name := by
  have hlist : (":" ++ name).toList = ':' :: name.toList := by
    rw [String.toList_append]
    rfl
  rw [untilBlank, hlist, List.takeWhile_cons_of_pos (by decide), ← String.toList_inj,
    String.toList_append, untilBlank]
  simp only [String.toList_ofList]
  rfl

/-- Names that are the same up to a colon in front are cut at the same character. -/
theorem SameName.untilBlank {a b : String} (h : SameName a b) :
    SameName (untilBlank a) (XmlHighlight.untilBlank b) := by
  rcases h with rfl | rfl | rfl
  · exact .inl rfl
  · exact .inr (.inl (untilBlank_colon b))
  · exact .inr (.inr (untilBlank_colon a))

/-- One name is written in the same way, but for a colon without a prefix. -/
theorem Xml.QName.IsWrittenAs.sameName {name : QName} {a b : String} (ha : name.IsWrittenAs a)
    (hb : name.IsWrittenAs b) : SameName a b := by
  rcases ha with rfl | ⟨-, rfl⟩
  · rcases hb with rfl | ⟨-, rfl⟩
    · exact .inl rfl
    · exact .inr (.inr rfl)
  · rcases hb with rfl | ⟨-, rfl⟩
    · exact .inr (.inl rfl)
    · exact .inl rfl

end XmlHighlight
