import XmlHighlight.Proofs.Characters
import XmlHighlight.Proofs.Outlook

/-!
# Alignment — a class for every byte

A buffer keeps its text and the classes of its bytes apart, and every edit has to change both in the
same way. An edit does so by a splice: it cuts the bytes at two offsets between characters and puts
other bytes there, and does the same to the classes.

* `splice` — a stretch of a list replaced by other elements;
* `Source.IsSnapped`, `Source.isSnapped_snap` — the place at which an edit takes effect;
* `StyledBuffer.insert_splices`, `StyledBuffer.remove_splices` — what an edit does to bytes and
  classes;
* `BufferOp`, `StyledBuffer.performAll` — things done to a buffer, one after the other;
* `StyledBuffer.IsAligned.perform` — none of them breaks the alignment;
* `styling_stays_aligned` — whatever is done to a buffer.
-/

namespace XmlHighlight

/-! ### Splices -/

/-- The elements from position `i` up to position `j` replaced by others. -/
def splice {α : Type} (i j : Nat) (new old : List α) : List α := old.take i ++ new ++ old.drop j

/-- The length of what comes out depends on lengths only. -/
theorem length_splice_congr {α β : Type} (i j : Nat) {new old : List α} {new' old' : List β}
    (hnew : new.length = new'.length) (hold : old.length = old'.length) :
    (splice i j new old).length = (splice i j new' old').length := by
  simp [splice, hnew, hold]

/-! ### Offsets between characters -/

namespace Source

variable (s : Source)

/-- Offset `i` is the last one between characters, or at an end of the text, that does not lie
    behind `offset`. -/
structure IsSnapped (offset i : Nat) : Prop where
  boundary : s.isBoundary i = true
  le : i ≤ offset
  last : ∀ k, s.isBoundary k = true → k ≤ offset → k ≤ i

@[simp] theorem isBoundary_zero : s.isBoundary 0 = true :=
  isBoundary_iff.mpr String.Pos.Raw.isValid_zero

/-- Snapping takes an offset to the last boundary that is not behind it. -/
theorem isSnapped_snap_self (offset : Nat) : s.IsSnapped offset (s.snap offset) := by
  induction offset with
  | zero => exact ⟨s.isBoundary_zero, Nat.le_refl 0, fun k _ hk => hk⟩
  | succ offset ih =>
    rw [snap]
    by_cases h : s.isBoundary (offset + 1) = true
    · rw [if_pos h]
      exact ⟨h, Nat.le_refl _, fun k _ hk => hk⟩
    · rw [if_neg h]
      refine ⟨ih.boundary, Nat.le_succ_of_le ih.le, fun k hk hle => ih.last k hk ?_⟩
      -- The offset itself is ruled out, since it is not between characters.
      have hne : k ≠ offset + 1 := by
        rintro rfl
        exact h hk
      omega

/-- An offset beyond the end of the text counts as the end, and any other goes back to a character's
    beginning. -/
theorem isSnapped_snap (offset : Nat) : s.IsSnapped offset (s.snap (min offset s.size)) := by
  have h := s.isSnapped_snap_self (min offset s.size)
  refine ⟨h.boundary, Nat.le_trans h.le (Nat.min_le_left _ _), fun k hk hle => ?_⟩
  exact h.last k hk (Nat.le_min.mpr ⟨hle, le_size_of_isBoundary hk⟩)

theorem isBoundary_max {s : Source} {i j : Nat} (hi : s.isBoundary i = true)
    (hj : s.isBoundary j = true) : s.isBoundary (max i j) = true := by
  rcases Nat.le_total i j with h | h
  · rwa [Nat.max_eq_right h]
  · rwa [Nat.max_eq_left h]

end Source

/-- The bytes of what is cut out of a text between boundaries. -/
theorem bytes_slice {s : Source} {i j : Nat} (hi : s.isBoundary i = true)
    (hj : s.isBoundary j = true)
    (hij : i ≤ j) : (s.slice i j).toByteArray.toList = (s.utf8.toList.take j).drop i := by
  rw [Source.toByteArray_slice hi hj hij, byteArray_toList, byteArray_toList]
  simp [ByteArray.extract, ByteArray.copySlice, List.drop_take]

namespace StyledBuffer

variable (b : StyledBuffer)

/-- The bytes of the text. -/
def bytes : List UInt8 := b.text.toByteArray.toList

/-- There is a class, or none, for every byte of the text. -/
def IsAligned : Prop := b.classes.size = b.text.utf8ByteSize

/-- A buffer is aligned if it has as many classes as bytes. -/
theorem isAligned_iff : b.IsAligned ↔ b.classes.toList.length = b.bytes.length := by
  rw [IsAligned, bytes, length_bytes, Array.length_toList]

/-! ### Edits -/

theorem utf8_source : b.source.utf8.toList = b.bytes := rfl

theorem bytes_append (text text' : String) :
    (text ++ text').toByteArray.toList = text.toByteArray.toList ++ text'.toByteArray.toList := by
  simp [byteArray_toList]

/-- The text before and behind two offsets between characters, with another text between. -/
theorem bytes_slices {i j : Nat} (hi : b.source.isBoundary i = true)
    (hj : b.source.isBoundary j = true)
    (text : String) :
    (b.source.slice 0 i ++ text ++ b.source.slice j b.size).toByteArray.toList
      = splice i j text.toByteArray.toList b.bytes := by
  have hbefore := bytes_slice b.source.isBoundary_zero hi (Nat.zero_le i)
  have hbehind := bytes_slice hj b.source.isBoundary_size (Source.le_size_of_isBoundary hj)
  have hsize : b.bytes.length ≤ b.source.size := by
    rw [bytes, length_bytes, Source.size_eq]
    exact Nat.le_refl _
  have hend : b.size = b.source.size := rfl
  rw [bytes_append, bytes_append, hbefore, hend, hbehind, utf8_source, List.drop_zero,
    List.take_of_length_le hsize, splice]

/-- The classes before and behind two positions, with other classes between. -/
theorem classes_slices (i j : Nat) (new : Array (Option StyleClass)) :
    (b.classes.extract 0 i ++ new ++ b.classes.extract j b.classes.size).toList
      = splice i j new.toList b.classes.toList := by
  have hbehind : (b.classes.toList.drop j).length ≤ b.classes.size - j := by simp
  simp [splice, List.take_of_length_le hbehind]

/-- An insertion puts the new bytes in at a place between characters, and as many bytes without a
    class. -/
theorem insert_splices (offset : Nat) (text : String) :
    ∃ i, b.source.IsSnapped offset i ∧
      (b.insert offset text).bytes = splice i i text.toByteArray.toList b.bytes ∧
      (b.insert offset text).classes.toList
        = splice i i (List.replicate text.utf8ByteSize none) b.classes.toList := by
  have hsnap := b.source.isSnapped_snap offset
  refine ⟨_, hsnap, b.bytes_slices hsnap.boundary hsnap.boundary text, ?_⟩
  rw [← Array.toList_replicate]
  exact b.classes_slices _ _ _

/-- A removal takes the bytes between two such places away, and their classes. If the places are not
    in order it takes nothing away. -/
theorem remove_splices (first last : Nat) :
    ∃ i j, b.source.IsSnapped first i ∧ b.source.IsSnapped last j ∧
      (b.remove first last).bytes = splice i (max j i) [] b.bytes ∧
      (b.remove first last).classes.toList = splice i (max j i) [] b.classes.toList := by
  have hfirst := b.source.isSnapped_snap first
  have hlast := b.source.isSnapped_snap last
  refine ⟨_, _, hfirst, hlast, ?_, ?_⟩
  · have hslices :=
      b.bytes_slices hfirst.boundary (Source.isBoundary_max hlast.boundary hfirst.boundary) ""
    rw [String.append_empty, bytes_eq_flatMap "", String.toList_empty, List.flatMap_nil] at hslices
    exact hslices
  · have hslices := b.classes_slices (b.source.snap (min first b.size))
      (max (b.source.snap (min last b.size)) (b.source.snap (min first b.size))) #[]
    rw [Array.append_empty] at hslices
    exact hslices

/-! ### Things done to a buffer -/

end StyledBuffer

/-- A thing that can be done to a buffer. -/
inductive BufferOp where
  | setText (text : String)
  | replaceText (text : String)
  | insert (offset : Nat) (text : String)
  | remove (first last : Nat)
  | applyBatch (spans : List Span)
  | resetStyling
  | setStatus (status : String)
  | setProgress (progress : Option Progress)

namespace StyledBuffer

/-- A buffer after something has been done to it. -/
def perform (b : StyledBuffer) : BufferOp → StyledBuffer
  | .setText text => b.setText text
  | .replaceText text => b.replaceText text
  | .insert offset text => b.insert offset text
  | .remove first last => b.remove first last
  | .applyBatch spans => b.applyBatch spans
  | .resetStyling => b.resetStyling
  | .setStatus status => b.setStatus status
  | .setProgress progress => b.setProgress progress

/-- A buffer after several things have been done to it, one after the other. -/
def performAll (b : StyledBuffer) (ops : List BufferOp) : StyledBuffer := ops.foldl perform b

variable {b : StyledBuffer}

theorem isAligned_empty : empty.IsAligned := rfl

theorem isAligned_setText (b : StyledBuffer) (text : String) : (b.setText text).IsAligned := by
  simp [IsAligned, setText]

/-- Bytes and classes are spliced at the same places, so there are as many of them afterwards. -/
theorem IsAligned.insert (h : b.IsAligned) (offset : Nat) (text : String) :
    (b.insert offset text).IsAligned := by
  obtain ⟨i, -, hbytes, hclasses⟩ := b.insert_splices offset text
  rw [isAligned_iff] at h ⊢
  rw [hbytes, hclasses]
  refine length_splice_congr i i ?_ h
  rw [List.length_replicate, length_bytes]

/-- Removing takes away the classes of the bytes that it takes away. -/
theorem IsAligned.remove (h : b.IsAligned) (first last : Nat) :
    (b.remove first last).IsAligned := by
  obtain ⟨i, j, -, -, hbytes, hclasses⟩ := b.remove_splices first last
  rw [isAligned_iff] at h ⊢
  rw [hbytes, hclasses]
  exact length_splice_congr i (max j i) rfl h

/-- A replacement is nothing, or a removal and an insertion. -/
theorem IsAligned.replaceText (h : b.IsAligned) (text : String) :
    (b.replaceText text).IsAligned := by
  unfold StyledBuffer.replaceText
  dsimp only
  split
  · exact h
  · exact (h.remove _ _).insert _ _

/-- **Step.** Nothing that is done to a buffer breaks the alignment. -/
theorem IsAligned.perform (h : b.IsAligned) (op : BufferOp) : (b.perform op).IsAligned := by
  cases op with
  | setText text => exact isAligned_setText b text
  | replaceText text => exact h.replaceText text
  | insert offset text => exact h.insert offset text
  | remove first last => exact h.remove first last
  | applyBatch spans =>
    -- Painting changes classes in place, and leaves out what lies behind the last of them.
    show (spans.foldl paint b.classes).size = b.text.utf8ByteSize
    rw [size_foldl_paint]
    exact h
  | resetStyling =>
    show (Array.replicate b.classes.size none).size = b.text.utf8ByteSize
    rw [Array.size_replicate]
    exact h
  | setStatus status => exact h
  | setProgress progress => exact h

/-- **Run.** So does no sequence of things. -/
theorem IsAligned.performAll (h : b.IsAligned) (ops : List BufferOp) :
    (b.performAll ops).IsAligned := by
  induction ops generalizing b with
  | nil => exact h
  | cons op rest ih => exact ih (h.perform op)

end StyledBuffer

/-- **Alignment.** Whatever is done to a buffer, which is new or has been made from a text: there is
    one class, or none, for each byte of its text, and the bytes are those of a text. An edit of it
    is the same splice of bytes and classes, at offsets between characters, and what is put in has
    no class. Nothing else changes the text. -/
theorem styling_stays_aligned (first : Option String) (ops : List BufferOp) :
    let b := (first.elim .empty .ofText : StyledBuffer).performAll ops
    b.classes.size = b.bytes.length ∧ b.text.toByteArray.IsValidUTF8 ∧
      (∀ offset text, ∃ i, b.source.IsSnapped offset i ∧
        (b.insert offset text).bytes = splice i i text.toByteArray.toList b.bytes ∧
        (b.insert offset text).classes.toList
          = splice i i (List.replicate text.utf8ByteSize none) b.classes.toList) ∧
      (∀ first last, ∃ i j, b.source.IsSnapped first i ∧ b.source.IsSnapped last j ∧
        (b.remove first last).bytes = splice i (max j i) [] b.bytes ∧
        (b.remove first last).classes.toList = splice i (max j i) [] b.classes.toList) ∧
      (∀ spans, (b.applyBatch spans).text = b.text) ∧ b.resetStyling.text = b.text ∧
      (∀ status, (b.setStatus status).text = b.text) ∧
      ∀ progress, (b.setProgress progress).text = b.text := by
  intro b
  have hfirst : (first.elim .empty .ofText : StyledBuffer).IsAligned := by
    cases first with
    | none => exact StyledBuffer.isAligned_empty
    | some text => exact StyledBuffer.isAligned_setText _ text
  have haligned := b.isAligned_iff.mp (hfirst.performAll ops)
  -- The last three operations do not touch the text at all.
  refine ⟨haligned, b.text.isValidUTF8, b.insert_splices, b.remove_splices, ?_⟩
  exact ⟨fun _ => rfl, rfl, fun _ => rfl, fun _ => rfl⟩

end XmlHighlight
