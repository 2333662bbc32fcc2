import XmlHighlight.Proofs.Alignment

/-!
# Whole characters — styling that splits no character

A buffer has a class for every byte, but what is shown are characters. An edit takes effect between
characters, so it does no harm to a buffer in which the bytes of each character have one class.
Spans may do so, if they begin or end inside a character.

* `StyledChar`, `StyledBuffer.ConsistsOf` — a buffer as a list of characters with a class each;
* `StyledBuffer.ConsistsOf.split`, `StyledBuffer.ConsistsOf.splice` — such a list is cut between
  characters;
* `StyledBuffer.toList_paint` — painting replaces a stretch of the classes;
* `BufferOp.SplitsNone`, `StyledBuffer.NoneSplits` — spans that begin and end between characters;
* `StyledBuffer.IsWhole.perform`, `StyledBuffer.IsWhole.performAll` — what one thing that is done to
  a buffer keeps, and so what any number of them keep;
* `StyledBuffer.IsWhole.classAt_char`, `StyledBuffer.IsWhole.classAt_succ` — the classes of a
  character.
-/

namespace XmlHighlight

/-! ### Characters with classes -/

/-- A character, and the class of its bytes. -/
structure StyledChar where
  char : Char
  style : Option StyleClass

namespace StyledChar

/-- The text that some characters make up. -/
def text (l : List StyledChar) : String := String.ofList (l.map char)

/-- The classes of its bytes. -/
def classes (l : List StyledChar) : List (Option StyleClass) :=
  l.flatMap fun x => List.replicate x.char.utf8Size x.style

/-- Characters that have the same class. -/
def uniform (style : Option StyleClass) (chars : List Char) : List StyledChar :=
  chars.map (⟨·, style⟩)

variable (style : Option StyleClass) (l l' : List StyledChar)

theorem text_append : text (l ++ l') = text l ++ text l' := by
  rw [text, List.map_append, String.ofList_append]
  rfl

theorem classes_append : classes (l ++ l') = classes l ++ classes l' := List.flatMap_append

/-- There are as many classes as bytes. -/
theorem length_classes : (classes l).length = (text l).utf8ByteSize := by
  induction l with
  | nil => rfl
  | cons x rest ih =>
    have htext : text (x :: rest) = String.singleton x.char ++ text rest := String.ofList_cons
    have hclasses : classes (x :: rest) = List.replicate x.char.utf8Size x.style ++ classes rest :=
      List.flatMap_cons
    rw [htext, hclasses, String.utf8ByteSize_append, List.length_append, ih, List.length_replicate,
      String.utf8ByteSize_singleton]

theorem text_uniform (chars : List Char) : text (uniform style chars) = String.ofList chars := by
  simp [text, uniform, List.map_map, Function.comp_def]

theorem classes_uniform (chars : List Char) :
    classes (uniform style chars) = List.replicate (String.ofList chars).utf8ByteSize style := by
  refine List.eq_replicate_iff.mpr ⟨?_, fun c hc => ?_⟩
  · rw [length_classes, text_uniform]
  · obtain ⟨x, hx, hc⟩ := List.mem_flatMap.mp hc
    obtain ⟨char, -, rfl⟩ := List.mem_map.mp hx
    exact List.eq_of_mem_replicate hc

/-- A character has one class for all its bytes. -/
theorem getElem?_classes (x : StyledChar) {k : Nat} (hk : k < x.char.utf8Size) :
    (classes (l ++ x :: l'))[(text l).utf8ByteSize + k]? = some x.style := by
  have hclasses : classes (l ++ x :: l')
      = classes l ++ (List.replicate x.char.utf8Size x.style ++ classes l') := by
    rw [classes_append]
    rfl
  rw [hclasses, ← length_classes, List.getElem?_append_right (Nat.le_add_right _ _),
    Nat.add_sub_cancel_left, List.getElem?_append_left (by rwa [List.length_replicate]),
    List.getElem?_replicate_of_lt hk]

/-- Every byte is a byte of a character. -/
theorem exists_char {i : Nat} (hi : i < (text l).utf8ByteSize) :
    ∃ before x after k, l = before ++ x :: after ∧ i = (text before).utf8ByteSize + k ∧
      k < x.char.utf8Size := by
  induction l generalizing i with
  | nil => exact absurd hi (Nat.not_lt_zero i)
  | cons x rest ih =>
    -- The byte belongs to the first character, or it is counted from behind that.
    by_cases hx : i < x.char.utf8Size
    · exact ⟨[], x, rest, i, rfl, (Nat.zero_add i).symm, hx⟩
    · have htext (m : List StyledChar) :
          (text (x :: m)).utf8ByteSize = x.char.utf8Size + (text m).utf8ByteSize := by
        rw [← String.utf8ByteSize_singleton, ← String.utf8ByteSize_append]
        exact congrArg String.utf8ByteSize String.ofList_cons
      rw [htext] at hi
      obtain ⟨before, y, after, k, rfl, hk, hlt⟩ := ih (i := i - x.char.utf8Size) (by omega)
      refine ⟨x :: before, y, after, k, rfl, ?_, hlt⟩
      rw [htext]
      omega

end StyledChar

/-! ### Splices of such characters -/

/-- A splice at two places of a list that is given in three parts. -/
theorem splice_append {α : Type} (before middle after new : List α) {i j : Nat}
    (hi : i = before.length) (hj : j = (before ++ middle).length) :
    splice i j new (before ++ middle ++ after) = before ++ new ++ after := by
  subst hi hj
  rw [splice, List.drop_left, List.append_assoc before middle, List.take_left]

namespace StyledChar

variable {before middle : List StyledChar} {i j : Nat}

/-- Bytes that are replaced between characters. -/
theorem splice_bytes (hi : i = (text before).utf8ByteSize)
    (hj : j = (text (before ++ middle)).utf8ByteSize)
    (after new : List StyledChar) :
    splice i j (text new).toByteArray.toList (text (before ++ middle ++ after)).toByteArray.toList
      = (text (before ++ new ++ after)).toByteArray.toList := by
  rw [← length_bytes] at hi hj
  rw [text_append, StyledBuffer.bytes_append] at hj
  simp only [text_append, StyledBuffer.bytes_append]
  exact splice_append _ _ _ _ hi hj

/-- Classes that are replaced at the same places. -/
theorem splice_classes (hi : i = (text before).utf8ByteSize)
    (hj : j = (text (before ++ middle)).utf8ByteSize) (after new : List StyledChar) :
    splice i j (classes new) (classes (before ++ middle ++ after))
      = classes (before ++ new ++ after) := by
  rw [← length_classes] at hi hj
  rw [classes_append] at hj
  simp only [classes_append]
  exact splice_append _ _ _ _ hi hj

end StyledChar

/-! ### Buffers of such characters -/

/-- Texts with the same bytes are the same. -/
theorem eq_of_bytes_eq {text text' : String}
    (h : text.toByteArray.toList = text'.toByteArray.toList) :
    text = text' := by
  rw [byteArray_toList, byteArray_toList, Array.toList_inj, ← ByteArray.ext_iff] at h
  exact String.toByteArray_inj.mp h

namespace StyledBuffer

variable {b d : StyledBuffer} {l before middle after : List StyledChar} {i j : Nat}

/-- The text and its classes are those of some characters. -/
structure ConsistsOf (b : StyledBuffer) (l : List StyledChar) : Prop where
  text_eq : b.text = StyledChar.text l
  classes_eq : b.classes.toList = StyledChar.classes l

/-- Between two characters is a boundary. -/
theorem ConsistsOf.isBoundary (h : b.ConsistsOf (before ++ after)) :
    b.source.isBoundary (StyledChar.text before).utf8ByteSize = true := by
  refine Source.isBoundary_iff.mpr (String.Pos.Raw.isValid_iff_exists_append.mpr ?_)
  refine ⟨StyledChar.text before, StyledChar.text after, ?_, rfl⟩
  exact h.text_eq.trans (StyledChar.text_append before after)

/-- An offset between characters cuts the list of characters in two. -/
theorem ConsistsOf.split (h : b.ConsistsOf l) (hi : b.source.isBoundary i = true) :
    ∃ before after, l = before ++ after ∧ i = (StyledChar.text before).utf8ByteSize := by
  obtain ⟨first, second, htext, hfirst⟩ :=
    String.Pos.Raw.isValid_iff_exists_append.mp (Source.isBoundary_iff.mp hi)
  have hchars : l.map StyledChar.char = first.toList ++ second.toList := by
    rw [← String.toList_append, ← htext]
    exact String.toList_ofList.symm.trans (congrArg String.toList h.text_eq.symm)
  obtain ⟨before, after, rfl, hbefore, -⟩ := List.map_eq_append_iff.mp hchars
  refine ⟨before, after, rfl, ?_⟩
  rw [StyledChar.text, hbefore, String.ofList_toList]
  exact congrArg String.Pos.Raw.byteIdx hfirst

/-- Two such offsets cut it in three. -/
theorem ConsistsOf.split_middle (h : b.ConsistsOf l) (hi : b.source.isBoundary i = true)
    (hj : b.source.isBoundary j = true) (hij : i ≤ j) :
    ∃ before middle after, l = before ++ middle ++ after ∧
      i = (StyledChar.text before).utf8ByteSize ∧
      j = (StyledChar.text (before ++ middle)).utf8ByteSize := by
  obtain ⟨before, rest, rfl, rfl⟩ := h.split hi
  obtain ⟨front, after, hfront, rfl⟩ := h.split hj
  rcases List.append_eq_append_iff.mp hfront with ⟨middle, rfl, rfl⟩ | ⟨middle, rfl, rfl⟩
  · exact ⟨before, middle, after, (List.append_assoc ..).symm, rfl, rfl⟩
  · -- The second offset is not before the first, so the two are equal.
    refine ⟨front ++ middle, [], rest, by rw [List.append_nil], rfl, ?_⟩
    rw [List.append_nil]
    rw [StyledChar.text_append, String.utf8ByteSize_append] at hij ⊢
    omega

/-- A buffer whose bytes and classes are spliced, at offsets between characters, consists of
    characters. -/
theorem ConsistsOf.splice (h : b.ConsistsOf l) (hi : b.source.isBoundary i = true)
    (hj : b.source.isBoundary j = true) (hij : i ≤ j) (new : List StyledChar)
    (hbytes : d.bytes = XmlHighlight.splice i j (StyledChar.text new).toByteArray.toList b.bytes)
    (hclasses : d.classes.toList
      = XmlHighlight.splice i j (StyledChar.classes new) b.classes.toList) :
    ∃ before after, d.ConsistsOf (before ++ new ++ after) := by
  obtain ⟨before, middle, after, rfl, hbefore, hmiddle⟩ := h.split_middle hi hj hij
  refine ⟨before, after, ?_, ?_⟩
  · have hold : b.bytes = (StyledChar.text (before ++ middle ++ after)).toByteArray.toList := by
      rw [bytes, h.text_eq]
    rw [hold, StyledChar.splice_bytes hbefore hmiddle] at hbytes
    exact eq_of_bytes_eq hbytes
  · rwa [h.classes_eq, StyledChar.splice_classes hbefore hmiddle] at hclasses

/-- The bytes of each character have one class. -/
def IsWhole (b : StyledBuffer) : Prop := ∃ l, b.ConsistsOf l

/-- A buffer with one class, or none, everywhere. -/
theorem isWhole_of_replicate {n : Nat} {style : Option StyleClass}
    (h : b.classes.toList = List.replicate n style) (hn : n = b.text.utf8ByteSize) : b.IsWhole := by
  refine ⟨StyledChar.uniform style b.text.toList, ?_, ?_⟩
  · rw [StyledChar.text_uniform, String.ofList_toList]
  · rw [h, hn, StyledChar.classes_uniform, String.ofList_toList]

/-- Whether a buffer is whole depends on its text and its classes only. -/
theorem IsWhole.congr (h : b.IsWhole) (htext : d.text = b.text) (hclasses : d.classes = b.classes) :
    d.IsWhole := by
  obtain ⟨l, h⟩ := h
  exact ⟨l, htext.trans h.text_eq, (congrArg Array.toList hclasses).trans h.classes_eq⟩

/-- A buffer of whole characters is aligned. -/
theorem IsWhole.isAligned (h : b.IsWhole) : b.IsAligned := by
  obtain ⟨l, h⟩ := h
  rw [IsAligned, ← Array.length_toList, h.classes_eq, StyledChar.length_classes, ← h.text_eq]

/-! ### Edits -/

theorem isWhole_setText (b : StyledBuffer) (text : String) : (b.setText text).IsWhole :=
  isWhole_of_replicate Array.toList_replicate rfl

/-- Inserting keeps the characters whole. -/
theorem IsWhole.insert (h : b.IsWhole) (offset : Nat) (text : String) :
    (b.insert offset text).IsWhole := by
  obtain ⟨l, h⟩ := h
  obtain ⟨i, hsnap, hbytes, hclasses⟩ := b.insert_splices offset text
  obtain ⟨before, after, hnew⟩ := h.splice hsnap.boundary hsnap.boundary (Nat.le_refl i)
    (StyledChar.uniform none text.toList) (d := b.insert offset text)
    (by rwa [StyledChar.text_uniform, String.ofList_toList])
    (by rwa [StyledChar.classes_uniform, String.ofList_toList])
  exact ⟨_, hnew⟩

/-- Removing keeps the characters whole. -/
theorem IsWhole.remove (h : b.IsWhole) (first last : Nat) : (b.remove first last).IsWhole := by
  obtain ⟨l, h⟩ := h
  obtain ⟨i, j, hfirst, hlast, hbytes, hclasses⟩ := b.remove_splices first last
  have hj := Source.isBoundary_max hlast.boundary hfirst.boundary
  have hempty : (StyledChar.text []).toByteArray.toList = [] := by rw [bytes_eq_flatMap]; rfl
  rw [← hempty] at hbytes
  obtain ⟨before, after, hnew⟩ :=
    h.splice hfirst.boundary hj (Nat.le_max_right j i) [] hbytes hclasses
  exact ⟨_, hnew⟩

/-- A replacement is nothing, or a removal and an insertion. -/
theorem IsWhole.replaceText (h : b.IsWhole) (text : String) : (b.replaceText text).IsWhole := by
  unfold StyledBuffer.replaceText
  dsimp only
  split
  · exact h
  · exact (h.remove _ _).insert _ _

/-! ### Painting -/

/-- Painting replaces a stretch of the classes. -/
theorem toList_paintFrom (style : StyleClass) {n i : Nat} {classes : Array (Option StyleClass)}
    (h : i + n ≤ classes.size) :
    (paintFrom style n i classes).toList
      = XmlHighlight.splice i (i + n) (List.replicate n (some style)) classes.toList := by
  induction n generalizing i classes with
  | zero => simp [paintFrom, XmlHighlight.splice]
  | succ n ih =>
    have hi : i < classes.toList.length := by rw [Array.length_toList]; omega
    have hrest : i + 1 + n ≤ (classes.setIfInBounds i (some style)).size := by
      rw [Array.size_setIfInBounds]
      omega
    -- The first byte is painted, and the induction hypothesis is about those behind it.
    rw [paintFrom, ih hrest, Array.toList_setIfInBounds, XmlHighlight.splice, XmlHighlight.splice,
      List.take_add_one, List.take_set_of_le (Nat.le_refl i), List.getElem?_set_self hi,
      List.drop_set_of_lt (by omega), Nat.add_right_comm i 1 n, List.replicate_succ,
      Nat.add_assoc i n 1, List.append_assoc, List.append_assoc, List.append_assoc]
    rfl

/-- What is painted is the part of a span that lies inside the text. -/
theorem toList_paint (classes : Array (Option StyleClass)) (span : Span) :
    let stop := min span.stop classes.size
    let start := min span.start stop
    (paint classes span).toList
      = XmlHighlight.splice start stop (List.replicate (stop - start) (some span.style))
        classes.toList := by
  intro stop start
  have hstart : start ≤ stop := Nat.min_le_right _ _
  have hstop : start + (stop - start) = stop := Nat.add_sub_cancel' hstart
  have hsize : start + (stop - start) ≤ classes.size := by
    rw [hstop]
    exact Nat.min_le_right _ _
  have hpaint := toList_paintFrom span.style hsize
  rwa [hstop] at hpaint

end StyledBuffer

/-- A span that begins and ends between characters, as far as it lies inside the text. -/
def Span.SplitsNone (span : Span) (s : Source) : Prop :=
  s.isBoundary (min span.start (min span.stop s.size)) = true ∧
    s.isBoundary (min span.stop s.size) = true

instance (span : Span) (s : Source) : Decidable (span.SplitsNone s) :=
  inferInstanceAs (Decidable (_ ∧ _))

namespace StyledBuffer

variable {b : StyledBuffer}

/-- Painting gives the characters in a stretch of the text another class. -/
theorem IsWhole.paint (h : b.IsWhole) {span : Span} (hspan : span.SplitsNone b.source) :
    ({ b with classes := StyledBuffer.paint b.classes span } : StyledBuffer).IsWhole := by
  have haligned : b.classes.size = b.source.size := by
    rw [Source.size_eq]
    exact h.isAligned
  obtain ⟨hstart, hstop⟩ := hspan
  rw [← haligned] at hstart hstop
  obtain ⟨l, h⟩ := h
  have hpaint := toList_paint b.classes span
  dsimp only at hpaint
  obtain ⟨before, middle, after, rfl, hbefore, hmiddle⟩ :=
    h.split_middle hstart hstop (Nat.min_le_right _ _)
  have hlength : min span.stop b.classes.size - min span.start (min span.stop b.classes.size)
      = (StyledChar.text middle).utf8ByteSize := by
    rw [hbefore, hmiddle, StyledChar.text_append, String.utf8ByteSize_append,
      Nat.add_sub_cancel_left]
  -- The characters in the middle stay where they are, with another class.
  refine ⟨before ++ StyledChar.uniform (some span.style) (middle.map StyledChar.char) ++ after, ?_,
    ?_⟩
  · refine h.text_eq.trans ?_
    rw [StyledChar.text_append, StyledChar.text_append, StyledChar.text_append,
      StyledChar.text_append, StyledChar.text_uniform]
    rfl
  · refine hpaint.trans ?_
    rw [hlength, h.classes_eq,
      ← StyledChar.splice_classes hbefore hmiddle after (StyledChar.uniform ..),
      StyledChar.classes_uniform]
    rfl

/-- So do several spans, one after the other. -/
theorem IsWhole.paintAll (h : b.IsWhole) {spans : List Span}
    (hspans : ∀ span ∈ spans, span.SplitsNone b.source) :
    ({ b with classes := spans.foldl StyledBuffer.paint b.classes } : StyledBuffer).IsWhole := by
  induction spans generalizing b with
  | nil => exact h
  | cons span rest ih =>
    refine ih (h.paint (hspans span List.mem_cons_self)) fun other hother => ?_
    exact hspans other (List.mem_cons_of_mem _ hother)

end StyledBuffer

/-! ### Things done to a buffer -/

/-- Spans are painted, if any, that begin and end between characters. -/
def BufferOp.SplitsNone (s : Source) : BufferOp → Prop
  | .applyBatch spans => ∀ span ∈ spans, span.SplitsNone s
  | _ => True

instance (s : Source) (op : BufferOp) : Decidable (op.SplitsNone s) :=
  match op with
  | .applyBatch spans => inferInstanceAs (Decidable (∀ span ∈ spans, span.SplitsNone s))
  | .setText _ | .replaceText _ | .insert _ _ | .remove _ _ | .resetStyling | .setStatus _
  | .setProgress _ => inferInstanceAs (Decidable True)

namespace StyledBuffer

/-- All spans that are painted, each at its own time, begin and end between characters. -/
def NoneSplits (b : StyledBuffer) : List BufferOp → Prop
  | [] => True
  | op :: rest => op.SplitsNone b.source ∧ (b.perform op).NoneSplits rest

instance decidableNoneSplits (b : StyledBuffer) :
    (ops : List BufferOp) → Decidable (b.NoneSplits ops)
  | [] => inferInstanceAs (Decidable True)
  | op :: rest =>
    have := decidableNoneSplits (b.perform op) rest
    inferInstanceAs (Decidable (op.SplitsNone b.source ∧ (b.perform op).NoneSplits rest))

variable {b : StyledBuffer}

/-- **Step.** One thing that is done to a buffer. -/
theorem IsWhole.perform (h : b.IsWhole) {op : BufferOp} (hop : op.SplitsNone b.source) :
    (b.perform op).IsWhole := by
  cases op with
  | setText text => exact isWhole_setText b text
  | replaceText text => exact h.replaceText text
  | insert offset text => exact h.insert offset text
  | remove first last => exact h.remove first last
  | applyBatch spans => exact (h.paintAll hop).congr rfl rfl
  | resetStyling => exact isWhole_of_replicate Array.toList_replicate h.isAligned
  | setStatus status => exact h.congr rfl rfl
  | setProgress progress => exact h.congr rfl rfl

/-- **Run.** Any number of things, one after the other. -/
theorem IsWhole.performAll (h : b.IsWhole) {ops : List BufferOp} (hops : b.NoneSplits ops) :
    (b.performAll ops).IsWhole := by
  induction ops generalizing b with
  | nil => exact h
  | cons op rest ih =>
    obtain ⟨hop, hrest⟩ := hops
    exact ih (h.perform hop) hrest

/-! ### The classes of a character -/

theorem classAt_eq (b : StyledBuffer) (i : Nat) : b.classAt i = (b.classes.toList[i]?).join := by
  rw [classAt, Array.getElem?_toList]

/-- The bytes of a character have the class of its first byte. -/
theorem IsWhole.classAt_char (h : b.IsWhole) {before after : List Char} {c : Char}
    (htext : b.text.toList = before ++ c :: after) {k : Nat} (hk : k < c.utf8Size) :
    b.classAt ((String.ofList before).utf8ByteSize + k)
      = b.classAt (String.ofList before).utf8ByteSize := by
  obtain ⟨l, h⟩ := h
  have hchars : l.map StyledChar.char = before ++ c :: after := by
    rw [← htext, h.text_eq, StyledChar.text, String.toList_ofList]
  obtain ⟨first, rest, rfl, rfl, hrest⟩ := List.map_eq_append_iff.mp hchars
  obtain ⟨x, last, rfl, rfl, -⟩ := List.map_eq_cons_iff.mp hrest
  have hclass : ∀ k < x.char.utf8Size,
      b.classAt ((String.ofList (first.map StyledChar.char)).utf8ByteSize + k) = x.style := by
    intro k hk
    rw [classAt_eq, h.classes_eq, ← StyledChar.text, StyledChar.getElem?_classes first last x hk,
      Option.join_some]
  rw [hclass k hk]
  exact (hclass 0 x.char.utf8Size_pos).symm

/-- A byte that does not begin a character has the class of the byte before it. -/
theorem IsWhole.classAt_succ (h : b.IsWhole) {i : Nat}
    (hinside : b.source.isBoundary (i + 1) = false) :
    b.classAt (i + 1) = b.classAt i := by
  have haligned : b.classes.size = b.text.utf8ByteSize := h.isAligned
  obtain ⟨l, h⟩ := h
  by_cases hi : i + 1 < b.text.utf8ByteSize
  · rw [h.text_eq] at hi
    obtain ⟨before, x, after, k, rfl, hk, hlt⟩ := StyledChar.exists_char l hi
    cases k with
    | zero =>
      -- The first byte of a character lies at a boundary.
      rw [hk, Nat.add_zero, h.isBoundary] at hinside
      cases hinside
    | succ k =>
      obtain rfl : i = (StyledChar.text before).utf8ByteSize + k := by omega
      rw [classAt_eq, classAt_eq, h.classes_eq, Nat.add_assoc,
        StyledChar.getElem?_classes before after x hlt,
        StyledChar.getElem?_classes before after x (Nat.lt_of_succ_lt hlt)]
  · -- Neither offset lies inside the text, since its end is a boundary.
    have hend : i + 1 ≠ b.text.utf8ByteSize := by
      intro heq
      have hboundary := b.source.isBoundary_size
      rw [Source.size_eq, show b.source.text.utf8ByteSize = i + 1 from heq.symm,
        hinside] at hboundary
      cases hboundary
    rw [classAt, classAt, Array.getElem?_eq_none (by omega), Array.getElem?_eq_none (by omega)]

end StyledBuffer

end XmlHighlight
