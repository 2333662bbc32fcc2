import Mathlib.Data.List.Forall2
import XmlHighlight.Proofs.Layout
import XmlHighlight.Proofs.Replacement
import XmlHighlight.Style.Color

/-!
# Colors in hexadecimal digits — which texts are colors

A color should be written as one hash sign or none, and two hexadecimal digits for each of its three
or four channels. Any number of hash signs will do, however, and a channel may also be a plus sign
and one digit.

* `Color.IsHexDigit`, `Color.IsDigitPair`, `Color.IsSignedDigit` — digits, and the two ways to write
  a channel;
* `Color.IsWritten` — a text writes a color, with so many hash signs and with channels of some form;
* `Source.slice?_eq_some_iff` — what a part of a text is, in characters;
* `Color.channel_eq_ok_iff`, `Color.channels_iff` — what one channel, and all of them, say about the
  characters;
* `hex_colors_beyond_two_digits` — which texts are read as colors, and which of them are written as
  they should be.
-/

namespace XmlHighlight

namespace Color

/-! ### The grammar -/

/-- A digit in base sixteen, in either case. -/
def IsHexDigit (c : Char) (d : Nat) : Prop :=
  d < 16 ∧ (c = Nat.digitChar d ∨ c = (Nat.digitChar d).toUpper)

instance (c : Char) (d : Nat) : Decidable (IsHexDigit c d) :=
  inferInstanceAs (Decidable (_ ∧ _))

/-- A channel of two digits, the first of which counts sixteens. -/
def IsDigitPair (pair : Char × Char) (value : UInt8) : Prop :=
  ∃ high low, IsHexDigit pair.1 high ∧ IsHexDigit pair.2 low ∧ value.toNat = 16 * high + low

/-- A channel of a plus sign and one digit. -/
def IsSignedDigit (pair : Char × Char) (value : UInt8) : Prop :=
  pair.1 = '+' ∧ IsHexDigit pair.2 value.toNat

/-- What is accepted as a channel. -/
def IsChannel (pair : Char × Char) (value : UInt8) : Prop :=
  IsDigitPair pair value ∨ IsSignedDigit pair value

/-- The color that has these channels. Without the last one it is opaque. -/
def ofChannels? : List UInt8 → Option Color
  | [red, green, blue] => some ⟨red, green, blue, 255⟩
  | [red, green, blue, alpha] => some ⟨red, green, blue, alpha⟩
  | _ => none

/-- The characters of several pairs. -/
def unpair (pairs : List (Char × Char)) : List Char := pairs.flatMap fun pair => [pair.1, pair.2]

/-- The text is so many hash signs and the channels of the color, of two characters each. -/
def IsWritten (hashes : Nat) (isChannel : Char × Char → UInt8 → Prop) (text : String)
    (color : Color) : Prop :=
  ∃ pairs values, text.toList = List.replicate hashes '#' ++ unpair pairs ∧
    List.Forall₂ isChannel pairs values ∧ ofChannels? values = some color

end Color

/-! ### Parts of a text -/

namespace Source

variable {s : Source} {i j : Nat}

/-- A text is cut in two in only one way at an offset. -/
theorem append_inj_of_size {p x q y : String} (h : p ++ x = q ++ y)
    (hsize : p.utf8ByteSize = q.utf8ByteSize) :
    p = q ∧ x = y := by
  have hbytes := congrArg (fun text : String => text.toByteArray.toList) h
  simp only [StyledBuffer.bytes_append] at hbytes
  obtain ⟨hp, hx⟩ := List.append_inj hbytes (by rw [length_bytes, length_bytes, hsize])
  exact ⟨eq_of_bytes_eq hp, eq_of_bytes_eq hx⟩

/-- What stands between two offsets of a text is a part of it, in characters. -/
theorem slice?_eq_some_iff (hij : i < j) {part : String} :
    s.slice? i j = some part ↔
      ∃ before after, s.text = before ++ part ++ after ∧ before.utf8ByteSize = i ∧
        (before ++ part).utf8ByteSize = j := by
  constructor
  · intro h
    -- The bytes are those of characters, and so there are boundaries at both ends.
    have hboundaries : s.isBoundary i = true ∧ s.isBoundary j = true := by
      unfold slice? at h
      split at h
      · next hguard =>
        have hle : j ≤ s.size := by simpa [Nat.le_of_lt hij] using hguard
        have hvalid : (s.utf8.extract i j).IsValidUTF8 := by
          by_contra hnot
          rw [String.fromUTF8?, dif_neg hnot] at h
          cases h
        rw [s.utf8_eq] at hvalid
        have hends := (String.Pos.Raw.isValidUTF8_extract_iff ⟨i⟩ ⟨j⟩ (Nat.le_of_lt hij) ?_).mp
          hvalid
        · rcases hends with heq | ⟨hi, hj⟩
          · exact absurd (congrArg String.Pos.Raw.byteIdx heq) (Nat.ne_of_lt hij)
          · exact ⟨isBoundary_iff.mpr hi, isBoundary_iff.mpr hj⟩
        · rw [String.Pos.Raw.le_iff, String.byteIdx_rawEndPos, ← size_eq]
          exact hle
      · cases h
    obtain ⟨before, middle, after, htext, hbefore, hmiddle⟩ :=
      exists_append_of_isBoundary_of_le hboundaries.1 hboundaries.2 (Nat.le_of_lt hij)
    have hpart := StyledBuffer.slice?_append htext
    rw [hbefore, hmiddle, h, Option.some.injEq] at hpart
    subst hpart
    exact ⟨before, after, htext, hbefore, hmiddle⟩
  · rintro ⟨before, after, htext, rfl, rfl⟩
    exact StyledBuffer.slice?_append htext

end Source

namespace Color

/-! ### One channel -/

/-- Hexadecimal digits are ASCII characters. -/
theorem IsHexDigit.ascii {c : Char} {d : Nat} (h : IsHexDigit c d) :
    c.toNat < 128 ∧ c.utf8Size = 1 := by
  have hdigits : ∀ d : Fin 16, ((Nat.digitChar d).toNat < 128 ∧ (Nat.digitChar d).utf8Size = 1) ∧
      (Nat.digitChar d).toUpper.toNat < 128 ∧ (Nat.digitChar d).toUpper.utf8Size = 1 := by
        decide +kernel
  obtain ⟨hd, rfl | rfl⟩ := h
  · exact (hdigits ⟨d, hd⟩).1
  · exact (hdigits ⟨d, hd⟩).2

theorem hexDigit?_of_not_ascii {c : Char} (h : 128 ≤ c.toNat) : hexDigit? c = none := by
  unfold hexDigit?
  rw [if_neg, if_neg, if_neg]
  all_goals
    rintro ⟨-, hhigh⟩
    have htop : c.toNat ≤ _ := hhigh
    exact absurd (Nat.le_trans h htop) (by decide)

/-- Digits are ASCII characters, and among these they are found one by one. -/
theorem hexDigit?_eq_some_iff {c : Char} {d : Nat} : hexDigit? c = some d ↔ IsHexDigit c d := by
  -- There are few ASCII characters and few digits, so all of them can be looked at.
  have hdigits : ∀ (n : Fin 128) (d : Fin 16),
      hexDigit? (Char.ofNat n) = some d.val ↔ IsHexDigit (Char.ofNat n) d := by decide +kernel
  have hvalues : ∀ n : Fin 128, ∀ d ∈ hexDigit? (Char.ofNat n), d < 16 := by decide +kernel
  constructor
  · intro h
    have hc : c.toNat < 128 := by
      by_contra hc
      rw [hexDigit?_of_not_ascii (Nat.le_of_not_lt hc)] at h
      cases h
    rw [← Char.ofNat_toNat c] at h ⊢
    have hd := hvalues ⟨c.toNat, hc⟩ d h
    exact (hdigits ⟨c.toNat, hc⟩ ⟨d, hd⟩).mp h
  · intro h
    have hc := h.ascii.1
    rw [← Char.ofNat_toNat c] at h ⊢
    exact (hdigits ⟨c.toNat, hc⟩ ⟨d, h.1⟩).mpr h

/-- Neither sign is a digit. -/
theorem IsHexDigit.ne {c : Char} {d : Nat} (h : IsHexDigit c d) : c ≠ '+' ∧ c ≠ '#' := by
  constructor
  · rintro rfl
    have hnone := hexDigit?_eq_some_iff.mpr h
    cases hnone
  · rintro rfl
    have hnone := hexDigit?_eq_some_iff.mpr h
    cases hnone

theorem IsChannel.utf8ByteSize {pair : Char × Char} {value : UInt8} (h : IsChannel pair value) :
    (String.ofList [pair.1, pair.2]).utf8ByteSize = 2 := by
  have hsizes : pair.1.utf8Size = 1 ∧ pair.2.utf8Size = 1 := by
    rcases h with ⟨high, low, hhigh, hlow, -⟩ | ⟨hsign, hlow⟩
    · exact ⟨hhigh.ascii.2, hlow.ascii.2⟩
    · exact ⟨by rw [hsign]; rfl, hlow.ascii.2⟩
  rw [String.ofList_cons, String.ofList_cons, String.utf8ByteSize_append,
    String.utf8ByteSize_append, String.utf8ByteSize_singleton, String.utf8ByteSize_singleton,
    hsizes.1, hsizes.2]
  rfl

/-- A channel does not begin with a hash sign. -/
theorem IsChannel.first_ne {pair : Char × Char} {value : UInt8} (h : IsChannel pair value) :
    pair.1 ≠ '#' := by
  rcases h with ⟨high, low, hhigh, -⟩ | ⟨hsign, -⟩
  · exact hhigh.ne.2
  · rw [hsign]
    decide

theorem toNat_ofNat_eq_iff {n : Nat} (h : n < 256) {value : UInt8} :
    UInt8.ofNat n = value ↔ value.toNat = n := by
  rw [← UInt8.toNat_inj, UInt8.toNat_ofNat_of_lt' h]
  exact eq_comm

/-- The value of a plus sign and a character. -/
theorem channelValue?_signed (c : Char) (value : UInt8) :
    channelValue? (String.ofList ['+', c]) = some value ↔ IsHexDigit c value.toNat := by
  have hvalue : channelValue? (String.ofList ['+', c])
    = ((hexDigit? c).map (0 * 16 + ·)).map UInt8.ofNat := by
    rw [channelValue?, String.toList_ofList]
    rfl
  -- The sign counts for nothing, and one digit is less than a byte can hold.
  rw [hvalue, Option.map_map, Option.map_eq_some_iff]
  constructor
  · rintro ⟨d, hd, hvalue⟩
    have hdigit := hexDigit?_eq_some_iff.mp hd
    have hd' : value.toNat = 0 * 16 + d :=
      (toNat_ofNat_eq_iff (by have := hdigit.1; omega)).mp hvalue
    rw [hd', Nat.zero_mul, Nat.zero_add]
    exact hdigit
  · intro h
    refine ⟨value.toNat, hexDigit?_eq_some_iff.mpr h, ?_⟩
    show UInt8.ofNat (0 * 16 + value.toNat) = value
    exact (toNat_ofNat_eq_iff (by have := h.1; omega)).mpr (by omega)

/-- The value of two characters without a sign. -/
theorem channelValue?_pair {a : Char} (hsign : a ≠ '+') (b : Char) (value : UInt8) :
    channelValue? (String.ofList [a, b]) = some value ↔ IsDigitPair (a, b) value := by
  have hvalue : channelValue? (String.ofList [a, b])
      = ((hexDigit? a).bind fun d => (hexDigit? b).map ((0 * 16 + d) * 16 + ·)).map
        UInt8.ofNat := by
    rw [channelValue?, String.toList_ofList]
    split
    · next rest hchars => exact absurd (List.cons.inj hchars).1 hsign
    · rfl
  rw [hvalue, Option.map_eq_some_iff]
  constructor
  · rintro ⟨n, hn, hvalue⟩
    obtain ⟨high, hhigh, hn⟩ := Option.bind_eq_some_iff.mp hn
    obtain ⟨low, hlow, rfl⟩ := Option.map_eq_some_iff.mp hn
    have hhigh' := hexDigit?_eq_some_iff.mp hhigh
    have hlow' := hexDigit?_eq_some_iff.mp hlow
    have hlt : (0 * 16 + high) * 16 + low < 256 := by
      have := hhigh'.1
      have := hlow'.1
      omega
    refine ⟨high, low, hhigh', hlow', ?_⟩
    rw [(toNat_ofNat_eq_iff hlt).mp hvalue]
    omega
  · rintro ⟨high, low, hhigh, hlow, hsum⟩
    have hlt : (0 * 16 + high) * 16 + low < 256 := by
      have := hhigh.1
      have := hlow.1
      omega
    refine ⟨(0 * 16 + high) * 16 + low, ?_, (toNat_ofNat_eq_iff hlt).mpr (by omega)⟩
    rw [hexDigit?_eq_some_iff.mpr hhigh, hexDigit?_eq_some_iff.mpr hlow]
    rfl

/-- A channel of two bytes has two characters. -/
theorem eq_pair_of_channelValue? {chars : List Char}
    (hsize : (String.ofList chars).utf8ByteSize = 2)
    {value : UInt8} (h : channelValue? (String.ofList chars) = some value) :
    ∃ a b, chars = [a, b] := by
  match chars with
  | [] => cases hsize
  | [a] =>
    -- A single character is at most a digit, which is shorter.
    exfalso
    rw [channelValue?, String.toList_ofList] at h
    obtain ⟨n, hn, -⟩ := Option.map_eq_some_iff.mp h
    split at hn
    · next rest hchars =>
      obtain rfl := (List.cons.inj hchars).2
      cases hn
    · obtain ⟨d, hd, -⟩ := Option.map_eq_some_iff.mp hn
      have hone := (hexDigit?_eq_some_iff.mp hd).ascii.2
      rw [← String.singleton_eq_ofList, String.utf8ByteSize_singleton, hone] at hsize
      cases hsize
  | [a, b] => exact ⟨a, b, rfl⟩
  | a :: b :: c :: rest =>
    exfalso
    have ha := Char.utf8Size_pos a
    have hb := Char.utf8Size_pos b
    have hc := Char.utf8Size_pos c
    rw [String.ofList_cons, String.ofList_cons, String.ofList_cons, String.utf8ByteSize_append,
      String.utf8ByteSize_append, String.utf8ByteSize_append, String.utf8ByteSize_singleton,
      String.utf8ByteSize_singleton, String.utf8ByteSize_singleton] at hsize
    omega

/-- A text of two bytes is a channel if it is one of the two pairs. -/
theorem channelValue?_eq_some_iff {part : String} (hsize : part.utf8ByteSize = 2) {value : UInt8} :
    channelValue? part = some value ↔
      ∃ pair : Char × Char, part = String.ofList [pair.1, pair.2] ∧ IsChannel pair value := by
  constructor
  · intro h
    obtain ⟨chars, rfl⟩ : ∃ chars, part = String.ofList chars :=
      ⟨part.toList, String.ofList_toList.symm⟩
    obtain ⟨a, b, rfl⟩ := eq_pair_of_channelValue? hsize h
    refine ⟨(a, b), rfl, ?_⟩
    -- Two characters are two digits, unless the first of them is a sign.
    by_cases hsign : a = '+'
    · subst hsign
      exact .inr ⟨rfl, (channelValue?_signed b value).mp h⟩
    · exact .inl ((channelValue?_pair hsign b value).mp h)
  · rintro ⟨⟨a, b⟩, rfl, ⟨high, low, hhigh, hrest⟩ | ⟨hsign, hdigit⟩⟩
    · exact (channelValue?_pair hhigh.ne.1 b value).mpr ⟨high, low, hhigh, hrest⟩
    · obtain rfl : a = '+' := hsign
      exact (channelValue?_signed b value).mpr hdigit

/-- **A channel.** It is a pair of characters that stand at the offset. -/
theorem channel_eq_ok_iff {s : Source} {i : Nat} {value : UInt8} :
    channel s i = .ok value ↔
      ∃ before after, ∃ pair : Char × Char,
        s.text = before ++ String.ofList [pair.1, pair.2] ++ after ∧ before.utf8ByteSize = i ∧
          IsChannel pair value := by
  constructor
  · intro h
    unfold channel at h
    split at h
    · cases h
    · next part hpart =>
      -- Two bytes between characters have been cut out of the text.
      obtain ⟨before, after, htext, hbefore, hstop⟩ :=
        (Source.slice?_eq_some_iff (Nat.lt_add_of_pos_right Nat.zero_lt_two)).mp hpart
      rw [String.utf8ByteSize_append] at hstop
      split at h
      · next found hfound =>
        obtain rfl := Except.ok.inj h
        obtain ⟨pair, rfl, hpair⟩ := (channelValue?_eq_some_iff (by omega)).mp hfound
        exact ⟨before, after, pair, htext, hbefore, hpair⟩
      · cases h
  · rintro ⟨before, after, pair, htext, hbefore, hpair⟩
    have hpart : s.slice? i (i + 2) = some (String.ofList [pair.1, pair.2]) := by
      refine (Source.slice?_eq_some_iff (Nat.lt_add_of_pos_right Nat.zero_lt_two)).mpr
        ⟨before, after, htext, hbefore, ?_⟩
      rw [String.utf8ByteSize_append, hbefore, hpair.utf8ByteSize]
    have hvalue := (channelValue?_eq_some_iff hpair.utf8ByteSize).mpr ⟨pair, rfl, hpair⟩
    unfold channel
    simp only [hpart, hvalue]

/-! ### All channels -/

/-- The channels behind a first one. -/
theorem IsChannel.size_behind {pair : Char × Char} {value : UInt8} (h : IsChannel pair value)
    (before : String)
    (k : Nat) :
    (before ++ String.ofList [pair.1, pair.2]).utf8ByteSize + 2 * k
      = before.utf8ByteSize + 2 * (k + 1) := by
  rw [String.utf8ByteSize_append, h.utf8ByteSize]
  omega

/-- **All channels.** If they are as long as the text, the text is the pairs in which they are
    written. -/
theorem channels_iff {s : Source} (values : List UInt8) {before body : String}
    (htext : s.text = before ++ body)
    (hsize : body.utf8ByteSize = 2 * values.length) :
    (∀ k value, values[k]? = some value → channel s (before.utf8ByteSize + 2 * k) = .ok value) ↔
      ∃ pairs, body.toList = unpair pairs ∧ List.Forall₂ IsChannel pairs values := by
  induction values generalizing before body with
  | nil =>
    have hempty : body = "" := String.utf8ByteSize_eq_zero_iff.mp hsize
    constructor
    · intro _
      exact ⟨[], by rw [hempty]; rfl, .nil⟩
    · intro _ k value hvalue
      cases hvalue
  | cons value rest ih =>
    rw [List.length_cons] at hsize
    constructor
    · intro h
      -- The first channel stands at the beginning of the body, and the induction hypothesis is
      -- about the rest.
      obtain ⟨before', after, pair, htext', hbefore, hpair⟩ := channel_eq_ok_iff.mp (h 0 value rfl)
      rw [String.append_assoc] at htext'
      obtain ⟨rfl, rfl⟩ := Source.append_inj_of_size (htext'.symm.trans htext) hbefore
      have htwo := hpair.utf8ByteSize
      rw [String.utf8ByteSize_append] at hsize
      rw [← String.append_assoc] at htext'
      have hrest := (ih htext' (by omega)).mp fun k value' hvalue' => by
        have hnext := h (k + 1) value' hvalue'
        rwa [← hpair.size_behind] at hnext
      obtain ⟨pairs, hpairs, hchannels⟩ := hrest
      refine ⟨pair :: pairs, ?_, .cons hpair hchannels⟩
      rw [String.toList_append, String.toList_ofList, hpairs]
      rfl
    · rintro ⟨pairs, hbody, hchannels⟩
      obtain ⟨pair, pairs, hpair, hrest, rfl⟩ := List.forall₂_cons_right_iff.mp hchannels
      have htwo := hpair.utf8ByteSize
      have hsplit : body = String.ofList [pair.1, pair.2] ++ String.ofList (unpair pairs) := by
        rw [← String.toList_inj, hbody, String.toList_append, String.toList_ofList,
          String.toList_ofList]
        rfl
      subst hsplit
      rw [String.utf8ByteSize_append] at hsize
      rw [← String.append_assoc] at htext
      have hothers := (ih htext (by omega)).mpr ⟨pairs, String.toList_ofList, hrest⟩
      intro k value' hvalue'
      cases k with
      | zero =>
        obtain rfl := Option.some.inj hvalue'
        exact channel_eq_ok_iff.mpr ⟨before, _, pair, htext, rfl, hpair⟩
      | succ k =>
        have hnext := hothers k value' hvalue'
        rwa [hpair.size_behind] at hnext

/-- What is left of a text without the hash signs before it. -/
def body (text : String) : Source :=
  Source.ofText (String.ofList (text.toList.dropWhile (· == '#')))

/-- Six bytes are the three channels of an opaque color. -/
theorem ofHex_of_six {text : String} (h : (body text).size = 6) : ofHex text =
    (channel (body text) 0 >>= fun red => channel (body text) 2 >>= fun green =>
      channel (body text) 4 >>= fun blue => .ok ⟨red, green, blue, 255⟩) := by
  unfold ofHex
  show (if (body text).size = 6 ∨ (body text).size = 8 then _ else _) = _
  rw [if_pos (.inl h)]
  simp only [show Source.ofText (String.ofList (text.toList.dropWhile (· == '#')))
    = body text from rfl, h]
  rfl

/-- Eight bytes are four channels. -/
theorem ofHex_of_eight {text : String} (h : (body text).size = 8) : ofHex text =
    (channel (body text) 0 >>= fun red => channel (body text) 2 >>= fun green =>
      channel (body text) 4 >>= fun blue => channel (body text) 6 >>= fun alpha =>
        .ok ⟨red, green, blue, alpha⟩) := by
  unfold ofHex
  show (if (body text).size = 6 ∨ (body text).size = 8 then _ else _) = _
  rw [if_pos (.inr h)]
  simp only [show Source.ofText (String.ofList (text.toList.dropWhile (· == '#')))
    = body text from rfl, h]
  rfl

/-- Any other number of bytes is refused. -/
theorem ofHex_of_other {text : String} (h : ¬ ((body text).size = 6 ∨ (body text).size = 8)) :
    ofHex text = .error (.badFormat (body text).text) := by
  unfold ofHex
  exact if_neg h

/-- A color is read if its channels are, and they are all that is left. -/
theorem ofHex_eq_ok_iff {text : String} {color : Color} :
    ofHex text = .ok color ↔
      ∃ values, ofChannels? values = some color ∧ (body text).size = 2 * values.length ∧
        ∀ k value, values[k]? = some value → channel (body text) (2 * k) = .ok value := by
  constructor
  · intro h
    -- The size says how many channels are read.
    by_cases hsix : (body text).size = 6
    · rw [ofHex_of_six hsix] at h
      obtain ⟨red, hred, h⟩ := bind_eq_ok.mp h
      obtain ⟨green, hgreen, h⟩ := bind_eq_ok.mp h
      obtain ⟨blue, hblue, h⟩ := bind_eq_ok.mp h
      obtain rfl := Except.ok.inj h
      refine ⟨[red, green, blue], rfl, hsix, fun k value hvalue => ?_⟩
      match k, hvalue with
      | 0, rfl => exact hred
      | 1, rfl => exact hgreen
      | 2, rfl => exact hblue
    · by_cases height : (body text).size = 8
      · rw [ofHex_of_eight height] at h
        obtain ⟨red, hred, h⟩ := bind_eq_ok.mp h
        obtain ⟨green, hgreen, h⟩ := bind_eq_ok.mp h
        obtain ⟨blue, hblue, h⟩ := bind_eq_ok.mp h
        obtain ⟨alpha, halpha, h⟩ := bind_eq_ok.mp h
        obtain rfl := Except.ok.inj h
        refine ⟨[red, green, blue, alpha], rfl, height, fun k value hvalue => ?_⟩
        match k, hvalue with
        | 0, rfl => exact hred
        | 1, rfl => exact hgreen
        | 2, rfl => exact hblue
        | 3, rfl => exact halpha
      · rw [ofHex_of_other (not_or.mpr ⟨hsix, height⟩)] at h
        cases h
  · rintro ⟨values, hcolor, hsize, hchannels⟩
    match values, hcolor with
    | [red, green, blue], rfl =>
      rw [ofHex_of_six hsize, hchannels 0 red rfl, hchannels 1 green rfl, hchannels 2 blue rfl]
      rfl
    | [red, green, blue, alpha], rfl =>
      rw [ofHex_of_eight hsize, hchannels 0 red rfl, hchannels 1 green rfl, hchannels 2 blue rfl,
        hchannels 3 alpha rfl]
      rfl

/-! ### Hash signs -/

/-- A text is some hash signs and the rest of it. -/
theorem exists_toList_eq (text : String) :
    ∃ hashes, text.toList = List.replicate hashes '#' ++ (body text).text.toList := by
  refine ⟨(text.toList.takeWhile (· == '#')).length, ?_⟩
  have hsigns : text.toList.takeWhile (· == '#')
      = List.replicate (text.toList.takeWhile (· == '#')).length '#' := by
    refine List.eq_replicate_iff.mpr ⟨rfl, fun c hc => ?_⟩
    exact eq_of_beq (List.all_eq_true.mp List.all_takeWhile c hc)
  have hbody : (body text).text.toList = text.toList.dropWhile (· == '#') := String.toList_ofList
  rw [hbody, ← hsigns, List.takeWhile_append_dropWhile]

/-- Channels are not hash signs, and so nothing of them is lost. -/
theorem toList_body {text : String} {hashes : Nat} {pairs : List (Char × Char)}
    {values : List UInt8}
    (htext : text.toList = List.replicate hashes '#' ++ unpair pairs)
    (hchannels : List.Forall₂ IsChannel pairs values) : (body text).text.toList = unpair pairs := by
  have hbody : (body text).text.toList = text.toList.dropWhile (· == '#') := String.toList_ofList
  have hsigns : ∀ c ∈ List.replicate hashes '#', (c == '#') = true := by
    intro c hc
    rw [List.eq_of_mem_replicate hc]
    rfl
  rw [hbody, htext, List.dropWhile_append_of_pos hsigns]
  cases hchannels with
  | nil => rfl
  | cons hpair hrest =>
    -- The first character of the first channel ends the run of signs.
    exact List.dropWhile_cons_of_neg (by simpa using hpair.first_ne)

/-- Each channel takes two bytes. -/
theorem size_unpair (pairs : List (Char × Char)) (values : List UInt8)
    (h : List.Forall₂ IsChannel pairs values) :
    (String.ofList (unpair pairs)).utf8ByteSize = 2 * values.length := by
  induction h with
  | nil => rfl
  | @cons pair value pairs values hpair hrest ih =>
    have hunpair : unpair (pair :: pairs) = [pair.1, pair.2] ++ unpair pairs := rfl
    rw [hunpair, String.ofList_append, String.utf8ByteSize_append, hpair.utf8ByteSize, ih,
      List.length_cons]
    omega

/-- **Reading.** A color is read from any number of hash signs and its channels, written in either
    way. -/
theorem ofHex_eq_ok_iff_isWritten {text : String} {color : Color} :
    ofHex text = .ok color ↔ ∃ hashes, IsWritten hashes IsChannel text color := by
  have hwhole : (body text).text = "" ++ (body text).text := by rw [String.empty_append]
  rw [ofHex_eq_ok_iff]
  constructor
  · rintro ⟨values, hcolor, hsize, hread⟩
    rw [Source.size_eq] at hsize
    obtain ⟨pairs, hpairs, hchannels⟩ :=
      (channels_iff values hwhole hsize).mp fun k value hvalue => by
      rw [String.utf8ByteSize_empty, Nat.zero_add]
      exact hread k value hvalue
    -- All hash signs in front have been taken off, so there may have been any number of them.
    obtain ⟨hashes, htext⟩ := exists_toList_eq text
    exact ⟨hashes, pairs, values, by rw [htext, hpairs], hchannels, hcolor⟩
  · rintro ⟨hashes, pairs, values, htext, hchannels, hcolor⟩
    have hbody := toList_body htext hchannels
    have hsize : (body text).text.utf8ByteSize = 2 * values.length := by
      rw [← size_unpair pairs values hchannels, ← hbody, String.ofList_toList]
    refine ⟨values, hcolor, by rw [Source.size_eq, hsize], fun k value hvalue => ?_⟩
    have hread := (channels_iff values hwhole hsize).mpr ⟨pairs, hbody, hchannels⟩ k value hvalue
    rwa [String.utf8ByteSize_empty, Nat.zero_add] at hread

/-! ### Two digits for each channel -/

/-- Channels of two digits have no signs in them. -/
theorem not_mem_unpair_of_isDigitPair {pairs : List (Char × Char)} {values : List UInt8}
    (h : List.Forall₂ IsDigitPair pairs values) : '+' ∉ unpair pairs ∧ '#' ∉ unpair pairs := by
  induction h with
  | nil => exact ⟨List.not_mem_nil, List.not_mem_nil⟩
  | @cons pair value pairs values hpair hrest ih =>
    have hunpair : unpair (pair :: pairs) = pair.1 :: pair.2 :: unpair pairs := rfl
    obtain ⟨high, low, hhigh, hlow, -⟩ := hpair
    rw [hunpair, List.mem_cons, List.mem_cons, List.mem_cons, List.mem_cons]
    constructor
    · rintro (hplus | hplus | hplus)
      · exact hhigh.ne.1 hplus.symm
      · exact hlow.ne.1 hplus.symm
      · exact ih.1 hplus
    · rintro (hhash | hhash | hhash)
      · exact hhigh.ne.2 hhash.symm
      · exact hlow.ne.2 hhash.symm
      · exact ih.2 hhash

/-- A color that is written as it should be has no plus sign and at most one hash sign before its
    digits. -/
theorem IsWritten.plain {hashes : Nat} {text : String} {color : Color}
    (h : IsWritten hashes IsDigitPair text color) (hone : hashes ≤ 1) :
    '+' ∉ text.toList ∧ ¬ ['#', '#'] <+: text.toList := by
  obtain ⟨pairs, values, htext, hdigits, -⟩ := h
  obtain ⟨hplus, hhash⟩ := not_mem_unpair_of_isDigitPair hdigits
  constructor
  · rw [htext, List.mem_append, List.mem_replicate]
    rintro (⟨-, hsign⟩ | hmem)
    · cases hsign
    · exact hplus hmem
  · rintro ⟨rest, hrest⟩
    rw [htext] at hrest
    -- The second of the two signs would be among the digits.
    match hashes, hone with
    | 0, _ =>
      have hpairs : '#' :: '#' :: rest = unpair pairs := hrest
      exact hhash (hpairs ▸ List.mem_cons_self)
    | 1, _ =>
      have hpairs : '#' :: rest = unpair pairs := (List.cons.inj hrest).2
      exact hhash (hpairs ▸ List.mem_cons_self)

/-- Channels without a plus sign have two digits. -/
theorem isDigitPair_of_not_mem {pairs : List (Char × Char)} {values : List UInt8}
    (h : List.Forall₂ IsChannel pairs values) (hplus : '+' ∉ unpair pairs) :
    List.Forall₂ IsDigitPair pairs values := by
  induction h with
  | nil => exact .nil
  | @cons pair value pairs values hpair hrest ih =>
    have hunpair : unpair (pair :: pairs) = pair.1 :: pair.2 :: unpair pairs := rfl
    rw [hunpair] at hplus
    refine .cons ?_ (ih fun hmem => hplus (List.mem_cons_of_mem _ (List.mem_cons_of_mem _ hmem)))
    rcases hpair with hdigits | ⟨hsign, -⟩
    · exact hdigits
    · exact absurd (hsign ▸ List.mem_cons_self) hplus

end Color

/-- **Colors.** A text is read as a color if and only if it is any number of hash signs and three or
    four channels, each of two digits or of a plus sign and a digit; then the color has these
    channels. It is written as it should be, with one hash sign at most and two digits for each
    channel, if and only if it is read as a color, has no plus sign and does not begin with two hash
    signs. -/
theorem hex_colors_beyond_two_digits (text : String) (color : Color) :
    (Color.ofHex text = .ok color ↔ ∃ hashes, Color.IsWritten hashes Color.IsChannel text color) ∧
      ((∃ hashes ≤ 1, Color.IsWritten hashes Color.IsDigitPair text color) ↔
        Color.ofHex text = .ok color ∧ '+' ∉ text.toList ∧ ¬ ['#', '#'] <+: text.toList) := by
  refine ⟨Color.ofHex_eq_ok_iff_isWritten, ?_⟩
  constructor
  · rintro ⟨hashes, hone, hwritten⟩
    have hplain := hwritten.plain hone
    obtain ⟨pairs, values, htext, hdigits, hcolor⟩ := hwritten
    refine ⟨Color.ofHex_eq_ok_iff_isWritten.mpr ?_, hplain⟩
    exact ⟨hashes, pairs, values, htext, hdigits.imp fun _ _ => .inl, hcolor⟩
  · rintro ⟨hok, hplus, htwo⟩
    obtain ⟨hashes, pairs, values, htext, hchannels, hcolor⟩ :=
      Color.ofHex_eq_ok_iff_isWritten.mp hok
    rw [htext] at hplus htwo
    refine ⟨hashes, ?_, pairs, values, htext, ?_, hcolor⟩
    · -- Two hash signs or more stand at the beginning of the text.
      match hashes with
      | 0 => exact Nat.zero_le 1
      | 1 => exact Nat.le_refl 1
      | n + 2 => exact absurd ⟨_, rfl⟩ htwo
    · exact Color.isDigitPair_of_not_mem hchannels fun hmem => hplus (List.mem_append_right _ hmem)

/-- Colors with signs in place of digits, or behind two hash signs, are read and are not written as
    they should be. -/
theorem signed_and_twice_hashed_colors :
    (Color.ofHex "+1+2+3" = .ok ⟨1, 2, 3, 255⟩ ∧
      ∀ hashes ≤ 1, ∀ color, ¬ Color.IsWritten hashes Color.IsDigitPair "+1+2+3" color) ∧
      Color.ofHex "##102030" = .ok ⟨16, 32, 48, 255⟩ ∧
        ∀ hashes ≤ 1, ∀ color, ¬ Color.IsWritten hashes Color.IsDigitPair "##102030" color := by
  have hsigned : Color.ofHex "+1+2+3" = .ok ⟨1, 2, 3, 255⟩ := by decide +kernel
  have hhashed : Color.ofHex "##102030" = .ok ⟨16, 32, 48, 255⟩ := by decide +kernel
  refine ⟨⟨hsigned, fun hashes hone color h => ?_⟩, hhashed, fun hashes hone color h => ?_⟩
  · exact absurd (by decide) (h.plain hone).1
  · exact absurd (by decide) (h.plain hone).2

end XmlHighlight
