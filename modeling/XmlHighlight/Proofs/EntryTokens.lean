import XmlHighlight.Proofs.WrittenValues
import XmlHighlight.Yaml.Fields

/-!
# Entries — a mapping with one line for each key is read back

An entry is read in three steps: its key, which is found out to be one only at the colon, the colon,
and the value. Then the lexer is where it was before the key.

* `Yaml.Lexer.run?_key`, `Yaml.Lexer.run?_colon` — the first two steps;
* `Yaml.Entry`, `Yaml.Lexer.run?_entry` — one entry;
* `Yaml.tokens?_entries`, `Yaml.documentOf?_entries` — the tokens of a text with nothing but
  entries, and the mapping that they describe, and hence `Yaml.parse?_entries`;
* `Yaml.Document.fields?_entries` — the fields of this mapping.
-/

namespace XmlHighlight.Yaml

open Lexer

/-! ### Keys -/

/-- A word of moderate length that begins with a letter: a key that needs no quotes. -/
def isKey (name : List Char) : Bool :=
  name.head?.any Char.isAlpha && name.all isWord && decide (name.length ≤ maxKeyLength)

/-- A sign is not part of a word. -/
theorem ne_of_isWord {c d : Char} (h : isWord c = true) (hd : isWord d = false) : c ≠ d := by
  rintro rfl
  simp [h] at hd

theorem isBreak_of_isWord {c : Char} (h : isWord c = true) : isBreak c = false := by
  simp [isBreak, ne_of_isWord h, isWord]

theorem isWhite_of_isWord {c : Char} (h : isWord c = true) : isWhite c = false := by
  simp [isWhite, ne_of_isWord h, isWord]

/-- A word consists of ASCII characters that may stand in a text. -/
theorem isAllowed_of_isWord {c : Char} (h : isWord c = true) : isAllowed c = true := by
  have hranges : (decide (c.val ≥ 'A'.val ∧ c.val ≤ 'Z'.val)
      || decide (c.val ≥ 'a'.val) && decide (c.val ≤ 'z'.val)
      || decide (c.val ≥ '0'.val) && decide (c.val ≤ '9'.val) || c == '-' || c == '_') = true := h
  simp only [Bool.or_eq_true, Bool.and_eq_true, decide_eq_true_eq, beq_iff_eq] at hranges
  obtain (((h | h) | h) | rfl) | rfl := hranges
  · simp [isAllowed] at h ⊢
    grind
  · simp [isAllowed] at h ⊢
    grind
  · simp [isAllowed] at h ⊢
    grind
  · decide
  · decide

/-- A mark further on in the same line. -/
def Mark.advance (m : Mark) (n : Nat) : Mark := ⟨m.index + n, m.line, m.column + n⟩

/-- A word ends at the colon behind it. -/
theorem readPlain_word (margin : Nat) (rest : List Char) (name : List Char) :
    ∀ (m : Mark) (text : String), (∀ c ∈ name, isWord c = true) →
      readPlain false margin (name ++ ':' :: ' ' :: rest) m text .none
        = some (text ++ String.ofList name, false,
        ⟨':' :: ' ' :: rest, m.advance name.length⟩) := by
  induction name with
  | nil =>
    intro m text _
    simp [readPlain, isWhite, isBreak, endsWord, Gap.isBroken, Gap.none, Mark.advance]
  | cons c name ih =>
    intro m text hname
    have hc := hname c List.mem_cons_self
    have hcolon : c ≠ ':' := ne_of_isWord hc (by decide)
    rw [List.cons_append, Gap.none, readPlain_char text "" (isWhite_of_isWord hc)
      (isBreak_of_isWord hc) (fun h => absurd rfl h) (fun h => absurd h hcolon),
      ih _ _ fun d hd => hname d (List.mem_cons_of_mem _ hd)]
    simp [Mark.advance, Mark.next, ← String.toList_inj, Nat.add_assoc, Nat.add_comm 1]

namespace Lexer

/-- After a key that began at `start`, at its colon. -/
def atColon (rest : List Char) (m : Mark) (tokens : Array Token) (isFirst : Bool)
    (start : KeyStart) :
    Lexer :=
  { atLine rest m tokens isFirst with keyStart := some start, keyAllowed := false }

/-- The key of an entry is read as a plain scalar, and its place is remembered. -/
theorem run?_key {name : List Char} (hname : isKey name = true) (rest : List Char) {m : Mark}
    (hm : m.column = 0) (tokens : Array Token) (isFirst : Bool) :
    ∃ start : KeyStart, start.tokenIndex = tokens.size ∧ start.mark = m ∧ ∀ n,
      (atLine (name ++ ':' :: ' ' :: rest) m tokens isFirst).run? (n + 1)
        = (atColon (':' :: ' ' :: rest) (m.advance name.length)
            (tokens.push (.scalar (String.ofList name) true)) isFirst start).run? n := by
  simp only [isKey, Bool.and_eq_true] at hname
  obtain ⟨⟨hfirst, hword⟩, -⟩ := hname
  have hread := fun margin => readPlain_word margin rest name m "" (by simpa using hword)
  cases name with
  | nil => simp at hfirst
  | cons c name =>
    rw [List.cons_append] at hread ⊢
    have hc : c.isAlpha = true := by simpa using hfirst
    have hne : ∀ d : Char, d.isAlpha = false → c ≠ d := fun d => ne_of_isAlpha hc
    -- A key is required here unless it would be the first one.
    refine ⟨⟨!isFirst, tokens.size, m⟩, rfl, rfl, fun n => ?_⟩
    have hmarker : Cursor.atMarker ⟨c :: (name ++ ':' :: ' ' :: rest), m⟩ = false := by
      have hdash := hne '-' (by decide)
      have hdot := hne '.' (by decide)
      simp [Cursor.atMarker, isMarker, hdash.symm, hdot.symm]
    have hind : isIndicator c = false := by simp [isIndicator, hne]
    have hmargin : (atLine (c :: (name ++ ':' :: ' ' :: rest)) m tokens isFirst).margin
      ≤ m.column + 1 := by
      cases isFirst <;> simp [atLine]
    rw [run?_succ n (toToken_atLine (startsLine_cons.2 hc) m tokens isFirst) rfl
      (dropStale?_of_none rfl rfl) (unroll_of_le hmargin),
      read?_eq_plain? hmarker rfl hind (isWhite_of_isAlpha hc) (isBreak_of_isAlpha hc)
        (by simp [hne])]
    cases isFirst <;>
      simp [plain?, saveKey?, dropKey?, atLine, atColon, inFlow, column, hm, hread, allowKey, emit]

/-- A token before the last ones. -/
theorem insertIdxIfInBounds_append (tokens : Array Token) (ts : List Token) (t : Token) :
    (tokens ++ ts.toArray).insertIdxIfInBounds tokens.size t = tokens ++ (t :: ts).toArray := by
  have hinsert : ∀ l : List Token, (l ++ ts).insertIdx l.length t = l ++ t :: ts := by
    intro l
    induction l with
    | nil => rfl
    | cons u l ih => simp [ih]
  rw [Array.insertIdxIfInBounds, dif_pos (by simp), ← Array.toList_inj, Array.toList_insertIdx]
  simpa using hinsert tokens.toList

/-- The tokens before the first entry begin the mapping. -/
def opened (tokens : Array Token) (isFirst : Bool) : Array Token :=
  if isFirst then tokens.push .blockMapping else tokens

/-- At its colon, a scalar turns out to be a key, and the first one opens the mapping. -/
theorem run?_colon {name : List Char} (hname : name ≠ []) (hlength : name.length ≤ maxKeyLength)
    (rest : List Char) {m : Mark} (hm : m.column = 0) (tokens : Array Token) (isFirst : Bool)
    {start : KeyStart} (hindex : start.tokenIndex = tokens.size) (hmark : start.mark = m)
    (key : String)
    (n : Nat) :
    (atColon (':' :: ' ' :: rest) (m.advance name.length) (tokens.push (.scalar key true)) isFirst
        start).run? (n + 1)
      = (atValue (' ' :: rest) (m.advance name.length).next
          (opened tokens isFirst ++ #[.key, .scalar key true, .value])).run? n := by
  have hcol : (m.advance name.length).column ≠ 0 := by simp [Mark.advance, hm, hname]
  have hstale : isStale (m.advance name.length) start = false := by
    simp [isStale, hmark, Mark.advance, hlength]
  -- The tokens for the key and for the mapping are put in front of the scalar that is there
  -- already.
  have hkey : (tokens.push (.scalar key true)).insertIdxIfInBounds tokens.size .key
      = tokens ++ #[.key, .scalar key true] := by
    simpa using insertIdxIfInBounds_append tokens [.scalar key true] .key
  have hmapping : (tokens ++ #[Token.key, .scalar key true]).insertIdxIfInBounds tokens.size
    .blockMapping
      = tokens ++ #[.blockMapping, .key, .scalar key true] := by
    simpa using insertIdxIfInBounds_append tokens [.key, .scalar key true] .blockMapping
  rw [run?_succ n (k := atColon (':' :: ' ' :: rest) (m.advance name.length)
    (tokens.push (.scalar key true)) isFirst start) _ rfl _ (unroll_of_le _)]
  · have hread : (atColon (':' :: ' ' :: rest) (m.advance name.length)
      (tokens.push (.scalar key true))
        isFirst start).read? ':' (' ' :: rest)
        = some (atValue (' ' :: rest) (m.advance name.length).next
          (opened tokens isFirst ++ #[.key, .scalar key true, .value])) := by
      cases isFirst <;>
        simp [read?, atColon, atLine, atValue, column, hcol, Cursor.atMarker, endsWord, isWhite,
          mappingValue?, hindex, hmark, hkey, hmapping, roll, inFlow, hm, allowKey, skip,
          Cursor.skip,
          Cursor.next, emit, opened]
    rw [hread, Option.bind_some]
  · simp [toToken, atColon, atLine, inFlow, skipSpace_stop false (c := ':') (by decide) (by decide)
      (by decide) (.inl (by decide))]
  · simp [dropStale?, atColon, atLine, refresh?, hstale]
  · cases isFirst <;> simp [atColon, atLine]

end Lexer

/-! ### Entries -/

/-- An entry of a mapping as it is written, with what its value is read as. -/
structure Entry where
  key : String
  written : List Char
  text : String
  isPlain : Bool
  isKey : isKey key.toList = true
  readsAs : ReadsAs written text isPlain
  isAllowed : ∀ c ∈ written, isAllowed c = true

namespace Entry

/-- The line of an entry, which may go on in lines that are indented. -/
def line (e : Entry) : List Char := e.key.toList ++ ':' :: ' ' :: e.written

/-- The tokens of an entry. -/
def tokens (e : Entry) : List Token :=
  [.key, .scalar e.key true, .value, .scalar e.text e.isPlain]

/-- An entry takes three characters at least: one of its key, the colon and a blank. -/
theorem length_line (e : Entry) : 3 ≤ e.line.length := by
  have h := e.isKey
  cases hkey : e.key.toList with
  | nil => simp [hkey, Yaml.isKey] at h
  | cons c cs =>
    rw [line, hkey]
    simp
    omega

/-- An entry begins with a letter. -/
theorem startsLine_line (e : Entry) (rest : List Char) : StartsLine (e.line ++ rest) := by
  have h := e.isKey
  cases hkey : e.key.toList with
  | nil => simp [hkey, Yaml.isKey] at h
  | cons c cs =>
    rw [line, hkey]
    exact startsLine_cons.2 (by simp_all [Yaml.isKey])

theorem isAllowed_of_mem_line (e : Entry) {c : Char} (hc : c ∈ e.line) :
    Yaml.isAllowed c = true := by
  rw [line, List.mem_append, List.mem_cons, List.mem_cons] at hc
  have hkey := e.isKey
  simp only [Yaml.isKey, Bool.and_eq_true, List.all_eq_true] at hkey
  obtain hc | rfl | rfl | hc := hc
  · exact isAllowed_of_isWord (hkey.1.2 c hc)
  · decide
  · decide
  · exact e.isAllowed c hc

end Entry

/-- Each entry takes more characters than steps to read it. -/
theorem length_lines (entries : List Entry) :
    3 * entries.length ≤ (entries.flatMap Entry.line).length := by
  induction entries with
  | nil => simp
  | cons e entries ih =>
    have := e.length_line
    simp only [List.flatMap_cons, List.length_append, List.length_cons]
    omega

/-- Each entry gives four tokens. -/
theorem length_tokens (entries : List Entry) :
    (entries.flatMap Entry.tokens).length = 4 * entries.length := by
  induction entries with
  | nil => rfl
  | cons e entries ih =>
    rw [List.flatMap_cons, List.length_append, ih]
    simp only [Entry.tokens, List.length_cons, List.length_nil]
    omega

theorem isAllowed_lines (entries : List Entry) :
    (entries.flatMap Entry.line).all isAllowed = true := by
  rw [List.all_eq_true]
  intro c hc
  obtain ⟨e, -, hc⟩ := List.mem_flatMap.1 hc
  exact e.isAllowed_of_mem_line hc

theorem startsLine_lines (entries : List Entry) : StartsLine (entries.flatMap Entry.line) := by
  cases entries with
  | nil => exact startsLine_nil
  | cons e entries => exact e.startsLine_line _

/-- An entry is read in three steps. -/
theorem Lexer.run?_entry (e : Entry) {rest : List Char} (hrest : StartsLine rest) {m : Mark}
    (hm : m.column = 0) (tokens : Array Token) (isFirst : Bool) :
    ∃ m' : Mark, m'.column = 0 ∧ ∀ n,
      (atLine (e.line ++ rest) m tokens isFirst).run? (n + 3)
        = (atLine rest m' (opened tokens isFirst ++ e.tokens.toArray) false).run? n := by
  have hkey := e.isKey
  simp only [isKey, Bool.and_eq_true, decide_eq_true_eq] at hkey
  have hne : e.key.toList ≠ [] := by
    intro h
    simp [h] at hkey
  obtain ⟨start, hindex, hmark, hname⟩ := run?_key e.isKey (e.written ++ rest) hm tokens isFirst
  obtain ⟨m', hm', hvalue⟩ := e.readsAs rest (m.advance e.key.toList.length).next
    (opened tokens isFirst ++ #[.key, .scalar e.key true, .value]) hrest
  refine ⟨m', hm', fun n => ?_⟩
  rw [Entry.line, List.append_assoc, List.cons_append, List.cons_append, hname,
    String.ofList_toList, run?_colon hne hkey.2 _ hm _ _ hindex hmark, hvalue]
  simp [Entry.tokens]

/-- So are all of them, one after the other, and the mapping ends with the text. -/
theorem Lexer.run?_entries (entries : List Entry) :
    ∀ (m : Mark) (tokens : Array Token) (n : Nat), m.column = 0 → 3 * entries.length < n →
      (atLine (entries.flatMap Entry.line) m tokens false).run? n
        = some (tokens.toList ++ entries.flatMap Entry.tokens ++ [.blockEnd]) := by
  induction entries with
  | nil =>
    intro m tokens n _ hn
    obtain ⟨n, rfl⟩ := Nat.exists_eq_add_of_le' (Nat.lt_of_le_of_lt (Nat.zero_le _) hn)
    have htoken := toToken_atLine startsLine_nil m tokens false
    have hstale : (atLine [] m tokens false).dropStale? = some (atLine [] m tokens false) :=
      dropStale?_of_none rfl rfl
    rw [List.flatMap_nil, run?, htoken, hstale]
    simp [atLine, unroll, inFlow, closeMargins, dropKey?]
  | cons e entries ih =>
    intro m tokens n hm hn
    obtain ⟨m', hm', hstep⟩ := run?_entry e (startsLine_lines entries) hm tokens false
    -- Three rounds of the lexer read an entry: its key, its sign, and its value.
    obtain ⟨n, rfl⟩ : ∃ k, n = k + 3 := ⟨n - 3, by rw [List.length_cons] at hn; omega⟩
    rw [List.flatMap_cons, hstep, ih m' _ n hm' (by rw [List.length_cons] at hn; omega)]
    simp [opened]

/-- The tokens of a text with nothing but entries. -/
theorem tokens?_entries (e : Entry) (entries : List Entry) :
    tokens? (String.ofList ((e :: entries).flatMap Entry.line))
      = some (.blockMapping :: (e :: entries).flatMap Entry.tokens ++ [.blockEnd]) := by
  have hlength := length_lines (e :: entries)
  rw [List.length_cons] at hlength
  obtain ⟨m', hm', hstep⟩ :=
    run?_entry e (startsLine_lines entries) (m := ⟨0, 0, 0⟩) rfl #[] true
  obtain ⟨n, hn⟩ : ∃ n, ((e :: entries).flatMap Entry.line).length + 1 = n + 3 :=
    Nat.exists_eq_add_of_le' (by omega)
  have hstart : Lexer.start ((e :: entries).flatMap Entry.line)
      = atLine (e.line ++ entries.flatMap Entry.line) ⟨0, 0, 0⟩ #[] true := rfl
  -- The first entry opens the mapping; what is left of the limit is enough for the others.
  rw [tokens?, String.toList_ofList, if_pos (isAllowed_lines _), hn, hstart, hstep,
    run?_entries entries m' _ n hm' (by omega)]
  simp [opened]

/-! ### Nodes -/

/-- What an entry describes. -/
def Entry.nodes (e : Entry) : Node × Node := (.scalar e.key true, .scalar e.text e.isPlain)

namespace Reader

variable (rest : List Token) (anchors : Anchors) (handles : List String)

/-- A scalar with nothing in front of it is a node. -/
theorem node?_scalar {fuel : Nat} (hfuel : 2 ≤ fuel) (inBlock unindented : Bool) (text : String)
    (isPlain : Bool) :
    node? fuel inBlock unindented ⟨.scalar text isPlain :: rest, anchors, handles⟩
      = some (.scalar text isPlain, ⟨rest, anchors, handles⟩) := by
  obtain ⟨k, rfl⟩ := Nat.exists_eq_add_of_le' hfuel
  simp [node?, content?, properties?, anchor?, tag?, next, Anchors.close]

/-- It is not taken for a missing key or value. -/
theorem nodeUnless?_scalar {fuel : Nat} (hfuel : 3 ≤ fuel) (text : String) (isPlain : Bool) :
    nodeUnless? fuel [.key, .value, .blockEnd] true true
        ⟨.scalar text isPlain :: rest, anchors, handles⟩
      = some (.scalar text isPlain, ⟨rest, anchors, handles⟩) := by
  obtain ⟨k, rfl⟩ := Nat.exists_eq_add_of_le' hfuel
  rw [nodeUnless?, if_neg (by simp [endsAt])]
  exact node?_scalar rest anchors handles (Nat.le_add_left 2 k) true true text isPlain

/-- A scalar after a colon is the value of an entry. -/
theorem blockValue?_scalar {fuel : Nat} (hfuel : 4 ≤ fuel) (text : String) (isPlain : Bool) :
    blockValue? fuel ⟨.value :: .scalar text isPlain :: rest, anchors, handles⟩
      = some (.scalar text isPlain, ⟨rest, anchors, handles⟩) := by
  obtain ⟨k, rfl⟩ := Nat.exists_eq_add_of_le' hfuel
  rw [blockValue?]
  exact nodeUnless?_scalar rest anchors handles (Nat.le_add_left 3 k) text isPlain

/-- The entries of a mapping, one after the other. -/
theorem blockEntries?_entries (entries : List Entry) :
    ∀ fuel, entries.length + 5 ≤ fuel →
      blockEntries? fuel ⟨entries.flatMap Entry.tokens ++ .blockEnd :: rest, anchors, handles⟩
        = some (entries.map Entry.nodes, ⟨rest, anchors, handles⟩) := by
  induction entries with
  | nil =>
    intro fuel hfuel
    obtain ⟨k, rfl⟩ := Nat.exists_eq_add_of_le' hfuel
    simp [blockEntries?, next]
  | cons e entries ih =>
    intro fuel hfuel
    rw [List.length_cons] at hfuel
    obtain ⟨k, rfl⟩ := Nat.exists_eq_add_of_le' (show 1 ≤ fuel by omega)
    have hkey := fun rest => nodeUnless?_scalar rest anchors handles (show 3 ≤ k by omega) e.key
      true
    have hvalue := fun rest =>
      blockValue?_scalar rest anchors handles (show 4 ≤ k by omega) e.text e.isPlain
    have hrest := ih k (by omega)
    rw [List.flatMap_cons, blockEntries?]
    simp [Entry.tokens, next, hkey, hvalue, hrest, Entry.nodes]

end Reader

/-- A text with nothing but entries describes a mapping. -/
theorem documentOf?_entries (entries : List Entry) :
    documentOf? (.blockMapping :: (entries.flatMap Entry.tokens ++ [.blockEnd]))
      = some ⟨.mapping (entries.map Entry.nodes), {}⟩ := by
  obtain ⟨k, hk, hfuel⟩ : ∃ k, entries.length + 5 ≤ k ∧
      readingFuel (.blockMapping :: (entries.flatMap Entry.tokens ++ [.blockEnd])) = k + 2 := by
    refine ⟨16 * entries.length + 14, by omega, ?_⟩
    simp only [readingFuel, List.length_cons, List.length_append, List.length_nil, length_tokens]
    omega
  have hentries := Reader.blockEntries?_entries [] {} defaultHandles entries k hk
  have hroot : Reader.node? (k + 2) true false
      ⟨.blockMapping :: (entries.flatMap Entry.tokens ++ [.blockEnd]), {}, defaultHandles⟩
      = some (.mapping (entries.map Entry.nodes), ⟨[], {}, defaultHandles⟩) := by
    simp [Reader.node?, Reader.content?, Reader.properties?, Reader.anchor?, Reader.tag?,
      Reader.next, hentries, Anchors.close]
  simp [documentOf?, hfuel, hroot]

/-- So does its text. -/
theorem parse?_entries (e : Entry) (entries : List Entry) :
    parse? (String.ofList ((e :: entries).flatMap Entry.line))
      = some ⟨.mapping ((e :: entries).map Entry.nodes), {}⟩ := by
  rw [parse?, tokens?_entries, List.cons_append]
  exact documentOf?_entries (e :: entries)

/-- A map without failures. -/
theorem mapM_eq_some {α β : Type} {f : α → Option β} {g : α → β} (h : ∀ a, f a = some (g a))
    (l : List α) : l.mapM f = some (l.map g) := by
  induction l with
  | nil => rfl
  | cons a l ih => simp [List.mapM_cons, h, ih]

/-- An entry as a field of a document. -/
def Entry.field (e : Entry) : String × Node := (e.key, .scalar e.text e.isPlain)

/-- The fields of a mapping are its entries, if all of them are asked for. -/
theorem Document.fields?_entries (d : Document) {names : List String} {entries : List Entry}
    (hnames : ∀ e ∈ entries, e.key ∈ names) (hkeys : (entries.map Entry.key).Nodup) :
    d.fields? names (.mapping (entries.map Entry.nodes)) = some (entries.map Entry.field) := by
  have hknown : (entries.map Entry.field).filter (names.contains ·.1)
    = entries.map Entry.field := by
    rw [List.filter_eq_self]
    intro f hf
    obtain ⟨e, he, rfl⟩ := List.mem_map.1 hf
    simpa [Entry.field] using hnames e he
  have hnodup : ((entries.map Entry.field).map Prod.fst).Nodup := by
    simpa [List.map_map, Function.comp_def, Entry.field] using hkeys
  simp only [fields?, resolve, List.mapM_map]
  rw [mapM_eq_some (g := Entry.field)]
  · simp only [Option.bind_eq_bind, Option.bind_some, hknown, if_pos hnodup]
  · intro e
    rfl

end XmlHighlight.Yaml
