import XmlHighlight.Config.Saving
import XmlHighlight.Proofs.EntryTokens

/-!
# Saved settings — what has been saved is loaded again

Anything that goes wrong while the settings are loaded makes them the defaults, so that a text that
is not read back would be lost without a word. The settings are five entries of a mapping, and each
entry is read back whatever it contains; the file is found where it has been written to.

* `FileTree.find_write` — a file is found where it has been written to;
* `Config.entries`, `Config.parse?_toYaml` — the settings as a mapping;
* `Config.ofYaml?_toYaml` — the settings are read back from their text;
* `settings_survive_saving` — and so they are from the file that they have been saved in.
-/

namespace XmlHighlight

/-! ### Files -/

namespace FileTree

/-- A file that has been put at a place is there. -/
theorem at?_put (t : FileTree) (place : List String) (content : ByteArray) :
    (t.put place content).at? place = .file content := by
  simp [at?, put]

/-- A directory remains one when a file is put somewhere else. -/
theorem at?_put_of_directory {t : FileTree} {place other : List String}
    (h : t.at? other = .directory)
    (hne : place ≠ other) (content : ByteArray) :
    (t.put place content).at? other = .directory := by
  unfold at? at h
  split at h
  · contradiction
  next hnone =>
    split at h
    next hdir =>
      have hfind : (t.put place content).files.find? (·.1 == other) = none := by
        simpa [put, hne] using hnone
      simp only [at?, hfind]
      rw [if_pos]
      simp only [put, List.any_cons, Bool.or_eq_true] at hdir ⊢
      grind
    · contradiction

/-- One step of a way that goes on from a directory. -/
theorem walk_cons_of_directory {t : FileTree} {place : List String} (h : t.at? place = .directory)
    (c : String) (rest : List String) :
    t.walk place (c :: rest) =
      if c = "" ∨ c = "." then t.walk place rest
      else if c = ".." then t.walk place.dropLast rest
      else t.walk (place ++ [c]) rest := by
  rw [walk, h]

/-- A file that has been written is found where it has been written to. -/
theorem walk_writeFrom {t t' : FileTree} {content : ByteArray} (components : List String) :
    ∀ place, t.writeFrom content place components = .ok t' →
      ∃ target, t.at? target ≠ .directory ∧ t' = t.put target content ∧
        t'.walk place components = .file content := by
  induction components with
  | nil =>
    intro place h
    simp [writeFrom] at h
  | cons c rest ih =>
    intro place h
    unfold writeFrom at h
    split at h
    next hplace =>
      -- A directory on the way is not where the file is, so that it is still there.
      have hwalk : ∀ target, t.at? target ≠ .directory →
          (t.put target content).walk place (c :: rest) = _ := fun target htarget =>
        walk_cons_of_directory
          (at?_put_of_directory hplace (by rintro rfl; exact htarget hplace) content) c rest
      by_cases hdot : c = "" ∨ c = "."
      · rw [if_pos hdot] at h
        obtain ⟨target, htarget, rfl, hrest⟩ := ih place h
        exact ⟨target, htarget, rfl, by rw [hwalk target htarget, if_pos hdot, hrest]⟩
      rw [if_neg hdot] at h
      by_cases hup : c = ".."
      · rw [if_pos hup] at h
        obtain ⟨target, htarget, rfl, hrest⟩ := ih place.dropLast h
        exact ⟨target, htarget, rfl, by rw [hwalk target htarget, if_neg hdot, if_pos hup, hrest]⟩
      rw [if_neg hup] at h
      split at h
      next =>
        -- Here the file is put, which is not where a directory is.
        split at h
        next hnew =>
          obtain rfl := Except.ok.inj h
          simp only [Bool.and_eq_true, List.isEmpty_iff, Bool.not_eq_true'] at hnew
          obtain ⟨rfl, hnew⟩ := hnew
          have htarget : t.at? (place ++ [c]) ≠ .directory := by
            intro hdir
            simp [hdir, Lookup.isDirectory] at hnew
          refine ⟨place ++ [c], htarget, rfl, ?_⟩
          rw [hwalk _ htarget, if_neg hdot, if_neg hup, walk]
          exact at?_put t _ content
        · contradiction
      next =>
        obtain ⟨target, htarget, rfl, hrest⟩ := ih (place ++ [c]) h
        exact ⟨target, htarget, rfl, by rw [hwalk target htarget, if_neg hdot, if_neg hup, hrest]⟩
    · contradiction
    · contradiction

/-- What has been written to a path is found there. -/
theorem find_write {t t' : FileTree} {path : String} {content : ByteArray}
    (h : t.write path content = .ok t') : t'.find path = .file content := by
  unfold write at h
  split at h
  · contradiction
  · obtain ⟨target, -, rfl, hwalk⟩ := walk_writeFrom _ _ h
    exact hwalk

end FileTree

/-! ### The text of the settings -/

namespace Config

/-- A setting that is a number. -/
def numberEntry (key : String) (hkey : Yaml.isKey key.toList = true) (n : Nat) : Yaml.Entry where
  key := key
  written := (decimal n).toList ++ ['\n']
  text := decimal n
  isPlain := true
  isKey := hkey
  readsAs := Yaml.readsAs_decimal n
  isAllowed := Yaml.isAllowed_decimal n

/-- The theme. -/
def themeEntry (theme : String) : Yaml.Entry where
  key := "theme"
  written := (Yaml.writeScalar theme).toList
  text := theme
  isPlain := decide (Yaml.styleOf theme = .plain)
  isKey := by decide
  readsAs := Yaml.readsAs_writeScalar theme
  isAllowed := Yaml.isAllowed_writeScalar theme

/-- The settings as entries of a mapping. -/
def entries (c : Config) : List Yaml.Entry :=
  [themeEntry c.theme,
    numberEntry "quiet_period_ms" (by decide) c.quietMs,
    numberEntry "poll_interval" (by decide) c.pollInterval,
    numberEntry "flushes_per_document" (by decide) c.flushesPerDocument,
    numberEntry "min_reporting_interval" (by decide) c.minReportingInterval]

/-- The text of the settings consists of their entries. -/
theorem toYaml_eq_entries (c : Config) :
    c.toYaml = String.ofList (c.entries.flatMap Yaml.Entry.line) := by
  simp [toYaml, entries, themeEntry, numberEntry, Yaml.Entry.line, ← String.toList_inj]

/-- The text of the settings describes a mapping. -/
theorem parse?_toYaml (c : Config) :
    Yaml.parse? c.toYaml = some ⟨.mapping (c.entries.map Yaml.Entry.nodes), {}⟩ := by
  rw [toYaml_eq_entries]
  exact Yaml.parse?_entries _ _

/-- The fields of the settings are all that their text contains. -/
theorem fields?_entries (c : Config) (d : Yaml.Document) :
    d.fields? fieldNames (.mapping (c.entries.map Yaml.Entry.nodes))
      = some (c.entries.map Yaml.Entry.field) := by
  have hkeys : c.entries.map Yaml.Entry.key = fieldNames := rfl
  apply d.fields?_entries
  · intro e he
    exact hkeys ▸ List.mem_map_of_mem he
  · rw [hkeys]
    decide

/-- The settings are read back from their text. -/
theorem ofYaml?_toYaml (c : Config)
    (hwords : ∀ n ∈ [c.quietMs, c.pollInterval, c.flushesPerDocument, c.minReportingInterval],
      n < UInt64.size) : ofYaml? c.toYaml = some c := by
  simp only [List.forall_mem_cons] at hwords
  obtain ⟨hquiet, hpoll, hflushes, hinterval, -⟩ := hwords
  have hnumber : ∀ (d : Yaml.Document) (n : Nat), n < UInt64.size →
      d.natural? UInt64.size (.scalar (decimal n) true) = some n := by
    intro d n hn
    simpa [Yaml.Document.natural?, Yaml.Document.resolve, decimal] using Yaml.unsigned?_toDigits hn
  simp only [ofYaml?, parse?_toYaml, Option.bind_eq_bind, Option.bind_some, fields?_entries]
  simp [entries, themeEntry, numberEntry, Yaml.Entry.field, List.lookup_cons, Yaml.Document.text?,
    Yaml.Document.resolve, hnumber, hquiet, hpoll, hflushes, hinterval]

/-- The settings are loaded from a file with their text. -/
theorem load_file_toYaml (c : Config)
    (hwords : ∀ n ∈ [c.quietMs, c.pollInterval, c.flushesPerDocument, c.minReportingInterval],
      n < UInt64.size) : load (.file c.toYaml.toUTF8) = c := by
  have hbytes : String.fromUTF8? c.toYaml.toUTF8 = some c.toYaml := dif_pos c.toYaml.isValidUTF8
  have htext : (Lookup.file c.toYaml.toUTF8).text = .ok c.toYaml := by
    simp only [Lookup.text, hbytes]
  rw [load, htext]
  simp [ofYaml?_toYaml c hwords]

/-- What has been saved is in the file. -/
theorem find_save {c : Config} {t t' : FileTree} {path : String} (h : c.save t path = .ok t') :
    t'.find path = .file c.toYaml.toUTF8 := by
  unfold save at h
  cases hparents : t.makeParents path with
  | error e =>
    rw [hparents] at h
    contradiction
  | ok parents =>
    rw [hparents] at h
    replace h : (parents.write path c.toYaml.toUTF8).mapError _ = .ok t' := h
    cases hwrite : parents.write path c.toYaml.toUTF8 with
    | error e =>
      rw [hwrite] at h
      contradiction
    | ok written =>
      rw [hwrite] at h
      obtain rfl : written = t' := Except.ok.inj h
      exact FileTree.find_write hwrite

end Config

/-- Settings whose numbers fit in 64-bit words survive saving, whatever the name of the theme is:
    they are read back from their text, which never falls back on the defaults, and whenever saving
    succeeds, loading from the same path gives them again. -/
theorem settings_survive_saving (c : Config)
    (hwords : ∀ n ∈ [c.quietMs, c.pollInterval, c.flushesPerDocument, c.minReportingInterval],
      n < UInt64.size) :
    Config.ofYaml? c.toYaml = some c ∧
      ∀ (t t' : FileTree) (path : String), c.save t path = .ok t' →
        t'.find path = .file c.toYaml.toUTF8 ∧ Config.load (t'.find path) = c := by
  refine ⟨Config.ofYaml?_toYaml c hwords, ?_⟩
  intro t t' path hsave
  have hfind := Config.find_save hsave
  refine ⟨hfind, ?_⟩
  rw [hfind, Config.load_file_toYaml c hwords]

/-- A theme whose name needs every care, in a directory that has to be made. -/
theorem settings_survive_saving_odd_theme :
    let c : Config := ⟨" null: 'a' # \"\u2028\t\x00\ufeff\r\n\n é: ", 0, UInt64.size - 1, 18, 4⟩
    let t : FileTree := ⟨["home"], [], [["home"]]⟩
    (∀ n ∈ [c.quietMs, c.pollInterval, c.flushesPerDocument, c.minReportingInterval],
      n < UInt64.size) ∧
    ∃ t' : FileTree, c.save t "x/../settings/./config.yaml" = .ok t' ∧
      Config.ofYaml? c.toYaml = some c ∧
      Config.load (t'.find "x/../settings/./config.yaml") = c := by
  intro c t
  have hwords : ∀ n ∈ [c.quietMs, c.pollInterval, c.flushesPerDocument, c.minReportingInterval],
      n < UInt64.size := by decide
  -- The path goes through a directory that has to be made first, and back out of it.
  have hsave : c.save t "x/../settings/./config.yaml"
      = .ok (FileTree.put ⟨["home"], [], [["home", "settings"], ["home", "x"], ["home"]]⟩
          ["home", "settings", "config.yaml"] c.toYaml.toUTF8) := by
    rfl
  obtain ⟨htext, hload⟩ := settings_survive_saving c hwords
  exact ⟨hwords, _, hsave, htext, (hload _ _ _ hsave).2⟩

end XmlHighlight
