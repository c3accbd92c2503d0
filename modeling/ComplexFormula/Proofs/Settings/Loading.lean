import Mathlib.Tactic.ByContra
import ComplexFormula.Settings.Load

/-! # Where settings are found

Settings are a table: the document's own, or the one among the tables of the tools if the own one is
missing or empty. Loading comes to an end that is documented just if no other values stand where
these tables are looked for. Zeros and whatever is empty stand for nothing there.
-/

namespace ComplexFormula

namespace Datum

variable {found : Option Datum}

def tableOf : Option Datum → Entries
  | some (.table entries) => entries
  | _ => []

/-- Nothing has been found, or what counts as nothing. -/
def Vacant (found : Option Datum) : Prop :=
  ∀ d, found = some d → d.isTruthy = false

def TableOrVacant (found : Option Datum) : Prop :=
  Vacant found ∨ ∃ entries, found = some (.table entries)

theorem vacant_none : Vacant none := by
  rintro d ⟨⟩

theorem vacant_some_iff {d : Datum} : Vacant (some d) ↔ d.isTruthy = false := by
  simp [Vacant]

theorem Vacant.tableOf (h : Vacant found) : tableOf found = [] := by
  cases found with
  | none => rfl
  | some d =>
    cases d with
    | table entries =>
      have hempty : entries = [] := by simpa [isTruthy] using vacant_some_iff.mp h
      exact hempty
    | null | bool _ | int _ | float _ | text _ | moment _ | array _ => rfl

theorem TableOrVacant.vacant_of_nil (h : TableOrVacant found) (hempty : tableOf found = []) :
    Vacant found := by
  rcases h with hvacant | ⟨entries, rfl⟩
  · exact hvacant
  · obtain rfl : entries = [] := hempty
    exact vacant_some_iff.mpr rfl

theorem eq_table_of_ne_nil (h : tableOf found ≠ []) : found = some (.table (tableOf found)) := by
  cases found with
  | none => exact absurd rfl h
  | some d =>
    cases d with
    | table entries => rfl
    | null | bool _ | int _ | float _ | text _ | moment _ | array _ => exact absurd rfl h

theorem exists_truthy_of_not_vacant (h : ¬ Vacant found) :
    ∃ d, found = some d ∧ d.isTruthy = true := by
  simpa [Vacant] using h

end Datum

namespace Settings

open Datum

/-- The ends of loading that are documented: settings under which something can be parsed, or a
complaint about the document or about the settings. -/
inductive Documented : Except LoadFault Settings → Prop
  | settings {s : Settings} (depth : 1 ≤ s.maxDepth) : Documented (.ok s)
  | document (cause : Toml.Cause) : Documented (.error (.invalidDocument cause))
  | issues (issues : List Issue) : Documented (.error (.invalidSettings issues))

/-- The table of the settings: the document's own unless it is missing or empty, else the one among
those of the tools. -/
def settingsTable (document : Entries) : Entries :=
  match tableOf (document.lookup sectionName) with
  | [] => tableOf ((tableOf (document.lookup toolName)).lookup sectionName)
  | own => own

/-- What is accepted admits an operand at least. -/
def Validator.Positive (validate : Validator) : Prop :=
  ∀ entries s, validate entries = .ok s → 1 ≤ s.maxDepth

/-- Nothing but tables stands where settings are looked for. The tools are only looked at if the
document has no settings of its own, and may be missing but not just empty or zero. -/
structure Sectioned (document : Entries) : Prop where
  own : TableOrVacant (document.lookup sectionName)
  tools : Vacant (document.lookup sectionName) → ∀ d, document.lookup toolName = some d →
    ∃ tools, d = .table tools ∧ TableOrVacant (tools.lookup sectionName)

section Table

theorem one_le_of_depth {d : Datum} {n : Int} (h : depth d = .ok n) : 1 ≤ n := by
  rw [depth] at h
  cases hd : Field.integer d with
  | error kind => simp [hd, bind, Except.bind] at h
  | ok m =>
    simp only [hd, bind, Except.bind, Field.atLeast] at h
    split at h
    · cases h
    · cases h
      omega

theorem one_le_of_optional_depth {found : Option Datum} {n : Int}
    (h : Field.optional depth defaultDepth found = .ok n) : 1 ≤ n := by
  cases found with
  | none =>
    cases h
    decide
  | some d => exact one_le_of_depth h

theorem positive_ofTable : Validator.Positive ofTable := by
  intro entries s h
  simp only [ofTable, ofFields] at h
  split at h
  · rename_i hdepth _ _
    cases h
    exact one_le_of_optional_depth hdepth
  · cases h

end Table

section Document

variable {validate : Validator} {document : Entries} {found : Option Datum}

theorem section?_of_not_vacant (h : ¬ Vacant (document.lookup sectionName)) : section? document =
    .ok (document.lookup sectionName) := by
  obtain ⟨d, hd, htruthy⟩ := exists_truthy_of_not_vacant h
  simp [section?, hd, htruthy]

theorem section?_of_vacant (h : Vacant (document.lookup sectionName)) : section? document =
    toolSection? document := by
  rw [section?]
  split
  · rename_i own hown
    rw [hown, vacant_some_iff] at h
    simp [h]
  · rfl

theorem ofDocument_of_vacant (h : section? document = .ok found) (hfound : Vacant found) :
    ofDocument validate document = .ok {} := by
  simp only [ofDocument, h, bind, Except.bind]
  cases found with
  | none => rfl
  | some d => simp [vacant_some_iff.mp hfound]

theorem ofDocument_of_ne_nil (h : section? document = .ok found) (hfound : tableOf found ≠ []) :
    ofDocument validate document = (validate (tableOf found)).mapError .invalidSettings := by
  rw [eq_table_of_ne_nil hfound] at h
  simp only [ofDocument, h, bind, Except.bind]
  cases hentries : tableOf found with
  | nil => exact absurd hentries hfound
  | cons entry entries => rfl

theorem ofDocument_of_not_tableOrVacant (h : section? document = .ok found)
    (hfound : ¬ TableOrVacant found) : ofDocument validate document = .error .sectionNoTable := by
  obtain ⟨hvacant, htable⟩ := not_or.mp hfound
  obtain ⟨d, rfl, htruthy⟩ := exists_truthy_of_not_vacant hvacant
  simp only [ofDocument, h, bind, Except.bind, htruthy]
  cases d with
  | table entries => exact absurd ⟨entries, rfl⟩ htable
  | null | bool _ | int _ | float _ | text _ | moment _ | array _ => rfl

theorem not_documented_of_section (h : section? document = .ok found)
    (hfound : ¬ TableOrVacant found) : ¬ Documented (ofDocument validate document) := by
  rw [ofDocument_of_not_tableOrVacant h hfound]
  rintro ⟨⟩

theorem toolSection?_of_table {tools : Entries}
    (h : document.lookup toolName = some (.table tools)) :
    toolSection? document = .ok (tools.lookup sectionName) := by
  rw [toolSection?, h]

theorem toolSection?_of_none (h : document.lookup toolName = none) :
    toolSection? document = .ok none := by
  rw [toolSection?, h]

theorem exists_table_of_documented (hown : Vacant (document.lookup sectionName))
    (h : Documented (ofDocument validate document)) {d : Datum} (hd : document.lookup toolName = some d) :
    ∃ tools, d = .table tools := by
  rw [ofDocument, section?_of_vacant hown, toolSection?, hd] at h
  cases d with
  | table tools => exact ⟨tools, rfl⟩
  | null | bool _ | int _ | float _ | text _ | moment _ | array _ => cases h

theorem Sectioned.exists_section? (h : Sectioned document) :
    ∃ found, section? document = .ok found ∧ TableOrVacant found ∧
      settingsTable document = tableOf found := by
  by_cases hown : Vacant (document.lookup sectionName)
  · rw [settingsTable, hown.tableOf, section?_of_vacant hown]
    cases htool : document.lookup toolName with
    | none => exact ⟨none, toolSection?_of_none htool, .inl vacant_none, rfl⟩
    | some d =>
      obtain ⟨tools, rfl, hfound⟩ := h.tools hown d htool
      exact ⟨_, toolSection?_of_table htool, hfound, rfl⟩
  · refine ⟨_, section?_of_not_vacant hown, h.own, ?_⟩
    have hentries : tableOf (document.lookup sectionName) ≠ [] := mt h.own.vacant_of_nil hown
    rw [settingsTable]
    split
    · exact absurd ‹_› hentries
    · rfl

theorem Sectioned.ofDocument_of_nil (h : Sectioned document) (hempty : settingsTable document = []) :
    ofDocument validate document = .ok {} := by
  obtain ⟨found, hsection, hfound, htable⟩ := h.exists_section?
  exact ofDocument_of_vacant hsection (hfound.vacant_of_nil (htable ▸ hempty))

theorem Sectioned.ofDocument_of_ne_nil (h : Sectioned document)
    (hentries : settingsTable document ≠ []) : ofDocument validate document =
      (validate (settingsTable document)).mapError .invalidSettings := by
  obtain ⟨found, hsection, -, htable⟩ := h.exists_section?
  rw [htable] at hentries ⊢
  exact Settings.ofDocument_of_ne_nil hsection hentries

theorem Sectioned.ofDocument_ofTable (h : Sectioned document) :
    ofDocument ofTable document = (ofTable (settingsTable document)).mapError .invalidSettings := by
  by_cases hempty : settingsTable document = []
  · rw [h.ofDocument_of_nil hempty, hempty]
    rfl
  · exact h.ofDocument_of_ne_nil hempty

theorem Sectioned.documented (h : Sectioned document) (hvalidate : validate.Positive) :
    Documented (ofDocument validate document) := by
  by_cases hempty : settingsTable document = []
  · rw [h.ofDocument_of_nil hempty]
    exact .settings (by decide)
  · rw [h.ofDocument_of_ne_nil hempty]
    cases hv : validate (settingsTable document) with
    | ok s => exact .settings (hvalidate _ s hv)
    | error issues => exact .issues issues

theorem sectioned_of_documented (h : Documented (ofDocument validate document)) :
    Sectioned document := by
  constructor
  · by_contra hfound
    have hsection := section?_of_not_vacant (not_or.mp hfound).1
    exact not_documented_of_section hsection hfound h
  · intro hown d hd
    obtain ⟨tools, rfl⟩ := exists_table_of_documented hown h hd
    refine ⟨tools, rfl, ?_⟩
    by_contra hfound
    have hsection := (section?_of_vacant hown).trans (toolSection?_of_table hd)
    exact not_documented_of_section hsection hfound h

end Document

/-- Loading a document ends as documented, with the settings of their one table or a complaint about
them, if and only if there are only tables where the settings are looked for. This is so whatever
validates the table, as long as settings that it accepts admit an operand. -/
theorem load_documented_iff {text : String} {document : Entries}
    (h : Toml.read text = .ok document) :
    (∀ validate : Validator, validate.Positive →
      (Documented (ofText validate text) ↔ Sectioned document) ∧
        (Sectioned document → settingsTable document ≠ [] → ofText validate text =
          (validate (settingsTable document)).mapError .invalidSettings) ∧
        (Sectioned document → settingsTable document = [] → ofText validate text = .ok {})) ∧
      (Documented (load (some text)) ↔ Sectioned document) ∧
      (Sectioned document →
        load (some text) = (ofTable (settingsTable document)).mapError .invalidSettings) ∧
      (Sectioned document → settingsTable document = [] → load (some text) = .ok {}) := by
  have htext (validate : Validator) : ofText validate text = ofDocument validate document := by
    rw [ofText, h]
  have hload : load (some text) = ofDocument ofTable document := htext ofTable
  refine ⟨fun validate hvalidate => ?_, ?_, ?_, ?_⟩
  · rw [htext]
    exact ⟨⟨sectioned_of_documented, fun hs => hs.documented hvalidate⟩,
      Sectioned.ofDocument_of_ne_nil, Sectioned.ofDocument_of_nil⟩
  · rw [hload]
    exact ⟨sectioned_of_documented, fun hs => hs.documented positive_ofTable⟩
  · rw [hload]
    exact Sectioned.ofDocument_ofTable
  · rw [hload]
    exact Sectioned.ofDocument_of_nil

/-- An empty table, which gives way to that of the tools. -/
def twoTables : Entries :=
  [("complexpr", .table []), ("tool", .table [("complexpr", .table [("max_depth", .text "12")])])]

/-- Accepts whatever is in a table, and admits more operands the more there is. -/
def countEntries : Validator := fun entries => .ok ⟨entries.length + 1, false⟩

theorem load_documented_iff_twoTables :
    Toml.read "[complexpr]\n[tool.complexpr]\nmax_depth = '12'" = .ok twoTables ∧
      Sectioned twoTables ∧ settingsTable twoTables = [("max_depth", .text "12")] ∧
      countEntries.Positive ∧
      ofText countEntries "[complexpr]\n[tool.complexpr]\nmax_depth = '12'" = .ok ⟨2, false⟩ ∧
      Documented (load (some "[complexpr]\n[tool.complexpr]\nmax_depth = '12'")) ∧
      load (some "[complexpr]\n[tool.complexpr]\nmax_depth = '12'") = .ok ⟨12, true⟩ := by
  have hread : Toml.read "[complexpr]\n[tool.complexpr]\nmax_depth = '12'" = .ok twoTables := by rfl
  have hsectioned : Sectioned twoTables := by
    refine ⟨.inr ⟨[], rfl⟩, ?_⟩
    rintro - d ⟨⟩
    exact ⟨_, rfl, .inr ⟨_, rfl⟩⟩
  have hpositive : countEntries.Positive := by
    intro entries s h
    cases h
    exact Int.le_add_of_nonneg_left (Int.natCast_nonneg _)
  obtain ⟨hvalidate, hdocumented, htable, -⟩ := load_documented_iff hread
  obtain ⟨-, hentries, -⟩ := hvalidate countEntries hpositive
  exact ⟨hread, hsectioned, rfl, hpositive, hentries hsectioned (List.cons_ne_nil _ _),
    hdocumented.mpr hsectioned, htable hsectioned⟩

/-- Tools that are no table end the loading, though there are no settings at all, and so do settings
that are no table. -/
theorem load_escapes_numbers :
    Toml.read "tool = 3" = .ok [("tool", .int 3)] ∧ settingsTable [("tool", .int 3)] = [] ∧
      load (some "tool = 3") = .error .toolNoTable ∧ ¬ Documented (load (some "tool = 3")) ∧
      Toml.read "complexpr = 5" = .ok [("complexpr", .int 5)] ∧
      load (some "complexpr = 5") = .error .sectionNoTable ∧
      ¬ Documented (load (some "complexpr = 5")) := by
  refine ⟨by rfl, rfl, by rfl, ?_, by rfl, by rfl, ?_⟩
  · rintro ⟨⟩
  · rintro ⟨⟩

end Settings

end ComplexFormula
