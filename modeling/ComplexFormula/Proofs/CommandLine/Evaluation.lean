import Mathlib.Data.List.Forall2
import ComplexFormula.CommandLine.Report
import ComplexFormula.Proofs.Compilation.Interpretation

/-! # Evaluation on the command line

What comes of the command that evaluates an expression is told by the variables that are given and
by the formula, and by nothing else.
-/

namespace ComplexFormula

section Names

variable {κ φ : Type} {name : String}

theorem Symbol.ofCell_of_identifier (h : isIdentifier name = true) (c : κ) :
    (ofCell name c : Except (List Issue) (Symbol κ φ)) = .ok (.cell name c) := by
  simp only [ofCell, ofFields, Field.required, Field.identifier, if_pos h]
  rfl

theorem Symbol.ofCell_of_not_identifier (h : ¬ isIdentifier name = true) (c : κ) :
    ∃ issues, (ofCell name c : Except (List Issue) (Symbol κ φ)) = .error issues := by
  simp only [ofCell, ofFields, Field.required, Field.identifier, if_neg h]
  exact ⟨_, rfl⟩

end Names

namespace CommandLine

section Splitting

variable {before after cs : List Char}

theorem splitEquals_first (h : '=' ∉ before) (after : List Char) :
    splitEquals (before ++ '=' :: after) = (before, some after) := by
  have hbefore : ∀ c ∈ before, (c != '=') = true := by
    intro c hc
    rw [bne_iff_ne]
    rintro rfl
    exact h hc
  rw [splitEquals, List.dropWhile_append_of_pos hbefore, List.takeWhile_append_of_pos hbefore]
  simp

theorem splitEquals_cases (cs : List Char) :
    (∃ before after, cs = before ++ '=' :: after ∧ '=' ∉ before) ∨ splitEquals cs = (cs, none) := by
  cases hd : cs.dropWhile (· != '=') with
  | nil => exact .inr (by rw [splitEquals, hd])
  | cons c after =>
    have hc : c = '=' := by
      have hhead := List.head?_dropWhile_not (· != '=') cs
      rw [hd] at hhead
      simpa using hhead
    refine .inl ⟨cs.takeWhile (· != '='), after, ?_, ?_⟩
    · rw [hc] at hd
      rw [← hd, List.takeWhile_append_dropWhile]
    · intro hmem
      have := List.mem_takeWhile_imp hmem
      simp at this

end Splitting

/-- The argument gives a variable a value: it has the name, a first equals sign, and a formula
without bindings. -/
inductive Assigns : String → String → ComplexFloat → Prop
  | given {before source : String} {t : Formula Empty Empty} {z : ComplexFloat}
      (first : '=' ∉ before.toList) (identifier : isIdentifier (trimmed before) = true)
      (parsed : parse ⟨100, defaultRoom⟩ source [] = .ok t)
      (value : (t.course emptyHost ()).outcome = .ok z) :
      Assigns (before ++ "=" ++ source) (trimmed before) z

def AssignsNothing (spec : String) : Prop :=
  ∀ name z, ¬ Assigns spec name z

theorem assignsNothing_or_exists_assigns (spec : String) :
    AssignsNothing spec ∨ ∃ name z, Assigns spec name z := by
  by_cases h : AssignsNothing spec
  · exact .inl h
  · simp only [AssignsNothing, not_forall, not_not] at h
    exact .inr h

section Variables

variable {spec name source : String} {z : ComplexFloat}

theorem variableValue_of_parse {t : Formula Empty Empty} (name : String)
    (h : parse ⟨100, defaultRoom⟩ source [] = .ok t) :
    ∃ z, (t.course emptyHost ()).outcome = .ok z ∧ variableValue name source = .ok z := by
  have hlimits : parse (Settings.limits {}) source [] = .ok t := h
  obtain ⟨z, handle, hz, hcompile, hvalue⟩ :=
    exists_compile_ok (List.forall_mem_nil _) hlimits ()
  refine ⟨z, hz, ?_⟩
  unfold variableValue
  simp only [hcompile, hvalue]

theorem variableValue_malformed {fault : ParseFault} (name : String)
    (h : parse ⟨100, defaultRoom⟩ source ([] : List (Symbol Empty Empty)) = .error fault) :
    ∃ message, variableValue name source = .error (.badVariable message) := by
  have hcompile : compile emptyHost {} source [] () = .error (.malformed fault) () :=
    compile_malformed h
  unfold variableValue
  simp only [hcompile, CompileFault.diagnostic?]
  exact ⟨_, rfl⟩

theorem toList_assignment (before source : String) :
    (before ++ "=" ++ source).toList = before.toList ++ '=' :: source.toList := by
  simp

theorem variableOf_blank {before : String} (hfirst : '=' ∉ before.toList)
    (hblank : (trimmed before).isEmpty = true) (source : String) :
    variableOf (before ++ "=" ++ source) =
      .error (.badVariable ("Expected name=value, got " ++
        Text.quote (before ++ "=" ++ source))) := by
  unfold variableOf
  simp only [toList_assignment, splitEquals_first hfirst, String.ofList_toList, if_pos hblank]

theorem variableOf_value {before : String} (hfirst : '=' ∉ before.toList)
    (hname : ¬ (trimmed before).isEmpty = true) (source : String) :
    variableOf (before ++ "=" ++ source) =
      variableValue (trimmed before) source >>= fun z =>
        ((Symbol.ofCell (trimmed before) (Cell.of z)).mapError fun _ =>
          .badVariable ("Invalid variable name " ++ Text.quote (trimmed before))) := by
  unfold variableOf
  simp only [toList_assignment, splitEquals_first hfirst, String.ofList_toList, if_neg hname]
  refine bind_congr fun z => ?_
  cases (Symbol.ofCell (trimmed before) (Cell.of z) : Except _ (Symbol Cell Empty)) <;> rfl

theorem not_isEmpty_of_identifier (h : isIdentifier name = true) : ¬ name.isEmpty = true := by
  intro hempty
  obtain rfl := String.isEmpty_iff.mp hempty
  cases h

theorem variableOf_of_assigns (h : Assigns spec name z) :
    variableOf spec = .ok (.cell name (.of z)) := by
  obtain ⟨hfirst, hidentifier, hparse, hz⟩ := h
  obtain ⟨y, hy, hvalue⟩ := variableValue_of_parse _ hparse
  cases hz.symm.trans hy
  rw [variableOf_value hfirst (not_isEmpty_of_identifier hidentifier), hvalue]
  simp only [bind, Except.bind, Symbol.ofCell_of_identifier hidentifier, Except.mapError]

theorem exists_badVariable (h : AssignsNothing spec) :
    ∃ message, variableOf spec = .error (.badVariable message) := by
  rcases splitEquals_cases spec.toList with ⟨before, source, hspec, hfirst⟩ | hnone
  · obtain ⟨before, rfl⟩ : ∃ s : String, s.toList = before := ⟨.ofList before, by simp⟩
    obtain ⟨source, rfl⟩ : ∃ s : String, s.toList = source := ⟨.ofList source, by simp⟩
    obtain rfl : spec = before ++ "=" ++ source := by
      rw [← String.toList_inj, hspec, toList_assignment]
    by_cases hblank : (trimmed before).isEmpty = true
    · exact ⟨_, variableOf_blank hfirst hblank source⟩
    rw [variableOf_value hfirst hblank]
    cases hparse : parse ⟨100, defaultRoom⟩ source ([] : List (Symbol Empty Empty)) with
    | error fault =>
      obtain ⟨message, hvalue⟩ := variableValue_malformed _ hparse
      rw [hvalue]
      exact ⟨message, rfl⟩
    | ok t =>
      obtain ⟨z, hz, hvalue⟩ := variableValue_of_parse _ hparse
      rw [hvalue]
      by_cases hidentifier : isIdentifier (trimmed before) = true
      · exact absurd (.given hfirst hidentifier hparse hz) (h _ z)
      · obtain ⟨issues, hissues⟩ : ∃ issues,
            (Symbol.ofCell (trimmed before) (Cell.of z) : Except _ (Symbol Cell Empty)) =
              .error issues := Symbol.ofCell_of_not_identifier hidentifier _
        refine ⟨"Invalid variable name " ++ Text.quote (trimmed before), ?_⟩
        simp only [bind, Except.bind, hissues, Except.mapError]
  · refine ⟨"Expected name=value, got " ++ Text.quote spec, ?_⟩
    unfold variableOf
    simp only [hnone]

def cells (vars : List (String × ComplexFloat)) : List (Symbol Cell Empty) :=
  vars.map fun v => .cell v.1 (.of v.2)

theorem mapM_variableOf_of_assigns {specs : List String} {vars : List (String × ComplexFloat)}
    (h : List.Forall₂ (fun spec v => Assigns spec v.1 v.2) specs vars) :
    specs.mapM variableOf = .ok (cells vars) := by
  induction h with
  | nil => rfl
  | cons hspec _ ih =>
    rw [List.mapM_cons, variableOf_of_assigns hspec, ih]
    rfl

theorem cells_injective : Function.Injective cells := by
  refine List.map_injective_iff.mpr ?_
  rintro ⟨name, z⟩ ⟨name', z'⟩ h
  cases h
  rfl

theorem vars_unique {specs : List String} {vars vars' : List (String × ComplexFloat)}
    (h : List.Forall₂ (fun spec v => Assigns spec v.1 v.2) specs vars)
    (h' : List.Forall₂ (fun spec v => Assigns spec v.1 v.2) specs vars') : vars = vars' :=
  cells_injective (Except.ok.inj
    ((mapM_variableOf_of_assigns h).symm.trans (mapM_variableOf_of_assigns h')))

theorem exists_badVariable_of_mem {specs : List String}
    (h : ∃ spec ∈ specs, AssignsNothing spec) :
    ∃ message, specs.mapM variableOf = .error (.badVariable message) := by
  induction specs with
  | nil =>
    obtain ⟨bad, hmem, -⟩ := h
    cases hmem
  | cons spec specs ih =>
    rw [List.mapM_cons]
    rcases assignsNothing_or_exists_assigns spec with hspec | ⟨name, z, hspec⟩
    · obtain ⟨message, hmessage⟩ := exists_badVariable hspec
      rw [hmessage]
      exact ⟨message, rfl⟩
    · obtain ⟨bad, hmem, hbad⟩ := h
      rcases List.mem_cons.mp hmem with rfl | hmem
      · exact absurd hspec (hbad name z)
      · obtain ⟨message, hmessage⟩ := ih ⟨bad, hmem, hbad⟩
        rw [variableOf_of_assigns hspec, hmessage]
        exact ⟨message, rfl⟩

theorem assigns_or_exists_assignsNothing (specs : List String) :
    (∃ spec ∈ specs, AssignsNothing spec) ∨
      ∃ vars, List.Forall₂ (fun spec (v : String × ComplexFloat) => Assigns spec v.1 v.2)
        specs vars := by
  induction specs with
  | nil => exact .inr ⟨[], .nil⟩
  | cons spec specs ih =>
    rcases assignsNothing_or_exists_assigns spec with hspec | ⟨name, z, hspec⟩
    · exact .inl ⟨spec, List.mem_cons_self, hspec⟩
    · rcases ih with ⟨bad, hmem, hbad⟩ | ⟨vars, hvars⟩
      · exact .inl ⟨bad, List.mem_cons_of_mem _ hmem, hbad⟩
      · exact .inr ⟨(name, z) :: vars, .cons hspec hvars⟩

theorem resolve?_cells (name : String) (vars : List (String × ComplexFloat)) :
    Symbol.resolve? name (cells vars) =
      match vars.lookup name with
      | some z => some (.cell name (.of z))
      | none => Symbol.findBuiltin? name := by
  have hfind : Symbol.findBinding? name (cells vars) =
      (vars.lookup name).map fun z => .cell name (.of z) := by
    induction vars with
    | nil => rfl
    | cons v vars ih =>
      obtain ⟨key, z⟩ := v
      have hcells : cells ((key, z) :: vars) = .cell key (.of z) :: cells vars := rfl
      rw [hcells, Symbol.findBinding?, List.find?_cons, ← Symbol.findBinding?, ih, List.lookup_cons]
      by_cases hkey : key = name
      · subst hkey
        simp [Symbol.name]
      · simp [Symbol.name, beq_eq_false_iff_ne.mpr hkey, beq_eq_false_iff_ne.mpr (Ne.symm hkey)]
  rw [Symbol.resolve?, hfind]
  cases vars.lookup name <;> rfl

end Variables

def Outcome.report (outcome : Outcome) : Nat × String × String :=
  (outcome.exitCode, outcome.output, outcome.complaint)

def syntaxReport (source : String) (fault : ParseFault) : String :=
  let context : SourceContext := ⟨source, fault.offset⟩
  "Syntax error at offset " ++ toString fault.offset ++ ": " ++ fault.message ++ "\n" ++
    context.render ++ "\n"

namespace Invocation

variable {inv : Invocation} {file : FileState} {settings : Settings}

theorem run_of_badVariable (hsettings : loadSettings inv.config file = .ok settings)
    {message : String} (h : inv.assignments.mapM variableOf = .error (.badVariable message)) :
    inv.run file = .badVariable message := by
  have hattempt : inv.attempt file = .error (.badVariable message) := by
    rw [attempt, hsettings, h]
    rfl
  rw [run, hattempt]

theorem exists_run_eq (hsettings : loadSettings inv.config file = .ok settings)
    {bindings : List (Symbol Cell Empty)}
    (hvars : inv.assignments.mapM variableOf = .ok bindings) :
    ∃ settings' : Settings, settings'.limits = settings.limits ∧
      inv.run file =
        match compile host settings' inv.expression bindings () with
        | .ok h _ => answer inv.command h
        | .error fault _ => reportCompileFault inv.expression fault := by
  refine ⟨if inv.unfolded then { settings with folding := false } else settings, ?_, ?_⟩
  · split <;> rfl
  · rw [run, attempt, hsettings, hvars]
    simp only [bind, Except.bind]
    cases compile host _ inv.expression bindings () <;> rfl

variable {vars : List (String × ComplexFloat)}

theorem run_of_parse_error (hsettings : loadSettings inv.config file = .ok settings)
    (hvars : inv.assignments.mapM variableOf = .ok (cells vars)) {fault : ParseFault}
    (h : parse settings.limits inv.expression (cells vars) = .error fault) :
    inv.run file = .badFormula (syntaxReport inv.expression fault) := by
  obtain ⟨settings', hlimits, hrun⟩ := exists_run_eq hsettings hvars
  rw [← hlimits] at h
  rw [hrun, compile_malformed h]
  rfl

/-- A formula has one value, which is printed whether its constants have been folded or not. -/
theorem run_of_parse_ok (hcommand : inv.command = .evaluate)
    (hsettings : loadSettings inv.config file = .ok settings)
    (hvars : inv.assignments.mapM variableOf = .ok (cells vars)) {t : Formula Cell Empty}
    (h : parse settings.limits inv.expression (cells vars) = .ok t) :
    ∃ z, (t.course host ()).outcome = .ok z ∧ inv.run file = .printed (z.display ++ "\n") := by
  obtain ⟨settings', hlimits, hrun⟩ := exists_run_eq hsettings hvars
  rw [← hlimits] at h
  have hcells : ∀ b ∈ cells vars,
      b.Meets (fun _ c => ∃ z, host.value c = Action.ofExcept (.ok z)) Callee.Standard := by
    intro b hb
    obtain ⟨v, -, rfl⟩ := List.mem_map.mp hb
    exact ⟨v.2, rfl⟩
  obtain ⟨z, handle, hz, hcompile, hvalue⟩ := exists_compile_ok hcells h ()
  refine ⟨z, hz, ?_⟩
  rw [hrun, hcompile]
  simp only [answer, hcommand, hvalue]

theorem run_eq_of_limits (hcommand : inv.command = .evaluate)
    (hsettings : loadSettings inv.config file = .ok settings) {file' : FileState}
    {settings' : Settings} (hsettings' : loadSettings inv.config file' = .ok settings')
    (hlimits : settings'.limits = settings.limits) : inv.run file' = inv.run file := by
  rcases assigns_or_exists_assignsNothing inv.assignments with hbad | ⟨vars, hvars⟩
  · obtain ⟨message, hmessage⟩ := exists_badVariable_of_mem hbad
    rw [run_of_badVariable hsettings hmessage, run_of_badVariable hsettings' hmessage]
  have hcells := mapM_variableOf_of_assigns hvars
  cases h : parse settings.limits inv.expression (cells vars) with
  | error fault =>
    rw [run_of_parse_error hsettings hcells h,
      run_of_parse_error hsettings' hcells (hlimits ▸ h)]
  | ok t =>
    obtain ⟨z, hz, hrun⟩ := run_of_parse_ok hcommand hsettings hcells h
    obtain ⟨z', hz', hrun'⟩ := run_of_parse_ok hcommand hsettings' hcells (hlimits ▸ h)
    cases hz.symm.trans hz'
    rw [hrun, hrun']

/-- What an evaluation reports: a variable that is no such thing, whatever the expression; else what
is wrong with the expression; else the outcome of its course over the variables. Nothing else can
happen, and whether constants are folded does not matter. -/
theorem run_evaluate (hcommand : inv.command = .evaluate)
    (hsettings : loadSettings inv.config file = .ok settings) :
    ((∃ spec ∈ inv.assignments, AssignsNothing spec) ∧
        (∃ complaint, ∀ expression,
          ({ inv with expression := expression }.run file).report = (2, "", complaint)) ∨
      ∃ vars, List.Forall₂ (fun spec v => Assigns spec v.1 v.2) inv.assignments vars ∧
        (∀ name, Symbol.resolve? name (cells vars) =
          match vars.lookup name with
          | some z => some (.cell name (.of z))
          | none => Symbol.findBuiltin? name) ∧
        match parse settings.limits inv.expression (cells vars) with
        | .error fault => (inv.run file).report = (1, "", syntaxReport inv.expression fault)
        | .ok t => ∃ z, (t.course host ()).outcome = .ok z ∧
            (inv.run file).report = (0, z.display ++ "\n", "")) ∧
      (∀ crash, inv.run file ≠ .crashed crash) ∧
      ∀ file' settings', loadSettings inv.config file' = .ok settings' →
        settings'.maxDepth = settings.maxDepth → inv.run file' = inv.run file := by
  have hfolding (file' : FileState) (settings' : Settings)
      (hsettings' : loadSettings inv.config file' = .ok settings')
      (hdepth : settings'.maxDepth = settings.maxDepth) : inv.run file' = inv.run file :=
    run_eq_of_limits hcommand hsettings hsettings' (by rw [Settings.limits, hdepth]; rfl)
  rcases assigns_or_exists_assignsNothing inv.assignments with hbad | ⟨vars, hvars⟩
  · obtain ⟨message, hmessage⟩ := exists_badVariable_of_mem hbad
    have hrun (expression : String) :
        { inv with expression := expression }.run file = .badVariable message := by
      have hconfig : { inv with expression := expression }.config = inv.config := rfl
      rw [← hconfig] at hsettings
      exact run_of_badVariable hsettings hmessage
    refine ⟨.inl ⟨hbad, _, fun expression => congrArg Outcome.report (hrun expression)⟩, ?_,
      hfolding⟩
    intro crash hcrash
    exact nomatch (hrun inv.expression).symm.trans hcrash
  have hcells := mapM_variableOf_of_assigns hvars
  have hresolve (name : String) := resolve?_cells name vars
  cases h : parse settings.limits inv.expression (cells vars) with
  | error fault =>
    have hrun := run_of_parse_error hsettings hcells h
    refine ⟨.inr ⟨vars, hvars, hresolve, ?_⟩, ?_, hfolding⟩
    · rw [h]
      exact congrArg Outcome.report hrun
    · intro crash hcrash
      exact nomatch hrun.symm.trans hcrash
  | ok t =>
    obtain ⟨z, hz, hrun⟩ := run_of_parse_ok hcommand hsettings hcells h
    refine ⟨.inr ⟨vars, hvars, hresolve, ?_⟩, ?_, hfolding⟩
    · rw [h]
      exact ⟨z, hz, congrArg Outcome.report hrun⟩
    · intro crash hcrash
      exact nomatch hrun.symm.trans hcrash

theorem loadSettings_missing (path : String) : loadSettings path .missing = .ok {} := rfl

def unfinished : Invocation := ⟨.evaluate, "-(", [], none, false⟩

/-- A variable that is given twice, under the name of a builtin. -/
def shadowing : Invocation := ⟨.evaluate, "pi*pi+1", ["pi = 1+1", "pi=9"], none, false⟩

/-- What breaks off is reported with its place. Of the values that a name is given the first
counts, and the builtin does not. -/
theorem run_evaluate_shadowing :
    unfinished.command = .evaluate ∧ loadSettings unfinished.config .missing = .ok {} ∧
      (unfinished.run .missing).report =
        (1, "", "Syntax error at offset 2: Unexpected end of expression\n  -(\n   ^\n") ∧
      shadowing.command = .evaluate ∧ loadSettings shadowing.config .missing = .ok {} ∧
      Assigns "pi = 1+1" "pi" ⟨2.0, 0.0⟩ ∧ Assigns "pi=9" "pi" ⟨9.0, 0.0⟩ ∧
      (shadowing.run .missing).report = (0, "5.000000\n", "") := by
  have hcommand : unfinished.command = .evaluate := rfl
  have hsettings := loadSettings_missing unfinished.config
  have hcommand' : shadowing.command = .evaluate := rfl
  have hsettings' := loadSettings_missing shadowing.config
  have htwo : Assigns "pi = 1+1" "pi" ⟨2.0, 0.0⟩ :=
    @Assigns.given "pi " " 1+1" (.binary .add (.constant ⟨1.0, 0.0⟩) (.constant ⟨1.0, 0.0⟩)) _
      (by decide) (by decide) (by rfl) (by rfl)
  have hnine : Assigns "pi=9" "pi" ⟨9.0, 0.0⟩ :=
    @Assigns.given "pi" "9" (.constant ⟨9.0, 0.0⟩) _ (by decide) (by decide) (by rfl) (by rfl)
  refine ⟨hcommand, hsettings, ?_, hcommand', hsettings', htwo, hnine, ?_⟩
  · obtain ⟨⟨⟨spec, hspec, -⟩, -⟩ | ⟨vars, hvars, -, hreport⟩, -, -⟩ :=
      run_evaluate hcommand hsettings
    · exact nomatch hspec
    cases hvars
    have hparse : parse (Settings.limits {}) unfinished.expression (cells []) =
        .error ⟨.unexpected none, 2⟩ := by rfl
    have hsyntax : syntaxReport unfinished.expression ⟨.unexpected none, 2⟩ =
        "Syntax error at offset 2: Unexpected end of expression\n  -(\n   ^\n" := by
      decide +kernel
    rw [hparse] at hreport
    rw [hreport, hsyntax]
  · obtain ⟨⟨⟨spec, hspec, hnothing⟩, -⟩ | ⟨vars, hvars, -, hreport⟩, -, -⟩ :=
      run_evaluate hcommand' hsettings'
    · rcases List.mem_pair.mp hspec with rfl | rfl
      · exact absurd htwo (hnothing _ _)
      · exact absurd hnine (hnothing _ _)
    obtain rfl : vars = [("pi", ⟨2.0, 0.0⟩), ("pi", ⟨9.0, 0.0⟩)] :=
      vars_unique hvars (.cons htwo (.cons hnine .nil))
    have hparse : parse (Settings.limits {}) shadowing.expression
        (cells [("pi", ⟨2.0, 0.0⟩), ("pi", ⟨9.0, 0.0⟩)]) =
          .ok (.binary .add
            (.binary .mul (.cell "pi" (.of ⟨2.0, 0.0⟩)) (.cell "pi" (.of ⟨2.0, 0.0⟩)))
            (.constant ⟨1.0, 0.0⟩)) := by rfl
    rw [hparse] at hreport
    obtain ⟨z, hz, hreport⟩ := hreport
    obtain rfl : (⟨5.0, 0.0⟩ : ComplexFloat) = z := Except.ok.inj hz
    have hdisplay : ComplexFloat.display ⟨5.0, 0.0⟩ = "5.000000" := by decide +kernel
    rw [hreport, hdisplay]
    rfl

end Invocation

end CommandLine

end ComplexFormula
