import ComplexFormula.Diagnostic
import ComplexFormula.Evaluation.Evaluate
import ComplexFormula.Evaluation.Fold
import ComplexFormula.Formula.Printing
import ComplexFormula.Settings.Basic

/-! # Compiled formulas

Compiling gives a handle or a fault, never half of a formula. A handle may be evaluated as often as
one likes until it is released.
-/

namespace ComplexFormula

inductive CompileFault
  | malformed (fault : ParseFault)
  | outOfMemory
  /-- A pure callable has failed while constants were folded. -/
  | escaped (fault : Fault)

namespace CompileFault

/-- What the user is told; a callable's own fault is none of the compiler's. -/
def diagnostic? (source : String) : CompileFault → Option Diagnostic
  | malformed fault => some (fault.diagnostic source)
  | outOfMemory => some ⟨.allocation, "Out of memory compiling " ++ Text.quote source, none⟩
  | escaped _ => none

def ofFault : Fault → CompileFault
  | .outOfMemory => outOfMemory
  | fault => escaped fault

end CompileFault

structure Handle (κ φ : Type) where
  source : String
  root : Option (Formula κ φ)

namespace Handle

variable {κ φ σ : Type}

def released (h : Handle κ φ) : Bool :=
  h.root.isNone

def release (h : Handle κ φ) : Handle κ φ :=
  { h with root := none }

def evaluate (host : Host κ φ σ) (h : Handle κ φ) : Action σ ComplexFloat :=
  evaluateOption host h.root

def outline (h : Handle κ φ) : String :=
  match h.root with
  | some t => t.outline
  | none => ""

def describe (h : Handle κ φ) : Except Formula.TextFault String :=
  let state := match h.root with
    | some t => t.text
    | none => .ok "released"
  (fun s => "CompiledExpression(" ++ Text.quote h.source ++ ", " ++ s ++ ")") <$> state

end Handle

section

variable {κ φ σ : Type}

def prepare (host : Host κ φ σ) (folding : Bool) (t : Formula κ φ) : Action σ (Formula κ φ) :=
  if folding then Folded.formula <$> t.fold host else pure t

def compile (host : Host κ φ σ) (settings : Settings) (source : String)
    (bindings : List (Symbol κ φ)) : EStateM CompileFault σ (Handle κ φ) :=
  match parse settings.limits source bindings with
  | .error fault => throw (.malformed fault)
  | .ok t => fun s =>
    match prepare host settings.folding t s with
    | .ok root s => .ok ⟨source, some root⟩ s
    | .error fault s => .error (.ofFault fault) s

end

def emptyHost : Host Empty Empty Unit where
  read := nofun
  function := nofun
  closure := nofun

/-- The value of a formula without bindings. A text that is no formula has no number as its
value. -/
def interpret (source : String) : Except Fault ComplexFloat :=
  match compile emptyHost {} source [] () with
  | .ok h _ =>
    match h.evaluate emptyHost () with
    | .ok z _ => .ok z
    | .error fault _ => .error fault
  | .error (.escaped fault) _ => .error fault
  | .error _ _ => .ok .notANumber

end ComplexFormula
