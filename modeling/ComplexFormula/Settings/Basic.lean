import ComplexFormula.Parsing.Grammar
import ComplexFormula.Settings.Field

/-! # Settings

How formulas are compiled: how deep operands may nest, and whether constants are folded.
-/

namespace ComplexFormula

structure Settings where
  maxDepth : Int := defaultDepth
  folding : Bool := true

namespace Settings

def depthField : String := "max_depth"

def foldingField : String := "fold_constants"

def limits (s : Settings) : Limits := ⟨s.maxDepth, defaultRoom⟩

def depth (d : Datum) : Field.Checked Int := do
  let n ← Field.integer d
  Field.atLeast 1 n

/-- Settings from data for the two fields; `others` names the fields that there are not. -/
def ofFields (maxDepth folding : Option Datum) (others : List String) :
    Except (List Issue) Settings :=
  let depth := Field.optional depth defaultDepth maxDepth
  let flag := Field.optional Field.flag true folding
  match depth, flag, others with
  | .ok maxDepth, .ok folding, [] => .ok ⟨maxDepth, folding⟩
  | _, _, _ =>
    .error (Field.issues depthField depth ++ Field.issues foldingField flag ++
      others.map (⟨·, .extraForbidden⟩))

def ofTable (entries : Datum.Entries) : Except (List Issue) Settings :=
  ofFields (entries.lookup depthField) (entries.lookup foldingField)
    ((entries.map Prod.fst).filter fun key => key != depthField && key != foldingField)

end Settings

end ComplexFormula
