import ComplexFormula.Formula.Basic

/-! # Walks

The nodes of a formula with their depths, a node before its arguments and these from left to right.
-/

namespace ComplexFormula.Formula

variable {κ φ : Type}

abbrev Agenda (κ φ : Type) := List (Formula κ φ × Nat)

def Agenda.weight : Agenda κ φ → Nat
  | [] => 0
  | (t, _) :: rest => t.weight + Agenda.weight rest

theorem weight_pos (t : Formula κ φ) : 0 < t.weight := by
  cases t <;> simp only [weight] <;> omega

def Agenda.ofArguments (args : List (Formula κ φ)) (depth : Nat) : Agenda κ φ :=
  args.map (·, depth)

theorem Agenda.weight_append (args : List (Formula κ φ)) (depth : Nat) (rest : Agenda κ φ) :
    Agenda.weight (.ofArguments args depth ++ rest) =
      weight.weights args + Agenda.weight rest := by
  induction args with
  | nil => simp [ofArguments, weight.weights]
  | cons t ts ih =>
    rw [ofArguments] at ih
    simp only [ofArguments, List.map_cons, List.cons_append, Agenda.weight, weight.weights, ih]
    omega

def walkFrom (agenda : Agenda κ φ) : Agenda κ φ :=
  match agenda with
  | [] => []
  | (call callee args, depth) :: rest =>
    (call callee args, depth) :: walkFrom (.ofArguments args (depth + 1) ++ rest)
  | (leaf, depth) :: rest => (leaf, depth) :: walkFrom rest
termination_by agenda.weight
decreasing_by
  · rw [Agenda.weight_append]
    simp only [Agenda.weight, weight]
    omega
  · have := weight_pos leaf
    simp only [Agenda.weight]
    omega

def walk (t : Formula κ φ) : Agenda κ φ :=
  walkFrom [(t, 0)]

def nodeCount (t : Formula κ φ) : Nat :=
  t.walk.length

end ComplexFormula.Formula
