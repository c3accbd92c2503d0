import ComplexFormula.Evaluation.Host
import ComplexFormula.Formula.Walk

/-! # Passes over formulas

A pass gives each node a result from those of its arguments, which come first, from left to right.
It works off a list of tasks, so that its depth is bounded by memory alone.
-/

namespace ComplexFormula

structure Pass (κ φ σ β : Type) where
  constant : ComplexFloat → Action σ β
  cell : String → κ → Action σ β
  call : Callee κ φ → List β → Action σ β

/-- A formula to be visited, or a call whose arguments have their results. -/
inductive Task (κ φ : Type)
  | visit (t : Formula κ φ)
  | apply (callee : Callee κ φ)

namespace Task

variable {κ φ : Type}

def weight : Task κ φ → Nat
  | visit t => t.weight
  | apply _ => 1

def weights : List (Task κ φ) → Nat
  | [] => 0
  | task :: tasks => task.weight + weights tasks

def visits (args : List (Formula κ φ)) : List (Task κ φ) :=
  args.map visit

theorem weights_append (args : List (Formula κ φ)) (tasks : List (Task κ φ)) :
    weights (visits args ++ tasks) = Formula.weight.weights args + weights tasks := by
  induction args with
  | nil => simp [visits, Formula.weight.weights]
  | cons t ts ih =>
    rw [visits] at ih
    simp only [visits, List.map_cons, List.cons_append, weights, weight, Formula.weight.weights, ih]
    omega

end Task

namespace Pass

variable {κ φ σ β : Type}

/-- Works off all tasks. The results stand last first. -/
def run (pass : Pass κ φ σ β) (tasks : List (Task κ φ)) (results : List β) :
    Action σ (List β) :=
  match tasks with
  | [] => pure results
  | .visit (.constant z) :: tasks => do
    let b ← pass.constant z
    run pass tasks (b :: results)
  | .visit (.cell name c) :: tasks => do
    let b ← pass.cell name c
    run pass tasks (b :: results)
  | .visit (.call callee args) :: tasks =>
    run pass (Task.visits args ++ .apply callee :: tasks) results
  | .apply callee :: tasks => do
    let b ← pass.call callee (results.take callee.arity).reverse
    run pass tasks (b :: results.drop callee.arity)
termination_by Task.weights tasks
decreasing_by
  · simp only [Task.weights, Task.weight, Formula.weight]
    omega
  · simp only [Task.weights, Task.weight, Formula.weight]
    omega
  · rw [Task.weights_append]
    simp only [Task.weights, Task.weight, Formula.weight]
    omega
  · simp only [Task.weights, Task.weight]
    omega

end Pass

end ComplexFormula
