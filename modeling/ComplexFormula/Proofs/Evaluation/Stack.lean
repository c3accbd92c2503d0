import Mathlib.Logic.Relation
import ComplexFormula.Proofs.Evaluation.Recursion

/-! # The stack of a pass

A pass taken one task at a time, until it ends or fails. On a formula whose calls have their
arguments, every call finds as many results on the stack as it takes.
-/

namespace ComplexFormula.Pass

variable {κ φ σ β : Type}

/-- Where a pass stands: what is to be done, the results there are, and the caller's state. -/
structure Stage (κ φ σ β : Type) where
  tasks : List (Task κ φ)
  results : List β
  state : σ

/-- The next task is a call, and there are fewer results than it takes. -/
def Stage.Short (a : Stage κ φ σ β) : Prop :=
  ∃ callee tasks, a.tasks = .apply callee :: tasks ∧ a.results.length < callee.arity

def Stage.first (t : Formula κ φ) (s : σ) : Stage κ φ σ β :=
  ⟨[.visit t], [], s⟩

inductive Step (pass : Pass κ φ σ β) : Stage κ φ σ β → Stage κ φ σ β → Prop
  | constant {z : ComplexFloat} {tasks : List (Task κ φ)} {results : List β} {s s' : σ} {b : β}
      (result : pass.constant z s = .ok b s') :
      Step pass ⟨.visit (.constant z) :: tasks, results, s⟩ ⟨tasks, b :: results, s'⟩
  | cell {name : String} {c : κ} {tasks : List (Task κ φ)} {results : List β} {s s' : σ} {b : β}
      (result : pass.cell name c s = .ok b s') :
      Step pass ⟨.visit (.cell name c) :: tasks, results, s⟩ ⟨tasks, b :: results, s'⟩
  | expand {callee : Callee κ φ} {args : List (Formula κ φ)} {tasks : List (Task κ φ)}
      {results : List β} {s : σ} :
      Step pass ⟨.visit (.call callee args) :: tasks, results, s⟩
        ⟨Task.visits args ++ .apply callee :: tasks, results, s⟩
  | apply {callee : Callee κ φ} {tasks : List (Task κ φ)} {results : List β} {s s' : σ} {b : β}
      (result : pass.call callee (results.take callee.arity).reverse s = .ok b s') :
      Step pass ⟨.apply callee :: tasks, results, s⟩
        ⟨tasks, b :: results.drop callee.arity, s'⟩

inductive Fails (pass : Pass κ φ σ β) : Stage κ φ σ β → Fault → σ → Prop
  | constant {z : ComplexFloat} {tasks : List (Task κ φ)} {results : List β} {s s' : σ} {f : Fault}
      (result : pass.constant z s = .error f s') :
      Fails pass ⟨.visit (.constant z) :: tasks, results, s⟩ f s'
  | cell {name : String} {c : κ} {tasks : List (Task κ φ)} {results : List β} {s s' : σ} {f : Fault}
      (result : pass.cell name c s = .error f s') :
      Fails pass ⟨.visit (.cell name c) :: tasks, results, s⟩ f s'
  | apply {callee : Callee κ φ} {tasks : List (Task κ φ)} {results : List β} {s s' : σ} {f : Fault}
      (result : pass.call callee (results.take callee.arity).reverse s = .error f s') :
      Fails pass ⟨.apply callee :: tasks, results, s⟩ f s'

abbrev Steps (pass : Pass κ φ σ β) : Stage κ φ σ β → Stage κ φ σ β → Prop :=
  Relation.ReflTransGen (Step pass)

/-- How the steps of a pass come to an end: no task is left, or one fails. -/
def Ends (pass : Pass κ φ σ β) (a : Stage κ φ σ β) : EStateM.Result Fault σ (List β) → Prop
  | .ok results s => pass.Steps a ⟨[], results, s⟩
  | .error f s => ∃ b, pass.Steps a b ∧ pass.Fails b f s

variable {pass : Pass κ φ σ β}

theorem Ends.of_step {a b : Stage κ φ σ β} {outcome : EStateM.Result Fault σ (List β)}
    (hab : pass.Step a b) (h : pass.Ends b outcome) : pass.Ends a outcome := by
  cases outcome with
  | ok results s => exact Relation.ReflTransGen.head hab h
  | error f s =>
    obtain ⟨c, hbc, hc⟩ := h
    exact ⟨c, Relation.ReflTransGen.head hab hbc, hc⟩

theorem ends_run (pass : Pass κ φ σ β) (tasks : List (Task κ φ)) (results : List β) (s : σ) :
    pass.Ends ⟨tasks, results, s⟩ (pass.run tasks results s) := by
  fun_induction pass.run tasks results generalizing s with
  | case1 results => exact .refl
  | case2 results z tasks ih =>
    cases hz : pass.constant z s with
    | ok b s' =>
      rw [Action.bind_ok hz]
      exact (ih b s').of_step (.constant hz)
    | error f s' =>
      rw [Action.bind_error hz]
      exact ⟨_, .refl, .constant hz⟩
  | case3 results name c tasks ih =>
    cases hc : pass.cell name c s with
    | ok b s' =>
      rw [Action.bind_ok hc]
      exact (ih b s').of_step (.cell hc)
    | error f s' =>
      rw [Action.bind_error hc]
      exact ⟨_, .refl, .cell hc⟩
  | case4 results callee args tasks ih => exact (ih s).of_step .expand
  | case5 results callee tasks ih =>
    cases hb : pass.call callee (results.take callee.arity).reverse s with
    | ok b s' =>
      rw [Action.bind_ok hb]
      exact (ih b s').of_step (.apply hb)
    | error f s' =>
      rw [Action.bind_error hb]
      exact ⟨_, .refl, .apply hb⟩

/-- With so many results on the stack, the calls among the tasks find theirs, and one is left. -/
inductive Supplied : Nat → List (Task κ φ) → Prop
  | finish : Supplied 1 []
  | visit {n : Nat} {t : Formula κ φ} {tasks : List (Task κ φ)} (wellFormed : t.WellFormed)
      (rest : Supplied (n + 1) tasks) : Supplied n (.visit t :: tasks)
  | apply {n : Nat} {callee : Callee κ φ} {tasks : List (Task κ φ)} (rest : Supplied (n + 1) tasks) :
      Supplied (n + callee.arity) (.apply callee :: tasks)

namespace Supplied

variable {n : Nat} {tasks : List (Task κ φ)} {a b : Stage κ φ σ β}

theorem visits {args : List (Formula κ φ)} (hargs : ∀ t ∈ args, t.WellFormed)
    (h : Supplied (n + args.length) tasks) : Supplied n (Task.visits args ++ tasks) := by
  induction args generalizing n with
  | nil => exact h
  | cons t ts ih =>
    obtain ⟨ht, hts⟩ := List.forall_mem_cons.mp hargs
    rw [List.length_cons, Nat.add_comm ts.length, ← Nat.add_assoc] at h
    exact .visit ht (ih hts h)

theorem of_visit {t : Formula κ φ} (h : Supplied n (.visit t :: tasks)) :
    t.WellFormed ∧ Supplied (n + 1) tasks := by
  cases h with
  | visit wellFormed rest => exact ⟨wellFormed, rest⟩

theorem of_apply {callee : Callee κ φ} (h : Supplied n (.apply callee :: tasks)) :
    callee.arity ≤ n ∧ Supplied (n - callee.arity + 1) tasks := by
  cases h with
  | apply rest =>
    rw [Nat.add_sub_cancel]
    exact ⟨Nat.le_add_left .., rest⟩

theorem step (hab : pass.Step a b) (h : Supplied a.results.length a.tasks) :
    Supplied b.results.length b.tasks := by
  cases hab with
  | constant | cell => exact h.of_visit.2
  | expand =>
    obtain ⟨hcall, hrest⟩ := h.of_visit
    cases hcall with
    | call length_eq args_wellFormed =>
      refine visits args_wellFormed ?_
      rw [length_eq]
      exact hrest.apply
  | apply =>
    rw [List.length_cons, List.length_drop]
    exact h.of_apply.2

theorem steps (hab : pass.Steps a b) (h : Supplied a.results.length a.tasks) :
    Supplied b.results.length b.tasks := by
  induction hab with
  | refl => exact h
  | tail _ hstep ih => exact ih.step hstep

theorem not_short (h : Supplied a.results.length a.tasks) : ¬ a.Short := by
  rintro ⟨callee, tasks, htasks, hlt⟩
  rw [htasks] at h
  exact Nat.not_lt_of_le h.of_apply.1 hlt

end Supplied

variable {t : Formula κ φ} {s : σ} {a : Stage κ φ σ β}

theorem not_short_of_steps (ht : t.WellFormed) (h : pass.Steps (.first t s) a) : ¬ a.Short :=
  (Supplied.steps h (.visit ht .finish)).not_short

end ComplexFormula.Pass
