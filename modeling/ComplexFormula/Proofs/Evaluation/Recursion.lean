import ComplexFormula.Evaluation.Evaluate
import ComplexFormula.Evaluation.Fold

/-! # Passes by recursion

On a formula whose calls have their arguments, a pass does what recursion over the formula does:
arguments from left to right, then the call.
-/

namespace ComplexFormula

variable {κ φ σ α β : Type}

namespace Action

theorem bind_ok {a : Action σ α} {k : α → Action σ β} {x : α} {s s' : σ} (h : a s = .ok x s') :
    (a >>= k) s = k x s' := by
  simp only [bind, EStateM.bind, h]

theorem bind_error {a : Action σ α} {k : α → Action σ β} {f : Fault} {s s' : σ}
    (h : a s = .error f s') : (a >>= k) s = .error f s' := by
  simp only [bind, EStateM.bind, h]

theorem exists_of_bind_ok {a : Action σ α} {k : α → Action σ β} {y : β} {s s'' : σ}
    (h : (a >>= k) s = .ok y s'') : ∃ x s', a s = .ok x s' ∧ k x s' = .ok y s'' := by
  cases ha : a s with
  | ok x s' => exact ⟨x, s', rfl, (bind_ok ha).symm.trans h⟩
  | error f s' => exact nomatch (bind_error ha).symm.trans h

theorem map_ok {a : Action σ α} {g : α → β} {x : α} {s s' : σ} (h : a s = .ok x s') :
    (g <$> a) s = .ok (g x) s' := by
  rw [map_eq_pure_bind, bind_ok h]
  rfl

theorem map_error {a : Action σ α} {g : α → β} {f : Fault} {s s' : σ} (h : a s = .error f s') :
    (g <$> a) s = .error f s' := by
  rw [map_eq_pure_bind, bind_error h]

/-- What follows an action counts only where it is reached. -/
theorem bind_congr_ok {a : Action σ α} {k k' : α → Action σ β}
    (h : ∀ s x s', a s = .ok x s' → k x s' = k' x s') : (a >>= k) = (a >>= k') := by
  funext s
  cases ha : a s with
  | ok x s' => rw [bind_ok ha, bind_ok ha, h s x s' ha]
  | error f s' => rw [bind_error ha, bind_error ha]

end Action

namespace Pass

def result (pass : Pass κ φ σ β) : Formula κ φ → Action σ β
  | .constant z => pass.constant z
  | .cell name c => pass.cell name c
  | .call callee args => do
    let bs ← results args
    pass.call callee bs
where
  results : List (Formula κ φ) → Action σ (List β)
    | [] => pure []
    | t :: ts => do
      let b ← pass.result t
      let bs ← results ts
      return b :: bs

variable (pass : Pass κ φ σ β)

theorem length_of_results {ts : List (Formula κ φ)} {bs : List β} {s s' : σ}
    (h : result.results pass ts s = .ok bs s') : bs.length = ts.length := by
  induction ts generalizing bs s s' with
  | nil =>
    rw [result.results] at h
    cases h
    rfl
  | cons t ts ih =>
    rw [result.results] at h
    obtain ⟨b, s₁, -, h⟩ := Action.exists_of_bind_ok h
    obtain ⟨bs, s₂, hbs, h⟩ := Action.exists_of_bind_ok h
    cases h
    rw [List.length_cons, List.length_cons, ih hbs]

theorem exists_of_mem_results {ts : List (Formula κ φ)} {bs : List β} {s s' : σ}
    (h : result.results pass ts s = .ok bs s') {b : β} (hb : b ∈ bs) :
    ∃ t ∈ ts, ∃ s s', pass.result t s = .ok b s' := by
  induction ts generalizing bs s s' with
  | nil =>
    rw [result.results] at h
    cases h
    cases hb
  | cons t ts ih =>
    rw [result.results] at h
    obtain ⟨b', s₁, hb', h⟩ := Action.exists_of_bind_ok h
    obtain ⟨bs', s₂, hbs', h⟩ := Action.exists_of_bind_ok h
    cases h
    rcases List.mem_cons.mp hb with rfl | hb
    · exact ⟨t, List.mem_cons_self, s, s₁, hb'⟩
    · obtain ⟨u, hu, hresult⟩ := ih hbs' hb
      exact ⟨u, List.mem_cons_of_mem t hu, hresult⟩

/-- The results of arguments are put before those there are, last first. -/
theorem run_visits {args : List (Formula κ φ)}
    (h : ∀ t ∈ args, ∀ (tasks : List (Task κ φ)) (before : List β),
      pass.run (.visit t :: tasks) before = pass.result t >>= fun b => pass.run tasks (b :: before))
    (tasks : List (Task κ φ)) (before : List β) :
    pass.run (Task.visits args ++ tasks) before =
      result.results pass args >>= fun bs => pass.run tasks (bs.reverse ++ before) := by
  induction args generalizing before with
  | nil => simp [Task.visits, result.results]
  | cons t ts ih =>
    have ih := ih fun u hu => h u (List.mem_cons_of_mem t hu)
    rw [Task.visits] at ih
    rw [Task.visits, List.map_cons, List.cons_append, h t List.mem_cons_self, result.results]
    simp only [ih, bind_assoc, pure_bind, List.reverse_cons, List.append_assoc, List.cons_append,
      List.nil_append]

theorem run_visit {t : Formula κ φ} (h : t.WellFormed) (tasks : List (Task κ φ))
    (before : List β) :
    pass.run (.visit t :: tasks) before =
      pass.result t >>= fun b => pass.run tasks (b :: before) := by
  induction h generalizing tasks before with
  | constant z => rw [run, result]
  | cell name c => rw [run, result]
  | @call callee args hlen _ ih =>
    rw [run, run_visits pass ih, result, bind_assoc]
    refine Action.bind_congr_ok fun s bs s' hbs => ?_
    have hbs : bs.reverse.length = callee.arity := by
      rw [List.length_reverse, pass.length_of_results hbs, hlen]
    rw [run, List.take_left' hbs, List.drop_left' hbs, List.reverse_reverse]

theorem run_singleton {t : Formula κ φ} (h : t.WellFormed) :
    pass.run [.visit t] [] = (fun b => [b]) <$> pass.result t := by
  rw [run_visit pass h, map_eq_pure_bind]
  simp only [run]

end Pass

namespace Formula

variable {t : Formula κ φ}

theorem evaluate_eq_result (h : t.WellFormed) (host : Host κ φ σ) :
    t.evaluate host = (evaluation host).result t := by
  rw [evaluate, Pass.run_singleton _ h]
  simp

theorem fold_eq_result (h : t.WellFormed) (host : Host κ φ σ) :
    t.fold host = (folding host).result t := by
  rw [fold, Pass.run_singleton _ h]
  simp

end Formula

end ComplexFormula
