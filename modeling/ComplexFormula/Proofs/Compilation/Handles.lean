import ComplexFormula.Compilation
import ComplexFormula.Proofs.Evaluation.Effects
import ComplexFormula.Proofs.Parsing.Nodes

/-! # What compiling gives

A handle holds a formula that is evaluated as the parsed one is, whether its constants have been
folded or not.
-/

namespace ComplexFormula

open Formula

variable {κ φ σ : Type} {host : Host κ φ σ} {settings : Settings} {source : String}
  {bindings : List (Symbol κ φ)} {t root : Formula κ φ} {s s' : σ}

theorem compile_malformed {fault : ParseFault}
    (h : parse settings.limits source bindings = .error fault) :
    compile host settings source bindings s = .error (.malformed fault) s := by
  rw [compile, h]
  rfl

theorem compile_ok (h : parse settings.limits source bindings = .ok t)
    (hp : prepare host settings.folding t s = .ok root s') :
    compile host settings source bindings s = .ok ⟨source, some root⟩ s' := by
  rw [compile, h]
  simp only [hp]

theorem compile_escaped {fault : Fault} (h : parse settings.limits source bindings = .ok t)
    (hp : prepare host settings.folding t s = .error fault s') :
    compile host settings source bindings s = .error (.ofFault fault) s' := by
  rw [compile, h]
  simp only [hp]

theorem exists_of_compile_ok {handle : Handle κ φ}
    (h : compile host settings source bindings s = .ok handle s') :
    ∃ t root, parse settings.limits source bindings = .ok t ∧
      prepare host settings.folding t s = .ok root s' ∧ handle = ⟨source, some root⟩ := by
  cases hparse : parse settings.limits source bindings with
  | error fault => exact nomatch (compile_malformed hparse).symm.trans h
  | ok t =>
    cases hp : prepare host settings.folding t s with
    | error fault s₁ => exact nomatch (compile_escaped hparse hp).symm.trans h
    | ok root s₁ =>
      cases (compile_ok hparse hp).symm.trans h
      exact ⟨t, root, rfl, hp, rfl⟩

/-- What is prepared for evaluation takes the course that the formula takes as it was. -/
theorem course_of_prepare (hwf : t.WellFormed) (hh : t.Honest host) {folding : Bool}
    (hp : prepare host folding t s = .ok root s') :
    root.WellFormed ∧ ∀ s₁, (root.course host s₁).Alike (t.course host s₁) := by
  cases folding with
  | false =>
    cases hp
    exact ⟨hwf, fun s₁ => .refl _⟩
  | true =>
    rw [prepare, if_pos rfl] at hp
    cases hf : t.fold host s with
    | error f s₁ => exact nomatch (Action.map_error hf).symm.trans hp
    | ok folded s₁ =>
      cases (Action.map_ok hf).symm.trans hp
      rw [fold_eq_result hwf] at hf
      exact ⟨(keeps_fold hwf hh hf).wellFormed, course_fold hwf hh hf⟩

theorem evaluate_of_prepare (hwf : t.WellFormed) (hh : t.Honest host) {folding : Bool}
    (hp : prepare host folding t s = .ok root s') (s₁ : σ) :
    root.evaluate host s₁ = Action.ofExcept (t.course host s₁).outcome (t.course host s₁).state := by
  obtain ⟨hroot, halike⟩ := course_of_prepare hwf hh hp
  rw [evaluate_eq_course host hroot, (halike s₁).outcome_eq, (halike s₁).state_eq]

end ComplexFormula
