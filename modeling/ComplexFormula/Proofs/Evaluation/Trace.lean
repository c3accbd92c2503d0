import ComplexFormula.Proofs.Evaluation.Recursion

/-! # Traces

Evaluation with a record of the impure calls that it makes. The record is beside the caller's state
and has no influence on it.
-/

namespace ComplexFormula

variable {κ φ σ τ α β : Type}

abbrev Trace (κ φ : Type) := List (Callee κ φ × List ComplexFloat)

namespace Action

def beside (action : Action σ α) : Action (σ × τ) α := fun (s, extra) =>
  match action s with
  | .ok x s' => .ok x (s', extra)
  | .error f s' => .error f (s', extra)

/-- Without what is beside the state, the first action is the second. -/
structure Erases (a : Action (σ × τ) α) (b : Action σ α) : Prop where
  ok {s s' : σ} {x : α} (h : b s = .ok x s') (extra : τ) :
    ∃ extra', a (s, extra) = .ok x (s', extra')
  error {s s' : σ} {f : Fault} (h : b s = .error f s') (extra : τ) :
    ∃ extra', a (s, extra) = .error f (s', extra')

theorem beside_erases (b : Action σ α) : Erases (τ := τ) b.beside b where
  ok h extra := ⟨extra, by simp only [beside, h]⟩
  error h extra := ⟨extra, by simp only [beside, h]⟩

theorem pure_erases (x : α) : Erases (pure x : Action (σ × τ) α) (pure x) where
  ok h extra := by
    cases h
    exact ⟨extra, rfl⟩
  error h := nomatch h

theorem Erases.bind {a : Action (σ × τ) α} {b : Action σ α} {k : α → Action (σ × τ) β}
    {l : α → Action σ β} (h : Erases a b) (hk : ∀ x, Erases (k x) (l x)) :
    Erases (a >>= k) (b >>= l) where
  ok := by
    intro s s'' y h' extra
    obtain ⟨x, s', hb, hl⟩ := exists_of_bind_ok h'
    obtain ⟨extra', ha⟩ := h.ok hb extra
    rw [bind_ok ha]
    exact (hk x).ok hl extra'
  error := by
    intro s s'' f h' extra
    cases hb : b s with
    | ok x s' =>
      obtain ⟨extra', ha⟩ := h.ok hb extra
      rw [bind_ok ha]
      exact (hk x).error ((bind_ok hb).symm.trans h') extra'
    | error g s' =>
      obtain ⟨extra', ha⟩ := h.error hb extra
      cases (bind_error hb).symm.trans h'
      exact ⟨extra', bind_error ha⟩

theorem Erases.eq_of_eq {a a' : Action (σ × τ) α} {b b' : Action σ α} (h : Erases a b)
    (h' : Erases a' b') {s : σ} {extra : τ} (heq : a (s, extra) = a' (s, extra)) : b s = b' s := by
  cases hb : b s with
  | ok x s₁ =>
    obtain ⟨_, ha⟩ := h.ok hb extra
    cases hb' : b' s with
    | ok y s₂ =>
      obtain ⟨_, ha'⟩ := h'.ok hb' extra
      cases ha.symm.trans (heq.trans ha')
      rfl
    | error g s₂ =>
      obtain ⟨_, ha'⟩ := h'.error hb' extra
      exact nomatch ha.symm.trans (heq.trans ha')
  | error f s₁ =>
    obtain ⟨_, ha⟩ := h.error hb extra
    cases hb' : b' s with
    | ok y s₂ =>
      obtain ⟨_, ha'⟩ := h'.ok hb' extra
      exact nomatch ha.symm.trans (heq.trans ha')
    | error g s₂ =>
      obtain ⟨_, ha'⟩ := h'.error hb' extra
      cases ha.symm.trans (heq.trans ha')
      rfl

end Action

theorem Pass.run_erases {a : Pass κ φ (σ × τ) β} {b : Pass κ φ σ β}
    (hconstant : ∀ z, (a.constant z).Erases (b.constant z))
    (hcell : ∀ name c, (a.cell name c).Erases (b.cell name c))
    (hcall : ∀ callee bs, (a.call callee bs).Erases (b.call callee bs))
    (tasks : List (Task κ φ)) (results : List β) :
    (a.run tasks results).Erases (b.run tasks results) := by
  fun_induction b.run tasks results with
  | case1 results =>
    rw [run]
    exact Action.pure_erases results
  | case2 results z tasks ih =>
    rw [run]
    exact (hconstant z).bind ih
  | case3 results name c tasks ih =>
    rw [run]
    exact (hcell name c).bind ih
  | case4 results callee args tasks ih =>
    rw [run]
    exact ih
  | case5 results callee tasks ih =>
    rw [run]
    exact (hcall callee _).bind ih

namespace Formula

def tracing (host : Host κ φ σ) : Pass κ φ (σ × Trace κ φ) ComplexFloat where
  constant := pure
  cell _ c := (host.value c).beside
  call callee args := do
    unless callee.pure do
      modify fun (s, trace) => (s, trace ++ [(callee, args)])
    (host.apply callee args).beside

def evaluateTraced (host : Host κ φ σ) (t : Formula κ φ) :
    Action (σ × Trace κ φ) ComplexFloat := do
  let values ← (tracing host).run [.visit t] []
  return values.headD .notANumber

section

variable (host : Host κ φ σ) {callee : Callee κ φ} (args : List ComplexFloat)

theorem tracing_call_of_pure (h : callee.pure = true) :
    (tracing host).call callee args = (host.apply callee args).beside := by
  simp [tracing, h]

theorem tracing_call_of_impure (h : callee.pure = false) (s : σ) (trace : Trace κ φ) :
    (tracing host).call callee args (s, trace) =
      (host.apply callee args).beside (s, trace ++ [(callee, args)]) := by
  simp only [tracing, h]
  rfl

theorem tracing_call_erases (callee : Callee κ φ) :
    ((tracing host).call callee args).Erases ((evaluation host).call callee args) := by
  have hbeside : ((host.apply callee args).beside (τ := Trace κ φ)).Erases _ :=
    Action.beside_erases _
  cases hp : callee.pure with
  | true =>
    rw [tracing_call_of_pure host args hp]
    exact hbeside
  | false =>
    constructor
    · intro s s' x h trace
      rw [tracing_call_of_impure host args hp]
      exact hbeside.ok h _
    · intro s s' f h trace
      rw [tracing_call_of_impure host args hp]
      exact hbeside.error h _

end

/-- The record changes neither the value nor the fault nor the caller's state. -/
theorem evaluateTraced_erases (host : Host κ φ σ) (t : Formula κ φ) :
    (t.evaluateTraced host).Erases (t.evaluate host) :=
  (Pass.run_erases Action.pure_erases (fun _ _ => Action.beside_erases _)
    (fun callee args => tracing_call_erases host args callee) _ _).bind fun _ => Action.pure_erases _

theorem evaluateTraced_eq_result {t : Formula κ φ} (h : t.WellFormed) (host : Host κ φ σ) :
    t.evaluateTraced host = (tracing host).result t := by
  rw [evaluateTraced, Pass.run_singleton _ h]
  simp

end Formula

end ComplexFormula
