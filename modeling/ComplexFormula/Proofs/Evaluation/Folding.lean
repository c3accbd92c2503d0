import ComplexFormula.Proofs.Evaluation.Trace

/-! # Folding preserves meaning

A pure call that keeps what its mark promises may be made before evaluation instead of during it:
nothing that happens in between can change its value, and it changes nothing itself.
-/

namespace ComplexFormula

variable {κ φ σ : Type}

theorem Action.orUndefined_error {α : Type} (value : α) (f : Fault) :
    orUndefined value (ofExcept (.error f) : Action σ α) =
      if f.isUndefined then pure value else throw f := rfl

/-- What the callable gives depends on its arguments alone, and it leaves the caller's state. -/
def Callee.Honest (host : Host κ φ σ) (callee : Callee κ φ) : Prop :=
  ∃ g : List ComplexFloat → Except Fault Scalar, ∀ args, args.length = callee.arity →
    host.invoke callee.target args = Action.ofExcept (g args)

inductive Formula.Honest (host : Host κ φ σ) : Formula κ φ → Prop
  | constant (z : ComplexFloat) : Honest host (.constant z)
  | cell (name : String) (c : κ) : Honest host (.cell name c)
  | call {callee : Callee κ φ} {args : List (Formula κ φ)}
      (callee_honest : callee.pure = true → callee.Honest host)
      (args_honest : ∀ t ∈ args, Honest host t) : Honest host (.call callee args)

namespace Callee.Honest

variable {host : Host κ φ σ} {callee : Callee κ φ} {args : List ComplexFloat}

theorem of_primitive {p : Primitive} (h : callee.target = .primitive p) : callee.Honest host :=
  ⟨fun args => .complex <$> p.apply args, fun args _ => by rw [h, Host.invoke]⟩

theorem apply_eq (h : callee.Honest host) (hlen : args.length = callee.arity) :
    ∃ outcome : Except Fault ComplexFloat, host.apply callee args = Action.ofExcept outcome := by
  obtain ⟨g, hg⟩ := h
  rw [Host.apply, hg args hlen]
  cases g args with
  | ok x => exact ⟨x.toComplex, rfl⟩
  | error f =>
    rw [Action.orUndefined_error]
    split
    · exact ⟨(Scalar.complex .notANumber).toComplex, rfl⟩
    · exact ⟨.error f, rfl⟩

theorem apply_eq_ok (h : callee.Honest host) (hlen : args.length = callee.arity) {s s' : σ}
    {z : ComplexFloat} (hz : host.apply callee args s = .ok z s') :
    host.apply callee args = Action.ofExcept (.ok z) := by
  obtain ⟨outcome, ho⟩ := h.apply_eq hlen
  rw [ho] at hz ⊢
  cases outcome with
  | ok y =>
    cases hz
    rfl
  | error f => cases hz

end Callee.Honest

namespace Folded

theorem formula_of_constant {f : Folded κ φ} {z : ComplexFloat} (h : f.constant? = some z) :
    f.formula = .constant z := by
  rw [constant?] at h
  cases hf : f.formula with
  | constant y =>
    rw [hf] at h
    exact congrArg Formula.constant (Option.some.inj h)
  | cell name c =>
    rw [hf] at h
    cases h
  | call callee args =>
    rw [hf] at h
    cases h

theorem map_formula_of_constants {fs : List (Folded κ φ)} {values : List ComplexFloat}
    (h : fs.mapM constant? = some values) : fs.map formula = values.map .constant := by
  induction fs generalizing values with
  | nil =>
    cases h
    rfl
  | cons f fs ih =>
    simp only [List.mapM_cons, Option.bind_eq_bind, Option.bind_eq_some_iff, Option.pure_def,
      Option.some.injEq] at h
    obtain ⟨z, hz, zs, hzs, rfl⟩ := h
    rw [List.map_cons, List.map_cons, ih hzs, formula_of_constant hz]

end Folded

namespace Formula

variable {host : Host κ φ σ}

theorem foldCall_of_not_value (host : Host κ φ σ) {callee : Callee κ φ} {fs : List (Folded κ φ)}
    (h : ¬ (callee.pure = true ∧ ∃ values, fs.mapM Folded.constant? = some values)) :
    foldCall host callee fs =
      if fs.all Folded.isKept then pure (.kept (.call callee (fs.map Folded.formula)))
      else pure (.rebuilt callee (fs.map Folded.formula)) := by
  unfold foldCall
  split
  · rename_i values hpure hvalues
    exact absurd ⟨hpure, values, hvalues⟩ h
  · rfl

/-- A call is replaced by its value, or stays over the arguments as they have become. -/
theorem foldCall_cases {callee : Callee κ φ} {fs : List (Folded κ φ)} {s s' : σ} {f : Folded κ φ}
    (h : foldCall host callee fs s = .ok f s') :
    (∃ values z, callee.pure = true ∧ fs.map Folded.formula = values.map .constant ∧
        host.apply callee values s = .ok z s' ∧ f = .value z) ∨
      f.formula = .call callee (fs.map Folded.formula) := by
  by_cases hvalue : callee.pure = true ∧ ∃ values, fs.mapM Folded.constant? = some values
  · obtain ⟨hpure, values, hvalues⟩ := hvalue
    simp only [foldCall, hpure, hvalues, map_eq_pure_bind] at h
    obtain ⟨z, s₁, hz, hf⟩ := Action.exists_of_bind_ok h
    cases hf
    exact .inl ⟨values, z, hpure, Folded.map_formula_of_constants hvalues, hz, rfl⟩
  · right
    rw [foldCall_of_not_value host hvalue] at h
    split at h
    · cases h
      rfl
    · cases h
      rfl

theorem results_constants (values : List ComplexFloat) :
    Pass.result.results (tracing host) (values.map .constant) = pure values := by
  induction values with
  | nil => rfl
  | cons z values ih =>
    rw [List.map_cons, Pass.result.results, ih, Pass.result]
    rfl

/-- What folding keeps of a formula: it evaluates in the same way, and calls have their
arguments. -/
structure Keeps (host : Host κ φ σ) (t u : Formula κ φ) : Prop where
  wellFormed : u.WellFormed
  result_eq : (tracing host).result u = (tracing host).result t

theorem keeps_results {args : List (Formula κ φ)}
    (h : ∀ t ∈ args, ∀ (s : σ) (f : Folded κ φ) (s' : σ),
      (folding host).result t s = .ok f s' → Keeps host t f.formula)
    {s s' : σ} {fs : List (Folded κ φ)}
    (hfs : Pass.result.results (folding host) args s = .ok fs s') :
    (∀ u ∈ fs.map Folded.formula, u.WellFormed) ∧
      Pass.result.results (tracing host) (fs.map Folded.formula) =
        Pass.result.results (tracing host) args := by
  induction args generalizing s fs with
  | nil =>
    rw [Pass.result.results] at hfs
    cases hfs
    exact ⟨List.forall_mem_nil _, rfl⟩
  | cons t ts ih =>
    rw [Pass.result.results] at hfs
    obtain ⟨f, s₁, hf, hfs⟩ := Action.exists_of_bind_ok hfs
    obtain ⟨fs, s₂, hrest, hfs⟩ := Action.exists_of_bind_ok hfs
    cases hfs
    obtain ⟨hwf, heq⟩ := h t List.mem_cons_self _ _ _ hf
    obtain ⟨hwfs, heqs⟩ := ih (fun u hu => h u (List.mem_cons_of_mem t hu)) hrest
    constructor
    · intro u hu
      rcases List.mem_cons.mp hu with rfl | hu
      · exact hwf
      · exact hwfs u hu
    · rw [List.map_cons, Pass.result.results, Pass.result.results, heq, heqs]

theorem keeps_fold {t : Formula κ φ} (hwf : t.WellFormed) (hh : t.Honest host) {s s' : σ}
    {f : Folded κ φ} (hf : (folding host).result t s = .ok f s') : Keeps host t f.formula := by
  induction hwf generalizing s f s' with
  | constant z =>
    cases hf
    exact ⟨.constant z, rfl⟩
  | cell name c =>
    cases hf
    exact ⟨.cell name c, rfl⟩
  | @call callee args hlen hargs ih =>
    cases hh with
    | call hcallee hhargs =>
      rw [Pass.result] at hf
      obtain ⟨fs, s₁, hfs, hf⟩ := Action.exists_of_bind_ok hf
      have hcount := (folding host).length_of_results hfs
      obtain ⟨hwfs, heqs⟩ := keeps_results
        (fun t ht s f s' hf => ih t ht (hhargs t ht) hf) hfs
      rcases foldCall_cases hf with ⟨values, z, hpure, hvalues, hz, rfl⟩ | hf
      · -- the arguments are constants, so the call is made at once and in any state
        refine ⟨.constant z, ?_⟩
        have hvlen : values.length = callee.arity := by
          have := congrArg List.length hvalues
          rw [List.length_map, List.length_map] at this
          omega
        change (tracing host).result (.constant z) = _
        rw [Pass.result, Pass.result, ← heqs, hvalues, results_constants, pure_bind,
          tracing_call_of_pure host values hpure, (hcallee hpure).apply_eq_ok hvlen hz]
        rfl
      · rw [hf]
        refine ⟨.call ?_ hwfs, ?_⟩
        · rw [List.length_map, hcount, hlen]
        · rw [Pass.result, Pass.result, heqs]

/-- Evaluating the folded formula is evaluating the formula, in any state: value or fault, final
state, and the impure calls with their arguments. -/
theorem evaluate_fold {t : Formula κ φ} (hwf : t.WellFormed) (hh : t.Honest host) {s₀ s₁ : σ}
    {folded : Folded κ φ} (hf : t.fold host s₀ = .ok folded s₁) :
    (∀ s, folded.formula.evaluate host s = t.evaluate host s) ∧
      ∀ s trace, folded.formula.evaluateTraced host (s, trace) =
        t.evaluateTraced host (s, trace) := by
  rw [fold_eq_result hwf] at hf
  obtain ⟨hwf', heq⟩ := keeps_fold hwf hh hf
  have htraced : folded.formula.evaluateTraced host = t.evaluateTraced host := by
    rw [evaluateTraced_eq_result hwf', evaluateTraced_eq_result hwf, heq]
  constructor
  · intro s
    exact (evaluateTraced_erases host _).eq_of_eq (evaluateTraced_erases host t)
      (congrFun htraced (s, []))
  · intro s trace
    rw [htraced]

/-- Both functions return their argument. The one that is called `true` counts its calls. -/
def countingHost : Host Unit Bool Nat where
  read _ := return .complex .notANumber
  function counts args := do
    if counts then
      modify (· + 1)
    return .complex (args.headD .notANumber)
  closure _ _ args := return .complex (args.headD .notANumber)

def countedCall : Formula Unit Bool :=
  .call ⟨"count", .native true, 1, false⟩
    [.call ⟨"same", .native false, 1, true⟩ [.constant ⟨1.0, 0.0⟩]]

theorem evaluate_fold_countedCall :
    countedCall.WellFormed ∧ countedCall.Honest countingHost ∧
      countedCall.fold countingHost 0 =
        .ok (.rebuilt ⟨"count", .native true, 1, false⟩ [.constant ⟨1.0, 0.0⟩]) 0 ∧
      ∀ s, Formula.evaluate countingHost
        (.call ⟨"count", .native true, 1, false⟩ [.constant ⟨1.0, 0.0⟩]) s =
          countedCall.evaluate countingHost s := by
  have hwf : countedCall.WellFormed := by
    refine .call rfl fun t ht => ?_
    obtain rfl := List.mem_singleton.mp ht
    refine .call rfl fun t ht => ?_
    obtain rfl := List.mem_singleton.mp ht
    exact .constant _
  have hh : countedCall.Honest countingHost := by
    refine .call (fun h => nomatch h) fun t ht => ?_
    obtain rfl := List.mem_singleton.mp ht
    refine .call (fun _ => ⟨fun args => .ok (.complex (args.headD .notANumber)),
      fun _ _ => rfl⟩) fun t ht => ?_
    obtain rfl := List.mem_singleton.mp ht
    exact .constant _
  have hfold : countedCall.fold countingHost 0 =
      .ok (.rebuilt ⟨"count", .native true, 1, false⟩ [.constant ⟨1.0, 0.0⟩]) 0 := by
    rw [fold_eq_result hwf]
    rfl
  exact ⟨hwf, hh, hfold, (evaluate_fold hwf hh hfold).1⟩

end Formula

end ComplexFormula
