import ComplexFormula.Proofs.Evaluation.Folding

/-! # Closed formulas

A formula that reads no cell and makes pure calls only is folded to a single constant, its value. So
folding evaluates any formula of pure calls, once the contents of its cells are put in their place.
-/

namespace ComplexFormula

variable {κ φ σ : Type}

namespace Action

variable {α β γ δ : Type} {a : Action σ α} {b : Action σ β}

/-- Actions that have become equal end alike: with values of which the same has been made, or with
the same fault. -/
theorem cases_of_map_eq {g : α → γ} {h : β → γ} (hab : g <$> a = h <$> b) (s : σ) :
    (∃ x y s', a s = .ok x s' ∧ b s = .ok y s' ∧ g x = h y) ∨
      ∃ f s', a s = .error f s' ∧ b s = .error f s' := by
  have hs := congrFun hab s
  cases ha : a s with
  | ok x s₁ =>
    cases hb : b s with
    | ok y s₂ =>
      rw [map_ok ha, map_ok hb] at hs
      injection hs with hxy hs
      exact .inl ⟨x, y, s₁, rfl, by rw [hs], hxy⟩
    | error f s₂ => exact nomatch (map_ok ha).symm.trans (hs.trans (map_error hb))
  | error f s₁ =>
    cases hb : b s with
    | ok y s₂ => exact nomatch (map_error ha).symm.trans (hs.trans (map_ok hb))
    | error f' s₂ =>
      rw [map_error ha, map_error hb] at hs
      injection hs with hf hs
      exact .inr ⟨f, s₁, rfl, by rw [hf, hs]⟩

theorem bind_eq_of_map_eq {g : α → γ} {h : β → γ} {k : α → Action σ δ} {l : β → Action σ δ}
    (hab : g <$> a = h <$> b) (hkl : ∀ x y, g x = h y → k x = l y) : a >>= k = b >>= l := by
  funext s
  rcases cases_of_map_eq hab s with ⟨x, y, s', ha, hb, hxy⟩ | ⟨f, s', ha, hb⟩
  · rw [bind_ok ha, bind_ok hb, hkl x y hxy]
  · rw [bind_error ha, bind_error hb]

end Action

namespace Formula

inductive Every (cells : String → κ → Prop) (callees : Callee κ φ → Prop) : Formula κ φ → Prop
  | constant (z : ComplexFloat) : Every cells callees (.constant z)
  | cell {name : String} {c : κ} (cell_holds : cells name c) : Every cells callees (.cell name c)
  | call {callee : Callee κ φ} {args : List (Formula κ φ)} (callee_holds : callees callee)
      (args_every : ∀ t ∈ args, Every cells callees t) : Every cells callees (.call callee args)

theorem Every.imp {cells cells' : String → κ → Prop} {callees callees' : Callee κ φ → Prop}
    {t : Formula κ φ} (h : t.Every cells callees) (hcells : ∀ name c, cells name c → cells' name c)
    (hcallees : ∀ callee, callees callee → callees' callee) : t.Every cells' callees' := by
  induction h with
  | constant z => exact .constant z
  | cell hc => exact .cell (hcells _ _ hc)
  | call hc _ ih => exact .call (hcallees _ hc) ih

/-- Nothing in the formula depends on the caller's state: it has no cells, and pure calls only. -/
def Closed (t : Formula κ φ) : Prop :=
  t.Every (fun _ _ => False) fun callee => callee.pure = true

section Closed

variable (host : Host κ φ σ)

theorem foldCall_constants {callee : Callee κ φ} (hpure : callee.pure = true)
    {fs : List (Folded κ φ)} {zs : List ComplexFloat} (h : fs.mapM Folded.constant? = some zs) :
    Folded.constant? <$> foldCall host callee fs = some <$> host.apply callee zs := by
  simp only [foldCall, hpure, h, Functor.map_map]
  rfl

variable {host} in
theorem constants_folding {args : List (Formula κ φ)}
    (h : ∀ t ∈ args,
      Folded.constant? <$> (folding host).result t = some <$> (evaluation host).result t) :
    List.mapM Folded.constant? <$> Pass.result.results (folding host) args =
      some <$> Pass.result.results (evaluation host) args := by
  induction args with
  | nil => rfl
  | cons t ts ih =>
    have ih := ih fun u hu => h u (List.mem_cons_of_mem t hu)
    simp only [Pass.result.results, map_eq_pure_bind, bind_assoc, pure_bind]
    refine Action.bind_eq_of_map_eq (h t List.mem_cons_self) fun f z hfz => ?_
    refine Action.bind_eq_of_map_eq ih fun fs zs hfs => ?_
    simp [hfz, hfs]

theorem constant?_folding {t : Formula κ φ} (h : t.Closed) :
    Folded.constant? <$> (folding host).result t = some <$> (evaluation host).result t := by
  induction h with
  | constant z => rfl
  | cell h => exact h.elim
  | @call callee args hpure _ ih =>
    simp only [Pass.result, map_eq_pure_bind, bind_assoc]
    refine Action.bind_eq_of_map_eq (constants_folding ih) fun fs zs hfs => ?_
    have hcall := foldCall_constants host hpure hfs
    rw [map_eq_pure_bind, map_eq_pure_bind] at hcall
    exact hcall

theorem fold_cases {t : Formula κ φ} (hwf : t.WellFormed) (h : t.Closed) (s : σ) :
    (∃ folded z s', t.fold host s = .ok folded s' ∧ (evaluation host).result t s = .ok z s' ∧
        folded.formula = .constant z) ∨
      ∃ f s', t.fold host s = .error f s' ∧ (evaluation host).result t s = .error f s' := by
  rw [fold_eq_result hwf]
  rcases Action.cases_of_map_eq (constant?_folding host h) s with ⟨folded, z, s', hf, hz, hfz⟩ | hf
  · exact .inl ⟨folded, z, s', hf, hz, Folded.formula_of_constant hfz⟩
  · exact .inr hf

end Closed

def instantiate (contents : κ → ComplexFloat) : Formula κ φ → Formula κ φ
  | constant z => constant z
  | cell _ c => constant (contents c)
  | call callee args => call callee (arguments args)
where
  arguments : List (Formula κ φ) → List (Formula κ φ)
    | [] => []
    | t :: ts => instantiate contents t :: arguments ts

section Instantiate

variable {host : Host κ φ σ} {contents : κ → ComplexFloat} {t : Formula κ φ}

theorem arguments_eq_map (args : List (Formula κ φ)) :
    instantiate.arguments contents args = args.map (instantiate contents) := by
  induction args with
  | nil => rfl
  | cons t ts ih => rw [instantiate.arguments, ih, List.map_cons]

theorem WellFormed.instantiate (h : t.WellFormed) : (t.instantiate contents).WellFormed := by
  induction h with
  | constant z => exact .constant z
  | cell name c => exact .constant (contents c)
  | call hlen _ ih =>
    rw [Formula.instantiate, arguments_eq_map]
    refine .call (by rw [List.length_map, hlen]) fun u hu => ?_
    obtain ⟨t, ht, rfl⟩ := List.mem_map.mp hu
    exact ih t ht

theorem closed_instantiate (contents : κ → ComplexFloat) {cells : String → κ → Prop}
    (h : t.Every cells fun callee => callee.pure = true) : (t.instantiate contents).Closed := by
  induction h with
  | constant z => exact .constant z
  | cell => exact .constant _
  | call hpure _ ih =>
    rw [instantiate, arguments_eq_map]
    refine .call hpure fun u hu => ?_
    obtain ⟨t, ht, rfl⟩ := List.mem_map.mp hu
    exact ih t ht

theorem results_instantiate {args : List (Formula κ φ)} {s : σ}
    (h : ∀ t ∈ args, ∃ outcome, (evaluation host).result t s = Action.ofExcept outcome s ∧
      (evaluation host).result (t.instantiate contents) = Action.ofExcept outcome) :
    ∃ outcome, Pass.result.results (evaluation host) args s = Action.ofExcept outcome s ∧
      Pass.result.results (evaluation host) (args.map (instantiate contents)) =
        Action.ofExcept outcome := by
  induction args with
  | nil => exact ⟨.ok [], rfl, rfl⟩
  | cons t ts ih =>
    obtain ⟨head, ht, ht'⟩ := h t List.mem_cons_self
    obtain ⟨tail, hts, hts'⟩ := ih fun u hu => h u (List.mem_cons_of_mem t hu)
    simp only [Pass.result.results, List.map_cons, ht', hts']
    cases head with
    | error f => exact ⟨.error f, Action.bind_error ht, rfl⟩
    | ok z =>
      rw [Action.bind_ok ht]
      cases tail with
      | error f => exact ⟨.error f, Action.bind_error hts, rfl⟩
      | ok zs => exact ⟨.ok (z :: zs), Action.bind_ok hts, rfl⟩

/-- Pure calls do not tell a cell from a constant with its content. -/
theorem result_instantiate (hwf : t.WellFormed)
    (hpure : t.Every (fun _ _ => True) fun callee => callee.pure = true) (hh : t.Honest host) {s : σ}
    (hcells : ∀ c, host.value c s = .ok (contents c) s) :
    ∃ outcome, (evaluation host).result t s = Action.ofExcept outcome s ∧
      (evaluation host).result (t.instantiate contents) = Action.ofExcept outcome := by
  induction hwf with
  | constant z => exact ⟨.ok z, rfl, rfl⟩
  | cell name c => exact ⟨.ok (contents c), hcells c, rfl⟩
  | @call callee args hlen _ ih =>
    cases hpure with
    | call hcallee hargs =>
      cases hh with
      | call hhonest hhargs =>
        obtain ⟨outcome, hs, hs'⟩ := results_instantiate
          fun t ht => ih t ht (hargs t ht) (hhargs t ht)
        rw [instantiate, arguments_eq_map, Pass.result, Pass.result, hs']
        cases outcome with
        | error f => exact ⟨.error f, Action.bind_error hs, rfl⟩
        | ok zs =>
          have hzs : zs.length = callee.arity := by
            rw [(evaluation host).length_of_results hs, hlen]
          obtain ⟨outcome, ho⟩ := (hhonest hcallee).apply_eq hzs
          exact ⟨outcome, (Action.bind_ok hs).trans (congrFun ho s), ho⟩

/-- Where all calls are pure, folding a formula with the contents of its cells put in for them is
evaluating it: a single constant is left, the value, or folding ends with the fault that evaluation
ends with. -/
theorem fold_instantiate (hwf : t.WellFormed)
    (hpure : t.Every (fun _ _ => True) fun callee => callee.pure = true) (hh : t.Honest host) {s : σ}
    (hcells : ∀ c, host.read c s = .ok (.complex (contents c)) s) :
    ∃ outcome, t.evaluate host s = Action.ofExcept outcome s ∧
      match outcome with
      | .ok z => ∀ s', ∃ folded, (t.instantiate contents).fold host s' = .ok folded s' ∧
          folded.formula = .constant z
      | .error f => ∀ s', (t.instantiate contents).fold host s' = .error f s' := by
  have hvalue (c : κ) : host.value c s = .ok (contents c) s := Action.bind_ok (hcells c)
  obtain ⟨outcome, hs, hs'⟩ := result_instantiate hwf hpure hh hvalue
  refine ⟨outcome, by rw [evaluate_eq_result hwf, hs], ?_⟩
  have hfold := fold_cases host hwf.instantiate (closed_instantiate contents hpure)
  rw [hs'] at hfold
  cases outcome with
  | ok z =>
    intro s'
    rcases hfold s' with ⟨folded, y, s₁, hf, hy, hz⟩ | ⟨f, s₁, -, hy⟩
    · cases hy
      exact ⟨folded, hf, hz⟩
    · cases hy
  | error f =>
    intro s'
    rcases hfold s' with ⟨folded, y, s₁, -, hy, -⟩ | ⟨f', s₁, hf, hy⟩
    · cases hy
    · cases hy
      exact hf

end Instantiate

def cellHost : Host Unit Empty ComplexFloat where
  read _ := return .complex (← get)
  function := nofun
  closure := nofun

def selfQuotient : Formula Unit Empty :=
  .binary .div (.cell "x" ()) (.cell "x" ())

theorem fold_instantiate_selfQuotient :
    selfQuotient.WellFormed ∧
      selfQuotient.Every (fun _ _ => True) (fun callee => callee.pure = true) ∧
      selfQuotient.Honest cellHost ∧
      (∀ c, cellHost.read c .zero = .ok (.complex .zero) .zero) ∧
      ∃ outcome, selfQuotient.evaluate cellHost .zero = Action.ofExcept outcome .zero ∧
        match outcome with
        | .ok z => ∀ s', ∃ folded, (selfQuotient.instantiate fun _ => .zero).fold cellHost s' =
            .ok folded s' ∧ folded.formula = .constant z
        | .error f => ∀ s', (selfQuotient.instantiate fun _ => .zero).fold cellHost s' =
            .error f s' := by
  have hcells {P : Formula Unit Empty → Prop} (h : P (.cell "x" ())) :
      ∀ t ∈ [Formula.cell "x" (), .cell "x" ()], P t :=
    List.forall_mem_cons.mpr ⟨h, List.forall_mem_singleton.mpr h⟩
  have hwf : selfQuotient.WellFormed := .call rfl (hcells (.cell "x" ()))
  have hpure : selfQuotient.Every (fun _ _ => True) (fun callee => callee.pure = true) :=
    .call rfl (hcells (.cell trivial))
  have hh : selfQuotient.Honest cellHost :=
    .call (fun _ => Callee.Honest.of_primitive rfl) (hcells (.cell "x" ()))
  have hread : ∀ c, cellHost.read c .zero = .ok (.complex ((fun _ => .zero) c)) .zero :=
    fun _ => rfl
  exact ⟨hwf, hpure, hh, hread, fold_instantiate hwf hpure hh hread⟩

end Formula

end ComplexFormula
