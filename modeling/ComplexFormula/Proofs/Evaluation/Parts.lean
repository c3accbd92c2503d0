import ComplexFormula.Proofs.Evaluation.Sharing

/-! # The closed parts of a formula

Folding evaluates the closed formulas inside a formula, save those inside another closed one, from
left to right. Their values take their places, and all else stays.
-/

namespace ComplexFormula

variable {κ φ σ : Type}

namespace Formula

def isClosed : Formula κ φ → Bool
  | constant _ => true
  | cell .. => false
  | call callee args => callee.pure && areClosed args
where
  areClosed : List (Formula κ φ) → Bool
    | [] => true
    | t :: ts => isClosed t && areClosed ts

theorem isClosed_iff : (t : Formula κ φ) → (t.isClosed = true ↔ t.Closed)
  | constant z => ⟨fun _ => .constant z, fun _ => rfl⟩
  | cell .. => by
    refine ⟨nofun, fun h => ?_⟩
    cases h with
    | cell h => exact h.elim
  | call callee args => by
    rw [isClosed, Bool.and_eq_true, areClosed_iff args]
    constructor
    · rintro ⟨hpure, hargs⟩
      exact .call hpure hargs
    · intro h
      cases h with
      | call hpure hargs => exact ⟨hpure, hargs⟩
where
  areClosed_iff : (ts : List (Formula κ φ)) →
      (isClosed.areClosed ts = true ↔ ∀ t ∈ ts, t.Closed)
    | [] => by simp [isClosed.areClosed]
    | t :: ts => by
      rw [isClosed.areClosed, Bool.and_eq_true, isClosed_iff t, areClosed_iff ts,
        List.forall_mem_cons]

instance (t : Formula κ φ) : Decidable t.Closed :=
  decidable_of_iff _ t.isClosed_iff

/-- The closed formulas inside, save those inside another one, from left to right. -/
def closedParts : Formula κ φ → List (Formula κ φ)
  | constant z => [constant z]
  | cell .. => []
  | call callee args => if (call callee args).Closed then [call callee args] else partsOf args
where
  partsOf : List (Formula κ φ) → List (Formula κ φ)
    | [] => []
    | t :: ts => closedParts t ++ partsOf ts

theorem partsOf_eq_flatMap (ts : List (Formula κ φ)) :
    closedParts.partsOf ts = ts.flatMap closedParts := by
  induction ts with
  | nil => rfl
  | cons t ts ih => rw [closedParts.partsOf, ih, List.flatMap_cons]

def replaced (t : Formula κ φ) : List ComplexFloat → Formula κ φ
  | [] => t
  | z :: _ => constant z

/-- The formula with the values in the places of its closed parts. -/
def fill : Formula κ φ → List ComplexFloat → Formula κ φ
  | constant z, zs => (constant z).replaced zs
  | cell name c, _ => cell name c
  | call callee args, zs =>
    if (call callee args).Closed then (call callee args).replaced zs
    else call callee (fillAll args zs)
where
  fillAll : List (Formula κ φ) → List ComplexFloat → List (Formula κ φ)
    | [], _ => []
    | t :: ts, zs =>
      fill t (zs.take t.closedParts.length) :: fillAll ts (zs.drop t.closedParts.length)

section Building

variable (host : Host κ φ σ)

theorem results_eq_mapM {β : Type} (pass : Pass κ φ σ β) (ts : List (Formula κ φ)) :
    Pass.result.results pass ts = ts.mapM pass.result := by
  induction ts with
  | nil => rfl
  | cons t ts ih => rw [Pass.result.results, List.mapM_cons, ih]

theorem formula_building_of_closed {t : Formula κ φ} (hwf : t.WellFormed) (h : t.Closed) :
    Built.formula <$> (building host).result t = constant <$> (evaluation host).result t := by
  have hfolding : Built.folded <$> (building host).result t = (folding host).result t := by
    rw [← build_eq_result host hwf, folded_build, fold_eq_result hwf]
  have hformula : Built.formula <$> (building host).result t =
      Folded.formula <$> (folding host).result t := by
    rw [← hfolding, Functor.map_map]
    simp only [Built.formula_folded]
  rw [hformula]
  funext s
  rcases Action.cases_of_map_eq (constant?_folding host h) s with ⟨f, z, s', hf, hz, hfz⟩ |
    ⟨f, s', hf, hz⟩
  · rw [Action.map_ok hf, Action.map_ok hz, Folded.formula_of_constant hfz]
  · rw [Action.map_error hf, Action.map_error hz]

variable {host} in
theorem formulas_building {args : List (Formula κ φ)}
    (h : ∀ t ∈ args, Built.formula <$> (building host).result t =
      t.fill <$> t.closedParts.mapM (evaluation host).result) :
    List.map Built.formula <$> Pass.result.results (building host) args =
      fill.fillAll args <$> (closedParts.partsOf args).mapM (evaluation host).result := by
  induction args with
  | nil => rfl
  | cons t ts ih =>
    obtain ⟨ht, hts⟩ := List.forall_mem_cons.mp h
    calc List.map Built.formula <$> Pass.result.results (building host) (t :: ts)
        = (do
            let u ← Built.formula <$> (building host).result t
            let us ← List.map Built.formula <$> Pass.result.results (building host) ts
            return u :: us) := by
          simp only [Pass.result.results, map_eq_pure_bind, bind_assoc, pure_bind, List.map_cons]
      _ = (do
            let zs ← t.closedParts.mapM (evaluation host).result
            let ws ← (closedParts.partsOf ts).mapM (evaluation host).result
            return t.fill zs :: fill.fillAll ts ws) := by
          rw [ht, ih hts]
          simp only [map_eq_pure_bind, bind_assoc, pure_bind]
      _ = fill.fillAll (t :: ts) <$>
            (closedParts.partsOf (t :: ts)).mapM (evaluation host).result := by
          rw [closedParts.partsOf, List.mapM_append, map_eq_pure_bind]
          simp only [bind_assoc, pure_bind]
          refine Action.bind_congr_ok fun s zs s' hzs => ?_
          rw [← results_eq_mapM] at hzs
          have hlen := (evaluation host).length_of_results hzs
          simp only [fill.fillAll, List.take_left' hlen, List.drop_left' hlen]

theorem formula_buildCall_of_not_closed {callee : Callee κ φ} {args : List (Formula κ φ)}
    (hargs : ∀ t ∈ args, t.WellFormed) (h : ¬ (call callee args).Closed) :
    Built.formula <$> (Pass.result.results (building host) args >>= buildCall host callee) =
      call callee <$> (List.map Built.formula <$> Pass.result.results (building host) args) := by
  simp only [map_eq_pure_bind, bind_assoc, pure_bind]
  refine Action.bind_congr_ok fun s bs s' hbs => ?_
  have hbuild (i : Nat) (t : Formula κ φ) (b : Built κ φ) (ht : args[i]? = some t)
      (hb : bs[i]? = some b) : Builds t b := by
    obtain ⟨s₂, s₃, hresult⟩ := Pass.exists_of_getElem?_results hbs ht hb
    exact builds_of_result (hargs t (List.mem_of_getElem? ht)) hresult
  have hlen := (building host).length_of_results hbs
  rw [buildCall_of_not_value host (mt (foldable_iff hlen hbuild).mp h)]
  split
  · rfl
  · rw [pure_bind, Built.formula_call]

/-- Folding is evaluating the closed parts, and puts their values in their places. -/
theorem formula_building {t : Formula κ φ} (hwf : t.WellFormed) :
    Built.formula <$> (building host).result t =
      t.fill <$> t.closedParts.mapM (evaluation host).result := by
  induction hwf with
  | constant z => rfl
  | cell name c => rfl
  | @call callee args hlen hargs ih =>
    by_cases hclosed : (call callee args).Closed
    · rw [formula_building_of_closed host (.call hlen hargs) hclosed, closedParts, if_pos hclosed]
      simp [fill, if_pos hclosed, replaced]
    · rw [Pass.result]
      refine (formula_buildCall_of_not_closed host hargs hclosed).trans ?_
      rw [formulas_building ih, closedParts, if_neg hclosed, Functor.map_map]
      simp only [fill, if_neg hclosed]

theorem formula_fold {t : Formula κ φ} (hwf : t.WellFormed) :
    Folded.formula <$> t.fold host =
      t.fill <$> t.closedParts.mapM (evaluation host).result := by
  rw [← folded_build, Functor.map_map, build_eq_result host hwf, ← formula_building host hwf]
  simp only [Built.formula_folded]

end Building

theorem closed_of_mem_closedParts {t : Formula κ φ} (hwf : t.WellFormed) :
    ∀ u ∈ t.closedParts, u.WellFormed ∧ u.Closed := by
  induction hwf with
  | constant z => exact List.forall_mem_singleton.mpr ⟨.constant z, .constant z⟩
  | cell => exact List.forall_mem_nil _
  | @call callee args hlen hargs ih =>
    rw [closedParts]
    split
    · rename_i hclosed
      exact List.forall_mem_singleton.mpr ⟨.call hlen hargs, hclosed⟩
    · intro u hu
      rw [partsOf_eq_flatMap] at hu
      obtain ⟨t, ht, hu⟩ := List.mem_flatMap.mp hu
      exact ih t ht u hu

end Formula

end ComplexFormula
