import ComplexFormula.Formula.Walk
import ComplexFormula.Proofs.Evaluation.Parts
import ComplexFormula.Proofs.Evaluation.Watching

/-! # Folded formulas

Nothing is left to fold in a formula that has been folded. What nothing has been folded in is the
formula as it was, and each closed part has shrunk to a single node.
-/

namespace ComplexFormula

variable {κ φ σ : Type}

namespace Formula

/-- The formula at a place, which is reached by the numbers of arguments. -/
def at? : Formula κ φ → List Nat → Option (Formula κ φ)
  | t, [] => some t
  | call _ args, i :: place => args[i]?.bind fun t => t.at? place
  | _, _ :: _ => none

def Foldable : Formula κ φ → Prop
  | call callee args => callee.pure = true ∧ ∀ t ∈ args, t.constant?.isSome
  | _ => False

def Normal (t : Formula κ φ) : Prop :=
  ∀ place u, t.at? place = some u → ¬ u.Foldable

def Folds (t : Formula κ φ) : Prop :=
  t.Closed ∧ t.isLeaf = false

theorem Foldable.folds {t : Formula κ φ} (h : t.Foldable) : t.Folds := by
  cases t with
  | call callee args =>
    refine ⟨.call h.1 fun t ht => ?_, rfl⟩
    cases t with
    | constant z => exact .constant z
    | cell | call => exact nomatch h.2 _ ht
  | _ => exact h.elim

section Normal

variable {callee : Callee κ φ} {args : List (Formula κ φ)} {t : Formula κ φ}

theorem at?_call (i : Nat) (place : List Nat) :
    (call callee args).at? (i :: place) = args[i]?.bind fun t => t.at? place := rfl

theorem normal_constant (z : ComplexFloat) : (constant z : Formula κ φ).Normal := by
  rintro (_ | ⟨i, place⟩) u hu
  · cases hu
    exact id
  · cases hu

theorem normal_cell (name : String) (c : κ) : (cell name c : Formula κ φ).Normal := by
  rintro (_ | ⟨i, place⟩) u hu
  · cases hu
    exact id
  · cases hu

theorem normal_call_iff :
    (call callee args).Normal ↔ ¬ (call callee args).Foldable ∧ ∀ t ∈ args, t.Normal := by
  constructor
  · refine fun h => ⟨h [] _ rfl, fun t ht place u hu => ?_⟩
    obtain ⟨i, hi⟩ := List.getElem?_of_mem ht
    exact h (i :: place) u (by rw [at?_call, hi, Option.bind_some, hu])
  · rintro ⟨hcall, hargs⟩ (_ | ⟨i, place⟩) u hu
    · cases hu
      exact hcall
    · rw [at?_call] at hu
      obtain ⟨t, hi, hu⟩ := Option.bind_eq_some_iff.mp hu
      exact hargs t (List.mem_of_getElem? hi) place u hu

/-- Of the closed formulas just the constants are normal. The deepest call in any other is over
constants. -/
theorem Normal.constant_of_closed (h : t.Normal) (hclosed : t.Closed) :
    t.constant?.isSome := by
  induction hclosed with
  | constant z => rfl
  | cell hc => exact hc.elim
  | call hpure _ ih =>
    obtain ⟨hcall, hargs⟩ := normal_call_iff.mp h
    exact absurd ⟨hpure, fun t ht => ih t ht (hargs t ht)⟩ hcall

theorem normal_of_not_folds (h : ∀ place u, t.at? place = some u → ¬ u.Folds) : t.Normal :=
  fun place u hu => mt Foldable.folds (h place u hu)

end Normal

namespace Builds

variable {t : Formula κ φ} {b : Built κ φ}

theorem normal (h : Builds t b) : b.formula.Normal := by
  induction h with
  | constant z => exact normal_constant z
  | cell name c => exact normal_cell name c
  | value _ z => exact normal_constant z
  | old not_closed _ ih => exact normal_call_iff.mpr ⟨fun h => not_closed h.folds.1, ih⟩
  | @call callee args bs not_closed length_eq args_build changed ih =>
    rw [Built.formula_call, normal_call_iff, List.forall_mem_map]
    constructor
    · rintro ⟨hpure, hconstants⟩
      refine not_closed (.call hpure fun t ht => ?_)
      obtain ⟨b, hb, hbuilds⟩ := exists_of_mem_left length_eq args_build ht
      exact hbuilds.constant?_isSome_iff.mp (hconstants _ (List.mem_map_of_mem hb))
    · intro b hb
      obtain ⟨_, _, hnormal⟩ :=
        exists_of_mem_right (R := fun _ b => b.formula.Normal) length_eq ih hb
      exact hnormal

theorem isOld_iff (h : Builds t b) : b.isOld = true ↔ t.Normal := by
  constructor
  · intro hb
    have hnormal := h.normal
    rwa [h.eq_old hb] at hnormal
  · intro hnormal
    induction h with
    | value closed z => exact nomatch hnormal.constant_of_closed closed
    | call not_closed length_eq args_build changed ih =>
      obtain ⟨b, hb, hnew⟩ := changed
      obtain ⟨t, ht, hold⟩ :=
        exists_of_mem_right (R := fun t b => t.Normal → b.isOld = true) length_eq ih hb
      exact absurd (hold ((normal_call_iff.mp hnormal).2 t ht)) (by rw [hnew]; nofun)
    | _ => rfl

/-- What nothing is folded in, and is inside nothing that is folded, is shared at its place. -/
theorem at?_eq_old {place : List Nat} (h : Builds t b) {u : Formula κ φ}
    (hu : t.at? place = some u) (hinside : ∀ below v, u.at? below = some v → ¬ v.Folds)
    (houtside : ∀ above v, above <+: place → t.at? above = some v → ¬ v.Folds) :
    b.at? place = some (.old u) := by
  induction place generalizing t b with
  | nil =>
    cases hu
    rw [Built.at?, h.eq_old (h.isOld_iff.mpr (normal_of_not_folds hinside))]
  | cons i place ih =>
    cases t with
    | constant | cell => cases hu
    | call callee args =>
      rw [at?_call] at hu
      obtain ⟨t, ht, hu⟩ := Option.bind_eq_some_iff.mp hu
      have houtside' (above : List Nat) (v : Formula κ φ) (habove : above <+: place)
          (hv : t.at? above = some v) : ¬ v.Folds := by
        refine houtside (i :: above) v (List.cons_prefix_cons.mpr ⟨rfl, habove⟩) ?_
        rw [at?_call, ht, Option.bind_some, hv]
      cases h with
      | value closed z => exact absurd ⟨closed, rfl⟩ (houtside [] _ List.nil_prefix rfl)
      | old not_closed args_old =>
        rw [Built.at?, ht, Option.bind_some]
        exact ih (args_old t (List.mem_of_getElem? ht)) hu houtside'
      | @call _ _ bs not_closed length_eq args_build changed =>
        have hlt : i < bs.length := length_eq ▸ (List.getElem?_eq_some_iff.mp ht).1
        have hb := List.getElem?_eq_getElem hlt
        rw [Built.at?, hb, Option.bind_some]
        exact ih (args_build i t _ ht hb) hu houtside'

theorem wellFormed (h : Builds t b) (hwf : t.WellFormed) : b.formula.WellFormed := by
  induction h with
  | value _ z => exact .constant z
  | call _ length_eq _ _ ih =>
    cases hwf with
    | call hlen hargs =>
      rw [Built.formula_call]
      refine .call (by rw [List.length_map, length_eq, hlen])
        (List.forall_mem_map.mpr fun b hb => ?_)
      obtain ⟨t, ht, hformula⟩ := exists_of_mem_right
        (R := fun t b => t.WellFormed → b.formula.WellFormed) length_eq ih hb
      exact hformula (hargs t ht)
  | _ => exact hwf

end Builds

section Again

variable {callee : Callee κ φ} {t : Formula κ φ}

theorem foldCall_kept (host : Host κ φ σ) {args : List (Formula κ φ)}
    (h : ¬ (call callee args).Foldable) :
    foldCall host callee (args.map .kept) = pure (.kept (call callee args)) := by
  have hvalue : ¬ (callee.pure = true ∧
      ∃ values, (args.map Folded.kept).mapM Folded.constant? = some values) := by
    rw [exists_mapM_eq_some_iff, List.forall_mem_map]
    exact h
  have hkept : (args.map Folded.kept).all Folded.isKept = true := by
    simp [Folded.isKept]
  have hformulas : (args.map Folded.kept).map Folded.formula = args := by
    simp [Function.comp_def, Folded.formula]
  rw [foldCall_of_not_value host hvalue, if_pos hkept, hformulas]

theorem results_folding_kept (host : Host κ φ σ) {args : List (Formula κ φ)}
    (h : ∀ t ∈ args, (folding host).result t = pure (.kept t)) :
    Pass.result.results (folding host) args = pure (args.map .kept) := by
  induction args with
  | nil => rfl
  | cons t ts ih =>
    obtain ⟨ht, hts⟩ := List.forall_mem_cons.mp h
    rw [Pass.result.results, ht, ih hts]
    simp

theorem fold_of_normal (host : Host κ φ σ) (hwf : t.WellFormed) (h : t.Normal) :
    t.fold host = pure (.kept t) := by
  rw [fold_eq_result hwf]
  induction hwf with
  | constant z => rfl
  | cell name c => rfl
  | call _ _ ih =>
    obtain ⟨hcall, hargs⟩ := normal_call_iff.mp h
    rw [Pass.result, results_folding_kept host fun t ht => ih t ht (hargs t ht), pure_bind]
    exact foldCall_kept host hcall

theorem isSome_constant?_watched : t.watched.constant?.isSome = t.constant?.isSome := by
  cases t <;> rfl

theorem Normal.watched (hwf : t.WellFormed) (h : t.Normal) : t.watched.Normal := by
  induction hwf with
  | constant z => exact normal_constant z
  | cell name c => exact normal_cell name c
  | call _ _ ih =>
    obtain ⟨hcall, hargs⟩ := normal_call_iff.mp h
    rw [Formula.watched, watchedAll_eq_map, normal_call_iff, List.forall_mem_map]
    refine ⟨fun hfoldable => hcall ⟨hfoldable.1, fun t ht => ?_⟩, fun t ht => ih t ht (hargs t ht)⟩
    rw [← isSome_constant?_watched]
    exact hfoldable.2 _ (List.mem_map_of_mem ht)

end Again

section Size

def size : Formula κ φ → Nat
  | constant _ => 1
  | cell .. => 1
  | call _ args => 1 + sizes args
where
  sizes : List (Formula κ φ) → Nat
    | [] => 0
    | t :: ts => size t + sizes ts

theorem sizes_append (ts us : List (Formula κ φ)) :
    size.sizes (ts ++ us) = size.sizes ts + size.sizes us := by
  induction ts with
  | nil => exact (Nat.zero_add _).symm
  | cons t ts ih => rw [List.cons_append, size.sizes, size.sizes, ih, Nat.add_assoc]

theorem map_fst_ofArguments (args : List (Formula κ φ)) (depth : Nat) :
    (Agenda.ofArguments args depth).map Prod.fst = args := by
  simp [Agenda.ofArguments, Function.comp_def]

theorem length_walkFrom (agenda : Agenda κ φ) :
    (walkFrom agenda).length = size.sizes (agenda.map Prod.fst) := by
  fun_induction walkFrom agenda with
  | case1 => rfl
  | case2 callee args depth rest ih =>
    rw [List.length_cons, ih, List.map_append, sizes_append, map_fst_ofArguments, List.map_cons,
      size.sizes, size]
    omega
  | case3 leaf depth rest hleaf ih =>
    have hsize : leaf.size = 1 := by
      cases leaf with
      | call callee args => exact (hleaf callee args rfl).elim
      | _ => rfl
    rw [List.length_cons, ih, List.map_cons, size.sizes, hsize, Nat.add_comm]

theorem nodeCount_eq_size (t : Formula κ φ) : t.nodeCount = t.size := by
  rw [nodeCount, walk, length_walkFrom]
  rfl

theorem one_le_size (t : Formula κ φ) : 1 ≤ t.size := by
  cases t with
  | call => exact Nat.le_add_right ..
  | _ => exact Nat.le_refl 1

theorem size_eq_one_iff {t : Formula κ φ} :
    t.size = 1 ↔ (t.isLeaf = false → ∃ callee, t = call callee []) := by
  cases t with
  | call callee args =>
    cases args with
    | nil => exact ⟨fun _ _ => ⟨callee, rfl⟩, fun _ => rfl⟩
    | cons t ts =>
      have ht := t.one_le_size
      constructor
      · intro h
        rw [size, size.sizes] at h
        omega
      · intro h
        obtain ⟨_, hcall⟩ := h rfl
        cases hcall
  | _ => exact ⟨fun _ => nofun, fun _ => rfl⟩

theorem size_fill : (t : Formula κ φ) → (zs : List ComplexFloat) →
    zs.length = t.closedParts.length →
      (t.fill zs).size + size.sizes t.closedParts = t.size + t.closedParts.length
  | constant _, [_], _ => rfl
  | cell .., _, _ => rfl
  | call callee args, zs, hlen => by
    rw [closedParts] at hlen ⊢
    rw [fill]
    split at hlen
    · rename_i hclosed
      obtain ⟨z, rfl⟩ := List.length_eq_one_iff.mp hlen
      rw [if_pos hclosed, if_pos hclosed, replaced, size.sizes, size.sizes, Nat.add_comm]
      rfl
    · rename_i hclosed
      have hargs := sizes_fillAll args zs hlen
      rw [if_neg hclosed, if_neg hclosed, size, size]
      omega
where
  sizes_fillAll : (ts : List (Formula κ φ)) → (zs : List ComplexFloat) →
      zs.length = (closedParts.partsOf ts).length →
        size.sizes (fill.fillAll ts zs) + size.sizes (closedParts.partsOf ts) =
          size.sizes ts + (closedParts.partsOf ts).length
    | [], _, _ => rfl
    | t :: ts, zs, hlen => by
      rw [closedParts.partsOf, List.length_append] at hlen
      have ht := size_fill t (zs.take t.closedParts.length) (by rw [List.length_take]; omega)
      have hts := sizes_fillAll ts (zs.drop t.closedParts.length)
        (by rw [List.length_drop]; omega)
      rw [fill.fillAll, closedParts.partsOf, sizes_append, List.length_append, size.sizes,
        size.sizes]
      omega

/-- Formulas have as many nodes as there are formulas if each is a leaf or a call of its own. -/
theorem length_le_sizes_and_eq_iff (ts : List (Formula κ φ)) :
    ts.length ≤ size.sizes ts ∧ (size.sizes ts = ts.length ↔
      ∀ u ∈ ts, u.isLeaf = false → ∃ callee, u = call callee []) := by
  induction ts with
  | nil => exact ⟨Nat.le_refl 0, fun _ => List.forall_mem_nil _, fun _ => rfl⟩
  | cons t ts ih =>
    have ht := t.one_le_size
    rw [List.forall_mem_cons, ← size_eq_one_iff, ← ih.2, size.sizes, List.length_cons]
    omega

end Size

theorem at?_formula {b b' : Built κ φ} {place : List Nat} (h : b.at? place = some b') :
    b.formula.at? place = some b'.formula := by
  induction place generalizing b with
  | nil =>
    cases h
    rfl
  | cons i place ih =>
    cases b with
    | value z => cases h
    | call callee args =>
      obtain ⟨b, hb, h⟩ := Option.bind_eq_some_iff.mp h
      rw [Built.formula_call, at?_call, List.getElem?_map, hb]
      exact ih h
    | old t =>
      cases t with
      | constant | cell => cases h
      | call callee args =>
        obtain ⟨t, ht, h⟩ := Option.bind_eq_some_iff.mp h
        rw [Built.formula, at?_call, ht]
        exact ih h

section

variable {host : Host κ φ σ} {t : Formula κ φ} {s s' : σ} {f : Folded κ φ}

theorem exists_fill_of_fold (hwf : t.WellFormed) (hf : t.fold host s = .ok f s') :
    ∃ zs, zs.length = t.closedParts.length ∧ f.formula = t.fill zs := by
  have hformula := Action.map_ok (g := Folded.formula) hf
  rw [formula_fold host hwf, ← results_eq_mapM, map_eq_pure_bind] at hformula
  obtain ⟨zs, s₁, hzs, hfill⟩ := Action.exists_of_bind_ok hformula
  exact ⟨zs, (evaluation host).length_of_results hzs, (EStateM.Result.ok.inj hfill).1.symm⟩

theorem nodeCount_fold (hwf : t.WellFormed) (hf : t.fold host s = .ok f s') :
    f.formula.nodeCount + size.sizes t.closedParts = t.nodeCount + t.closedParts.length := by
  obtain ⟨zs, hlen, hfill⟩ := exists_fill_of_fold hwf hf
  rw [nodeCount_eq_size, nodeCount_eq_size, hfill]
  exact size_fill t zs hlen

/-- A folded formula is normal, so that folding it again calls nothing and gives it back. What is
normal is given back at first, and so is, at its place, what no folding is seen in. Each closed part
has become one node. -/
theorem fold_normalizes (hwf : t.WellFormed) (hf : t.fold host s = .ok f s') :
    f.formula.Normal ∧
      (∀ (τ : Type) (host' : Host κ φ τ), f.formula.fold host' = pure (.kept f.formula)) ∧
      f.formula.watched.fold host.watching = pure (.kept f.formula.watched) ∧
      (f = .kept t ↔ t.Normal) ∧
      (∃ b, t.build host s = .ok b s' ∧ b.folded = f ∧ ∀ place u, t.at? place = some u →
        (∀ below v, u.at? below = some v → ¬ v.Folds) →
        (∀ above v, above <+: place → t.at? above = some v → ¬ v.Folds) →
          b.at? place = some (.old u) ∧ f.formula.at? place = some u) ∧
      f.formula.nodeCount ≤ t.nodeCount ∧
      (f.formula.nodeCount = t.nodeCount ↔
        ∀ u ∈ t.closedParts, u.isLeaf = false → ∃ callee, u = call callee []) := by
  obtain ⟨b, hbuild, rfl, hb⟩ := exists_builds_of_fold hwf hf
  have hcount := nodeCount_fold hwf hf
  obtain ⟨hle, hsingle⟩ := length_le_sizes_and_eq_iff t.closedParts
  have hnormal := hb.normal
  have hwf' := hb.wellFormed hwf
  rw [Built.formula_folded] at hcount ⊢
  refine ⟨hnormal, fun τ host' => fold_of_normal host' hwf' hnormal,
    fold_of_normal host.watching hwf'.watched (hnormal.watched hwf'), ?_,
    ⟨b, hbuild, rfl, fun place u hu hinside houtside => ?_⟩, by omega, ?_⟩
  · rw [← hb.isOld_iff]
    constructor
    · intro hkept
      rw [← Built.isKept_folded, hkept, Folded.isKept]
    · intro hold
      rw [hb.eq_old hold, Built.folded]
  · have hat := hb.at?_eq_old hu hinside houtside
    exact ⟨hat, at?_formula hat⟩
  · rw [← hsingle]
    omega

end

def halfFolded : Formula Unit Bool :=
  .binary .comma (.negate (.cell "x" ())) (.negate (.constant .zero))

theorem fold_normalizes_halfFolded :
    halfFolded.WellFormed ∧
      halfFolded.fold storingHost .zero =
        .ok (.rebuilt (.operator .comma) [.negate (.cell "x" ()), .constant ⟨-0.0, -0.0⟩]) .zero ∧
      (call (.operator .comma) [.negate (.cell "x" ()), .constant ⟨-0.0, -0.0⟩] :
        Formula Unit Bool).Normal ∧ ¬ halfFolded.Normal := by
  have hwf : halfFolded.WellFormed := by
    refine .call rfl (List.forall_mem_cons.mpr ⟨?_, List.forall_mem_singleton.mpr ?_⟩)
    · exact .call rfl (List.forall_mem_singleton.mpr (.cell "x" ()))
    · exact .call rfl (List.forall_mem_singleton.mpr (.constant .zero))
  have hfold : halfFolded.fold storingHost .zero =
      .ok (.rebuilt (.operator .comma) [.negate (.cell "x" ()), .constant ⟨-0.0, -0.0⟩]) .zero := by
    rw [fold_eq_result hwf]
    rfl
  obtain ⟨hnormal, -, -, hkept, -⟩ := fold_normalizes hwf hfold
  exact ⟨hwf, hfold, hnormal, fun h => nomatch hkept.mpr h⟩

end Formula

end ComplexFormula
