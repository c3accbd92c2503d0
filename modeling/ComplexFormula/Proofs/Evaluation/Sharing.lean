import ComplexFormula.Proofs.Evaluation.Closed

/-! # What folding shares

A folded formula together with what it has been put together from. Calls that nothing has been
folded in are parts of the formula as it was given; only values and the calls around them are new.
-/

namespace ComplexFormula

variable {κ φ σ : Type}

/-- A folded formula. What is old is shared with the formula as it was given. -/
inductive Built (κ φ : Type)
  | old (t : Formula κ φ)
  | value (z : ComplexFloat)
  | call (callee : Callee κ φ) (args : List (Built κ φ))

namespace Built

def formula : Built κ φ → Formula κ φ
  | old t => t
  | value z => .constant z
  | call callee args => .call callee (formulas args)
where
  formulas : List (Built κ φ) → List (Formula κ φ)
    | [] => []
    | b :: bs => formula b :: formulas bs

def folded : Built κ φ → Folded κ φ
  | old t => .kept t
  | value z => .value z
  | call callee args => .rebuilt callee (args.map formula)

def isOld : Built κ φ → Bool
  | old _ => true
  | _ => false

/-- What stands at a place. The parts of what is old are old. -/
def at? : Built κ φ → List Nat → Option (Built κ φ)
  | b, [] => some b
  | old (.call _ args), i :: place => args[i]?.bind fun t => (old t).at? place
  | call _ args, i :: place => args[i]?.bind fun b => b.at? place
  | _, _ :: _ => none

theorem formulas_eq_map (bs : List (Built κ φ)) : formula.formulas bs = bs.map formula := by
  induction bs with
  | nil => rfl
  | cons b bs ih => rw [formula.formulas, ih, List.map_cons]

@[simp] theorem formula_call (callee : Callee κ φ) (args : List (Built κ φ)) :
    (call callee args).formula = .call callee (args.map formula) := by
  rw [formula, formulas_eq_map]

@[simp] theorem formula_folded (b : Built κ φ) : b.folded.formula = b.formula := by
  cases b with
  | call callee args => rw [formula_call, folded, Folded.formula]
  | _ => rfl

@[simp] theorem isKept_folded (b : Built κ φ) : b.folded.isKept = b.isOld := by
  cases b <;> rfl

end Built

namespace Pass

variable {β γ : Type} {a : Pass κ φ σ β} {b : Pass κ φ σ γ}

/-- What holds between the results of two passes at each node holds on all tasks. -/
theorem run_map (g : β → γ) (hconstant : ∀ z, g <$> a.constant z = b.constant z)
    (hcell : ∀ name c, g <$> a.cell name c = b.cell name c)
    (hcall : ∀ callee bs, g <$> a.call callee bs = b.call callee (bs.map g))
    (tasks : List (Task κ φ)) (results : List β) :
    List.map g <$> a.run tasks results = b.run tasks (results.map g) := by
  fun_induction a.run tasks results with
  | case1 results => simp [run]
  | case2 results z tasks ih => simp [run, ← hconstant, ih]
  | case3 results name c tasks ih => simp [run, ← hcell, ih]
  | case4 results callee args tasks ih => simp [run, ih]
  | case5 results callee tasks ih =>
    rw [run, ← List.map_take, ← List.map_reverse, ← hcall]
    simp [ih]

theorem exists_of_getElem?_results {pass : Pass κ φ σ β} {ts : List (Formula κ φ)} {bs : List β}
    {s s' : σ} (h : result.results pass ts s = .ok bs s') {i : Nat} {t : Formula κ φ} {b : β}
    (ht : ts[i]? = some t) (hb : bs[i]? = some b) : ∃ s s', pass.result t s = .ok b s' := by
  induction ts generalizing bs s s' i with
  | nil => cases ht
  | cons u ts ih =>
    rw [result.results] at h
    obtain ⟨b', s₁, hb', h⟩ := Action.exists_of_bind_ok h
    obtain ⟨bs', s₂, hbs', h⟩ := Action.exists_of_bind_ok h
    cases h
    cases i with
    | zero =>
      cases ht
      cases hb
      exact ⟨s, s₁, hb'⟩
    | succ i => exact ih hbs' ht hb

end Pass

namespace Formula

def buildCall (host : Host κ φ σ) (callee : Callee κ φ) (args : List (Built κ φ)) :
    Action σ (Built κ φ) :=
  match callee.pure, (args.map Built.folded).mapM Folded.constant? with
  | true, some values => Built.value <$> host.apply callee values
  | _, _ =>
    if args.all Built.isOld then pure (.old (.call callee (args.map Built.formula)))
    else pure (.call callee args)

def building (host : Host κ φ σ) : Pass κ φ σ (Built κ φ) where
  constant z := pure (.old (.constant z))
  cell name c := pure (.old (.cell name c))
  call := buildCall host

def build (host : Host κ φ σ) (t : Formula κ φ) : Action σ (Built κ φ) := do
  let results ← (building host).run [.visit t] []
  return results.headD (.old t)

section

variable (host : Host κ φ σ)

variable {callee : Callee κ φ} {bs : List (Built κ φ)}

theorem buildCall_value {values : List ComplexFloat} (hpure : callee.pure = true)
    (h : (bs.map Built.folded).mapM Folded.constant? = some values) :
    buildCall host callee bs = Built.value <$> host.apply callee values := by
  simp only [buildCall, hpure, h]

theorem buildCall_of_not_value
    (h : ¬ (callee.pure = true ∧
      ∃ values, (bs.map Built.folded).mapM Folded.constant? = some values)) :
    buildCall host callee bs =
      if bs.all Built.isOld then pure (.old (.call callee (bs.map Built.formula)))
      else pure (.call callee bs) := by
  unfold buildCall
  split
  · rename_i values hpure hvalues
    exact absurd ⟨hpure, values, hvalues⟩ h
  · rfl

theorem folded_buildCall (callee : Callee κ φ) (bs : List (Built κ φ)) :
    Built.folded <$> buildCall host callee bs = foldCall host callee (bs.map Built.folded) := by
  by_cases hvalue : callee.pure = true ∧
      ∃ values, (bs.map Built.folded).mapM Folded.constant? = some values
  · obtain ⟨hpure, values, hvalues⟩ := hvalue
    rw [buildCall_value host hpure hvalues]
    simp only [foldCall, hpure, hvalues, Functor.map_map]
    rfl
  · rw [buildCall_of_not_value host hvalue, foldCall_of_not_value host hvalue]
    have hkept : (bs.map Built.folded).all Folded.isKept = bs.all Built.isOld := by
      simp [List.all_map, Function.comp_def]
    have hformulas : (bs.map Built.folded).map Folded.formula = bs.map Built.formula := by
      simp [Function.comp_def]
    rw [hkept, hformulas]
    split <;> rfl

theorem folded_build (t : Formula κ φ) : Built.folded <$> t.build host = t.fold host := by
  have hrun := Pass.run_map (a := building host) (b := folding host) Built.folded (fun _ => rfl)
    (fun _ _ => rfl) (folded_buildCall host) [.visit t] []
  rw [List.map_nil] at hrun
  rw [build, fold, ← hrun]
  simp only [map_eq_pure_bind, bind_assoc, pure_bind]
  refine congrArg _ (funext fun bs => congrArg pure ?_)
  cases bs <;> rfl

theorem build_eq_result {t : Formula κ φ} (h : t.WellFormed) :
    t.build host = (building host).result t := by
  rw [build, Pass.run_singleton _ h]
  simp

end

/-- What becomes of a formula: a closed call becomes a value, and a call that has none inside stays
what it is. Any other call is made anew, since some of its arguments has changed. -/
inductive Builds : Formula κ φ → Built κ φ → Prop
  | constant (z : ComplexFloat) : Builds (.constant z) (.old (.constant z))
  | cell (name : String) (c : κ) : Builds (.cell name c) (.old (.cell name c))
  | value {callee : Callee κ φ} {args : List (Formula κ φ)} (closed : (call callee args).Closed)
      (z : ComplexFloat) : Builds (.call callee args) (.value z)
  | old {callee : Callee κ φ} {args : List (Formula κ φ)} (not_closed : ¬ (call callee args).Closed)
      (args_old : ∀ t ∈ args, Builds t (.old t)) :
      Builds (.call callee args) (.old (.call callee args))
  | call {callee : Callee κ φ} {args : List (Formula κ φ)} {bs : List (Built κ φ)}
      (not_closed : ¬ (call callee args).Closed) (length_eq : bs.length = args.length)
      (args_build : ∀ (i : Nat) t b, args[i]? = some t → bs[i]? = some b → Builds t b)
      (changed : ∃ b ∈ bs, b.isOld = false) : Builds (.call callee args) (.call callee bs)

namespace Builds

variable {t : Formula κ φ} {b : Built κ φ}

theorem eq_old (h : Builds t b) (hb : b.isOld = true) : b = .old t := by
  cases h with
  | value | call => cases hb
  | _ => rfl

theorem constant?_isSome_iff (h : Builds t b) : b.formula.constant?.isSome ↔ t.Closed := by
  cases h with
  | constant z => exact ⟨fun _ => .constant z, fun _ => rfl⟩
  | cell name c =>
    refine ⟨nofun, fun h => ?_⟩
    cases h with
    | cell h => exact h.elim
  | value closed z => exact ⟨fun _ => closed, fun _ => rfl⟩
  | old not_closed => exact ⟨nofun, fun h => absurd h not_closed⟩
  | call not_closed =>
    rw [Built.formula_call]
    exact ⟨nofun, fun h => absurd h not_closed⟩

end Builds

section Lists

variable {α β : Type} {R : α → β → Prop} {l : List α} {l' : List β}

theorem exists_of_mem_right (hlen : l'.length = l.length)
    (h : ∀ (i : Nat) x y, l[i]? = some x → l'[i]? = some y → R x y) {y : β} (hy : y ∈ l') :
    ∃ x ∈ l, R x y := by
  obtain ⟨i, hi⟩ := List.getElem?_of_mem hy
  have hlt : i < l.length := hlen ▸ (List.getElem?_eq_some_iff.mp hi).1
  exact ⟨_, List.getElem_mem hlt, h i _ y (List.getElem?_eq_getElem hlt) hi⟩

theorem exists_of_mem_left (hlen : l'.length = l.length)
    (h : ∀ (i : Nat) x y, l[i]? = some x → l'[i]? = some y → R x y) {x : α} (hx : x ∈ l) :
    ∃ y ∈ l', R x y :=
  exists_of_mem_right (R := flip R) hlen.symm (fun i y x hy hx => h i x y hx hy) hx

end Lists

theorem exists_mapM_eq_some_iff {α β : Type} {f : α → Option β} {l : List α} :
    (∃ ys, l.mapM f = some ys) ↔ ∀ x ∈ l, (f x).isSome := by
  induction l with
  | nil => simp
  | cons x l ih =>
    rw [List.forall_mem_cons, ← ih, Option.isSome_iff_exists]
    simp only [List.mapM_cons, Option.bind_eq_bind, Option.bind_eq_some_iff]
    constructor
    · rintro ⟨_, y, hy, ys, hys, -⟩
      exact ⟨⟨y, hy⟩, ys, hys⟩
    · rintro ⟨⟨y, hy⟩, ys, hys⟩
      exact ⟨_, y, hy, ys, hys, rfl⟩

section

variable {host : Host κ φ σ} {callee : Callee κ φ} {args : List (Formula κ φ)}
  {bs : List (Built κ φ)}

theorem foldable_iff (hlen : bs.length = args.length)
    (hbuild : ∀ (i : Nat) t b, args[i]? = some t → bs[i]? = some b → Builds t b) :
    (callee.pure = true ∧ ∃ values, (bs.map Built.folded).mapM Folded.constant? = some values) ↔
      (call callee args).Closed := by
  rw [exists_mapM_eq_some_iff, List.forall_mem_map]
  have hconstant (b : Built κ φ) : b.folded.constant? = b.formula.constant? := by
    rw [Folded.constant?, Built.formula_folded]
  simp only [hconstant]
  constructor
  · rintro ⟨hpure, hbs⟩
    refine .call hpure fun t ht => ?_
    obtain ⟨b, hb, hbuilds⟩ := exists_of_mem_left hlen hbuild ht
    exact hbuilds.constant?_isSome_iff.mp (hbs b hb)
  · intro h
    cases h with
    | call hpure hargs =>
      refine ⟨hpure, fun b hb => ?_⟩
      obtain ⟨t, ht, hbuilds⟩ := exists_of_mem_right hlen hbuild hb
      exact hbuilds.constant?_isSome_iff.mpr (hargs t ht)

theorem builds_of_buildCall (hlen : bs.length = args.length)
    (hbuild : ∀ (i : Nat) t b, args[i]? = some t → bs[i]? = some b → Builds t b) {s s' : σ}
    {b : Built κ φ} (h : buildCall host callee bs s = .ok b s') :
    Builds (.call callee args) b := by
  by_cases hclosed : (call callee args).Closed
  · obtain ⟨hpure, values, hvalues⟩ := (foldable_iff hlen hbuild).mpr hclosed
    rw [buildCall_value host hpure hvalues, map_eq_pure_bind] at h
    obtain ⟨z, s₁, -, hb⟩ := Action.exists_of_bind_ok h
    cases hb
    exact .value hclosed z
  · rw [buildCall_of_not_value host (mt (foldable_iff hlen hbuild).mp hclosed)] at h
    split at h
    · rename_i hold
      rw [List.all_eq_true] at hold
      have hargs : bs.map Built.formula = args := by
        refine List.ext_getElem (by rw [List.length_map, hlen]) fun i hi hi' => ?_
        have hlt : i < bs.length := by rwa [List.length_map] at hi
        have hb := hbuild i _ _ (List.getElem?_eq_getElem hi') (List.getElem?_eq_getElem hlt)
        rw [List.getElem_map, hb.eq_old (hold _ (List.getElem_mem hlt))]
        rfl
      cases h
      rw [hargs]
      refine .old hclosed fun t ht => ?_
      obtain ⟨i, hi⟩ := List.getElem?_of_mem ht
      have hlt : i < bs.length := hlen ▸ (List.getElem?_eq_some_iff.mp hi).1
      have hb := hbuild i _ _ hi (List.getElem?_eq_getElem hlt)
      rwa [hb.eq_old (hold _ (List.getElem_mem hlt))] at hb
    · rename_i hnew
      cases h
      refine .call hclosed hlen hbuild ?_
      simpa using hnew

/-- Whatever the callables do, building does this to a formula. -/
theorem builds_of_result {t : Formula κ φ} (hwf : t.WellFormed) {s s' : σ} {b : Built κ φ}
    (h : (building host).result t s = .ok b s') : Builds t b := by
  induction hwf generalizing s b s' with
  | constant z =>
    cases h
    exact .constant z
  | cell name c =>
    cases h
    exact .cell name c
  | call _ _ ih =>
    rw [Pass.result] at h
    obtain ⟨bs, s₁, hbs, h⟩ := Action.exists_of_bind_ok h
    refine builds_of_buildCall ((building host).length_of_results hbs) (fun i t b ht hb => ?_) h
    obtain ⟨s₂, s₃, hresult⟩ := Pass.exists_of_getElem?_results hbs ht hb
    exact ih t (List.mem_of_getElem? ht) hresult

end

theorem exists_builds_of_fold {host : Host κ φ σ} {t : Formula κ φ} (hwf : t.WellFormed) {s s' : σ}
    {f : Folded κ φ} (hf : t.fold host s = .ok f s') :
    ∃ b, t.build host s = .ok b s' ∧ b.folded = f ∧ Builds t b := by
  rw [← folded_build, map_eq_pure_bind] at hf
  obtain ⟨b, s₁, hb, hf⟩ := Action.exists_of_bind_ok hf
  cases hf
  exact ⟨b, hb, rfl, builds_of_result hwf (build_eq_result host hwf ▸ hb)⟩

end Formula

end ComplexFormula
