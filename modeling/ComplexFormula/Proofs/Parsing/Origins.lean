import ComplexFormula.Proofs.Evaluation.Stack
import ComplexFormula.Proofs.Parsing.Nodes

/-! # Where nodes come from

Every call of a parsed formula is one of its operators, or of the symbol that its name is resolved
to, and has just as many arguments as that takes. Folding makes no other nodes than constants. So no
pass over such formulas is ever short of results.
-/

namespace ComplexFormula

variable {κ φ σ : Type}

/-- The callee of an operator, of the minus sign, or of the symbol that its name stands for. -/
inductive Callee.Sourced (bindings : List (Symbol κ φ)) : Callee κ φ → Prop
  | operator (op : Operator) : Sourced bindings (.operator op)
  | negation : Sourced bindings .negation
  | symbol {callee : Callee κ φ}
      (resolved : Symbol.resolve? callee.name bindings = some (.callable callee)) :
      Sourced bindings callee

/-- The cells and callees are those that the bindings give to the names of a formula. -/
structure Formula.Sourced (bindings : List (Symbol κ φ)) (t : Formula κ φ) : Prop where
  wellFormed : t.WellFormed
  every : t.Every (fun name c => Symbol.findBinding? name bindings = some (.cell name c))
    fun callee => callee.Sourced bindings ∧ callee.arity ≤ maxArity

/-- Neither evaluation nor folding takes more results off its stack than are there. -/
def Formula.NeverShort (t : Formula κ φ) : Prop :=
  ∀ (σ : Type) (host : Host κ φ σ) (s : σ),
    (∀ a, (Formula.evaluation host).Steps (.first t s) a → ¬ a.Short) ∧
      ∀ a, (Formula.folding host).Steps (.first t s) a → ¬ a.Short

theorem Formula.WellFormed.neverShort {t : Formula κ φ} (h : t.WellFormed) : t.NeverShort :=
  fun _ _ _ => ⟨fun _ => Pass.not_short_of_steps h, fun _ => Pass.not_short_of_steps h⟩

section Arity

variable {bindings : List (Symbol κ φ)}

theorem Builtin.arity_le (f : Builtin) : f.arity ≤ maxArity := by
  cases f <;> decide

theorem Symbol.arity_le_of_resolve? (valid : ∀ s ∈ bindings, s.Valid) {name : String}
    {s : Symbol κ φ} (h : resolve? name bindings = some s) : s.arity ≤ maxArity := by
  rcases mem_of_resolve? h with hs | ⟨f, rfl⟩
  · exact (valid s hs).2
  · exact f.arity_le

theorem Callee.Sourced.arity_le (valid : ∀ s ∈ bindings, s.Valid) {callee : Callee κ φ}
    (h : callee.Sourced bindings) : callee.arity ≤ maxArity := by
  cases h with
  | operator op => exact (by decide : 2 ≤ maxArity)
  | negation => exact (by decide : 1 ≤ maxArity)
  | symbol resolved => exact Symbol.arity_le_of_resolve? valid resolved

theorem Symbol.findBinding?_of_resolve? {name name' : String} {c : κ}
    (h : resolve? name bindings = some (.cell name' c)) :
    findBinding? name bindings = some (.cell name' c) := by
  rw [resolve?] at h
  split at h
  · rename_i hfound
    exact hfound.trans h
  · obtain ⟨f, -, hf⟩ := Option.map_eq_some_iff.mp h
    cases hf

end Arity

section Folding

open Formula

variable {host : Host κ φ σ}

/-- Whatever the callables do, folding leaves calls as they are, or puts constants for them. -/
theorem every_of_folding {cells : String → κ → Prop} {callees : Callee κ φ → Prop}
    {t : Formula κ φ} (hwf : t.WellFormed) (h : t.Every cells callees) {s s' : σ} {f : Folded κ φ}
    (hf : (folding host).result t s = .ok f s') :
    f.formula.WellFormed ∧ f.formula.Every cells callees := by
  induction hwf generalizing s f s' with
  | constant z =>
    cases hf
    exact ⟨.constant z, .constant z⟩
  | cell name c =>
    cases hf
    exact ⟨.cell name c, h⟩
  | @call callee args hlen _ ih =>
    cases h with
    | call hcallee hargs =>
      rw [Pass.result] at hf
      obtain ⟨fs, s₁, hfs, hf⟩ := Action.exists_of_bind_ok hf
      have hcount : (fs.map Folded.formula).length = callee.arity := by
        rw [List.length_map, (folding host).length_of_results hfs, hlen]
      have hmem : ∀ u ∈ fs.map Folded.formula, u.WellFormed ∧ u.Every cells callees := by
        intro u hu
        obtain ⟨f, hf, rfl⟩ := List.mem_map.mp hu
        obtain ⟨t, ht, s, s', hresult⟩ := (folding host).exists_of_mem_results hfs hf
        exact ih t ht (hargs t ht) hresult
      rcases foldCall_cases hf with ⟨values, z, -, -, -, rfl⟩ | hformula
      · exact ⟨.constant z, .constant z⟩
      · rw [hformula]
        exact ⟨.call hcount fun u hu => (hmem u hu).1, .call hcallee fun u hu => (hmem u hu).2⟩

theorem Formula.Sourced.fold {bindings : List (Symbol κ φ)} {t : Formula κ φ}
    (h : t.Sourced bindings) {s s' : σ} {f : Folded κ φ} (hf : t.fold host s = .ok f s') :
    f.formula.Sourced bindings := by
  rw [fold_eq_result h.wellFormed] at hf
  obtain ⟨hwf, hevery⟩ := every_of_folding h.wellFormed h.every hf
  exact ⟨hwf, hevery⟩

end Folding

section Parse

variable {limits : Limits} {source : String} {bindings : List (Symbol κ φ)} {t : Formula κ φ}

/-- A parsed formula, and what folding makes of it, whatever the callables do, has the cells and
callees that its names stand for, and no pass over it is ever short of results. -/
theorem sourced_of_parse (valid : ∀ s ∈ bindings, s.Valid)
    (h : parse limits source bindings = .ok t) :
    t.Sourced bindings ∧ t.NeverShort ∧
      ∀ (σ : Type) (host : Host κ φ σ) (s s' : σ) (f : Folded κ φ), t.fold host s = .ok f s' →
        f.formula.Sourced bindings ∧ f.formula.NeverShort := by
  have hsourced : t.Sourced bindings := by
    have harity (callee : Callee κ φ) (hc : callee.Sourced bindings) :
        callee.Sourced bindings ∧ callee.arity ≤ maxArity := ⟨hc, hc.arity_le valid⟩
    refine ⟨wellFormed_of_parse h, every_of_resolve? (fun op => harity _ (.operator op))
      (harity _ .negation) (fun s hs => ?_) h⟩
    cases s with
    | cell name c => exact Symbol.findBinding?_of_resolve? hs
    | callable callee => exact harity callee (.symbol hs)
  refine ⟨hsourced, hsourced.wellFormed.neverShort, fun σ host s s' f hf => ?_⟩
  have hfolded := hsourced.fold hf
  exact ⟨hfolded, hfolded.wellFormed.neverShort⟩

def shadowing : List (Symbol Nat Bool) :=
  [.callable ⟨"sin", .closure true (some 7), 2, false⟩, .cell "x" 1, .cell "x" 2]

def shadowed : Formula Nat Bool :=
  .negate (.call ⟨"sin", .closure true (some 7), 2, false⟩
    [.cell "x" 1, .negate (.cell "x" 1)])

theorem sourced_of_parse_shadowing :
    (∀ s ∈ shadowing, s.Valid) ∧ parse ⟨3, 8⟩ "-sin(x, -x)" shadowing = .ok shadowed ∧
      shadowed.Sourced shadowing ∧ shadowed.NeverShort ∧
      ∀ (σ : Type) (host : Host Nat Bool σ) (s s' : σ) (f : Folded Nat Bool),
        shadowed.fold host s = .ok f s' → f.formula.Sourced shadowing ∧ f.formula.NeverShort := by
  have valid : ∀ s ∈ shadowing, s.Valid := by decide
  have hparse : parse ⟨3, 8⟩ "-sin(x, -x)" shadowing = .ok shadowed := by rfl
  exact ⟨valid, hparse, sourced_of_parse valid hparse⟩

end Parse

end ComplexFormula
