import Mathlib.Data.Nat.Find
import ComplexFormula.Proofs.Parsing.Viability

/-! # The depth limit

Every source has a depth from which on the limit makes no difference, and below which operands are
nested too deep. For a sentence it is the nesting of the derivation.
-/

namespace ComplexFormula

variable {κ φ : Type}

open Rule

section

variable {limits : Limits} {source : String} {bindings : List (Symbol κ φ)}

theorem unexhausted_of_ample (h : (ampleLimits source bindings).room ≤ limits.room) :
    Unexhausted limits source bindings := by
  intro cursor hp
  have hv := parse_verdict limits source bindings
  rw [hp] at hv
  cases hv with
  | blocked _ hproper => exact nomatch hproper
  | deep hts he =>
    cases he with
    | exhausted hlt =>
      simp only [ampleLimits, hts, List.length_append, List.length_cons] at h
      omega

theorem Unexhausted.parse_eq_ample (h : Unexhausted limits source bindings) :
    parse limits source bindings =
      parse ⟨limits.depth, (ampleLimits source bindings).room⟩ source bindings := by
  have hample : Unexhausted ⟨limits.depth, (ampleLimits source bindings).room⟩ source bindings :=
    unexhausted_of_ample (Nat.le_refl _)
  rw [h.parse_eq (Nat.le_max_left limits.room (ampleLimits source bindings).room),
    hample.parse_eq (Nat.le_max_right limits.room (ampleLimits source bindings).room)]

/-- A limit below one admits no operand at all. -/
theorem parse_of_depth_nonpos (limits : Limits) (source : String) (bindings : List (Symbol κ φ))
    (h : limits.depth ≤ 0) : ∃ f, parse limits source bindings = .error f ∧ f.isNesting = true := by
  have hpower : power limits.depth limits.room (Reader.start source bindings) =
      (Reader.start source bindings).fail (.nesting limits.depth) :=
    power_deep (by rw [Reader.depth_start]; omega)
  exact ⟨_, parse_error (chain_error (chain_error (chain_error (chain_error hpower)))), rfl⟩

end

section

variable (source : String) (bindings : List (Symbol κ φ))

/-- With this limit, and room, no operand is nested too deep. -/
def Fits (depth : Int) : Prop :=
  ∀ f, parse ⟨depth, (ampleLimits source bindings).room⟩ source bindings = .error f →
    f.isNesting = false

theorem fits_ample : Fits source bindings (sourceTokens source bindings).length :=
  fun _ hf => not_isNesting_of_ample (Int.le_refl _) (Nat.le_refl _) hf

theorem exists_fits : ∃ n : Nat, Fits source bindings n :=
  ⟨_, fits_ample source bindings⟩

variable {source bindings} {depth depth' : Int}

theorem not_fits_iff : ¬ Fits source bindings depth ↔
    ∃ f, parse ⟨depth, (ampleLimits source bindings).room⟩ source bindings = .error f ∧
      f.isNesting = true := by
  simp only [Fits, not_forall, exists_prop, Bool.not_eq_false]

theorem Fits.parse_eq (h : Fits source bindings depth) (hle : depth ≤ depth') :
    parse ⟨depth', (ampleLimits source bindings).room⟩ source bindings =
      parse ⟨depth, (ampleLimits source bindings).room⟩ source bindings := by
  rcases parse_cut (· = .nesting depth) ⟨depth, (ampleLimits source bindings).room⟩
    ⟨depth', (ampleLimits source bindings).room⟩ source bindings hle (Nat.le_refl _)
    (fun _ => rfl) (fun hlt => absurd hlt (Nat.lt_irrefl _)) with heq | ⟨⟨cause, cursor⟩, hf, rfl, -⟩
  · exact heq.symm
  · exact nomatch h _ hf

theorem Fits.pos (h : Fits source bindings depth) : 0 < depth := by
  by_contra hle
  exact not_fits_iff.mpr (parse_of_depth_nonpos ⟨depth, (ampleLimits source bindings).room⟩ source
    bindings (Int.not_lt.mp hle)) h

theorem fits_iff_of_writes (depth : Int) {t : Formula κ φ} {n : Nat}
    (h : Writes (sourceLexemes source bindings) t n) : Fits source bindings depth ↔ n ≤ depth := by
  have hroom : 2 * n ≤ (⟨depth, (ampleLimits source bindings).room⟩ : Limits).room := by
    obtain ⟨w, hw, hder⟩ := h
    have hle := hder.nesting_le_length
    have hlen := congrArg List.length hw
    simp only [sourceLexemes, List.length_map, List.length_append, List.length_singleton] at hlen
    simp only [ampleLimits]
    omega
  have hparse := parse_of_writes h hroom
  constructor
  · intro hfits
    by_contra hlt
    exact not_fits_iff.mpr (hparse.2 (Int.not_le.mp hlt)) hfits
  · intro hle f hf
    cases (hparse.1 hle).symm.trans hf

/-- A fault of nesting moves on, if at all, as the limit grows. -/
theorem cursor_mono {f f' : ParseFault} (hle : depth ≤ depth')
    (hf : parse ⟨depth, (ampleLimits source bindings).room⟩ source bindings = .error f)
    (hf' : parse ⟨depth', (ampleLimits source bindings).room⟩ source bindings = .error f') :
    f.cursor ≤ f'.cursor := by
  rcases parse_cut (fun _ => True) ⟨depth, (ampleLimits source bindings).room⟩
    ⟨depth', (ampleLimits source bindings).room⟩ source bindings hle (Nat.le_refl _)
    (fun _ => trivial) (fun _ => trivial) with heq | ⟨g, hg, -, hcut⟩
  · obtain rfl := Except.error.inj (hf.symm.trans (heq.trans hf'))
    exact Nat.le_refl _
  · obtain rfl := Except.error.inj (hf.symm.trans hg)
    exact hcut f' hf'

end

/-- The least limit that fits is an exact threshold, wherever the room is enough; and some room is
enough under all limits. -/
theorem parse_depth_threshold (source : String) (bindings : List (Symbol κ φ)) :
    ∃ d : Nat, 1 ≤ d ∧
      (∃ outcome : Except ParseFault (Formula κ φ),
        (∀ f, outcome = .error f → f.kind ≠ .nesting) ∧
        ∀ limits : Limits, Unexhausted limits source bindings →
          (limits.depth < d →
            ∃ f, parse limits source bindings = .error f ∧ f.kind = .nesting) ∧
          (d ≤ limits.depth → parse limits source bindings = outcome)) ∧
      (∀ w t n, sourceLexemes source bindings = w ++ [.finish] → Derives .list w t n → d = n) ∧
      (∀ limits₁ limits₂ : Limits,
        Unexhausted limits₁ source bindings → Unexhausted limits₂ source bindings →
          limits₁.depth ≤ limits₂.depth → limits₂.depth < d →
            ∀ f₁ f₂, parse limits₁ source bindings = .error f₁ →
              parse limits₂ source bindings = .error f₂ → f₁.offset ≤ f₂.offset) ∧
      ∀ limits : Limits, (ampleLimits source bindings).room ≤ limits.room →
        Unexhausted limits source bindings := by
  classical
  let d := Nat.find (exists_fits source bindings)
  have hfits : Fits source bindings d := Nat.find_spec (exists_fits source bindings)
  have hmin {depth : Int} (h : Fits source bindings depth) : d ≤ depth := by
    obtain ⟨n, rfl⟩ := Int.eq_ofNat_of_zero_le (Int.le_of_lt h.pos)
    exact Int.ofNat_le.mpr (Nat.find_min' (exists_fits source bindings) h)
  refine ⟨d, Int.natCast_pos.mp hfits.pos,
    ⟨parse ⟨d, (ampleLimits source bindings).room⟩ source bindings, ?_, ?_⟩, ?_, ?_,
    fun limits => unexhausted_of_ample⟩
  · intro f hf
    rw [Ne, ParseFault.kind_eq_nesting_iff, hfits f hf]
    exact Bool.false_ne_true
  · intro limits hroom
    rw [hroom.parse_eq_ample]
    constructor
    · intro hlt
      have hnot : ¬ Fits source bindings limits.depth := by
        intro h
        have := hmin h
        omega
      obtain ⟨f, hf, hn⟩ := not_fits_iff.mp hnot
      exact ⟨f, hf, ParseFault.kind_eq_nesting_iff.mpr hn⟩
    · intro hle
      exact hfits.parse_eq hle
  · intro w t n hw hder
    have hw : Writes (sourceLexemes source bindings) t n := ⟨w, hw, hder⟩
    have hle := (fits_iff_of_writes d hw).mp hfits
    have hge := hmin ((fits_iff_of_writes n hw).mpr (Int.le_refl _))
    omega
  · intro limits₁ limits₂ hroom₁ hroom₂ hle _ f₁ f₂ hf₁ hf₂
    have hcursor := cursor_mono hle (hroom₁.parse_eq_ample.symm.trans hf₁)
      (hroom₂.parse_eq_ample.symm.trans hf₂)
    simp only [ParseFault.offset, Diagnostic.place]
    omega

/-- Below three the limit stops at a parenthesis; from three on the sum that breaks off further on
is the fault. -/
theorem parse_depth_threshold_nested :
    (ampleLimits "((2)+)" ([] : List (Symbol Empty Empty))).room ≤ 20 ∧
      (∀ depth : Int, depth < 3 → ∃ f,
        parse ⟨depth, 20⟩ "((2)+)" ([] : List (Symbol Empty Empty)) = .error f ∧
          f.kind = .nesting ∧ f.offset ≤ 3) ∧
      ∀ depth : Int, 3 ≤ depth →
        parse ⟨depth, 20⟩ "((2)+)" ([] : List (Symbol Empty Empty)) =
          .error ⟨.unexpected (some ")"), 6⟩ := by
  obtain ⟨d, -, ⟨outcome, hkind, hthreshold⟩, -, hmono, hample⟩ :=
    parse_depth_threshold "((2)+)" ([] : List (Symbol Empty Empty))
  have hroom : (ampleLimits "((2)+)" ([] : List (Symbol Empty Empty))).room ≤ 20 := by decide
  have hunexhausted (depth : Int) := hample ⟨depth, 20⟩ hroom
  have htwo : parse ⟨2, 20⟩ "((2)+)" ([] : List (Symbol Empty Empty)) =
      .error ⟨.nesting 2, 3⟩ := by rfl
  have hthree : parse ⟨3, 20⟩ "((2)+)" ([] : List (Symbol Empty Empty)) =
      .error ⟨.unexpected (some ")"), 6⟩ := by rfl
  have hle : d ≤ 3 := by
    by_contra hlt
    have hlt : (3 : Int) < d := by omega
    obtain ⟨f, hf, hnesting⟩ := (hthreshold ⟨3, 20⟩ (hunexhausted 3)).1 hlt
    cases hthree.symm.trans hf
    cases hnesting
  have hge : 3 ≤ d := by
    by_contra hlt
    have hbelow : (d : Int) ≤ 2 := by omega
    have houtcome := (hthreshold ⟨2, 20⟩ (hunexhausted 2)).2 hbelow
    exact hkind _ (houtcome.symm.trans htwo) rfl
  obtain rfl : d = 3 := Nat.le_antisymm hle hge
  refine ⟨hroom, fun depth hdepth => ?_, fun depth hdepth => ?_⟩
  · obtain ⟨f, hf, hnesting⟩ := (hthreshold ⟨depth, 20⟩ (hunexhausted depth)).1 hdepth
    exact ⟨f, hf, hnesting, hmono _ ⟨2, 20⟩ (hunexhausted depth) (hunexhausted 2)
      (Int.le_of_lt_add_one hdepth) (by decide) f _ hf htwo⟩
  · rw [(hthreshold ⟨depth, 20⟩ (hunexhausted depth)).2 hdepth, ← hthree]
    exact ((hthreshold ⟨3, 20⟩ (hunexhausted 3)).2 (Int.le_refl 3)).symm

end ComplexFormula
