import ComplexFormula.Proofs.Parsing.Verdict

/-! # What is accepted

The parser accepts the sentences of the grammar that are nested within its limit, and returns the
formula that their one derivation writes.
-/

namespace ComplexFormula

variable {κ φ : Type} {limits : Limits} {source : String} {bindings : List (Symbol κ φ)}

theorem parse_ok_of_writes (h : Unexhausted limits source bindings) {t : Formula κ φ} {n : Nat}
    (hw : Writes (sourceLexemes source bindings) t n) (hn : (n : Int) ≤ limits.depth) :
    parse limits source bindings = .ok t := by
  rw [h.parse_eq (Nat.le_max_left limits.room (2 * n))]
  exact (parse_of_writes hw (Nat.le_max_right ..)).1 hn

theorem exists_writes_of_parse_ok {t : Formula κ φ} (h : parse limits source bindings = .ok t) :
    ∃ n : Nat, Writes (sourceLexemes source bindings) t n ∧ (n : Int) ≤ limits.depth := by
  have hv := parse_verdict limits source bindings
  rw [h] at hv
  cases hv with
  | accepted hw hn => exact ⟨_, hw, hn⟩

/-- A source is accepted if and only if it is a sentence, and the formula is that of its
derivation. -/
theorem parse_ok_iff_derives (h : Unexhausted limits source bindings) :
    (∀ t, parse limits source bindings = .ok t ↔
      .unknown ∉ sourceLexemes source bindings ∧
        ∃ w n, sourceLexemes source bindings = w ++ [.finish] ∧ Derives .list w t n ∧
          (n : Int) ≤ limits.depth) ∧
      ∀ (w : List (Lexeme κ φ)) (t₁ t₂ : Formula κ φ) (n₁ n₂ : Nat),
        Derives .list w t₁ n₁ → Derives .list w t₂ n₂ → t₁ = t₂ := by
  constructor
  · intro t
    constructor
    · intro ht
      obtain ⟨n, hw, hn⟩ := exists_writes_of_parse_ok ht
      obtain ⟨w, hlex, hder⟩ := id hw
      exact ⟨hw.unknown_not_mem, w, n, hlex, hder, hn⟩
    · rintro ⟨-, w, n, hlex, hder, hn⟩
      exact parse_ok_of_writes h ⟨w, hlex, hder⟩ hn
  · intro w t₁ t₂ n₁ n₂ h₁ h₂
    exact h₁.tree_unique h₂

/-- Calls inside a call behind a sign, at just the limit that they need. -/
theorem parse_ok_iff_derives_negated_call :
    Unexhausted ⟨3, 8⟩ "-pow(x, sin x)"
        [.callable (.builtin .pow), .callable (.builtin .sin), (.cell "x" 0 : Symbol Nat Nat)] ∧
      ∃ w n, sourceLexemes "-pow(x, sin x)"
          [.callable (.builtin .pow), .callable (.builtin .sin), .cell "x" 0] = w ++ [.finish] ∧
        Derives .list w
          (Formula.call (.builtin .pow)
            [.cell "x" 0, .call (.builtin .sin) [.cell "x" 0]] : Formula Nat Nat).negate n ∧
        (n : Int) ≤ 3 := by
  have hparse : parse ⟨3, 8⟩ "-pow(x, sin x)"
      [.callable (.builtin .pow), .callable (.builtin .sin), .cell "x" 0] =
        .ok (Formula.call (.builtin .pow)
          [.cell "x" 0, .call (.builtin .sin) [.cell "x" 0]] : Formula Nat Nat).negate := by rfl
  have hroom : Unexhausted ⟨3, 8⟩ "-pow(x, sin x)"
      [.callable (.builtin .pow), .callable (.builtin .sin), (.cell "x" 0 : Symbol Nat Nat)] := by
    intro cursor h
    rw [hparse] at h
    cases h
  exact ⟨hroom, (((parse_ok_iff_derives hroom).1 _).mp hparse).2⟩

end ComplexFormula
