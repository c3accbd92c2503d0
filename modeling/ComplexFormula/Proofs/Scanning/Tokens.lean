import Mathlib.Data.List.Basic
import ComplexFormula.Token.Scanner

/-! # The tokens of a source

Scanning splits the text and loses nothing of it but blanks. The tokens end with the finishing one,
which stands at the end of the source, and their ends never go back.
-/

namespace ComplexFormula

namespace Decimal

theorem splitSign_eq (cs : List Char) :
    cs = (splitSign cs).1.toList ++ (splitSign cs).2 := by
  unfold splitSign
  split <;> rfl

theorem scanExponent_eq (cs : List Char) :
    cs = ((scanExponent cs).1.map Exponent.text).getD [] ++ (scanExponent cs).2 := by
  cases cs with
  | nil => rfl
  | cons mark cs =>
    simp only [scanExponent]
    split
    · simp only [Option.map_some, Option.getD_some, Exponent.text, List.cons_append,
        List.append_assoc, List.takeWhile_append_dropWhile]
      rw [← splitSign_eq]
    · rfl

theorem scanNumeral?_eq {cs rest : List Char} {n : Numeral}
    (h : scanNumeral? cs = some (n, rest)) : cs = n.text ++ rest ∧ n.text ≠ [] := by
  have hcs := (List.takeWhile_append_dropWhile (p := Char.isDigit) (l := cs)).symm
  rw [scanNumeral?] at h
  split at h
  · rename_i after hd
    dsimp only at h
    have ha := (List.takeWhile_append_dropWhile (p := Char.isDigit) (l := after)).symm
    have he := scanExponent_eq (after.dropWhile Char.isDigit)
    generalize scanExponent (after.dropWhile Char.isDigit) = e at h he
    split at h
    · cases h
    · obtain ⟨rfl, rfl⟩ := Prod.mk.inj (Option.some.inj h)
      refine ⟨?_, by simp [Numeral.text]⟩
      conv_lhs => rw [hcs, hd, ha, he]
      simp [Numeral.text]
  · dsimp only at h
    have he := scanExponent_eq (cs.dropWhile Char.isDigit)
    generalize scanExponent (cs.dropWhile Char.isDigit) = e at h he
    split at h
    · cases h
    · rename_i hw
      obtain ⟨rfl, rfl⟩ := Prod.mk.inj (Option.some.inj h)
      refine ⟨?_, fun h => hw ?_⟩
      · conv_lhs => rw [hcs, he]
        simp [Numeral.text]
      · exact List.isEmpty_iff.mpr (List.append_eq_nil_iff.mp (List.append_eq_nil_iff.mp h).1).1

end Decimal

variable {κ φ : Type}

namespace Lexeme

theorem isFinish_iff {x : Lexeme κ φ} : x.isFinish = true ↔ x = .finish := by
  cases x <;> simp [isFinish]

theorem isUnknown_iff {x : Lexeme κ φ} : x.isUnknown = true ↔ x = .unknown := by
  cases x <;> simp [isUnknown]

theorem scan_nil (bindings : List (Symbol κ φ)) : scan bindings [] = (finish, [], []) := rfl

theorem scan_cons (bindings : List (Symbol κ φ)) (c : Char) (cs : List Char) :
    ∃ x text rest, scan bindings (c :: cs) = (x, text, rest) ∧ x ≠ finish ∧ text ≠ [] ∧
      c :: cs = text ++ rest := by
  rw [scan]
  split
  · split
    · rename_i n rest hn
      obtain ⟨he, -⟩ := Decimal.scanNumeral?_eq hn
      exact ⟨_, _, _, rfl, nofun, by simp, by rw [he]; simp⟩
    · rename_i n rest hn
      obtain ⟨he, hne⟩ := Decimal.scanNumeral?_eq hn
      exact ⟨_, _, _, rfl, nofun, hne, he⟩
    · exact ⟨_, _, _, rfl, nofun, by simp, rfl⟩
  · split
    · have he : c :: cs = (c :: cs.takeWhile isIdentifierTail) ++ cs.dropWhile isIdentifierTail := by
        rw [List.cons_append, List.takeWhile_append_dropWhile]
      dsimp only
      split
      · exact ⟨_, _, _, rfl, nofun, by simp, he⟩
      · exact ⟨_, _, _, rfl, nofun, by simp, he⟩
    · refine ⟨_, _, _, rfl, ?_, by simp, rfl⟩
      unfold ofMark
      split <;> exact nofun

end Lexeme

namespace Scanner

/-- What one step does: it reports the end of a text of blanks, or takes a token after blanks. -/
theorem next_cases (s : Scanner κ φ) :
    (s.next.1.lexeme = .finish ∧ s.next.1.stop = s.cursor + s.rest.length) ∨
      (s.next.1.lexeme ≠ .finish ∧ s.cursor < s.next.1.stop ∧ s.next.2.cursor = s.next.1.stop ∧
        s.next.2.cursor + s.next.2.rest.length = s.cursor + s.rest.length) := by
  have hrest := congrArg List.length
    (List.takeWhile_append_dropWhile (p := isSpace) (l := s.rest))
  rw [List.length_append] at hrest
  simp only [next]
  cases hd : s.rest.dropWhile isSpace with
  | nil =>
    rw [hd, List.length_nil] at hrest
    left
    simp only [Lexeme.scan_nil, List.length_nil, true_and]
    omega
  | cons c cs =>
    obtain ⟨x, text, rest, hscan, hx, htext, hcs⟩ := Lexeme.scan_cons s.bindings c cs
    have hlen := congrArg List.length hcs
    have hpos := List.length_pos_iff.mpr htext
    rw [List.length_append] at hlen
    rw [hd] at hrest
    right
    rw [hscan]
    exact ⟨hx, by dsimp only; omega, trivial, by dsimp only; omega⟩

inductive Scans : Scanner κ φ → List (Token κ φ) → Prop
  | finish {s : Scanner κ φ} (h : s.next.1.lexeme = .finish) : Scans s [s.next.1]
  | step {s : Scanner κ φ} {ts : List (Token κ φ)} (h : s.next.1.lexeme ≠ .finish)
      (rest : Scans s.next.2 ts) : Scans s (s.next.1 :: ts)

theorem scans_tokensWithin {n : Nat} {s : Scanner κ φ} (h : s.rest.length < n) :
    Scans s (s.tokensWithin n) := by
  induction n generalizing s with
  | zero => exact absurd h (Nat.not_lt_zero _)
  | succ n ih =>
    rw [tokensWithin]
    rcases s.next_cases with ⟨hx, -⟩ | ⟨hx, hlt, hc, hlen⟩
    · rw [if_pos (Lexeme.isFinish_iff.mpr hx)]
      exact .finish hx
    · rw [if_neg (mt Lexeme.isFinish_iff.mp hx)]
      exact .step hx (ih (by omega))

theorem scans_tokens (s : Scanner κ φ) : Scans s s.tokens :=
  scans_tokensWithin (Nat.lt_succ_self _)

namespace Scans

variable {s : Scanner κ φ} {ts : List (Token κ φ)}

theorem exists_finish (h : Scans s ts) :
    ∃ us e, ts = us ++ [e] ∧ e.lexeme = .finish ∧ e.stop = s.cursor + s.rest.length ∧
      ∀ t ∈ us, t.lexeme ≠ .finish := by
  induction h with
  | @finish s hx =>
    rcases s.next_cases with ⟨-, hs⟩ | ⟨hx', -⟩
    · exact ⟨[], _, rfl, hx, hs, fun t ht => nomatch ht⟩
    · exact absurd hx hx'
  | @step s ts hx _ ih =>
    obtain ⟨us, e, rfl, he, hs, hus⟩ := ih
    rcases s.next_cases with ⟨hx', -⟩ | ⟨-, -, -, hlen⟩
    · exact absurd hx' hx
    · refine ⟨_ :: us, e, rfl, he, hs.trans hlen, fun t ht => ?_⟩
      rcases List.mem_cons.mp ht with rfl | ht
      · exact hx
      · exact hus t ht

theorem stop_mem (h : Scans s ts) {t : Token κ φ} (ht : t ∈ ts) :
    s.cursor ≤ t.stop ∧ t.stop ≤ s.cursor + s.rest.length := by
  induction h with
  | @finish s hx =>
    obtain rfl := List.mem_singleton.mp ht
    rcases s.next_cases with ⟨-, hs⟩ | ⟨hx', -⟩
    · omega
    · exact absurd hx hx'
  | @step s ts hx _ ih =>
    rcases s.next_cases with ⟨hx', -⟩ | ⟨-, hlt, hc, hlen⟩
    · exact absurd hx' hx
    · rcases List.mem_cons.mp ht with rfl | ht
      · omega
      · have := ih ht
        omega

theorem stop_sorted (h : Scans s ts) : ts.Pairwise fun t u => t.stop ≤ u.stop := by
  induction h with
  | finish => exact List.pairwise_singleton ..
  | @step s ts hx hrest ih =>
    refine List.pairwise_cons.mpr ⟨fun u hu => ?_, ih⟩
    rcases s.next_cases with ⟨hx', -⟩ | ⟨-, -, hc, -⟩
    · exact absurd hx' hx
    · rw [← hc]
      exact (hrest.stop_mem hu).1

end Scans

end Scanner

def sourceTokens (source : String) (bindings : List (Symbol κ φ)) : List (Token κ φ) :=
  (Scanner.start source bindings).tokens

section

variable (source : String) (bindings : List (Symbol κ φ))

theorem sourceTokens_eq : ∃ us e, sourceTokens source bindings = us ++ [e] ∧
    e.lexeme = .finish ∧ e.stop = source.length ∧ ∀ t ∈ us, t.lexeme ≠ .finish := by
  obtain ⟨us, e, h, he, hs, hus⟩ := (Scanner.start source bindings).scans_tokens.exists_finish
  refine ⟨us, e, h, he, ?_, hus⟩
  rw [hs, ← String.length_toList]
  exact Nat.zero_add _

theorem stop_le_length {t : Token κ φ} (ht : t ∈ sourceTokens source bindings) :
    t.stop ≤ source.length := by
  have h := ((Scanner.start source bindings).scans_tokens.stop_mem ht).2
  rw [← String.length_toList]
  exact Nat.le_trans h (Nat.le_of_eq (Nat.zero_add _))

theorem sourceTokens_sorted :
    (sourceTokens source bindings).Pairwise fun t u => t.stop ≤ u.stop :=
  (Scanner.start source bindings).scans_tokens.stop_sorted

end

end ComplexFormula
