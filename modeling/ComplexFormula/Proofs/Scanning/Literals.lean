import Mathlib.Data.List.TakeWhile
import ComplexFormula.Proofs.Scanning.Tokens

/-! # Longest literals

What a decimal literal is, apart from how it is read; and that reading takes the longest literal at
the start of a text, or tells that there is none.
-/

namespace ComplexFormula

/-- Of the beginnings of a text that satisfy `P`, the longest one. -/
structure Longest (P : List Char → Prop) (w text : List Char) : Prop where
  begins : w <+: text
  holds : P w
  length_le : ∀ v, v <+: text → P v → v.length ≤ w.length

theorem Longest.eq {P : List Char → Prop} {v w text : List Char} (hv : Longest P v text)
    (hw : Longest P w text) : v = w := by
  have hlen := Nat.le_antisymm (hw.length_le v hv.begins hv.holds)
    (hv.length_le w hw.begins hw.holds)
  exact (List.prefix_of_prefix_length_le hv.begins hw.begins (Nat.le_of_eq hlen)).eq_of_length hlen

theorem Longest.refl {P : List Char → Prop} {w : List Char} (h : P w) : Longest P w w :=
  ⟨List.prefix_rfl, h, fun _ hv _ => hv.length_le⟩

namespace Decimal

variable {cs ds rest text : List Char} {e : Exponent} {m n : Numeral}

def Digits (cs : List Char) : Prop :=
  ∀ c ∈ cs, c.isDigit = true

structure Exponent.Valid (e : Exponent) : Prop where
  mark : e.mark = 'e' ∨ e.mark = 'E'
  sign : ∀ c ∈ e.sign, c = '+' ∨ c = '-'
  digits : Digits e.digits
  complete : e.digits ≠ []

/-- Digits with an optional point and digits after it, or a point and digits, and an optional
exponent. -/
structure Numeral.Valid (n : Numeral) : Prop where
  whole : Digits n.whole
  fraction : ∀ ds ∈ n.fraction, Digits ds
  digit : n.whole ≠ [] ∨ ∃ ds ∈ n.fraction, ds ≠ []
  exponent : ∀ e ∈ n.exponent, e.Valid

def IsLiteral (w : List Char) : Prop :=
  ∃ n : Numeral, n.Valid ∧ n.text = w

section Digits

theorem Digits.takeWhile (cs : List Char) : Digits (cs.takeWhile Char.isDigit) :=
  fun _ hc => List.mem_takeWhile_imp hc

theorem Digits.takeWhile_append (h : Digits ds) (cs : List Char) :
    (ds ++ cs).takeWhile Char.isDigit = ds ++ cs.takeWhile Char.isDigit :=
  List.takeWhile_append_of_pos h

theorem Digits.dropWhile_append (h : Digits ds) (cs : List Char) :
    (ds ++ cs).dropWhile Char.isDigit = cs.dropWhile Char.isDigit :=
  List.dropWhile_append_of_pos h

theorem isDigit_mark (h : e.Valid) : e.mark.isDigit = false := by
  rcases h.mark with h | h <;> rw [h] <;> decide

theorem splitSign_digits (h : Digits ds) (hne : ds ≠ []) :
    splitSign (ds ++ rest) = (none, ds ++ rest) := by
  cases ds with
  | nil => exact absurd rfl hne
  | cons d ds =>
    have hd := h d List.mem_cons_self
    rw [List.cons_append, splitSign]
    · rintro cs ⟨⟩
      exact absurd hd (by decide)
    · rintro cs ⟨⟩
      exact absurd hd (by decide)

end Digits

theorem scanExponent_text (h : e.Valid) (rest : List Char) :
    scanExponent (e.text ++ rest) =
      (some ⟨e.mark, e.sign, e.digits ++ rest.takeWhile Char.isDigit⟩,
        rest.dropWhile Char.isDigit) := by
  obtain ⟨mark, sign, digits⟩ := e
  have hsplit : splitSign (sign.toList ++ digits ++ rest) = (sign, digits ++ rest) := by
    rw [List.append_assoc]
    cases sign with
    | none =>
      change splitSign (digits ++ rest) = _
      exact splitSign_digits h.digits h.complete
    | some c => rcases h.sign c rfl with hc | hc <;> rw [hc] <;> rfl
  have hmark : (mark == 'e' || mark == 'E') = true := by
    rcases h.mark with hm | hm <;> rw [show mark = _ from hm] <;> rfl
  have hdigits : Digits digits := h.digits
  have hne : digits ≠ [] := h.complete
  simp only [Exponent.text, List.cons_append, scanExponent, hsplit, hmark,
    hdigits.takeWhile_append, hdigits.dropWhile_append]
  simp [hne]

theorem scanExponent_valid (h : (scanExponent cs).1 = some e) : e.Valid := by
  cases cs with
  | nil => cases h
  | cons mark cs =>
    simp only [scanExponent] at h
    split at h
    · rename_i hif
      simp only [Bool.and_eq_true, Bool.or_eq_true, beq_iff_eq, Bool.not_eq_true',
        List.isEmpty_eq_false_iff] at hif
      obtain rfl := Option.some.inj h
      refine ⟨hif.1, fun c hc => ?_, Digits.takeWhile _, hif.2⟩
      dsimp only at hc
      unfold splitSign at hc
      split at hc
      · exact .inl (Option.some.inj hc).symm
      · exact .inr (Option.some.inj hc).symm
      · cases hc
    · cases h

theorem scanNumeral?_point {after : List Char} (h : cs.dropWhile Char.isDigit = '.' :: after) :
    scanNumeral? cs =
      if (cs.takeWhile Char.isDigit).isEmpty && (after.takeWhile Char.isDigit).isEmpty then none
      else some (⟨cs.takeWhile Char.isDigit, some (after.takeWhile Char.isDigit),
        (scanExponent (after.dropWhile Char.isDigit)).1⟩,
        (scanExponent (after.dropWhile Char.isDigit)).2) := by
  simp only [scanNumeral?, h]

theorem scanNumeral?_whole (h : ∀ after, cs.dropWhile Char.isDigit ≠ '.' :: after) :
    scanNumeral? cs =
      if (cs.takeWhile Char.isDigit).isEmpty then none
      else some (⟨cs.takeWhile Char.isDigit, none, (scanExponent (cs.dropWhile Char.isDigit)).1⟩,
        (scanExponent (cs.dropWhile Char.isDigit)).2) := by
  rw [scanNumeral?]
  split
  · rename_i after hafter
    exact absurd hafter (h after)
  · rfl

def exponentText (x : Option Exponent) : List Char :=
  (x.map Exponent.text).getD []

theorem length_text (n : Numeral) : n.text.length =
    n.whole.length + ((n.fraction.map ('.' :: ·)).getD []).length +
      (exponentText n.exponent).length := by
  simp only [Numeral.text, exponentText, List.length_append]

/-- Digits and an exponent are read where an exponent stands, or nothing does: no less than it, and
just that at the end of the text. -/
theorem scanExponent_after {x : Option Exponent} (hx : ∀ e ∈ x, e.Valid) (rest : List Char) :
    let after := exponentText x ++ rest
    (exponentText x).length ≤ (after.takeWhile Char.isDigit).length +
        (exponentText (scanExponent (after.dropWhile Char.isDigit)).1).length ∧
      (rest = [] → after.takeWhile Char.isDigit = [] ∧
        (scanExponent (after.dropWhile Char.isDigit)).1 = x) := by
  cases x with
  | none =>
    refine ⟨Nat.zero_le _, ?_⟩
    rintro rfl
    exact ⟨rfl, rfl⟩
  | some e =>
    have he := hx e rfl
    have htext : exponentText (some e) ++ rest = e.mark :: (e.sign.toList ++ e.digits ++ rest) := rfl
    have hscan := scanExponent_text he rest
    rw [show e.text ++ rest = e.mark :: (e.sign.toList ++ e.digits ++ rest) from rfl] at hscan
    simp only [htext, List.takeWhile_cons, List.dropWhile_cons, isDigit_mark he,
      Bool.false_eq_true, if_false, hscan]
    constructor
    · simp only [exponentText, Exponent.text, Option.map_some, Option.getD_some, List.length_cons,
        List.length_append, List.length_nil]
      omega
    · rintro rfl
      simp

section

variable {whole : List Char} {x : Option Exponent}

theorem scanNumeral?_fraction (hw : Digits whole) (hd : Digits ds) (hne : whole ≠ [] ∨ ds ≠ [])
    (hx : ∀ e ∈ x, e.Valid) (rest : List Char) :
    ∃ n rest', scanNumeral? ((⟨whole, some ds, x⟩ : Numeral).text ++ rest) = some (n, rest') ∧
      (⟨whole, some ds, x⟩ : Numeral).text.length ≤ n.text.length ∧
      (rest = [] → n = ⟨whole, some ds, x⟩) := by
  obtain ⟨hle, hend⟩ := scanExponent_after hx rest
  have htext : (⟨whole, some ds, x⟩ : Numeral).text ++ rest =
      whole ++ '.' :: (ds ++ (exponentText x ++ rest)) := by
    simp [Numeral.text, exponentText]
  have hpoint : ('.' :: (ds ++ (exponentText x ++ rest))).takeWhile Char.isDigit = [] := rfl
  have hsome : ¬ (whole.isEmpty &&
      (ds ++ (exponentText x ++ rest).takeWhile Char.isDigit).isEmpty) = true := by
    rw [Bool.and_eq_true, List.isEmpty_iff, List.isEmpty_iff]
    rintro ⟨h, h'⟩
    exact hne.elim (· h) (· (List.append_eq_nil_iff.mp h').1)
  rw [htext, scanNumeral?_point (hw.dropWhile_append _), hw.takeWhile_append, hpoint,
    List.append_nil, hd.takeWhile_append, hd.dropWhile_append, if_neg hsome]
  refine ⟨_, _, rfl, ?_, fun hr => ?_⟩
  · simp only [length_text, Option.map_some, Option.getD_some, List.length_cons,
      List.length_append]
    omega
  · obtain ⟨h, h'⟩ := hend hr
    rw [h, h', List.append_nil]

theorem scanNumeral?_integer (hw : Digits whole) (hne : whole ≠ []) (hx : ∀ e ∈ x, e.Valid)
    (rest : List Char) :
    ∃ n rest', scanNumeral? ((⟨whole, none, x⟩ : Numeral).text ++ rest) = some (n, rest') ∧
      (⟨whole, none, x⟩ : Numeral).text.length ≤ n.text.length ∧
      (rest = [] → n = ⟨whole, none, x⟩) := by
  obtain ⟨hle, hend⟩ := scanExponent_after hx rest
  have htext : (⟨whole, none, x⟩ : Numeral).text ++ rest = whole ++ (exponentText x ++ rest) := by
    simp [Numeral.text, exponentText]
  have hsome : ¬ (whole ++ (exponentText x ++ rest).takeWhile Char.isDigit).isEmpty = true := by
    rw [List.isEmpty_iff]
    exact List.append_ne_nil_of_left_ne_nil hne _
  rw [htext]
  by_cases hpoint : ∃ after, (exponentText x ++ rest).dropWhile Char.isDigit = '.' :: after
  · -- a point follows the digits, where an exponent of the literal would begin with its mark
    obtain ⟨after, hafter⟩ := hpoint
    obtain rfl : x = none := by
      cases x with
      | none => rfl
      | some e =>
        have hmark := isDigit_mark (hx e rfl)
        simp only [exponentText, Exponent.text, Option.map_some, Option.getD_some, List.cons_append,
          List.dropWhile_cons, hmark, Bool.false_eq_true, if_false, List.cons.injEq] at hafter
        have := (hx e rfl).mark
        rw [hafter.1] at this
        exact absurd this (by decide)
    have hif : ¬ ((whole ++ (exponentText none ++ rest).takeWhile Char.isDigit).isEmpty &&
        (after.takeWhile Char.isDigit).isEmpty) = true := by
      rw [Bool.and_eq_true]
      exact fun h => hsome h.1
    rw [scanNumeral?_point ((hw.dropWhile_append _).trans hafter), hw.takeWhile_append, if_neg hif]
    refine ⟨_, _, rfl, ?_, ?_⟩
    · simp only [length_text, exponentText, Option.map_none, Option.getD_none, List.length_nil,
        List.length_append]
      omega
    · rintro rfl
      cases hafter
  · have hwhole : ∀ after, (whole ++ (exponentText x ++ rest)).dropWhile Char.isDigit ≠
        '.' :: after := by
      rw [hw.dropWhile_append]
      exact fun after h => hpoint ⟨after, h⟩
    rw [scanNumeral?_whole hwhole, hw.takeWhile_append, hw.dropWhile_append, if_neg hsome]
    refine ⟨_, _, rfl, ?_, fun hr => ?_⟩
    · simp only [length_text, Option.map_none, Option.getD_none, List.length_nil,
        List.length_append]
      omega
    · obtain ⟨h, h'⟩ := hend hr
      rw [h, h', List.append_nil]

end

/-- Wherever a literal begins a text, one that is no shorter is read, and just that one if the text
ends with it. -/
theorem scanNumeral?_text (hm : m.Valid) (rest : List Char) :
    ∃ n rest', scanNumeral? (m.text ++ rest) = some (n, rest') ∧ m.text.length ≤ n.text.length ∧
      (rest = [] → n = m) := by
  obtain ⟨whole, fraction, x⟩ := m
  cases fraction with
  | some ds =>
    refine scanNumeral?_fraction hm.whole (hm.fraction ds rfl) ?_ hm.exponent rest
    exact hm.digit.imp_right fun ⟨_, hds, hne⟩ => Option.some.inj hds ▸ hne
  | none =>
    exact scanNumeral?_integer hm.whole (hm.digit.resolve_right (by simp)) hm.exponent rest

theorem valid_of_scanNumeral? (h : scanNumeral? cs = some (n, rest)) : n.Valid := by
  have hdigits := Digits.takeWhile cs
  by_cases hpoint : ∃ after, cs.dropWhile Char.isDigit = '.' :: after
  · obtain ⟨after, hafter⟩ := hpoint
    rw [scanNumeral?_point hafter] at h
    split at h
    · cases h
    · rename_i hne
      obtain ⟨rfl, -⟩ := Prod.mk.inj (Option.some.inj h)
      refine ⟨hdigits, ?_, ?_, fun e he => scanExponent_valid he⟩
      · rintro ds ⟨⟩
        exact Digits.takeWhile after
      · rw [Bool.and_eq_true, List.isEmpty_iff, List.isEmpty_iff, not_and_or] at hne
        exact hne.imp_right fun hne => ⟨_, rfl, hne⟩
  · rw [scanNumeral?_whole fun after h => hpoint ⟨after, h⟩] at h
    split at h
    · cases h
    · rename_i hne
      obtain ⟨rfl, -⟩ := Prod.mk.inj (Option.some.inj h)
      exact ⟨hdigits, nofun, .inl (mt List.isEmpty_iff.mpr hne), fun e he => scanExponent_valid he⟩

theorem longest_of_scanNumeral? (h : scanNumeral? cs = some (n, rest)) :
    Longest IsLiteral n.text cs := by
  refine ⟨⟨rest, (scanNumeral?_eq h).1.symm⟩, ⟨n, valid_of_scanNumeral? h, rfl⟩, ?_⟩
  rintro _ ⟨after, rfl⟩ ⟨m, hm, rfl⟩
  obtain ⟨n', rest', hn', hle, -⟩ := scanNumeral?_text hm after
  rw [h] at hn'
  obtain ⟨rfl, -⟩ := Prod.mk.inj (Option.some.inj hn')
  exact hle

theorem not_isLiteral_of_scanNumeral? (h : scanNumeral? cs = none) {w : List Char} (hw : w <+: cs) :
    ¬ IsLiteral w := by
  rintro ⟨m, hm, rfl⟩
  obtain ⟨after, rfl⟩ := hw
  obtain ⟨n, rest, hn, -⟩ := scanNumeral?_text hm after
  cases h.symm.trans hn

/-- A literal can be taken apart in one way only. -/
theorem Numeral.Valid.eq_of_text_eq (hm : m.Valid) (hn : n.Valid) (h : m.text = n.text) : m = n := by
  obtain ⟨m', rest, hm', -, heq⟩ := scanNumeral?_text hm []
  obtain ⟨n', rest', hn', -, heq'⟩ := scanNumeral?_text hn []
  rw [h, hn'] at hm'
  obtain ⟨h', -⟩ := Prod.mk.inj (Option.some.inj hm')
  rw [← heq rfl, ← heq' rfl, h']

theorem exists_scanNumeral?_of_longest (hn : n.Valid) (h : Longest IsLiteral n.text cs) :
    ∃ rest, scanNumeral? cs = some (n, rest) := by
  obtain ⟨after, rfl⟩ := h.begins
  obtain ⟨m, rest, hm, -⟩ := scanNumeral?_text hn after
  obtain rfl := (valid_of_scanNumeral? hm).eq_of_text_eq hn ((longest_of_scanNumeral? hm).eq h)
  exact ⟨rest, hm⟩

theorem isLiteral_digit {c : Char} (hc : c.isDigit = true) : IsLiteral [c] :=
  ⟨⟨[c], none, none⟩, ⟨List.forall_mem_singleton.mpr hc, nofun, .inl (List.cons_ne_nil _ _), nofun⟩,
    rfl⟩

theorem Numeral.Valid.mem_text {n : Numeral} (hn : n.Valid) {c : Char} (hc : c ∈ n.text) :
    c.isDigit = true ∨ c ∈ ['.', 'e', 'E', '+', '-'] := by
  obtain ⟨whole, fraction, x⟩ := n
  simp only [Numeral.text, List.mem_append] at hc
  rcases hc with (hc | hc) | hc
  · exact .inl (hn.whole c hc)
  · cases fraction with
    | none => cases hc
    | some ds =>
      rcases List.mem_cons.mp hc with rfl | hc
      · exact .inr (by decide)
      · exact .inl (hn.fraction ds rfl c hc)
  · cases x with
    | none => cases hc
    | some e =>
      have he := hn.exponent e rfl
      rcases List.mem_cons.mp hc with rfl | hc
      · rcases he.mark with hm | hm <;> rw [hm] <;> exact .inr (by decide)
      · rcases List.mem_append.mp hc with hc | hc
        · rcases he.sign c (Option.mem_toList.mp hc) with rfl | rfl <;> exact .inr (by decide)
        · exact .inl (he.digits c hc)

end Decimal

end ComplexFormula
