import Mathlib
import ComplexFormula.Complex.Printing
import ComplexFormula.Proofs.Scanning.Concatenation

/-! # Texts of numbers

Numbers whose text in six digits is a literal that reads back. Such a number is finite and has no
minus sign, and its text is scanned as a single lexeme.
-/

namespace ComplexFormula

namespace Binary64

theorem zero_beq_zero : ((0.0 : Float) == 0.0) = true := by rfl

theorem testBit_of_form {x : Float} {negative : Bool} {mantissa : Nat} {exponent : Int}
    (h : form x = .finite negative mantissa exponent) : x.toBits.toNat.testBit 63 = negative := by
  simp only [form, Form.ofBits] at h
  split at h
  · split at h <;> cases h
  · split at h <;> cases h <;> rfl

theorem eq_zero_of_beq {x : Float} (h : (x == 0.0) = true)
    (hsign : x.toBits.toNat.testBit 63 = false) : x = 0.0 := by
  obtain ⟨-, -, hx | ⟨-, hzero⟩ | ⟨rfl, -⟩⟩ := Float.beq_iff_ne_nan_and_eq.mp h
  · exact hx
  · exact absurd (congrArg (fun y : Float => y.toBits.toNat.testBit 63) hzero) (by decide)
  · exact absurd hsign (by decide)

end Binary64

namespace Decimal

/-- The text in six significant digits is a literal, and the number is its value. -/
def ReadsBack (x : Float) : Prop :=
  ∃ n : Numeral, n.Valid ∧ n.text = (general false 6 x).toList ∧ n.value = x

theorem startsNumber_of_valid {n : Numeral} (hn : n.Valid) :
    ∃ c cs, n.text = c :: cs ∧ StartsNumber c := by
  obtain ⟨rest, hscan⟩ := exists_scanNumeral?_of_longest hn (Longest.refl ⟨n, hn, rfl⟩)
  exact startsNumber_of_scanNumeral? hscan

namespace ReadsBack

variable {x : Float}

theorem form_eq (h : ReadsBack x) :
    ∃ mantissa exponent, Binary64.form x = .finite false mantissa exponent := by
  obtain ⟨n, hn, htext, -⟩ := h
  obtain ⟨c, cs, hcons, hc⟩ := startsNumber_of_valid hn
  rw [htext, general, String.toList_ofList, signedText] at hcons
  have hne (d : Char) (hd : d.isDigit = false ∧ d ≠ '.') : c ≠ d := by
    rintro rfl
    rcases hc with hc | rfl
    · exact absurd (hc.symm.trans hd.1) (by decide)
    · exact hd.2 rfl
  cases hform : Binary64.form x with
  | nan =>
    rw [hform] at hcons
    exact absurd (List.cons.inj hcons).1.symm (hne 'n' (by decide))
  | infinite negative =>
    rw [hform] at hcons
    cases negative with
    | true => exact absurd (List.cons.inj hcons).1.symm (hne '-' (by decide))
    | false => exact absurd (List.cons.inj hcons).1.symm (hne 'i' (by decide))
  | finite negative mantissa exponent =>
    rw [hform] at hcons
    cases negative with
    | true => exact absurd (List.cons.inj hcons).1.symm (hne '-' (by decide))
    | false => exact ⟨mantissa, exponent, rfl⟩

theorem eq_zero (h : ReadsBack x) (hx : (x == 0.0) = true) : x = 0.0 := by
  obtain ⟨mantissa, exponent, hform⟩ := h.form_eq
  exact Binary64.eq_zero_of_beq hx (Binary64.testBit_of_form hform)

theorem toList_general (h : ReadsBack x) :
    (general true 6 x).toList = '+' :: (general false 6 x).toList := by
  obtain ⟨mantissa, exponent, hform⟩ := h.form_eq
  simp only [general, signedText, hform, String.toList_ofList]
  rfl

end ReadsBack

theorem general_zero : (general false 6 0.0).toList = ['0'] := by rfl

/-- No literal runs on into the suffix of imaginary numbers. -/
theorem suffix_not_mem_literal {w : List Char} (hw : IsLiteral w) : 'I' ∉ w := by
  obtain ⟨n, hn, rfl⟩ := hw
  intro hc
  rcases hn.mem_text hc with hc | hc
  · exact absurd hc (by decide)
  · exact absurd hc (by decide)

end Decimal

namespace Lexes

open Decimal

variable {κ φ : Type} {bindings : List (Symbol κ φ)} {x : Float} {text : List Char}
  {xs : List (Lexeme κ φ)}

theorem real (h : ReadsBack x) : Lexes bindings (general false 6 x).toList [.real x] := by
  obtain ⟨n, hn, htext, rfl⟩ := h
  rw [← htext, ← List.append_nil n.text]
  refine cons (.real hn ?_ fun hsuffix => ?_) .nil
  · rw [List.append_nil]
    exact Longest.refl ⟨n, hn, rfl⟩
  · have hlength := hsuffix.length_le
    simp only [List.length_append, List.length_singleton, List.length_nil] at hlength
    omega

theorem imaginary (h : ReadsBack x) (htail : Lexes bindings text xs) :
    Lexes bindings ((general false 6 x).toList ++ 'I' :: text) (.imaginary x :: xs) := by
  obtain ⟨n, hn, htext, rfl⟩ := h
  have hword : (general false 6 n.value).toList ++ 'I' :: text = n.text ++ ['I'] ++ text := by
    rw [← htext, List.append_assoc, List.singleton_append]
  rw [hword]
  refine cons (.imaginary hn ?_ (List.prefix_append ..)) htail
  rw [List.append_assoc, List.singleton_append]
  exact (Longest.refl ⟨n, hn, rfl⟩).append (fun _ => suffix_not_mem_literal) text

theorem zero (h : Lexes bindings ('+' :: text) xs) :
    Lexes bindings ('0' :: '+' :: text) (.real 0.0 :: xs) := by
  have hscan : scanNumeral? ('0' :: '+' :: text) = some (⟨['0'], none, none⟩, '+' :: text) := by rfl
  have hmunch := munch_scan bindings ('+' :: text) (c := '0') (by decide)
  rw [Lexeme.scan_real hscan nofun] at hmunch
  exact cons (w := ['0']) hmunch h

theorem complex (h : ReadsBack x) :
    Lexes bindings ('(' :: '0' :: '+' :: ((general false 6 x).toList ++ ['I', ')']))
      [.opening, .real 0.0, .operator .add, .imaginary x, .closing] :=
  opening (zero (operator .add (imaginary h (closing nil))))

end Lexes

end ComplexFormula
