import Mathlib.Data.Bool.AllAny
import Mathlib.Data.List.Basic
import ComplexFormula.Formula.Printing
import ComplexFormula.Proofs.Evaluation.Closed
import ComplexFormula.Proofs.Scanning.Munch

/-! # Labels of nodes

The first character of a label tells the kind of its node. Labels consist of characters that show,
but for single spaces inside of them, so that a label can be told from the indent in front of it and
from the lines around it.
-/

namespace ComplexFormula

def IsGraphic (c : Char) : Prop :=
  '!' ≤ c ∧ c ≤ '~'

instance (c : Char) : Decidable (IsGraphic c) :=
  inferInstanceAs (Decidable (_ ∧ _))

section Graphic

variable {c low high : Char}

theorem isGraphic_of_le (hlow : low ≤ c) (hhigh : c ≤ high) (h : IsGraphic low)
    (h' : IsGraphic high) : IsGraphic c :=
  ⟨Char.le_trans h.1 hlow, Char.le_trans hhigh h'.2⟩

theorem isGraphic_of_isDigit (h : c.isDigit = true) : IsGraphic c := by
  obtain ⟨hlow, hhigh⟩ := Bool.and_eq_true_iff.mp h
  exact isGraphic_of_le (of_decide_eq_true hlow) (of_decide_eq_true hhigh) (by decide) (by decide)

theorem isGraphic_of_isAlpha (h : c.isAlpha = true) : IsGraphic c := by
  rcases Bool.or_eq_true_iff.mp h with h | h
  · obtain ⟨hlow, hhigh⟩ := of_decide_eq_true h
    exact isGraphic_of_le hlow hhigh (by decide) (by decide)
  · obtain ⟨hlow, hhigh⟩ := Bool.and_eq_true_iff.mp h
    exact isGraphic_of_le (of_decide_eq_true hlow) (of_decide_eq_true hhigh) (by decide) (by decide)

theorem isGraphic_of_isIdentifierTail (h : isIdentifierTail c = true) : IsGraphic c := by
  rcases Bool.or_eq_true_iff.mp h with h | h
  · rcases Bool.or_eq_true_iff.mp h with h | h
    · exact isGraphic_of_isAlpha h
    · exact isGraphic_of_isDigit h
  · obtain rfl := of_decide_eq_true h
    decide

theorem IsName.isGraphic {w : List Char} (h : IsName w) : ∀ c ∈ w, IsGraphic c := by
  cases w with
  | nil => exact List.forall_mem_nil _
  | cons d w =>
    obtain ⟨hd, hw⟩ := isName_cons_iff.mp h
    exact List.forall_mem_cons.mpr
      ⟨isGraphic_of_isAlpha hd, fun c hc => isGraphic_of_isIdentifierTail (hw c hc)⟩

end Graphic

namespace Decimal

def minus (negative : Bool) : List Char :=
  if negative then ['-'] else []

/-- The texts in fixed notation: no number, an infinity, or digits on both sides of a point. -/
inductive FixedText : List Char → Prop
  | nan : FixedText ['n', 'a', 'n']
  | infinite (negative : Bool) : FixedText (minus negative ++ ['i', 'n', 'f'])
  | finite (negative : Bool) {whole fraction : List Char} (whole_ne_nil : whole ≠ [])
      (whole_digits : ∀ c ∈ whole, c.isDigit = true)
      (fraction_digits : ∀ c ∈ fraction, c.isDigit = true) :
      FixedText (minus negative ++ (whole ++ '.' :: fraction))

theorem fixedText_fixed (places : Nat) (x : Float) : FixedText (fixed places x).toList := by
  rw [fixed, String.toList_ofList, signedText]
  cases Binary64.form x with
  | nan => exact .nan
  | infinite negative => exact .infinite negative
  | finite negative mantissa exponent =>
    let units := ((Quotient.scaled 2 mantissa exponent).shift 10 places).round
    obtain ⟨padded, hpadded⟩ : ∃ padded, padded = (digits units).leftpad (places + 1) '0' :=
      ⟨_, rfl⟩
    have hlength : places < padded.length := by
      rw [hpadded, List.length_leftpad]
      omega
    have hdigits : ∀ c ∈ padded, c.isDigit = true := by
      intro c hc
      rw [hpadded, List.leftpad, List.mem_append] at hc
      rcases hc with hc | hc
      · obtain rfl := List.eq_of_mem_replicate hc
        decide
      · exact Nat.isDigit_of_mem_toDigits (by decide) (by decide) hc
    have hne : padded.take (padded.length - places) ≠ [] := by
      rw [← List.length_pos_iff, List.length_take]
      omega
    have htext : FixedText (minus negative ++ (padded.take (padded.length - places) ++
        '.' :: padded.drop (padded.length - places))) :=
      .finite negative hne (fun c hc => hdigits c (List.mem_of_mem_take hc))
        fun c hc => hdigits c (List.mem_of_mem_drop hc)
    simpa [fixedDigits, hpadded, minus] using htext

theorem isGraphic_minus (negative : Bool) : ∀ c ∈ minus negative, IsGraphic c := by
  cases negative <;> exact List.all_iff_forall_prop.mp (by decide)

namespace FixedText

variable {w : List Char}

theorem isGraphic (h : FixedText w) : ∀ c ∈ w, IsGraphic c := by
  cases h with
  | nan => exact List.all_iff_forall_prop.mp (by decide)
  | infinite negative =>
    have hword : ∀ c ∈ ['i', 'n', 'f'], IsGraphic c := List.all_iff_forall_prop.mp (by decide)
    exact List.forall_mem_append.mpr ⟨isGraphic_minus negative, hword⟩
  | finite negative hne hwhole hfraction =>
    refine List.forall_mem_append.mpr
      ⟨isGraphic_minus negative, List.forall_mem_append.mpr ⟨?_, ?_⟩⟩
    · exact fun c hc => isGraphic_of_isDigit (hwhole c hc)
    · exact List.forall_mem_cons.mpr
        ⟨by decide, fun c hc => isGraphic_of_isDigit (hfraction c hc)⟩

/-- No text in fixed notation begins as the label of another node does. -/
theorem exists_head (h : FixedText w) : ∃ c cs, w = c :: cs ∧ c ∉ ['b', 'c', 'f'] := by
  cases h with
  | nan => exact ⟨_, _, rfl, by decide⟩
  | infinite negative => cases negative <;> exact ⟨_, _, rfl, by decide⟩
  | @finite negative whole fraction hne hwhole =>
    cases negative with
    | true => exact ⟨_, _, rfl, by decide⟩
    | false =>
      obtain ⟨c, cs, rfl⟩ := List.exists_cons_of_ne_nil hne
      have hletters : ∀ d ∈ ['b', 'c', 'f'], d.isDigit = false := by simp
      refine ⟨c, _, rfl, fun hc => ?_⟩
      exact absurd (hwhole c List.mem_cons_self) (Bool.eq_false_iff.mp (hletters c hc))

end FixedText

end Decimal

namespace ComplexFloat

/-- The real part, and the imaginary part with a sign in front unless it is zero. -/
theorem toList_display (z : ComplexFloat) : ∃ w, Decimal.FixedText w ∧ (z.display.toList = w ∨
    ∃ c v, c ∈ ['-', '+'] ∧ Decimal.FixedText v ∧ z.display.toList = w ++ c :: (v ++ ['I'])) := by
  refine ⟨_, Decimal.fixedText_fixed 6 z.re, ?_⟩
  rw [display]
  split
  · exact .inl rfl
  · refine .inr ⟨if z.im < 0.0 then '-' else '+', _, ?_, Decimal.fixedText_fixed 6 z.im.abs, ?_⟩
    · split <;> decide
    · split <;> simp

theorem isGraphic_display (z : ComplexFloat) : ∀ c ∈ z.display.toList, IsGraphic c := by
  obtain ⟨w, hw, htext | ⟨c, v, hc, hv, htext⟩⟩ := z.toList_display
  · rw [htext]
    exact hw.isGraphic
  · have hsign : ∀ d ∈ ['-', '+'], IsGraphic d := List.all_iff_forall_prop.mp (by decide)
    have hunit : ∀ d ∈ ['I'], IsGraphic d := List.all_iff_forall_prop.mp (by decide)
    rw [htext]
    refine List.forall_mem_append.mpr ⟨hw.isGraphic, List.forall_mem_cons.mpr ⟨hsign c hc, ?_⟩⟩
    exact List.forall_mem_append.mpr ⟨hv.isGraphic, hunit⟩

theorem exists_head_display (z : ComplexFloat) :
    ∃ c cs, z.display.toList = c :: cs ∧ c ∉ ['b', 'c', 'f'] := by
  obtain ⟨w, hw, htext⟩ := z.toList_display
  obtain ⟨c, cs, rfl, hc⟩ := hw.exists_head
  rcases htext with htext | ⟨_, _, -, -, htext⟩ <;> exact ⟨c, _, htext, hc⟩

end ComplexFloat

namespace Formula

variable {κ φ : Type}

def Graphic (t : Formula κ φ) : Prop :=
  t.Every (fun name _ => ∀ c ∈ name.toList, IsGraphic c)
    fun callee => ∀ c ∈ callee.name.toList, IsGraphic c

/-- Two nodes are of one kind, name and number of arguments, or constants that are shown alike. -/
inductive SameNode : Formula κ φ → Formula κ φ → Prop
  | constant {z z' : ComplexFloat} (display_eq : z.display = z'.display) :
      SameNode (.constant z) (.constant z')
  | cell (name : String) (c c' : κ) : SameNode (.cell name c) (.cell name c')
  | call {callee callee' : Callee κ φ} {args args' : List (Formula κ φ)}
      (name_eq : callee.name = callee'.name) (arity_eq : callee.arity = callee'.arity)
      (isClosure_eq : callee.target.isClosure = callee'.target.isClosure) :
      SameNode (.call callee args) (.call callee' args')

theorem toList_label_cell (name : String) (c : κ) :
    (cell name c : Formula κ φ).label.toList = "bound ".toList ++ name.toList := by
  rw [label, String.toList_append]

theorem toList_label_call (callee : Callee κ φ) (args : List (Formula κ φ)) :
    (call callee args).label.toList =
      (if callee.target.isClosure then 'c' else 'f') ::
        (Nat.toDigits 10 callee.arity ++ ' ' :: callee.name.toList) := by
  rw [label, Nat.toString_eq_ofList_toDigits]
  cases callee.target.isClosure <;> simp

theorem toDigits_injective {m n : Nat} (h : Nat.toDigits 10 m = Nat.toDigits 10 n) : m = n := by
  rw [← Nat.ofDigitChars_ten_toDigits (n := m), h, Nat.ofDigitChars_ten_toDigits]

/-- A label with its first character tells the kind of its node, and the rest of it the name. -/
theorem sameNode_of_label_eq {t t' : Formula κ φ} (ht : t.Graphic) (h : t.label = t'.label) :
    t.SameNode t' := by
  have hchars := congrArg String.toList h
  have hconstant {z : ComplexFloat} {c : Char} {cs : List Char} (hc : c ∈ ['b', 'c', 'f'])
      (hz : (constant z : Formula κ φ).label.toList = c :: cs) : False := by
    obtain ⟨d, ds, hd, hne⟩ := z.exists_head_display
    exact hne ((List.cons.inj (hd.symm.trans hz)).1 ▸ hc)
  have hletter (b : Bool) :
      (if b then 'c' else 'f') ∈ ['b', 'c', 'f'] ∧ (if b then 'c' else 'f') ≠ 'b' := by
    cases b <;> decide
  cases t with
  | constant z =>
    cases t' with
    | constant z' => exact .constant h
    | cell name c => exact (hconstant (by decide) (hchars.trans (toList_label_cell name c))).elim
    | call callee args =>
      exact (hconstant (hletter _).1 (hchars.trans (toList_label_call callee args))).elim
  | cell name c =>
    rw [toList_label_cell] at hchars
    cases t' with
    | constant z' => exact (hconstant (by decide) hchars.symm).elim
    | cell name' c' =>
      rw [toList_label_cell, List.append_cancel_left_eq, String.toList_inj] at hchars
      subst hchars
      exact .cell name c c'
    | call callee args =>
      rw [toList_label_call] at hchars
      exact absurd (List.cons.inj hchars).1.symm (hletter _).2
  | call callee args =>
    rw [toList_label_call] at hchars
    cases t' with
    | constant z' => exact (hconstant (hletter _).1 hchars.symm).elim
    | cell name' c' =>
      rw [toList_label_cell] at hchars
      exact absurd (List.cons.inj hchars).1 (hletter _).2
    | call callee' args' =>
      rw [toList_label_call] at hchars
      obtain ⟨hkind, hrest⟩ := List.cons.inj hchars
      cases ht with
      | call hname _ =>
        have hdigits : ' ' ∉ Nat.toDigits 10 callee.arity := fun hc =>
          absurd (Nat.isDigit_of_mem_toDigits (by decide) (by decide) hc) (by decide)
        obtain ⟨harity, -, hname⟩ := (List.append_cons_inj_of_notMem hdigits fun hc =>
          absurd (hname _ hc) (by decide)).mp hrest
        refine .call (String.toList_inj.mp hname) (toDigits_injective harity) ?_
        revert hkind
        cases callee.target.isClosure <;> cases callee'.target.isClosure <;> decide

theorem exists_head_label (t : Formula κ φ) : ∃ c cs, t.label.toList = c :: cs ∧ IsGraphic c := by
  cases t with
  | constant z =>
    obtain ⟨c, cs, hz, -⟩ := z.exists_head_display
    exact ⟨c, cs, hz, z.isGraphic_display c (hz ▸ List.mem_cons_self)⟩
  | cell name c => exact ⟨_, _, toList_label_cell name c, by decide⟩
  | call callee args =>
    refine ⟨_, _, toList_label_call callee args, ?_⟩
    cases callee.target.isClosure <;> decide

theorem graphic_label {t : Formula κ φ} (ht : t.Graphic) :
    ∀ c ∈ t.label.toList, c = ' ' ∨ IsGraphic c := by
  cases ht with
  | constant z => exact fun c hc => .inr (z.isGraphic_display c hc)
  | cell hname =>
    rw [toList_label_cell, List.forall_mem_append]
    exact ⟨List.all_iff_forall_prop.mp (by decide), fun c hc => .inr (hname c hc)⟩
  | @call callee args hname _ =>
    rw [toList_label_call, List.forall_mem_cons, List.forall_mem_append, List.forall_mem_cons]
    refine ⟨?_, fun c hc => ?_, .inl rfl, fun c hc => .inr (hname c hc)⟩
    · cases callee.target.isClosure <;> decide
    · exact .inr (isGraphic_of_isDigit (Nat.isDigit_of_mem_toDigits (by decide) (by decide) hc))

end Formula

end ComplexFormula
