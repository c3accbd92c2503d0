import Mathlib.Data.List.Basic
import ComplexFormula.Proofs.Evaluation.Folding

/-! # Calls of the language itself

An operator or builtin fails in one way only: its result is undefined for these arguments. So its
calls always have a value.
-/

namespace ComplexFormula

/-- Every fault means that the result is undefined. -/
def Mathematical {α : Type} (outcome : Except Fault α) : Prop :=
  ∀ f, outcome = .error f → f.isUndefined = true

namespace Fault

@[simp] theorem isUndefined_zeroDivision : isUndefined .zeroDivision = true := rfl

@[simp] theorem isUndefined_overflow : isUndefined .overflow = true := rfl

@[simp] theorem isUndefined_domain : isUndefined .domain = true := rfl

end Fault

section Closure

variable {α β : Type} {a b : Except Fault α}

@[simp] theorem mathematical_ok (x : α) : Mathematical (.ok x) :=
  nofun

@[simp] theorem mathematical_error_iff {f : Fault} :
    Mathematical (.error f : Except Fault α) ↔ f.isUndefined = true := by
  constructor
  · exact fun h => h f rfl
  · rintro h _ ⟨⟩
    exact h

@[simp] theorem mathematical_ite_iff {p : Prop} [Decidable p] :
    Mathematical (if p then a else b) ↔ (p → Mathematical a) ∧ (¬ p → Mathematical b) := by
  split
  case isTrue h => simp [h]
  case isFalse h => simp [h]

theorem Mathematical.bind (ha : Mathematical a) {k : α → Except Fault β}
    (hk : ∀ x, Mathematical (k x)) : Mathematical (a >>= k) := by
  cases a with
  | ok x => exact hk x
  | error f => exact mathematical_error_iff.mpr (ha f rfl)

@[simp] theorem mathematical_map_iff {g : α → β} : Mathematical (g <$> a) ↔ Mathematical a := by
  cases a with
  | ok x => exact iff_of_true (mathematical_ok _) (mathematical_ok _)
  | error f => exact mathematical_error_iff.trans mathematical_error_iff.symm

end Closure

namespace ComplexFloat

variable (a b z : ComplexFloat)

@[simp] theorem mathematical_checkOverflow : Mathematical z.checkOverflow := by
  simp [checkOverflow]

@[simp] theorem mathematical_div : Mathematical (a.div b) := by
  simp [div]

@[simp] theorem mathematical_abs : Mathematical z.abs := by
  simp [abs]

@[simp] theorem mathematical_arg : Mathematical z.arg := by
  simp [arg]

@[simp] theorem mathematical_exp : Mathematical z.exp := by
  simp [exp]

@[simp] theorem mathematical_log : Mathematical z.log := by
  simp [log]

@[simp] theorem mathematical_cosh : Mathematical z.cosh := by
  simp [cosh]

@[simp] theorem mathematical_sinh : Mathematical z.sinh := by
  simp [sinh]

@[simp] theorem mathematical_tanh : Mathematical z.tanh := by
  simp [tanh]

@[simp] theorem mathematical_atanh : Mathematical z.atanh := by
  simp [atanh, atanhRight]

theorem mathematical_powInt (n : Int) : Mathematical (powInt a n) := by
  simp [powInt]

theorem mathematical_powPolar : Mathematical (powPolar a b) := by
  simp [powPolar]

@[simp] theorem mathematical_pow : Mathematical (a.pow b) := by
  unfold pow
  split
  · exact (mathematical_powInt a _).bind mathematical_checkOverflow
  · exact (mathematical_powPolar a b).bind mathematical_checkOverflow

end ComplexFloat

theorem Operator.mathematical_apply (op : Operator) (a b : ComplexFloat) :
    Mathematical (op.apply a b) := by
  cases op <;> simp [apply]

theorem Builtin.mathematical_apply (f : Builtin) {args : List ComplexFloat}
    (h : args.length = f.arity) : Mathematical (f.apply args) := by
  cases f with
  | i | e | inf | pi =>
    obtain rfl := List.eq_nil_of_length_eq_zero h
    exact mathematical_ok _
  | pow =>
    obtain ⟨a, b, rfl⟩ := List.length_eq_two.mp h
    exact a.mathematical_pow b
  | _ =>
    obtain ⟨z, rfl⟩ := List.length_eq_one_iff.mp h
    simp [apply, ComplexFloat.cos, ComplexFloat.sin, ComplexFloat.tan, ComplexFloat.atan]

/-- The callees that the language brings along. -/
inductive Callee.Standard {κ φ : Type} : Callee κ φ → Prop
  | operator (op : Operator) : Standard (.operator op)
  | negation : Standard .negation
  | builtin (f : Builtin) : Standard (.builtin f)

namespace Callee.Standard

variable {κ φ σ : Type} {callee : Callee κ φ}

theorem pure_eq (h : callee.Standard) : callee.pure = true := by
  cases h <;> rfl

theorem honest (h : callee.Standard) (host : Host κ φ σ) : callee.Honest host := by
  cases h <;> exact .of_primitive rfl

theorem exists_primitive (h : callee.Standard) {args : List ComplexFloat}
    (hlen : args.length = callee.arity) :
    ∃ p, callee.target = .primitive p ∧ Mathematical (p.apply args) := by
  cases h with
  | operator op =>
    obtain ⟨a, b, rfl⟩ := List.length_eq_two.mp hlen
    exact ⟨.operator op, rfl, op.mathematical_apply a b⟩
  | negation =>
    obtain ⟨a, rfl⟩ := List.length_eq_one_iff.mp hlen
    exact ⟨.negation, rfl, mathematical_ok (-a)⟩
  | builtin f => exact ⟨.builtin f, rfl, f.mathematical_apply hlen⟩

/-- A call has a value: that of the primitive, or none as a number where it is undefined. -/
theorem exists_apply_eq (h : callee.Standard) (host : Host κ φ σ) {args : List ComplexFloat}
    (hlen : args.length = callee.arity) : ∃ z, host.apply callee args = Action.ofExcept (.ok z) := by
  obtain ⟨p, hp, hm⟩ := h.exists_primitive hlen
  rw [Host.apply, hp, Host.invoke]
  cases hargs : p.apply args with
  | ok z => exact ⟨z, rfl⟩
  | error f =>
    refine ⟨.notANumber, ?_⟩
    have herror : (Scalar.complex <$> (.error f : Except Fault ComplexFloat)) = .error f := rfl
    rw [herror, Action.orUndefined_error, if_pos (hm f hargs)]
    rfl

end Callee.Standard

end ComplexFormula
