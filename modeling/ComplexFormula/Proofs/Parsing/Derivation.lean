import Mathlib.Algebra.Ring.Parity
import ComplexFormula.Parsing.Grammar

/-! # Derivations

The grammar of formulas as a relation between lexemes and the formula that they write. A derivation
also counts how deep operands are nested. Nothing here refers to the reader.
-/

namespace ComplexFormula

/-- The categories of phrases, from loose to tight. -/
inductive Category
  | list
  | sum
  | product
  | factor
  | power
  | base
deriving Repr, DecidableEq

namespace Category

def operand? : Category → Option Category
  | list => some sum
  | sum => some product
  | product => some factor
  | factor => some power
  | power | base => none

def rank : Category → Nat
  | list => 0
  | sum => 1
  | product => 2
  | factor => 3
  | power => 4
  | base => 5

theorem rank_operand {c d : Category} (h : c.operand? = some d) : d.rank = c.rank + 1 := by
  cases c <;> cases h <;> rfl

end Category

inductive Sign
  | plus
  | minus
deriving Repr, DecidableEq

def Sign.operator : Sign → Operator
  | plus => .add
  | minus => .sub

section

variable {κ φ : Type}

def Sign.lexeme (s : Sign) : Lexeme κ φ :=
  .operator s.operator

/-- The lexemes that join operands to a chain, each with its operator. -/
inductive Joins : Category → Lexeme κ φ → Operator → Prop
  | comma : Joins .list .separator .comma
  | add : Joins .sum (.operator .add) .add
  | sub : Joins .sum (.operator .sub) .sub
  | mul : Joins .product (.operator .mul) .mul
  | div : Joins .product (.operator .div) .div
  | pow : Joins .factor (.operator .pow) .pow

structure Phrase (κ φ : Type) where
  words : List (Lexeme κ φ)
  tree : Formula κ φ
  nesting : Nat

namespace Phrase

/-- Phrases with a comma after each of them. -/
def separated (ps : List (Phrase κ φ)) : List (Lexeme κ φ) :=
  ps.flatMap fun p => p.words ++ [.separator]

def deepest : List (Phrase κ φ) → Nat
  | [] => 0
  | p :: ps => max p.nesting (deepest ps)

@[simp] theorem separated_cons (p : Phrase κ φ) (ps : List (Phrase κ φ)) :
    separated (p :: ps) = p.words ++ .separator :: separated ps := by
  simp [separated]

@[simp] theorem separated_append (ps qs : List (Phrase κ φ)) :
    separated (ps ++ qs) = separated ps ++ separated qs := by
  simp [separated]

theorem nesting_le_deepest {p : Phrase κ φ} {ps : List (Phrase κ φ)} (h : p ∈ ps) :
    p.nesting ≤ deepest ps := by
  induction ps with
  | nil => cases h
  | cons q ps ih =>
    rcases List.mem_cons.mp h with rfl | h
    · exact Nat.le_max_left ..
    · exact Nat.le_trans (ih h) (Nat.le_max_right ..)

theorem deepest_le {ps : List (Phrase κ φ)} {n : Nat} (h : ∀ p ∈ ps, p.nesting ≤ n) :
    deepest ps ≤ n := by
  induction ps with
  | nil => exact Nat.zero_le n
  | cons q ps ih =>
    exact Nat.max_le.mpr ⟨h q List.mem_cons_self, ih fun p hp => h p (List.mem_cons_of_mem q hp)⟩

theorem deepest_le_length {front : List (Phrase κ φ)} {last : Phrase κ φ}
    (h : ∀ p ∈ front ++ [last], p.nesting ≤ p.words.length) :
    deepest (front ++ [last]) ≤ (separated front ++ last.words).length := by
  refine deepest_le fun p hp => Nat.le_trans (h p hp) ?_
  rw [List.length_append]
  rcases List.mem_append.mp hp with hp | hp
  · obtain ⟨us, vs, rfl⟩ := List.append_of_mem hp
    simp only [separated_append, separated_cons, List.length_append]
    omega
  · obtain rfl := List.mem_singleton.mp hp
    exact Nat.le_add_left ..

end Phrase

/-- `Derives c w t n`: the lexemes `w` are a phrase of category `c` that writes `t`, with operands
nested `n` deep. -/
inductive Derives : Category → List (Lexeme κ φ) → Formula κ φ → Nat → Prop
  | single {c d : Category} {w : List (Lexeme κ φ)} {t : Formula κ φ} {n : Nat}
      (tighter : c.operand? = some d) (phrase : Derives d w t n) : Derives c w t n
  /-- Chains grow on the left, so that operators associate to the left. -/
  | join {c d : Category} {x : Lexeme κ φ} {op : Operator} {u v : List (Lexeme κ φ)}
      {a b : Formula κ φ} {m n : Nat} (tighter : c.operand? = some d) (operator : Joins c x op)
      (left : Derives c u a m) (right : Derives d v b n) :
      Derives c (u ++ x :: v) (.binary op a b) (max m n)
  /-- A run of signs negates once or not at all. -/
  | signed (signs : List Sign) {w : List (Lexeme κ φ)} {t : Formula κ φ} {n : Nat}
      (phrase : Derives .base w t n) :
      Derives .power (signs.map Sign.lexeme ++ w)
        (if Odd (signs.count .minus) then t.negate else t) n
  | real (x : Float) : Derives .base [.real x] (.constant ⟨x, 0.0⟩) 1
  | imaginary (x : Float) : Derives .base [.imaginary x] (.constant ⟨0.0, x⟩) 1
  | cell (name : String) (k : κ) : Derives .base [.symbol (.cell name k)] (.cell name k) 1
  | name {callee : Callee κ φ} (arity : callee.arity = 0) :
      Derives .base [.symbol (.callable callee)] (.call callee []) 1
  | emptyCall {callee : Callee κ φ} (arity : callee.arity = 0) :
      Derives .base [.symbol (.callable callee), .opening, .closing] (.call callee []) 1
  | application {callee : Callee κ φ} {w : List (Lexeme κ φ)} {t : Formula κ φ} {n : Nat}
      (arity : callee.arity = 1) (operand : Derives .power w t n) :
      Derives .base (.symbol (.callable callee) :: w) (.call callee [t]) (n + 1)
  /-- The arguments are those of `front`, with a comma after each, and `last`. -/
  | call {callee : Callee κ φ} {front : List (Phrase κ φ)} {last : Phrase κ φ}
      (two_le : 2 ≤ callee.arity) (count : front.length + 1 = callee.arity)
      (arguments : ∀ p ∈ front ++ [last], Derives .sum p.words p.tree p.nesting) :
      Derives .base
        (.symbol (.callable callee) :: .opening ::
          (Phrase.separated front ++ last.words ++ [.closing]))
        (.call callee ((front ++ [last]).map Phrase.tree))
        (Phrase.deepest (front ++ [last]) + 1)
  | parenthesised {w : List (Lexeme κ φ)} {t : Formula κ φ} {n : Nat} (phrase : Derives .list w t n) :
      Derives .base (.opening :: (w ++ [.closing])) t (n + 1)

namespace Derives

variable {c : Category} {w : List (Lexeme κ φ)} {t : Formula κ φ} {n : Nat}

theorem ne_nil (h : Derives c w t n) : w ≠ [] := by
  induction h with
  | single _ _ ih => exact ih
  | signed signs _ ih => exact List.append_ne_nil_of_right_ne_nil _ ih
  | join => exact List.append_ne_nil_of_right_ne_nil _ (List.cons_ne_nil _ _)
  | _ => exact List.cons_ne_nil _ _

theorem nesting_pos (h : Derives c w t n) : 0 < n := by
  induction h with
  | single _ _ ih => exact ih
  | signed _ _ ih => exact ih
  | join _ _ _ _ ih _ => exact Nat.lt_of_lt_of_le ih (Nat.le_max_left ..)
  | _ => exact Nat.succ_pos _

theorem nesting_le_length (h : Derives c w t n) : n ≤ w.length := by
  induction h with
  | single _ _ ih => exact ih
  | join _ _ _ _ ih ih' => simp only [List.length_append, List.length_cons]; omega
  | signed _ _ ih => simp only [List.length_append]; omega
  | application _ _ ih => simp only [List.length_cons]; omega
  | parenthesised _ ih => simp only [List.length_append, List.length_cons]; omega
  | @call callee front last _ _ _ ih =>
    have hd := Phrase.deepest_le_length ih
    simp only [List.length_append, List.length_cons] at hd ⊢
    omega
  | _ => simp

theorem not_mem_finish_unknown (h : Derives c w t n) : .finish ∉ w ∧ .unknown ∉ w := by
  induction h with
  | single _ _ ih => exact ih
  | join _ hj _ _ ih ih' => cases hj <;> simp [ih, ih']
  | signed signs _ ih => simp [ih, Sign.lexeme]
  | application _ _ ih => simp [ih]
  | parenthesised _ ih => simp [ih]
  | @call callee front last _ _ _ ih =>
    have hs : .finish ∉ Phrase.separated front ∧ .unknown ∉ Phrase.separated front := by
      simp only [Phrase.separated, List.mem_flatMap, List.mem_append, List.mem_singleton,
        reduceCtorEq, or_false, not_exists, not_and]
      exact ⟨fun p hp => (ih p (List.mem_append_left _ hp)).1,
        fun p hp => (ih p (List.mem_append_left _ hp)).2⟩
    have hl := ih last (List.mem_append_right _ (List.mem_singleton_self last))
    simp [hs, hl]
  | _ => simp

end Derives

end

end ComplexFormula
