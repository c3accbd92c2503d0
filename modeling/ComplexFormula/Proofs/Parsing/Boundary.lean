import ComplexFormula.Proofs.Parsing.Derivation

/-! # Where phrases end

One lexeme of lookahead tells that a phrase is complete. It must not join a further operand, and it
must not be a parenthesis that belongs to a name without arguments just before it.
-/

namespace ComplexFormula

section

variable {κ φ : Type} {c d : Category} {x : Lexeme κ φ} {op : Operator}

/-- A phrase of this category is not carried on by the lexeme. -/
def Ends (c : Category) (x : Lexeme κ φ) : Prop :=
  ∀ ⦃c' op⦄, Joins c' x op → c'.rank < c.rank

/-- A parenthesis after a name without arguments, of which it is a part. -/
def Adheres (w : List (Lexeme κ φ)) (x : Lexeme κ φ) : Prop :=
  x = .opening ∧ ∃ callee, w.getLast? = some (.symbol (.callable callee)) ∧ callee.arity = 0

inductive Begins : Lexeme κ φ → Prop
  | sign (s : Sign) : Begins s.lexeme
  | real (x : Float) : Begins (.real x)
  | imaginary (x : Float) : Begins (.imaginary x)
  | symbol (s : Symbol κ φ) : Begins (.symbol s)
  | opening : Begins .opening

theorem Joins.category_eq {c' : Category} {op' : Operator} (h : Joins c x op)
    (h' : Joins c' x op') : c' = c := by
  cases h <;> cases h' <;> rfl

theorem Joins.ends (h : Joins c x op) (hd : c.operand? = some d) : Ends d x := by
  intro c' op' h'
  rw [h.category_eq h', Category.rank_operand hd]
  exact Nat.lt_succ_self _

theorem Joins.ne_opening (h : Joins c x op) : x ≠ .opening := by
  cases h <;> exact nofun

theorem Joins.ne_finish (h : Joins c x op) : x ≠ .finish := by
  cases h <;> exact nofun

theorem Ends.tighter (h : Ends c x) (hd : c.operand? = some d) : Ends d x := by
  intro c' op' h'
  rw [Category.rank_operand hd]
  exact Nat.lt_succ_of_lt (h h')

theorem Ends.not_joins (h : Ends c x) (op : Operator) : ¬ Joins c x op :=
  fun h' => Nat.lt_irrefl _ (h h')

theorem Ends.of_not_joins (h : Ends d x) (hd : c.operand? = some d) (hx : ∀ op, ¬ Joins c x op) :
    Ends c x := by
  intro c' op' h'
  have hlt := h h'
  rw [Category.rank_operand hd] at hlt
  refine Nat.lt_of_le_of_ne (Nat.le_of_lt_succ hlt) fun he => ?_
  obtain rfl : c' = c := by
    clear h hd hx hlt
    cases h' <;> cases c <;> first | rfl | exact absurd he (by decide)
  exact hx op' h'

theorem ends_power (x : Lexeme κ φ) : Ends .power x := by
  intro c' op' h
  cases h <;> decide

theorem ends_base (x : Lexeme κ φ) : Ends .base x := by
  intro c' op' h
  cases h <;> decide

theorem ends_finish (c : Category) : Ends c (.finish : Lexeme κ φ) := fun _ _ h => nomatch h

theorem ends_closing (c : Category) : Ends c (.closing : Lexeme κ φ) := fun _ _ h => nomatch h

theorem ends_separator : Ends .sum (.separator : Lexeme κ φ) := by
  intro c' op' h
  cases h
  decide

theorem not_adheres_of_ne {w : List (Lexeme κ φ)} (hx : x ≠ .opening) : ¬ Adheres w x :=
  fun h => hx h.1

theorem adheres_append_iff {u v : List (Lexeme κ φ)} (hv : v ≠ []) :
    Adheres (u ++ v) x ↔ Adheres v x := by
  simp only [Adheres, List.getLast?_append, List.getLast?_eq_some_getLast hv, Option.some_or]

theorem adheres_cons_iff {y : Lexeme κ φ} {v : List (Lexeme κ φ)} (hv : v ≠ []) :
    Adheres (y :: v) x ↔ Adheres v x :=
  adheres_append_iff (u := [y]) hv

theorem not_adheres_closing {u : List (Lexeme κ φ)} : ¬ Adheres (u ++ [.closing]) x := by
  rw [adheres_append_iff (List.cons_ne_nil _ _)]
  rintro ⟨-, callee, h, -⟩
  exact nomatch h

theorem adheres_name_iff {callee : Callee κ φ} :
    Adheres [.symbol (.callable callee)] x ↔ x = .opening ∧ callee.arity = 0 := by
  simp [Adheres]

end

namespace Category

variable {κ φ : Type}

def joins : Category → Lexeme κ φ → Option Operator
  | list => Rule.joinsList
  | sum => Rule.joinsSum
  | product => Rule.joinsProduct
  | factor => Rule.joinsPower
  | power | base => fun _ => none

theorem joins_eq_some_iff {c : Category} {x : Lexeme κ φ} {op : Operator} :
    c.joins x = some op ↔ Joins c x op := by
  constructor
  · intro h
    cases c <;> simp only [joins, Rule.joinsList, Rule.joinsSum, Rule.joinsProduct,
      Rule.joinsPower, reduceCtorEq] at h <;> split at h <;> cases h <;> constructor
  · intro h
    cases h <;> rfl

theorem joins_eq_none {c : Category} {x : Lexeme κ φ} (h : Ends c x) : c.joins x = none :=
  Option.eq_none_iff_forall_not_mem.mpr fun op hop => h.not_joins op (joins_eq_some_iff.mp hop)

end Category

end ComplexFormula
