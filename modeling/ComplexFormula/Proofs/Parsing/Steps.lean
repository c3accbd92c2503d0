import ComplexFormula.Proofs.Parsing.Unread

/-! # Steps of the rules

One equation for each way that a rule may go on, given what the rules that it calls have done. The
theorems on whole parses use these and never open a rule.
-/

namespace ComplexFormula

namespace Lexeme

variable {κ φ : Type} {x : Lexeme κ φ}

theorem isOpening_iff : x.isOpening = true ↔ x = .opening := by
  cases x <;> simp [isOpening]

theorem isClosing_iff : x.isClosing = true ↔ x = .closing := by
  cases x <;> simp [isClosing]

theorem isSeparator_iff : x.isSeparator = true ↔ x = .separator := by
  cases x <;> simp [isSeparator]

end Lexeme

namespace Reader

variable {κ φ : Type} {r : Reader κ φ} {cause : Found → ParseFault.Cause}

theorem close_closing (h : r.current.lexeme = .closing) : r.close cause = .ok r.advance := by
  rw [close, if_pos (Lexeme.isClosing_iff.mpr h)]

theorem close_other (h : r.current.lexeme ≠ .closing) :
    r.close cause = r.fail (cause r.found) := by
  rw [close, if_neg (mt Lexeme.isClosing_iff.mp h)]

end Reader

namespace Rule

variable {κ φ : Type} {r s : Reader κ φ} {t : Formula κ φ} {f : ParseFault}

section Chain

variable {joins : Lexeme κ φ → Option Operator} {operand : Rule κ φ} {left : Formula κ φ}
  {op : Operator} {b : Token κ φ} {bs : List (Token κ φ)}

theorem chain_ok (h : operand r = .ok (t, s)) :
    chain joins operand r = chainFrom joins operand s.rest t s := by
  rw [chain, h]
  rfl

theorem chain_error (h : operand r = .error f) : chain joins operand r = .error f := by
  rw [chain, h]
  rfl

theorem chainFrom_ended (hx : joins r.current.lexeme = none) :
    chainFrom joins operand bs left r = .ok (left, r) := by
  cases bs with
  | nil => rfl
  | cons b bs => rw [chainFrom, hx]

theorem chainFrom_ok (hx : joins r.current.lexeme = some op) (h : operand r.advance = .ok (t, s)) :
    chainFrom joins operand (b :: bs) left r =
      chainFrom joins operand bs (.binary op left t) s := by
  rw [chainFrom, hx]
  simp only [h]
  rfl

theorem chainFrom_error (hx : joins r.current.lexeme = some op)
    (h : operand r.advance = .error f) :
    chainFrom joins operand (b :: bs) left r = .error f := by
  rw [chainFrom, hx]
  simp only [h]
  rfl

end Chain

section Arguments

variable {argument : Rule κ φ} {k : Nat} {ts : List (Formula κ φ)} {r' : Reader κ φ}

theorem arguments_error (h : argument r.advance = .error f) :
    arguments argument (k + 1) r = .error f := by
  rw [arguments, h]
  rfl

theorem arguments_last (h : argument r.advance = .ok (t, s))
    (hs : s.current.lexeme ≠ .separator ∨ k = 0) :
    arguments argument (k + 1) r = .ok ([t], s) := by
  have hif : ¬ (s.current.lexeme.isSeparator && k != 0) = true := by
    rw [Bool.and_eq_true, Lexeme.isSeparator_iff]
    rcases hs with hs | rfl
    · exact fun h => hs h.1
    · exact fun h => nomatch h.2
  rw [arguments, h]
  exact if_neg hif

theorem arguments_more (h : argument r.advance = .ok (t, s))
    (hs : s.current.lexeme = .separator) (hk : k ≠ 0) :
    arguments argument (k + 1) r =
      (arguments argument k s).bind fun (ts, r) => .ok (t :: ts, r) := by
  have hif : (s.current.lexeme.isSeparator && k != 0) = true := by
    rw [Bool.and_eq_true, Lexeme.isSeparator_iff]
    exact ⟨hs, bne_iff_ne.mpr hk⟩
  rw [arguments, h]
  exact if_pos hif

end Arguments

section Call

variable {operand nested : Rule κ φ} {callee : Callee κ φ}

theorem call_name (harity : callee.arity = 0) (hx : r.current.lexeme ≠ .opening) :
    call operand nested callee r = .ok (.call callee [], r) := by
  have hx := mt Lexeme.isOpening_iff.mp hx
  simp only [call, harity, if_neg hx]
  rfl

theorem call_empty (harity : callee.arity = 0) (hx : r.current.lexeme = .opening)
    (hy : r.advance.current.lexeme = .closing) :
    call operand nested callee r = .ok (.call callee [], r.advance.advance) := by
  have hx := Lexeme.isOpening_iff.mpr hx
  simp only [call, harity, if_pos hx, Reader.close_closing hy]
  rfl

theorem call_unclosed (harity : callee.arity = 0) (hx : r.current.lexeme = .opening)
    (hy : r.advance.current.lexeme ≠ .closing) :
    call operand nested callee r =
      r.advance.fail (.unclosedName callee.name r.advance.found) := by
  have hx := Lexeme.isOpening_iff.mpr hx
  simp only [call, harity, if_pos hx, Reader.close_other hy]
  rfl

theorem call_operand (harity : callee.arity = 1) :
    call operand nested callee r =
      (operand r).bind fun (arg, r) => .ok (.call callee [arg], r) := by
  simp only [call, harity]
  rfl

theorem call_unopened (harity : 2 ≤ callee.arity) (hx : r.current.lexeme ≠ .opening) :
    call operand nested callee r = r.fail (.unopened callee.name r.found) := by
  have hx := mt Lexeme.isOpening_iff.mp hx
  obtain ⟨k, hk⟩ := Nat.exists_eq_add_of_le' harity
  simp only [call, hk, if_neg hx]

theorem call_error (harity : 2 ≤ callee.arity) (hx : r.current.lexeme = .opening)
    (h : arguments (sum nested) callee.arity r = .error f) :
    call operand nested callee r = .error f := by
  have hx := Lexeme.isOpening_iff.mpr hx
  obtain ⟨k, hk⟩ := Nat.exists_eq_add_of_le' harity
  rw [hk] at h
  simp only [call, hk, if_pos hx, h]
  rfl

theorem call_ok (harity : 2 ≤ callee.arity) (hx : r.current.lexeme = .opening)
    {args : List (Formula κ φ)} (h : arguments (sum nested) callee.arity r = .ok (args, s)) :
    call operand nested callee r =
      if s.current.lexeme.isClosing && args.length == callee.arity then
        .ok (.call callee args, s.advance)
      else s.fail (.argumentCount callee.name callee.arity) := by
  have hx := Lexeme.isOpening_iff.mpr hx
  obtain ⟨k, hk⟩ := Nat.exists_eq_add_of_le' harity
  rw [hk] at h ⊢
  simp only [call, hk, if_pos hx, h]
  rfl

end Call

section Base

variable {operand nested : Rule κ φ}

theorem base_call {callee : Callee κ φ} (hx : r.current.lexeme = .symbol (.callable callee)) :
    base operand nested r = call operand nested callee r.advance := by
  rw [base, hx]

theorem base_other (operand nested : Rule κ φ) (hx : ¬ Begins r.current.lexeme) :
    ∃ cause, base operand nested r = r.fail cause ∧
      ∀ stop, ParseFault.isNesting ⟨cause, stop⟩ = false := by
  rw [base]
  split
  case h_6 => exact ⟨_, rfl, fun _ => rfl⟩
  case h_7 => exact ⟨_, rfl, fun _ => rfl⟩
  all_goals
    rename_i he
    rw [he] at hx
    exact absurd (by constructor) hx

theorem base_list_error (hx : r.current.lexeme = .opening)
    (h : list nested r.advance = .error f) : base operand nested r = .error f := by
  rw [base, hx]
  simp only [h]
  rfl

theorem base_closed (hx : r.current.lexeme = .opening) (h : list nested r.advance = .ok (t, s))
    (hs : s.current.lexeme = .closing) : base operand nested r = .ok (t, s.advance) := by
  rw [base, hx]
  simp only [h, Reader.close_closing hs, bind, Except.bind]

theorem base_unclosed (hx : r.current.lexeme = .opening) (h : list nested r.advance = .ok (t, s))
    (hs : s.current.lexeme ≠ .closing) :
    base operand nested r = s.fail (.unclosed s.found) := by
  rw [base, hx]
  simp only [h, Reader.close_other hs, bind, Except.bind]
  rfl

end Base

section Power

variable {limit : Int} {room : Nat} {inner : Reader κ φ} {negative : Bool}

theorem power_deep (hd : limit < r.depth + 1) : power limit room r = r.fail (.nesting limit) := by
  match room with
  | 0 | 1 | _ + 2 => exact if_pos hd

theorem power_exhausted (hd : (r.depth + 1 : Int) ≤ limit) (hr : room < 2) :
    power limit room r = r.fail .exhausted := by
  match room with
  | 0 | 1 => exact if_neg (by omega)

theorem power_error (hd : (r.depth + 1 : Int) ≤ limit)
    (hs : (⟨r.current, r.rest, r.depth + 1⟩ : Reader κ φ).signs = (negative, inner))
    (h : base (power limit (room + 1)) (power limit room) inner = .error f) :
    power limit (room + 2) r = .error f := by
  rw [power, if_neg (by omega), hs]
  simp only [h]
  rfl

theorem power_ok (hd : (r.depth + 1 : Int) ≤ limit)
    (hs : (⟨r.current, r.rest, r.depth + 1⟩ : Reader κ φ).signs = (negative, inner))
    (h : base (power limit (room + 1)) (power limit room) inner = .ok (t, s)) :
    power limit (room + 2) r =
      .ok (if negative then t.negate else t, ⟨s.current, s.rest, s.depth - 1⟩) := by
  rw [power, if_neg (by omega), hs]
  simp only [h]
  rfl

end Power

/-- The rule of each category. A base is read inside of the operand that it belongs to. -/
def ofCategory (limit : Int) (room : Nat) : Category → Rule κ φ
  | .list => list (power limit room)
  | .sum => sum (power limit room)
  | .product => product (power limit room)
  | .factor => chain joinsPower (power limit room)
  | .power => power limit room
  | .base => base (power limit (room - 1)) (power limit (room - 2))

theorem ofCategory_eq_chain {c d : Category} (h : c.operand? = some d) (limit : Int) (room : Nat) :
    (ofCategory limit room c : Rule κ φ) = chain c.joins (ofCategory limit room d) := by
  cases c <;> cases h <;> rfl

end Rule

end ComplexFormula
