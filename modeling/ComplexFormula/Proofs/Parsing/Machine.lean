import ComplexFormula.Proofs.Parsing.Steps

/-! # The parser as a machine

The rules as they run one after another: on one state, with a single token of lookahead that the
scanner gives when the one before it is passed. They call each other without any measure that would
decrease, so that a run has a bound on how deep its calls may nest, a loop counting as a call for
each round, and is cut short there with no result. The machine keeps a journal of the tokens that it
takes from the scanner and of the calls that it makes.
-/

namespace ComplexFormula

/-- A scanner with the token that it has given last, inside of so many operands. -/
structure Lookahead (κ φ : Type) where
  scanner : Scanner κ φ
  current : Token κ φ
  depth : Nat

/-- What is called: the rule of a category, or the reading of a call in a base. -/
inductive Routine
  | rule (c : Category)
  | call
deriving Repr, DecidableEq

inductive Moment (κ φ : Type)
  | pulled (l : Lookahead κ φ)
  | entered (routine : Routine) (l : Lookahead κ φ)
  /-- A routine that was entered here has returned there. -/
  | returned (routine : Routine) (before after : Lookahead κ φ)

def Moment.pull? {κ φ : Type} : Moment κ φ → Option (Token κ φ)
  | pulled l => some l.current
  | _ => none

structure Machine (κ φ : Type) extends Lookahead κ φ where
  journal : List (Moment κ φ)

/-- A run from a state ends with a result or a fault, and in a further state, unless it is cut
short. -/
abbrev Run (κ φ α : Type) := ExceptT ParseFault (StateT (Machine κ φ) Option) α

namespace Lookahead

variable {κ φ : Type}

def pull (l : Lookahead κ φ) : Lookahead κ φ :=
  { l with scanner := l.scanner.next.2, current := l.scanner.next.1 }

/-- The reader that has all tokens which the scanner is still going to give. -/
def reader (l : Lookahead κ φ) : Reader κ φ :=
  ⟨l.current, if l.current.lexeme.isFinish then [] else l.scanner.tokens, l.depth⟩

@[simp] theorem current_reader (l : Lookahead κ φ) : l.reader.current = l.current := rfl

end Lookahead

namespace Machine

variable {κ φ α : Type}

def start (source : String) (bindings : List (Symbol κ φ)) : Machine κ φ :=
  let (token, scanner) := (Scanner.start source bindings).next
  ⟨⟨scanner, token, 0⟩, [.pulled ⟨scanner, token, 0⟩]⟩

def pulls (m : Machine κ φ) : List (Token κ φ) :=
  m.journal.filterMap Moment.pull?

def log (m : Machine κ φ) (e : Moment κ φ) : Machine κ φ :=
  { m with journal := m.journal ++ [e] }

def next (m : Machine κ φ) : Machine κ φ :=
  ⟨m.toLookahead.pull, m.journal ++ [.pulled m.toLookahead.pull]⟩

def inside (m : Machine κ φ) (depth : Nat) : Machine κ φ :=
  ⟨{ m.toLookahead with depth := depth }, m.journal⟩

end Machine

namespace Run

open Machine

variable {κ φ α : Type}

def current : Run κ φ (Token κ φ) := do
  return (← get).current

def advance : Run κ φ Unit :=
  modify Machine.next

/-- Faults are placed where the scanner stands. -/
def fail (cause : Found → ParseFault.Cause) : Run κ φ α := do
  let m ← get
  throw ⟨cause m.reader.found, m.scanner.cursor⟩

def close (cause : Found → ParseFault.Cause) : Run κ φ Unit := do
  if (← current).lexeme.isClosing then advance else fail cause

def enter (routine : Routine) : Run κ φ (Lookahead κ φ) := do
  let m ← get
  set (m.log (.entered routine m.toLookahead))
  return m.toLookahead

def leave (routine : Routine) (before : Lookahead κ φ) : Run κ φ Unit :=
  modify fun m => m.log (.returned routine before m.toLookahead)

def descend (limit : Int) : Run κ φ Unit := do
  modify fun m => m.inside (m.depth + 1)
  if limit < (← get).depth then fail fun _ => .nesting limit

def ascend : Run κ φ Unit :=
  modify fun m => m.inside (m.depth - 1)

def cut : Run κ φ α := fun _ => none

def signs : (calls : Nat) → (negative : Bool) → Run κ φ Bool
  | 0, _ => cut
  | calls + 1, negative => do
    match (← current).lexeme with
    | .operator .add => do
      advance
      signs calls negative
    | .operator .sub => do
      advance
      signs calls (!negative)
    | _ => return negative

mutual

/-- The rule of a category, with its call and its return in the journal. -/
def read (limit : Int) : (calls : Nat) → Category → Run κ φ (Formula κ φ)
  | 0, _ => cut
  | calls + 1, c => do
    let before ← enter (.rule c)
    let t ← body limit calls c
    leave (.rule c) before
    return t

def body (limit : Int) : (calls : Nat) → Category → Run κ φ (Formula κ φ)
  | 0, _ => cut
  | calls + 1, .list => do
    let left ← read limit calls .sum
    join limit calls .list .sum left
  | calls + 1, .sum => do
    let left ← read limit calls .product
    join limit calls .sum .product left
  | calls + 1, .product => do
    let left ← read limit calls .factor
    join limit calls .product .factor left
  | calls + 1, .factor => do
    let left ← read limit calls .power
    join limit calls .factor .power left
  | calls + 1, .power => do
    descend limit
    let negative ← signs calls false
    let t ← read limit calls .base
    ascend
    return if negative then t.negate else t
  | calls + 1, .base => primary limit calls

def join (limit : Int) :
    (calls : Nat) → (c d : Category) → (left : Formula κ φ) → Run κ φ (Formula κ φ)
  | 0, _, _, _ => cut
  | calls + 1, c, d, left => do
    match c.joins (← current).lexeme with
    | some op => do
      advance
      let right ← read limit calls d
      join limit calls c d (.binary op left right)
    | none => return left

def primary (limit : Int) : (calls : Nat) → Run κ φ (Formula κ φ)
  | 0 => cut
  | calls + 1 => do
    match (← current).lexeme with
    | .real x => do
      advance
      return .constant ⟨x, 0.0⟩
    | .imaginary x => do
      advance
      return .constant ⟨0.0, x⟩
    | .symbol (.cell name c) => do
      advance
      return .cell name c
    | .symbol (.callable callee) => do
      let before ← enter .call
      let t ← call limit calls callee
      leave .call before
      return t
    | .opening => do
      advance
      let t ← read limit calls .list
      close .unclosed
      return t
    | .unknown => fail .unknown
    | _ => fail .unexpected

def call (limit : Int) : (calls : Nat) → Callee κ φ → Run κ φ (Formula κ φ)
  | 0, _ => cut
  | calls + 1, callee => do
    advance
    if callee.arity = 0 then
      if (← current).lexeme.isOpening then
        advance
        close (.unclosedName callee.name)
      return .call callee []
    else if callee.arity = 1 then
      let arg ← read limit calls .power
      return .call callee [arg]
    else if (← current).lexeme.isOpening then
      let args ← arguments limit calls callee.arity []
      if (← current).lexeme.isClosing && args.length == callee.arity then
        advance
        return .call callee args
      else fail fun _ => .argumentCount callee.name callee.arity
    else fail (.unopened callee.name)

/-- Passes any token at all and reads an argument, again and again until there is no comma or there
are arguments enough. -/
def arguments (limit : Int) :
    (calls arity : Nat) → (args : List (Formula κ φ)) → Run κ φ (List (Formula κ φ))
  | 0, _, _ => cut
  | calls + 1, arity, args => do
    advance
    let t ← read limit calls .sum
    if !(← current).lexeme.isSeparator || args.length + 1 == arity then return args ++ [t]
    else arguments limit calls arity (args ++ [t])

end

def whole (limit : Int) (calls : Nat) : Run κ φ (Formula κ φ) := do
  let t ← read limit calls .list
  if (← current).lexeme.isFinish then return t else fail .trailing

end Run

def Machine.parse {κ φ : Type} (limit : Int) (calls : Nat) (source : String)
    (bindings : List (Symbol κ φ)) : Option (Except ParseFault (Formula κ φ) × Machine κ φ) :=
  Run.whole limit calls (start source bindings)

namespace Run

variable {κ φ α β : Type} {m m' : Machine κ φ} {x : Run κ φ α} {k : α → Run κ φ β} {a : α}
  {f : ParseFault}

theorem bind_ok (h : x m = some (.ok a, m')) : (x >>= k) m = k a m' := by
  simp only [bind, ExceptT.bind, ExceptT.mk, StateT.bind, h]
  rfl

theorem bind_error (h : x m = some (.error f, m')) : (x >>= k) m = some (.error f, m') := by
  simp only [bind, ExceptT.bind, ExceptT.mk, StateT.bind, h]
  rfl

theorem bind_none (h : x m = none) : (x >>= k) m = none := by
  simp only [bind, ExceptT.bind, ExceptT.mk, StateT.bind, h]
  rfl

theorem bind_current {k : Token κ φ → Run κ φ β} : (current >>= k) m = k m.current m := rfl

theorem bind_enter {routine : Routine} {k : Lookahead κ φ → Run κ φ β} :
    (enter routine >>= k) m = k m.toLookahead (m.log (.entered routine m.toLookahead)) := rfl

theorem bind_advance {k : Unit → Run κ φ β} : (advance >>= k) m = k () m.next := rfl

theorem close_closing {cause : Found → ParseFault.Cause} (hx : m.current.lexeme = .closing) :
    close cause m = some (.ok (), m.next) := by
  rw [close, bind_current, hx]
  rfl

theorem close_other {cause : Found → ParseFault.Cause} (hx : m.current.lexeme ≠ .closing) :
    close cause m = fail cause m := by
  rw [close, bind_current, if_neg (mt Lexeme.isClosing_iff.mp hx)]

theorem descend_eq {limit : Int} : descend limit m =
    (if limit < ((m.depth + 1 : Nat) : Int) then fail fun _ => .nesting limit else pure () :
      Run κ φ Unit) (m.inside (m.depth + 1)) := rfl

theorem descend_deep {limit : Int} (hd : limit < m.depth + 1) :
    descend limit m = some (.error ⟨.nesting limit, m.scanner.cursor⟩, m.inside (m.depth + 1)) := by
  rw [descend_eq, if_pos (by omega)]
  rfl

theorem descend_ok {limit : Int} (hd : (m.depth + 1 : Int) ≤ limit) :
    descend limit m = some (.ok (), m.inside (m.depth + 1)) := by
  rw [descend_eq, if_neg (by omega)]
  rfl

section Loops

variable {limit : Int} {calls : Nat} {negative : Bool} {c d : Category} {left : Formula κ φ}

theorem signs_plus (hx : m.current.lexeme = .operator .add) :
    signs (calls + 1) negative m = signs calls negative m.next := by
  rw [signs, bind_current, hx]
  rfl

theorem signs_minus (hx : m.current.lexeme = .operator .sub) :
    signs (calls + 1) negative m = signs calls (!negative) m.next := by
  rw [signs, bind_current, hx]
  rfl

theorem signs_other (hx : ∀ sign : Sign, m.current.lexeme ≠ sign.lexeme) :
    signs (calls + 1) negative m = some (.ok negative, m) := by
  rw [signs, bind_current]
  cases hl : m.current.lexeme with
  | operator op =>
    cases op with
    | add => exact absurd hl (hx .plus)
    | sub => exact absurd hl (hx .minus)
    | mul | div | pow | comma => rfl
  | _ => rfl

theorem join_ended (hx : c.joins m.current.lexeme = none) :
    join limit (calls + 1) c d left m = some (.ok left, m) := by
  rw [join, bind_current, hx]
  rfl

theorem join_operator {op : Operator} (hx : c.joins m.current.lexeme = some op) :
    join limit (calls + 1) c d left m = (read limit calls d >>= fun right =>
      join limit calls c d (.binary op left right)) m.next := by
  rw [join, bind_current, hx]
  rfl

end Loops

section Rules

variable {limit : Int} {calls : Nat} {callee : Callee κ φ}

theorem body_chain {c d : Category} (hd : c.operand? = some d) :
    (body limit (calls + 1) c : Run κ φ (Formula κ φ)) =
      read limit calls d >>= join limit calls c d := by
  cases c <;> cases hd <;> rw [body]

theorem primary_opening (hx : m.current.lexeme = .opening) :
    primary limit (calls + 1) m = (read limit calls .list >>= fun t => do
      close .unclosed
      return t) m.next := by
  rw [primary, bind_current, hx]
  rfl

theorem primary_call (hx : m.current.lexeme = .symbol (.callable callee)) :
    primary limit (calls + 1) m = (do
      let before ← enter .call
      let t ← call limit calls callee
      leave .call before
      return t) m := by
  rw [primary, bind_current, hx]

theorem call_name (harity : callee.arity = 0) (hx : m.next.current.lexeme ≠ .opening) :
    call limit (calls + 1) callee m = some (.ok (.call callee []), m.next) := by
  rw [call, bind_advance, if_pos harity, bind_current, if_neg (mt Lexeme.isOpening_iff.mp hx)]
  rfl

theorem call_parentheses (harity : callee.arity = 0) (hx : m.next.current.lexeme = .opening) :
    call limit (calls + 1) callee m = (close (.unclosedName callee.name) >>= fun _ =>
      pure (.call callee [])) m.next.next := by
  rw [call, bind_advance, if_pos harity, bind_current, if_pos (Lexeme.isOpening_iff.mpr hx),
    bind_advance]

theorem call_operand (harity : callee.arity = 1) : call limit (calls + 1) callee m =
    (read limit calls .power >>= fun arg => pure (.call callee [arg])) m.next := by
  rw [call, bind_advance, if_neg (by omega), if_pos harity]

theorem call_unopened (harity : 2 ≤ callee.arity) (hx : m.next.current.lexeme ≠ .opening) :
    call limit (calls + 1) callee m = fail (.unopened callee.name) m.next := by
  rw [call, bind_advance, if_neg (by omega), if_neg (by omega), bind_current,
    if_neg (mt Lexeme.isOpening_iff.mp hx)]

theorem call_arguments (harity : 2 ≤ callee.arity) (hx : m.next.current.lexeme = .opening) :
    call limit (calls + 1) callee m = (arguments limit calls callee.arity [] >>= fun args => do
      if (← current).lexeme.isClosing && args.length == callee.arity then
        advance
        return .call callee args
      else fail fun _ => .argumentCount callee.name callee.arity) m.next := by
  rw [call, bind_advance, if_neg (by omega), if_neg (by omega), bind_current,
    if_pos (Lexeme.isOpening_iff.mpr hx)]

theorem arguments_succ {arity : Nat} {args : List (Formula κ φ)} :
    arguments limit (calls + 1) arity args m = (read limit calls .sum >>= fun t => do
      if !(← current).lexeme.isSeparator || args.length + 1 == arity then return args ++ [t]
      else arguments limit calls arity (args ++ [t])) m.next := by
  rw [arguments, bind_advance]

end Rules

end Run

end ComplexFormula
