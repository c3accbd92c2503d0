import ComplexFormula.Compilation

/-! # Sessions

A caller works with handles under names of their own, over bindings and a state that all share.
-/

namespace ComplexFormula

structure Session (κ φ σ : Type) where
  state : σ
  bindings : List (Symbol κ φ)
  handles : List (String × Handle κ φ)

namespace Session

variable {κ φ σ : Type}

def start (state : σ) (bindings : List (Symbol κ φ)) : Session κ φ σ :=
  ⟨state, bindings, []⟩

def handle? (s : Session κ φ σ) (name : String) : Option (Handle κ φ) :=
  s.handles.lookup name

def drop (s : Session κ φ σ) (name : String) : Session κ φ σ :=
  { s with handles := s.handles.filter fun entry => entry.1 != name }

def put (s : Session κ φ σ) (name : String) (h : Handle κ φ) : Session κ φ σ :=
  { s with handles := (name, h) :: (s.drop name).handles }

/-- Compiles under a name, whose former handle is gone in any case. -/
def compile (host : Host κ φ σ) (settings : Settings) (name source : String)
    (s : Session κ φ σ) : Except CompileFault (Handle κ φ) × Session κ φ σ :=
  let s := s.drop name
  match ComplexFormula.compile host settings source s.bindings s.state with
  | .ok h state => (.ok h, { s with state := state }.put name h)
  | .error fault state => (.error fault, { s with state := state })

/-- The value of a handle; one that is missing has no number as its value. -/
def evaluate (host : Host κ φ σ) (name : String) (s : Session κ φ σ) :
    Except Fault ComplexFloat × Session κ φ σ :=
  match evaluateOption host ((s.handle? name).bind Handle.root) s.state with
  | .ok z state => (.ok z, { s with state := state })
  | .error fault state => (.error fault, { s with state := state })

def release (name : String) (s : Session κ φ σ) : Session κ φ σ :=
  match s.handle? name with
  | some h => s.put name h.release
  | none => s

/-- Evaluates a handle that is released afterwards, whatever happens. -/
def evaluateOnce (host : Host κ φ σ) (name : String) (s : Session κ φ σ) :
    Except Fault ComplexFloat × Session κ φ σ :=
  let (result, s) := s.evaluate host name
  (result, s.release name)

def bind (symbol : Symbol κ φ) (first : Bool) (s : Session κ φ σ) : Session κ φ σ :=
  { s with bindings := if first then symbol :: s.bindings else s.bindings ++ [symbol] }

def unbind (s : Session κ φ σ) : Session κ φ σ :=
  { s with bindings := s.bindings.tail }

end Session

end ComplexFormula
