import ComplexFormula.Toml.Number

/-! # TOML: keys and values

Arrays may run over several lines; inline tables may not, and no later key may reach into a value
that one of their own keys has given. How deep values stand inside each other has a limit.
-/

namespace ComplexFormula.Toml

abbrev Path := List String

def isBareKeyCharacter (c : Char) : Bool :=
  c.isAlphanum || c = '-' || c = '_'

def isKeyStart (c : Char) : Bool :=
  isBareKeyCharacter c || c = '"' || c = '\''

def keyPart : Scan String
  | [] => fail .key
  | c :: cs =>
    if isBareKeyCharacter c then
      .ok (String.ofList (c :: cs.takeWhile isBareKeyCharacter), cs.dropWhile isBareKeyCharacter)
    else lineString (c :: cs)

def keyParts : (steps : Nat) → Scan Path
  | 0, _ => fail .key
  | steps + 1, cs => do
    let (part, cs) ← keyPart cs
    match skipBlanks cs with
    | '.' :: cs => do
      let (parts, cs) ← keyParts steps (skipBlanks cs)
      .ok (part :: parts, cs)
    | cs => .ok ([part], cs)

def key : Scan Path := fun cs =>
  keyParts cs.length cs

def assignment (value : Scan Datum) : Scan (Path × Datum) := fun cs => do
  let (path, cs) ← key cs
  match cs with
  | '=' :: cs => do
    let (datum, cs) ← value (skipBlanks cs)
    .ok ((path, datum), cs)
  | _ => fail .assignment

def items (value : Scan Datum) : (steps : Nat) → Scan (List Datum)
  | 0, _ => fail .unterminated
  | steps + 1, cs => do
    match ← skipFiller false cs with
    | ']' :: cs => .ok ([], cs)
    | cs => do
      let (item, cs) ← value cs
      match ← skipFiller false cs with
      | ']' :: cs => .ok ([item], cs)
      | ',' :: cs => do
        let (rest, cs) ← items value steps cs
        .ok (item :: rest, cs)
      | _ => fail .unterminated

def isNest : Datum → Bool
  | .array _ | .table _ => true
  | _ => false

/-- The assignments of an inline table; `frozen` are the paths that have a nest for a value. -/
def inlineEntries (value : Scan Datum) :
    (steps : Nat) → (entries : Datum.Entries) → (frozen : List Path) → Scan Datum.Entries
  | 0, _, _, _ => fail .unterminated
  | steps + 1, entries, frozen, cs => do
    let ((path, datum), cs) ← assignment value cs
    if frozen.any (·.isPrefixOf path) then fail .redefinition
    else
      match entries.modifyAt false (·.extend (path.getLastD "") datum) path.dropLast with
      | none => fail .redefinition
      | some entries =>
        match skipBlanks cs with
        | '\x7d' :: cs => .ok (entries, cs)
        | ',' :: cs =>
          let frozen := if isNest datum then path :: frozen else frozen
          inlineEntries value steps entries frozen (skipBlanks cs)
        | _ => fail .unterminated

def inlineTable (value : Scan Datum) : Scan Datum.Entries := fun cs =>
  match skipBlanks cs with
  | '\x7d' :: cs => .ok ([], cs)
  | cs => inlineEntries value cs.length [] [] cs

/-- Dates come before numbers, since they begin like one. -/
def plainValue (cs : List Char) : Except Fault (Datum × List Char) :=
  match moment? cs with
  | some result => result
  | none =>
    match number? cs with
    | some result => result
    | none =>
      match specialFloat? cs with
      | some result => .ok result
      | none => fail .value

def nestingRoom : Nat := 988

/-- An array takes two units of the room from its items, an inline table three. -/
def value : (room : Nat) → Scan Datum
  | room + 3, cs =>
    match cs with
    | '"' :: _ | '\'' :: _ => do
      let (s, cs) ← string cs
      .ok (.text s, cs)
    | 't' :: 'r' :: 'u' :: 'e' :: cs => .ok (.bool true, cs)
    | 'f' :: 'a' :: 'l' :: 's' :: 'e' :: cs => .ok (.bool false, cs)
    | '[' :: cs => do
      let (list, cs) ← items (value (room + 1)) (cs.length + 1) cs
      .ok (.array list, cs)
    | '\x7b' :: cs => do
      let (entries, cs) ← inlineTable (value room) cs
      .ok (.table entries, cs)
    | cs => plainValue cs
  | _, _ => .error .nesting

end ComplexFormula.Toml
