import ComplexFormula.Text.Blank

/-! # TOML: blanks, comments and strings

Every reading step takes the text before it to the text after it.
-/

namespace ComplexFormula.Toml

inductive Cause
  | statement
  | lineEnd
  | key
  | assignment
  | value
  | moment
  | control
  | escape
  | unterminated
  | header
  | redefinition
deriving Repr, DecidableEq

namespace Cause

def message : Cause → String
  | statement => "invalid statement"
  | lineEnd => "expected the end of the line after a statement"
  | key => "invalid key"
  | assignment => "expected '=' after a key"
  | value => "invalid value"
  | moment => "invalid date or time"
  | control => "control character"
  | escape => "invalid escape in a string"
  | unterminated => "not closed"
  | header => "invalid table header"
  | redefinition => "defined more than once"

end Cause

inductive Fault
  | malformed (cause : Cause)
  | hugeInteger
  | nesting
deriving Repr, DecidableEq

abbrev Scan (α : Type) := List Char → Except Fault (α × List Char)

def fail {α : Type} (cause : Cause) : Except Fault α :=
  .error (.malformed cause)

def isBlank (c : Char) : Bool :=
  c = ' ' || c = '\t'

def isBlankOrNewline (c : Char) : Bool :=
  isBlank c || c = '\n'

def skipBlanks (cs : List Char) : List Char :=
  cs.dropWhile isBlank

def isControl (c : Char) : Bool :=
  (c.toNat < 32 && c != '\t') || c.toNat = 127

def isControlInLines (c : Char) : Bool :=
  isControl c && c != '\n'

def skipComment : List Char → Except Fault (List Char)
  | '#' :: cs =>
    if (cs.takeWhile (· != '\n')).any isControl then fail .control
    else .ok (cs.dropWhile (· != '\n'))
  | cs => .ok cs

def skipFiller (inComment : Bool) : List Char → Except Fault (List Char)
  | [] => .ok []
  | c :: cs =>
    if inComment then
      if c = '\n' then skipFiller false cs
      else if isControl c then fail .control
      else skipFiller true cs
    else if c = '#' then skipFiller true cs
    else if isBlankOrNewline c then skipFiller false cs
    else .ok (c :: cs)

def splitAt? (mark : List Char) : List Char → Option (List Char × List Char)
  | [] => none
  | c :: cs =>
    if mark.isPrefixOf (c :: cs) then some ([], (c :: cs).drop mark.length)
    else (splitAt? mark cs).map fun (before, after) => (c :: before, after)

def literalBody (mark : List Char) (isIllegal : Char → Bool) : Scan (List Char) := fun cs =>
  match splitAt? mark cs with
  | some (body, rest) => if body.any isIllegal then fail .control else .ok (body, rest)
  | none => fail .unterminated

def hexDigit? (c : Char) : Option Nat :=
  if c.isDigit then some (c.toNat - '0'.toNat)
  else if 'a' ≤ c && c ≤ 'f' then some (c.toNat - 'a'.toNat + 10)
  else if 'A' ≤ c && c ≤ 'F' then some (c.toNat - 'A'.toNat + 10)
  else none

def hexCharacter (width : Nat) : Scan Char := fun cs =>
  match (cs.take width).mapM hexDigit? with
  | some digits =>
    let n := digits.foldl (16 * · + ·) 0
    if digits.length = width && n.isValidChar then .ok (Char.ofNat n, cs.drop width)
    else fail .escape
  | none => fail .escape

def escapedCharacter? : Char → Option Char
  | 'b' => some '\x08'
  | 't' => some '\t'
  | 'n' => some '\n'
  | 'f' => some '\x0c'
  | 'r' => some '\r'
  | '"' => some '"'
  | '\\' => some '\\'
  | _ => none

/-- An escape after its backslash. At the end of a line it passes all blanks up to the next text. -/
def escapeBody (inLines : Bool) : Scan (List Char)
  | [] => fail .escape
  | c :: cs =>
    if inLines && isBlankOrNewline c then
      match skipBlanks (c :: cs) with
      | [] => .ok ([], [])
      | '\n' :: rest => .ok ([], rest.dropWhile isBlankOrNewline)
      | _ => fail .escape
    else if c = 'u' then do
      let (x, rest) ← hexCharacter 4 cs
      .ok ([x], rest)
    else if c = 'U' then do
      let (x, rest) ← hexCharacter 8 cs
      .ok ([x], rest)
    else
      match escapedCharacter? c with
      | some x => .ok ([x], cs)
      | none => fail .escape

/-- A string with escapes, after its opening mark. Each step takes a character at least. -/
def basicBody (inLines : Bool) : (steps : Nat) → Scan (List Char)
  | 0, _ => fail .unterminated
  | _, [] => fail .unterminated
  | steps + 1, '"' :: cs =>
    if !inLines then .ok ([], cs)
    else
      match cs with
      | '"' :: '"' :: rest => .ok ([], rest)
      | _ => do
        let (body, rest) ← basicBody inLines steps cs
        .ok ('"' :: body, rest)
  | steps + 1, '\\' :: cs => do
    let (head, cs) ← escapeBody inLines cs
    let (body, rest) ← basicBody inLines steps cs
    .ok (head ++ body, rest)
  | steps + 1, c :: cs =>
    if (if inLines then isControlInLines c else isControl c) then fail .control
    else do
      let (body, rest) ← basicBody inLines steps cs
      .ok (c :: body, rest)

/-- Up to two more marks right after the closing ones belong to the string. -/
def extraMarks (mark : Char) (body : List Char) : List Char → List Char × List Char
  | c :: d :: cs =>
    if c = mark then
      if d = mark then (body ++ [mark, mark], cs) else (body ++ [mark], d :: cs)
    else (body, c :: d :: cs)
  | [c] => if c = mark then (body ++ [mark], []) else (body, [c])
  | [] => (body, [])

def skipNewline : List Char → List Char
  | '\n' :: cs => cs
  | cs => cs

def lineString : Scan String
  | '"' :: cs => do
    let (body, rest) ← basicBody false (cs.length + 1) cs
    .ok (String.ofList body, rest)
  | '\'' :: cs => do
    let (body, rest) ← literalBody ['\''] isControl cs
    .ok (String.ofList body, rest)
  | _ => fail .key

def string : Scan String
  | '"' :: '"' :: '"' :: cs => do
    let cs := skipNewline cs
    let (body, rest) ← basicBody true (cs.length + 1) cs
    let (body, rest) := extraMarks '"' body rest
    .ok (String.ofList body, rest)
  | '\'' :: '\'' :: '\'' :: cs => do
    let (body, rest) ← literalBody ['\'', '\'', '\''] isControlInLines (skipNewline cs)
    let (body, rest) := extraMarks '\'' body rest
    .ok (String.ofList body, rest)
  | cs => lineString cs

end ComplexFormula.Toml
