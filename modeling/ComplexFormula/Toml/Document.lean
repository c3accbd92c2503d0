import ComplexFormula.Toml.Value

/-! # TOML documents

A document is read line by line into one table. What has been declared by a header, or given as a
value, may not be declared or extended again.
-/

namespace ComplexFormula.Toml

structure Document where
  entries : Datum.Entries
  header : Path
  /-- Tables that no header may declare again. -/
  declared : List Path
  /-- Tables made by dotted keys, which become declared at the next header. -/
  pending : List Path
  /-- Arrays and inline tables, which nothing may be added to at any depth. -/
  frozen : List Path

namespace Document

def empty : Document := ⟨[], [], [], [], []⟩

def isFrozen (doc : Document) (path : Path) : Bool :=
  doc.frozen.any (·.isPrefixOf path)

def isDeclared (doc : Document) (path : Path) : Bool :=
  doc.declared.contains path

def release (doc : Document) (path : Path) : Document :=
  { doc with
    declared := doc.declared.filter (!path.isPrefixOf ·)
    frozen := doc.frozen.filter (!path.isPrefixOf ·) }

def settle (doc : Document) : Document :=
  { doc with declared := doc.pending ++ doc.declared, pending := [] }

def openTable (doc : Document) (path : Path) : Except Fault Document :=
  if doc.isDeclared path || doc.isFrozen path then fail .redefinition
  else
    match doc.entries.modifyAt true some path with
    | some entries =>
      .ok { doc with entries := entries, header := path, declared := path :: doc.declared }
    | none => fail .redefinition

def openItem (doc : Document) (path : Path) : Except Fault Document :=
  if doc.isFrozen path then fail .redefinition
  else
    let doc := doc.release path
    match doc.entries.modifyAt true (·.append (path.getLastD "")) path.dropLast with
    | some entries =>
      .ok { doc with entries := entries, header := path, declared := path :: doc.declared }
    | none => fail .redefinition

/-- The tables that a dotted key passes through. -/
def passed (header path : Path) : List Path :=
  (List.range (path.length - 1)).map fun n => header ++ path.take (n + 1)

def assign (doc : Document) (path : Path) (datum : Datum) : Except Fault Document :=
  let passed := passed doc.header path
  let table := doc.header ++ path.dropLast
  if passed.any doc.isDeclared || doc.isFrozen table then fail .redefinition
  else
    match doc.entries.modifyAt true (·.extend (path.getLastD "") datum) table with
    | some entries =>
      let frozen := if isNest datum then (doc.header ++ path) :: doc.frozen else doc.frozen
      .ok { doc with entries := entries, pending := passed ++ doc.pending, frozen := frozen }
    | none => fail .redefinition

def readHeader (doc : Document) : Scan Document
  | '[' :: cs => do
    let (path, cs) ← key (skipBlanks cs)
    let doc ← doc.openItem path
    match cs with
    | ']' :: ']' :: cs => .ok (doc, cs)
    | _ => fail .header
  | cs => do
    let (path, cs) ← key (skipBlanks cs)
    let doc ← doc.openTable path
    match cs with
    | ']' :: cs => .ok (doc, cs)
    | _ => fail .header

def readStatement (doc : Document) : Scan Document
  | '[' :: cs => doc.settle.readHeader cs
  | '#' :: cs => .ok (doc, '#' :: cs)
  | c :: cs =>
    if isKeyStart c then do
      let ((path, datum), cs) ← assignment (value nestingRoom) (c :: cs)
      let doc ← doc.assign path datum
      .ok (doc, cs)
    else fail .statement
  | [] => .ok (doc, [])

/-- Reads on line by line. Each step takes a character at least. -/
def readLines : (steps : Nat) → Document → List Char → Except Fault Document
  | 0, doc, _ => .ok doc
  | steps + 1, doc, cs =>
    match skipBlanks cs with
    | [] => .ok doc
    | '\n' :: cs => readLines steps doc cs
    | cs => do
      let (doc, cs) ← doc.readStatement cs
      match ← skipComment (skipBlanks cs) with
      | [] => .ok doc
      | '\n' :: cs => readLines steps doc cs
      | _ => fail .lineEnd

end Document

def unifyNewlines : List Char → List Char
  | '\r' :: '\n' :: cs => '\n' :: unifyNewlines cs
  | c :: cs => c :: unifyNewlines cs
  | [] => []

def read (text : String) : Except Fault Datum.Entries := do
  let cs := unifyNewlines text.toList
  let doc ← Document.readLines (cs.length + 1) .empty cs
  .ok doc.entries

end ComplexFormula.Toml
