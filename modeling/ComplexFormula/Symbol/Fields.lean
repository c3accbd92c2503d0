import ComplexFormula.Settings.Field
import ComplexFormula.Text.Quoted

/-! # Symbols from data

A caller offers something under a name, as a cell or as a callable; the offer is taken if it is what
the caller says.
-/

namespace ComplexFormula

inductive Offer (κ φ : Type)
  | cell (c : κ)
  | callable (f : φ)
  | other

structure SymbolFields (κ φ : Type) where
  name : Option Datum
  kind : Option Datum
  arity : Option Datum
  pure : Option Datum
  offer : Offer κ φ
  context : Option κ

namespace Symbol

variable {κ φ : Type}

def assemble (name : String) (kind : SymbolKind) (arity : Nat) (isPure : Bool) (offer : Offer κ φ)
    (context : Option κ) : Field.Checked (Symbol κ φ) :=
  match kind, offer with
  | .cell, offer =>
    if arity != 0 || isPure then
      .error (.valueError ("variable " ++ Text.quote name ++ " cannot have arity or be pure"))
    else
      match offer with
      | .cell c => .ok (.cell name c)
      | _ => .error (.valueError ("variable " ++ Text.quote name ++ " must be bound to a Cell"))
  | .function, .callable f => .ok (.callable ⟨name, .native f, arity, isPure⟩)
  | .closure, .callable f => .ok (.callable ⟨name, .closure f context, arity, isPure⟩)
  | kind, _ =>
    .error (.valueError (kind.word ++ " " ++ Text.quote name ++ " must be bound to a callable"))

def ofFields (fields : SymbolFields κ φ) : Except (List Issue) (Symbol κ φ) :=
  let name := Field.required Field.identifier fields.name
  let kind := Field.required Field.symbolKind fields.kind
  let arity := Field.optional Field.arity 0 fields.arity
  let isPure := Field.optional Field.flag false fields.pure
  match name, kind, arity, isPure with
  | .ok name, .ok kind, .ok arity, .ok isPure =>
    (assemble name kind arity isPure fields.offer fields.context).mapError fun kind => [⟨"", kind⟩]
  | _, _, _, _ =>
    .error (Field.issues "name" name ++ Field.issues "kind" kind ++ Field.issues "arity" arity ++
      Field.issues "pure" isPure)

def ofCell (name : String) (c : κ) : Except (List Issue) (Symbol κ φ) :=
  ofFields ⟨some (.text name), some (.text SymbolKind.cell.word), none, none, .cell c, none⟩

end Symbol

namespace Formula

variable {κ φ : Type}

/-- A call built by hand: any name will do, but the arguments must be as many as are said to be. -/
def ofFields (name : String) (target : Target κ φ) (arity isPure : Datum)
    (args : List (Formula κ φ)) : Except (List Issue) (Formula κ φ) :=
  let arity := Field.arity arity
  let isPure := Field.flag isPure
  match arity, isPure with
  | .ok arity, .ok isPure =>
    if args.length = arity then .ok (.call ⟨name, target, arity, isPure⟩ args)
    else
      .error [⟨"", .valueError (name ++ " takes " ++ toString arity ++ " argument(s), got " ++
        toString args.length)⟩]
  | _, _ => .error (Field.issues "arity" arity ++ Field.issues "pure" isPure)

end Formula

end ComplexFormula
