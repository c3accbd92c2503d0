/-! # Data

Values as they come from a document or from a caller, before anything is known of their type. A
table keeps its entries in the order in which they were made.
-/

namespace ComplexFormula

inductive Datum
  | null
  | bool (b : Bool)
  | int (n : Int)
  | float (x : Float)
  | text (s : String)
  | moment (s : String)
  | array (items : List Datum)
  | table (entries : List (String × Datum))
  deriving Inhabited

namespace Datum

abbrev Entries := List (String × Datum)

/-- Everything counts but zeros and what is empty. -/
def isTruthy : Datum → Bool
  | null => false
  | bool b => b
  | int n => n != 0
  | float x => x != 0.0
  | text s => !s.isEmpty
  | moment _ => true
  | array items => !items.isEmpty
  | table entries => !entries.isEmpty

namespace Entries

def replace (key : String) (value : Datum) : Entries → Entries
  | [] => []
  | (k, v) :: rest => if k = key then (k, value) :: rest else (k, v) :: replace key value rest

def insert (key : String) (value : Datum) (entries : Entries) : Entries :=
  if (entries.lookup key).isSome then entries.replace key value else entries ++ [(key, value)]

/-- Changes the table at a path, making the tables on the way. With `intoArrays`, an array on the
way stands for its last table. -/
def modifyAt (intoArrays : Bool) (change : Entries → Option Entries) :
    List String → Entries → Option Entries
  | [], entries => change entries
  | key :: path, entries =>
    match entries.lookup key with
    | none => do
      let inner ← modifyAt intoArrays change path []
      some (entries.insert key (.table inner))
    | some (.table inner) => do
      let inner ← modifyAt intoArrays change path inner
      some (entries.insert key (.table inner))
    | some (.array items) =>
      match intoArrays, items.getLast? with
      | true, some (.table inner) => do
        let inner ← modifyAt intoArrays change path inner
        some (entries.insert key (.array (items.dropLast ++ [.table inner])))
      | _, _ => none
    | some _ => none

/-- Enters a value under a key that is not taken. -/
def extend (key : String) (value : Datum) (entries : Entries) : Option Entries :=
  if (entries.lookup key).isSome then none else some (entries ++ [(key, value)])

def append (key : String) (entries : Entries) : Option Entries :=
  match entries.lookup key with
  | none => some (entries ++ [(key, .array [.table []])])
  | some (.array items) => some (entries.replace key (.array (items ++ [.table []])))
  | some _ => none

end Entries

end Datum

end ComplexFormula
