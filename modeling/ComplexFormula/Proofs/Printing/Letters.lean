import ComplexFormula.Formula.Printing
import ComplexFormula.Proofs.Parsing.Nodes
import ComplexFormula.Proofs.Printing.Numbers

/-! # Texts of formulas

The text of a formula that has been parsed fails for want of room only. Given room it is the same
text, which recursion over the formula tells.
-/

namespace ComplexFormula

variable {κ φ : Type}

/-- The formula can be written so that it is read again: its numbers read back, its names stand for
what they name, and nothing but the minus sign has the name of that. -/
inductive Formula.Readable (bindings : List (Symbol κ φ)) : Formula κ φ → Prop
  | real {x : Float} (readsBack : Decimal.ReadsBack x) : Readable bindings (.constant ⟨x, 0.0⟩)
  | imaginary {x : Float} (readsBack : Decimal.ReadsBack x) : Readable bindings (.constant ⟨0.0, x⟩)
  | cell {name : String} {c : κ} (isName : IsName name.toList)
      (resolved : Symbol.resolve? name bindings = some (.cell name c)) :
      Readable bindings (.cell name c)
  | binary (op : Operator) {a b : Formula κ φ} (left : Readable bindings a)
      (right : Readable bindings b) : Readable bindings (.binary op a b)
  | negate {t : Formula κ φ} (operand : Readable bindings t) : Readable bindings t.negate
  | call {callee : Callee κ φ} {args : List (Formula κ φ)} (isName : IsName callee.name.toList)
      (resolved : Symbol.resolve? callee.name bindings = some (.callable callee))
      (unsigned : callee.name ≠ Callee.negationName) (length_eq : args.length = callee.arity)
      (args_readable : ∀ t ∈ args, Readable bindings t) : Readable bindings (.call callee args)

section Readable

variable {bindings : List (Symbol κ φ)}

def Lexeme.Readable (bindings : List (Symbol κ φ)) : Lexeme κ φ → Prop
  | real x => Decimal.ReadsBack x
  | imaginary x => Decimal.ReadsBack x
  | symbol s => IsName s.name.toList ∧ Symbol.resolve? s.name bindings = some s ∧
      ∀ callee, s = .callable callee → callee.name ≠ Callee.negationName
  | _ => True

theorem Derives.readable {c : Category} {w : List (Lexeme κ φ)} {t : Formula κ φ} {n : Nat}
    (h : Derives c w t n) (hw : ∀ x ∈ w, x.Readable bindings) : t.Readable bindings := by
  induction h with
  | single _ _ ih => exact ih hw
  | @join _ _ _ op _ _ _ _ _ _ _ _ _ _ ihl ihr =>
    exact .binary op (ihl fun x hx => hw x (List.mem_append_left _ hx))
      (ihr fun x hx => hw x (List.mem_append_right _ (List.mem_cons_of_mem _ hx)))
  | signed signs _ ih =>
    have hbase := ih fun x hx => hw x (List.mem_append_right _ hx)
    split
    · exact .negate hbase
    · exact hbase
  | real x => exact .real (hw _ List.mem_cons_self)
  | imaginary x => exact .imaginary (hw _ List.mem_cons_self)
  | cell name k =>
    obtain ⟨hname, hresolved, -⟩ := hw _ List.mem_cons_self
    exact .cell hname hresolved
  | name arity | emptyCall arity =>
    obtain ⟨hname, hresolved, hsigned⟩ := hw _ List.mem_cons_self
    exact .call hname hresolved (hsigned _ rfl) arity.symm (List.forall_mem_nil _)
  | application arity _ ih =>
    obtain ⟨hname, hresolved, hsigned⟩ := hw _ List.mem_cons_self
    have hoperand := ih fun x hx => hw x (List.mem_cons_of_mem _ hx)
    exact .call hname hresolved (hsigned _ rfl) arity.symm (List.forall_mem_singleton.mpr hoperand)
  | call _ count _ ih =>
    obtain ⟨hname, hresolved, hsigned⟩ := hw _ List.mem_cons_self
    refine .call hname hresolved (hsigned _ rfl) (by simp [count]) fun t ht => ?_
    obtain ⟨p, hp, rfl⟩ := List.mem_map.mp ht
    refine ih p hp fun x hx => hw x ?_
    have hmem := Phrase.mem_of_mem_words hp hx
    exact List.mem_cons_of_mem _ (List.mem_cons_of_mem _ (List.mem_append_left _ hmem))
  | parenthesised _ ih =>
    exact ih fun x hx => hw x (List.mem_cons_of_mem _ (List.mem_append_left _ hx))

theorem Builtin.name_ne_negationName (f : Builtin) : f.name ≠ Callee.negationName := by
  cases f <;> decide

variable {limits : Limits} {source : String} {t : Formula κ φ}

theorem Lexeme.readable_symbol {s : Symbol κ φ}
    (hunsigned : ∀ callee, .callable callee ∈ bindings → callee.name ≠ Callee.negationName)
    (h : .symbol s ∈ sourceLexemes source bindings) :
    (symbol s : Lexeme κ φ).Readable bindings := by
  refine ⟨isName_of_symbol_mem h, resolve?_of_symbol_mem h, ?_⟩
  rintro callee rfl
  rcases Symbol.mem_of_resolve? (resolve?_of_symbol_mem h) with hmem | ⟨f, hf⟩
  · exact hunsigned callee hmem
  · cases hf
    exact f.name_ne_negationName

/-- A parsed formula is readable if its literals read back and no callable takes the name of the
minus sign. -/
theorem readable_of_parse (h : parse limits source bindings = .ok t)
    (hunsigned : ∀ callee, .callable callee ∈ bindings → callee.name ≠ Callee.negationName)
    (hnumbers : ∀ x, .real x ∈ sourceLexemes source bindings ∨
      .imaginary x ∈ sourceLexemes source bindings → Decimal.ReadsBack x) :
    t.Readable bindings := by
  obtain ⟨n, ⟨w, hlex, hder⟩, -⟩ := exists_writes_of_parse_ok h
  refine hder.readable fun x hx => ?_
  have hmem : x ∈ sourceLexemes source bindings := by
    rw [hlex]
    exact List.mem_append_left _ hx
  cases x with
  | real x => exact hnumbers x (.inl hmem)
  | imaginary x => exact hnumbers x (.inr hmem)
  | symbol s => exact Lexeme.readable_symbol hunsigned hmem
  | _ => trivial

end Readable

namespace Formula

/-- The characters of the text of a formula, all of them. -/
def letters : Formula κ φ → List Char
  | constant z => z.brief.toList
  | cell name _ => name.toList
  | call callee args =>
    match CallForm.of callee.name args.length with
    | .infixed =>
      '(' :: ((' ' :: (callee.name.toList ++ [' '])).intercalate (lettersOf args) ++ [')'])
    | .signed => '-' :: (lettersOf args).headD []
    | .applied => callee.name.toList ++ '(' :: ([',', ' '].intercalate (lettersOf args) ++ [')'])
where
  lettersOf : List (Formula κ φ) → List (List Char)
    | [] => []
    | t :: ts => letters t :: lettersOf ts

theorem lettersOf_eq_map (ts : List (Formula κ φ)) : letters.lettersOf ts = ts.map letters := by
  induction ts with
  | nil => rfl
  | cons t ts ih => rw [letters.lettersOf, ih, List.map_cons]

def textCost : Formula κ φ → Nat
  | constant _ => 0
  | cell .. => 0
  | call callee args => (CallForm.of callee.name args.length).cost + textCosts args
where
  textCosts : List (Formula κ φ) → Nat
    | [] => 0
    | t :: ts => max (textCost t) (textCosts ts)

def HasText (t : Formula κ φ) : Prop :=
  ∀ room, t.textWithin room =
    if t.textCost ≤ room then .ok (String.ofList t.letters) else .error .nesting

theorem mapM_textsWithin {ts : List (Formula κ φ)} (h : ∀ t ∈ ts, t.HasText) (room : Nat) :
    (textsWithin room ts).mapM id =
      if textCost.textCosts ts ≤ room then .ok (ts.map fun t => String.ofList t.letters)
      else .error .nesting := by
  induction ts with
  | nil => rfl
  | cons t ts ih =>
    obtain ⟨ht, hts⟩ := List.forall_mem_cons.mp h
    rw [textsWithin, List.mapM_cons, ih hts, id, ht room, textCost.textCosts]
    by_cases hcost : t.textCost ≤ room
    · by_cases hcosts : textCost.textCosts ts ≤ room
      · rw [if_pos hcost, if_pos hcosts, if_pos (Nat.max_le.mpr ⟨hcost, hcosts⟩)]
        rfl
      · rw [if_pos hcost, if_neg hcosts, if_neg (mt Nat.max_le.mp fun h => hcosts h.2)]
        rfl
    · rw [if_neg hcost, if_neg (mt Nat.max_le.mp fun h => hcost h.1)]
      rfl

theorem length_textsWithin (room : Nat) (ts : List (Formula κ φ)) :
    (textsWithin room ts).length = ts.length := by
  induction ts with
  | nil => rfl
  | cons t ts ih => rw [textsWithin, List.length_cons, ih, List.length_cons]

theorem callText_textsWithin {callee : Callee κ φ} {args : List (Formula κ φ)}
    (h : ∀ t ∈ args, t.HasText)
    (hsigned : CallForm.of callee.name args.length = .signed → args.length = 1) (room : Nat) :
    callText callee.name (textsWithin room args) =
      if textCost.textCosts args ≤ room then .ok (String.ofList (call callee args).letters)
      else .error .nesting := by
  unfold callText
  rw [length_textsWithin, letters, lettersOf_eq_map]
  cases hform : CallForm.of callee.name args.length with
  | infixed =>
    simp only [mapM_textsWithin h]
    split
    · refine congrArg Except.ok (String.toList_inj.mp ?_)
      simp [String.toList_intercalate, Function.comp_def]
    · rfl
  | signed =>
    obtain ⟨t, rfl⟩ := List.length_eq_one_iff.mp (hsigned hform)
    have ht := h t List.mem_cons_self room
    simp only [textsWithin, ht, textCost.textCosts, Nat.max_zero]
    split
    · refine congrArg Except.ok (String.toList_inj.mp ?_)
      simp
    · rfl
  | applied =>
    simp only [mapM_textsWithin h]
    split
    · refine congrArg Except.ok (String.toList_inj.mp ?_)
      simp [String.toList_intercalate, Function.comp_def]
    · rfl

theorem hasText_call {callee : Callee κ φ} {args : List (Formula κ φ)} (h : ∀ t ∈ args, t.HasText)
    (hsigned : CallForm.of callee.name args.length = .signed → args.length = 1) :
    (call callee args).HasText := by
  intro room
  rw [textWithin, textCost]
  by_cases hroom : room < (CallForm.of callee.name args.length).cost
  · rw [if_pos hroom, if_neg (by omega)]
  · rw [if_neg hroom, callText_textsWithin h hsigned]
    congr 1
    exact propext (by omega)

theorem callForm_operator (op : Operator) : CallForm.of op.symbol 2 = .infixed := by
  cases op <;> decide

theorem isIdentifier_symbol (op : Operator) : isIdentifier op.symbol = false := by
  cases op <;> decide

theorem callForm_name {name : String} (hname : IsName name.toList)
    (hne : name ≠ Callee.negationName) (size : Nat) : CallForm.of name size = .applied := by
  have hsymbol : (Operator.ofSymbol? name).isSome = false := by
    rw [Operator.ofSymbol?, Bool.eq_false_iff, ne_eq, List.find?_isSome]
    rintro ⟨op, -, hop⟩
    rw [IsName, String.ofList_toList, ← eq_of_beq hop, isIdentifier_symbol op] at hname
    cases hname
  rw [CallForm.of, hsymbol, if_neg (by simp), if_neg hne]

theorem letters_binary (op : Operator) (a b : Formula κ φ) :
    (binary op a b).letters =
      '(' :: (a.letters ++ ' ' :: (op.symbol.toList ++ ' ' :: (b.letters ++ [')']))) := by
  have hform : CallForm.of (Callee.operator op : Callee κ φ).name [a, b].length = .infixed :=
    callForm_operator op
  rw [binary, letters, hform]
  simp [letters.lettersOf, Callee.operator]

theorem letters_negate (t : Formula κ φ) : t.negate.letters = '-' :: t.letters := rfl

theorem letters_call {callee : Callee κ φ} (hname : IsName callee.name.toList)
    (hne : callee.name ≠ Callee.negationName) (args : List (Formula κ φ)) :
    (call callee args).letters =
      callee.name.toList ++ '(' :: ([',', ' '].intercalate (args.map letters) ++ [')']) := by
  rw [letters, callForm_name hname hne, lettersOf_eq_map]

theorem hasText_constant (z : ComplexFloat) : (constant z : Formula κ φ).HasText := by
  intro room
  rw [textWithin, textCost, if_pos (Nat.zero_le room), letters, String.ofList_toList]

theorem hasText_cell (name : String) (c : κ) : (cell name c : Formula κ φ).HasText := by
  intro room
  rw [textWithin, textCost, if_pos (Nat.zero_le room), letters, String.ofList_toList]

/-- The text of a readable formula fails for want of room only. -/
theorem Readable.hasText {bindings : List (Symbol κ φ)} {t : Formula κ φ}
    (h : t.Readable bindings) : t.HasText := by
  induction h with
  | real | imaginary => exact hasText_constant _
  | cell => exact hasText_cell _ _
  | binary op _ _ ihl ihr =>
    refine hasText_call (List.forall_mem_cons.mpr ⟨ihl, List.forall_mem_singleton.mpr ihr⟩) ?_
    exact fun hform => nomatch (callForm_operator op).symm.trans hform
  | negate _ ih => exact hasText_call (List.forall_mem_singleton.mpr ih) fun _ => rfl
  | call hname _ hne _ _ ih =>
    exact hasText_call ih fun hform => nomatch (callForm_name hname hne _).symm.trans hform

end Formula

end ComplexFormula
