import ComplexFormula.Proofs.Parsing.Composition
import ComplexFormula.Proofs.Printing.Letters

/-! # Reading a text again

The text of a parsed formula is a source of the formula itself, but for two things: minus signs in a
row cancel in pairs, and an imaginary number is read as a sum.
-/

namespace ComplexFormula

variable {κ φ : Type}

namespace Formula

/-- A call that is a minus sign goes with the minus sign that it stands in front of. -/
def collapse (callee : Callee κ φ) (args : List (Formula κ φ)) : Formula κ φ :=
  match args with
  | [call inner [t]] =>
    if callee.name = Callee.negationName ∧ inner.name = Callee.negationName then t
    else call callee args
  | _ => call callee args

/-- What the text of a formula is read as: minus signs around minus signs cancel, and an imaginary
number becomes the sum of zero and that number. -/
def reread : Formula κ φ → Formula κ φ
  | constant z =>
    if z.im == 0.0 then constant z else binary .add (constant .zero) (constant ⟨0.0, z.im⟩)
  | cell name c => cell name c
  | call callee args => collapse callee (rereadAll args)
where
  rereadAll : List (Formula κ φ) → List (Formula κ φ)
    | [] => []
    | t :: ts => reread t :: rereadAll ts

theorem rereadAll_eq_map (ts : List (Formula κ φ)) : reread.rereadAll ts = ts.map reread := by
  induction ts with
  | nil => rfl
  | cons t ts ih => rw [reread.rereadAll, ih, List.map_cons]

def Unsigned : Formula κ φ → Prop
  | call callee _ => callee.name ≠ Callee.negationName
  | _ => True

theorem collapse_of_name {callee : Callee κ φ} (h : callee.name ≠ Callee.negationName)
    (args : List (Formula κ φ)) : collapse callee args = call callee args := by
  unfold collapse
  split
  · exact if_neg fun hnames => h hnames.1
  · rfl

theorem collapse_negation {t : Formula κ φ} (h : t.Unsigned) :
    collapse .negation [t] = t.negate := by
  unfold collapse
  split
  · rename_i hargs
    cases hargs
    exact if_neg fun hnames => h hnames.2
  · rfl

theorem collapse_negate (t : Formula κ φ) : collapse .negation [t.negate] = t := by
  unfold collapse negate
  exact if_pos ⟨rfl, rfl⟩

end Formula

theorem Operator.symbol_ne_negationName (op : Operator) : op.symbol ≠ Callee.negationName := by
  cases op <;> decide

theorem Lexes.space {bindings : List (Symbol κ φ)} {text : List Char} {xs : List (Lexeme κ φ)}
    (h : Lexes bindings text xs) : Lexes bindings (' ' :: text) xs :=
  h.blanks (a := [' ']) (List.forall_mem_singleton.mpr rfl)

theorem Lexes.identifier {bindings : List (Symbol κ φ)} {w : List Char} {s : Symbol κ φ}
    (hw : IsName w) (hs : Symbol.resolve? (String.ofList w) bindings = some s) :
    Lexes bindings w [.symbol s] := by
  have hlex : Lexes bindings (w ++ []) [.symbol s] :=
    .cons (.name (by rw [List.append_nil]; exact .refl hw) hs) .nil
  rwa [List.append_nil] at hlex

/-- The text is read as some minus signs in front of a base, which is none itself. -/
def Prints (bindings : List (Symbol κ φ)) (text : List Char) (t : Formula κ φ) : Prop :=
  ∃ (signs : Nat) (w : List (Lexeme κ φ)) (b : Formula κ φ) (n : Nat),
    Lexes bindings text (List.replicate signs (.operator .sub) ++ w) ∧ Derives .base w b n ∧
      b.Unsigned ∧ t = if Odd signs then b.negate else b

namespace Prints

variable {bindings : List (Symbol κ φ)} {text a b : List Char} {t u : Formula κ φ}

theorem of_base {w : List (Lexeme κ φ)} {n : Nat} (hlex : Lexes bindings text w)
    (hder : Derives .base w t n) (ht : t.Unsigned) : Prints bindings text t :=
  ⟨0, w, t, n, hlex, hder, ht, (if_neg (by decide)).symm⟩

theorem power (h : Prints bindings text t) :
    ∃ w n, Lexes bindings text w ∧ Derives .power w t n := by
  obtain ⟨signs, w, b, n, hlex, hder, -, rfl⟩ := h
  have hsigned := Derives.signed (List.replicate signs .minus) hder
  rw [List.map_replicate, List.count_replicate_self] at hsigned
  exact ⟨_, n, hlex, hsigned⟩

theorem negate (h : Prints bindings text t) :
    Prints bindings ('-' :: text) (.collapse .negation [t]) := by
  obtain ⟨signs, w, b, n, hlex, hder, hb, rfl⟩ := h
  refine ⟨signs + 1, w, b, n, hlex.operator .sub, hder, hb, ?_⟩
  by_cases hodd : Odd signs
  · have hnext : ¬ Odd (signs + 1) := mt Nat.odd_add_one.mp (not_not_intro hodd)
    rw [if_pos hodd, if_neg hnext, Formula.collapse_negate]
  · rw [if_neg hodd, if_pos (Nat.odd_add_one.mpr hodd), Formula.collapse_negation hb]

theorem binary (op : Operator) (ha : Prints bindings a t) (hb : Prints bindings b u) :
    Prints bindings ('(' :: (a ++ ' ' :: (op.symbol.toList ++ ' ' :: (b ++ [')']))))
      (.binary op t u) := by
  obtain ⟨v, m, hv, hm⟩ := ha.power
  obtain ⟨w, n, hw, hn⟩ := hb.power
  have hsecond := (hw.append (c := ')') (by decide) (.closing .nil)).space
  have hboth := (hv.append (c := ' ') (by decide) (hsecond.operator op).space).opening
  have hder := (Derives.binary op hm hn).parenthesised
  rw [List.append_assoc, List.cons_append] at hder
  exact of_base hboth hder op.symbol_ne_negationName

theorem exists_phrases {parts : List (List Char)} {ts : List (Formula κ φ)}
    (h : List.Forall₂ (Prints bindings) parts ts) :
    ∃ ps : List (Phrase κ φ), ps.map Phrase.tree = ts ∧
      (∀ p ∈ ps, Derives .sum p.words p.tree p.nesting) ∧
      (parts ≠ [] → Lexes bindings ([',', ' '].intercalate parts ++ [')'])
        ([Lexeme.separator].intercalate (ps.map Phrase.words) ++ [.closing])) := by
  induction h with
  | nil => exact ⟨[], rfl, List.forall_mem_nil _, fun h => absurd rfl h⟩
  | @cons part t parts ts hpart hparts ih =>
    obtain ⟨w, n, hlex, hder⟩ := hpart.power
    obtain ⟨ps, htrees, hps, htext⟩ := ih
    refine ⟨⟨w, t, n⟩ :: ps, by rw [List.map_cons, htrees],
      List.forall_mem_cons.mpr ⟨hder.of_power nofun, hps⟩, fun _ => ?_⟩
    -- a comma comes first only where there is another part
    cases hparts with
    | nil =>
      obtain rfl := List.map_eq_nil_iff.mp htrees
      simpa using hlex.append (c := ')') (by decide) (.closing .nil)
    | @cons part' t' parts' ts' =>
      obtain ⟨q, qs, rfl, -⟩ := List.map_eq_cons_iff.mp htrees
      have hmore := (htext (List.cons_ne_nil _ _)).space.operator .comma
      simpa [Operator.symbol, Operator.lexeme] using hlex.append (c := ',') (by decide) hmore

section Call

variable {callee : Callee κ φ} (hname : IsName callee.name.toList)
  (hresolved : Symbol.resolve? callee.name bindings = some (.callable callee))
  (hne : callee.name ≠ Callee.negationName)
include hname hresolved hne

theorem of_application {w : List (Lexeme κ φ)} {args : List (Formula κ φ)} {n : Nat}
    (hlex : Lexes bindings ('(' :: text) w)
    (hder : Derives .base (.symbol (.callable callee) :: w) (.call callee args) n) :
    Prints bindings (callee.name.toList ++ '(' :: text) (.call callee args) := by
  rw [← String.ofList_toList (s := callee.name)] at hresolved
  exact of_base (.name hname hresolved hlex) hder hne

theorem call {parts : List (List Char)} {args : List (Formula κ φ)}
    (count : args.length = callee.arity) (h : List.Forall₂ (Prints bindings) parts args) :
    Prints bindings (callee.name.toList ++ '(' :: ([',', ' '].intercalate parts ++ [')']))
      (.call callee args) := by
  match harity : callee.arity with
  | 0 =>
    rw [harity] at count
    obtain rfl := List.length_eq_zero_iff.mp count
    cases h
    exact of_application hname hresolved hne (.opening (.closing .nil)) (.emptyCall harity)
  | 1 =>
    rw [harity] at count
    obtain ⟨t, rfl⟩ := List.length_eq_one_iff.mp count
    cases h with
    | cons hpart hparts =>
      cases hparts
      obtain ⟨w, n, hlex, hder⟩ := hpart.power
      have hinside : Derives .base (.opening :: (w ++ [.closing])) t (n + 1) :=
        .parenthesised (hder.of_power nofun)
      rw [List.intercalate_singleton]
      exact of_application hname hresolved hne (hlex.parenthesised .nil)
        (.application harity (hinside.of_base .power))
  | k + 2 =>
    obtain ⟨ps, htrees, hps, htext⟩ := exists_phrases h
    have hlength : ps.length = callee.arity := by
      rw [← List.length_map (f := Phrase.tree), htrees, count]
    rcases List.eq_nil_or_concat' ps with rfl | ⟨front, last, rfl⟩
    · rw [List.length_nil, harity] at hlength
      cases hlength
    have hparts : parts ≠ [] := by
      rintro rfl
      cases h
      rw [List.length_nil, harity] at count
      cases count
    have hlex := htext hparts
    rw [Phrase.intercalate_words] at hlex
    have hcount : front.length + 1 = callee.arity := by
      rw [← hlength, List.length_append, List.length_singleton]
    have hder := Derives.call (by omega) hcount hps
    rw [htrees] at hder
    exact of_application hname hresolved hne hlex.opening hder

end Call

end Prints

namespace Formula

variable {bindings : List (Symbol κ φ)} {t : Formula κ φ}

theorem reread_binary (op : Operator) (a b : Formula κ φ) :
    (binary op a b).reread = binary op a.reread b.reread :=
  collapse_of_name op.symbol_ne_negationName _

theorem reread_call {callee : Callee κ φ} (h : callee.name ≠ Callee.negationName)
    (args : List (Formula κ φ)) : (call callee args).reread = call callee (args.map reread) := by
  rw [reread, collapse_of_name h, rereadAll_eq_map]

theorem prints_real {x : Float} (h : Decimal.ReadsBack x) :
    Prints bindings (constant ⟨x, 0.0⟩ : Formula κ φ).letters (constant ⟨x, 0.0⟩) := by
  have hletters : (constant ⟨x, 0.0⟩ : Formula κ φ).letters =
      (Decimal.general false 6 x).toList := by
    rw [letters, ComplexFloat.brief, if_pos Binary64.zero_beq_zero]
  rw [hletters]
  exact .of_base (.real h) (.real x) trivial

theorem reread_real (x : Float) :
    (constant ⟨x, 0.0⟩ : Formula κ φ).reread = constant ⟨x, 0.0⟩ := by
  rw [reread, if_pos Binary64.zero_beq_zero]

/-- An imaginary number is printed as a sum, unless it is zero. -/
theorem prints_imaginary {x : Float} (h : Decimal.ReadsBack x) :
    Prints bindings (constant ⟨0.0, x⟩ : Formula κ φ).letters (constant ⟨0.0, x⟩).reread := by
  by_cases hx : (x == 0.0) = true
  · obtain rfl := h.eq_zero hx
    rw [reread_real]
    exact prints_real h
  · have hletters : (constant ⟨0.0, x⟩ : Formula κ φ).letters =
        '(' :: '0' :: '+' :: ((Decimal.general false 6 x).toList ++ ['I', ')']) := by
      rw [letters, ComplexFloat.brief, if_neg hx]
      simp [h.toList_general, Decimal.general_zero]
    have hsum : Derives (κ := κ) (φ := φ) .list [.real 0.0, .operator .add, .imaginary x]
        (binary .add (constant .zero) (constant ⟨0.0, x⟩)) 1 :=
      .binary .add ((Derives.real 0.0).of_base _) ((Derives.imaginary x).of_base _)
    rw [hletters, reread, if_neg hx]
    exact .of_base (.complex h) hsum.parenthesised (Operator.symbol_ne_negationName .add)

/-- The text of a readable formula is a source of what it is read as. -/
theorem Readable.prints (h : t.Readable bindings) : Prints bindings t.letters t.reread := by
  induction h with
  | @real x hx =>
    rw [reread_real]
    exact prints_real hx
  | imaginary hx => exact prints_imaginary hx
  | @cell name c hname hresolved =>
    have hlex := Lexes.identifier hname (by rwa [String.ofList_toList])
    exact .of_base hlex (.cell name c) trivial
  | @binary op a b _ _ ihl ihr =>
    rw [letters_binary, reread_binary]
    exact ihl.binary op ihr
  | negate _ ih =>
    rw [letters_negate]
    exact ih.negate
  | @call callee args hname hresolved hne hlength _ ih =>
    rw [letters_call hname hne, reread_call hne]
    refine .call hname hresolved hne (by rw [List.length_map, hlength]) ?_
    rw [List.forall₂_map_left_iff, List.forall₂_map_right_iff, List.forall₂_same]
    exact ih

end Formula

section

variable {limits : Limits} {source : String} {bindings : List (Symbol κ φ)} {t : Formula κ φ}

theorem Prints.accepted {text : List Char} (h : Prints bindings text t) :
    ∃ depth : Nat, ∀ limit : Int, depth ≤ limit →
      Accepted bindings limit (String.ofList text) t := by
  obtain ⟨w, n, hlex, hder⟩ := h.power
  refine ⟨n, fun limit hn => Spells.accepted ⟨w, n, ?_, hder.of_power nofun, hn⟩⟩
  rwa [String.toList_ofList]

/-- The text of a parsed formula fails for want of room only. It is a source of the formula, up to
minus signs that cancel and imaginary numbers that are read as sums, if all literals read back and
no callable has the name of the minus sign. -/
theorem parse_text (h : parse limits source bindings = .ok t)
    (hunsigned : ∀ callee, .callable callee ∈ bindings → callee.name ≠ Callee.negationName)
    (hnumbers : ∀ x, .real x ∈ sourceLexemes source bindings ∨
      .imaginary x ∈ sourceLexemes source bindings → Decimal.ReadsBack x) :
    ∃ printed,
      (∀ room, t.textWithin room =
        if t.textCost ≤ room then .ok printed else .error .nesting) ∧
      ∃ depth : Nat, ∀ limit : Int, depth ≤ limit → Accepted bindings limit printed t.reread := by
  have hreadable := readable_of_parse h hunsigned hnumbers
  exact ⟨String.ofList t.letters, hreadable.hasText, hreadable.prints.accepted⟩

end

/-- A cell behind two minus signs that a parenthesis keeps apart, times an imaginary number. -/
def signedTwice : Formula Nat Nat :=
  .binary .mul (.negate (.negate (.cell "x" 0))) (.constant ⟨0.0, 2.0⟩)

theorem parse_text_signedTwice :
    parse ⟨100, 328⟩ "-(-x)*2I" [(.cell "x" 0 : Symbol Nat Nat)] = .ok signedTwice ∧
      Decimal.ReadsBack 2.0 ∧ signedTwice.text = .ok "(--x * (0+2I))" ∧
      ∃ depth : Nat, ∀ limit : Int, depth ≤ limit →
        Accepted [(.cell "x" 0 : Symbol Nat Nat)] limit "(--x * (0+2I))"
          (.binary .mul (.cell "x" 0)
            (.binary .add (.constant .zero) (.constant ⟨0.0, 2.0⟩))) := by
  have hparse : parse ⟨100, 328⟩ "-(-x)*2I" [(.cell "x" 0 : Symbol Nat Nat)] =
      .ok signedTwice := by rfl
  have hlexemes : sourceLexemes "-(-x)*2I" [(.cell "x" 0 : Symbol Nat Nat)] =
      [.operator .sub, .opening, .operator .sub, .symbol (.cell "x" 0), .closing, .operator .mul,
        .imaginary 2.0, .finish] := by rfl
  have htwo : Decimal.ReadsBack 2.0 := by
    have hscan : Decimal.scanNumeral? ['2'] = some (⟨['2'], none, none⟩, []) := by rfl
    exact ⟨_, Decimal.valid_of_scanNumeral? hscan, by rfl, by rfl⟩
  have htext : signedTwice.text = .ok "(--x * (0+2I))" := by rfl
  obtain ⟨printed, hroom, haccepted⟩ := parse_text hparse (by simp) (by
    rw [hlexemes]
    simp [htwo])
  cases htext.symm.trans (hroom Formula.textRoom)
  exact ⟨hparse, htwo, htext, haccepted⟩

end ComplexFormula
