import ComplexFormula.Compilation
import ComplexFormula.Proofs.Evaluation.NormalForms
import ComplexFormula.Proofs.Parsing.Composition
import ComplexFormula.Proofs.Parsing.Origins
import ComplexFormula.Proofs.Printing.Letters

/-! # What texts show

How a call is written goes by its name, and the minus sign has a name that a caller may give to a
callable. Such a call is written with the sign and shows its first argument only, if it has one.
Unless a name stands for such a callable, the text of a formula shows those of all its parts.
-/

namespace ComplexFormula

variable {κ φ : Type}

namespace Formula

theorem CallForm.eq_negationName_of_signed {name : String} {size : Nat}
    (h : of name size = .signed) : name = Callee.negationName := by
  rw [of] at h
  split at h
  · cases h
  · split at h
    · assumption
    · cases h

end Formula

/-- Calls show all their arguments: they are not written with a sign, or have one operand. -/
def Callee.ShowsAll (callee : Callee κ φ) : Prop :=
  Formula.CallForm.of callee.name callee.arity = .signed → callee.arity = 1

theorem Callee.showsAll_operator (op : Operator) : (operator op : Callee κ φ).ShowsAll :=
  fun h => nomatch (Formula.callForm_operator op).symm.trans h

theorem Callee.showsAll_negation : (negation : Callee κ φ).ShowsAll :=
  fun _ => rfl

theorem Callee.showsAll_of_ne {callee : Callee κ φ} (h : callee.name ≠ negationName) :
    callee.ShowsAll :=
  fun hsigned => absurd (Formula.CallForm.eq_negationName_of_signed hsigned) h

theorem infix_intercalate {α : Type} (sep : List α) {xs : List α} {xss : List (List α)}
    (h : xs ∈ xss) : xs <:+: sep.intercalate xss := by
  induction xss with
  | nil => cases h
  | cons ys yss ih =>
    by_cases hnil : yss = []
    · subst hnil
      rw [List.mem_singleton.mp h, List.intercalate_singleton]
    · rw [List.intercalate_cons_of_ne_nil hnil]
      rcases List.mem_cons.mp h with rfl | hmem
      · rw [List.append_assoc]
        exact (List.prefix_append _ _).isInfix
      · exact (ih hmem).trans (List.suffix_append _ _).isInfix

theorem infix_enclosed {α : Type} (first last : α) (sep : List α) {xs : List α}
    {xss : List (List α)} (h : xs ∈ xss) : xs <:+: first :: (sep.intercalate xss ++ [last]) :=
  ((infix_intercalate sep h).trans (List.prefix_append _ _).isInfix).trans
    (List.suffix_cons _ _).isInfix

theorem Handle.describe_of_text {source : String} {root : Formula κ φ} {s : String}
    (h : root.text = .ok s) : (Handle.mk source (some root)).describe =
      .ok ("CompiledExpression(" ++ Text.quote source ++ ", " ++ s ++ ")") := by
  simp only [describe, h]
  rfl

namespace Formula

variable {callee : Callee κ φ} {args : List (Formula κ φ)} {t u : Formula κ φ}

/-- The text of a formula, which shows those of all formulas inside it. -/
structure Shows (t : Formula κ φ) (s : String) : Prop where
  text_eq : t.text = .ok s
  parts : ∀ place u, t.at? place = some u → ∃ s', u.text = .ok s' ∧ s'.toList <:+: s.toList

theorem letters_infix_call
    (hsigned : CallForm.of callee.name args.length = .signed → args.length = 1) (hu : u ∈ args) :
    u.letters <:+: (call callee args).letters := by
  have hmem : u.letters ∈ args.map letters := List.mem_map_of_mem hu
  rw [letters, lettersOf_eq_map]
  cases hform : CallForm.of callee.name args.length with
  | infixed => exact infix_enclosed _ _ _ hmem
  | signed =>
    obtain ⟨t, rfl⟩ := List.length_eq_one_iff.mp (hsigned hform)
    rw [List.mem_singleton.mp hu]
    exact (List.suffix_cons _ _).isInfix
  | applied => exact (infix_enclosed _ _ _ hmem).trans (List.suffix_append _ _).isInfix

theorem textCost_le_textCosts (hu : u ∈ args) : u.textCost ≤ textCost.textCosts args := by
  induction args with
  | nil => cases hu
  | cons t ts ih =>
    rw [textCost.textCosts]
    rcases List.mem_cons.mp hu with rfl | hmem
    · exact Nat.le_max_left ..
    · exact Nat.le_trans (ih hmem) (Nat.le_max_right ..)

section Every

variable {cells : String → κ → Prop}

theorem hasText_of_every (hwf : t.WellFormed) (h : t.Every cells Callee.ShowsAll) : t.HasText := by
  induction hwf with
  | constant z => exact hasText_constant z
  | cell name c => exact hasText_cell name c
  | call hlen _ ih =>
    cases h with
    | call hcallee hargs => exact hasText_call (fun t ht => ih t ht (hargs t ht)) (hlen ▸ hcallee)

/-- What is inside a formula is shown in its letters, and has less room to need. -/
theorem letters_infix_of_at? (hwf : t.WellFormed) (h : t.Every cells Callee.ShowsAll)
    {place : List Nat} (hu : t.at? place = some u) :
    u.HasText ∧ u.letters <:+: t.letters ∧ u.textCost ≤ t.textCost := by
  induction place generalizing t with
  | nil =>
    cases hu
    exact ⟨hasText_of_every hwf h, List.infix_rfl, Nat.le_refl _⟩
  | cons i place ih =>
    cases hwf with
    | constant | cell => cases hu
    | call hlen hargs =>
      cases h with
      | call hcallee hevery =>
        rw [at?_call] at hu
        obtain ⟨v, hv, hu⟩ := Option.bind_eq_some_iff.mp hu
        have hmem := List.mem_of_getElem? hv
        obtain ⟨htext, hletters, hcost⟩ := ih (hargs v hmem) (hevery v hmem) hu
        refine ⟨htext, hletters.trans (letters_infix_call (hlen ▸ hcallee) hmem), ?_⟩
        rw [textCost]
        have hv := textCost_le_textCosts hmem
        omega

theorem exists_shows (hwf : t.WellFormed) (h : t.Every cells Callee.ShowsAll)
    (hroom : t.text ≠ .error .nesting) : ∃ s, t.Shows s := by
  have hcost : t.textCost ≤ textRoom := by
    by_contra hcost
    exact hroom ((hasText_of_every hwf h textRoom).trans (if_neg hcost))
  refine ⟨String.ofList t.letters, (hasText_of_every hwf h textRoom).trans (if_pos hcost), ?_⟩
  -- room for the whole is room for each part, though a part alone has all of it
  intro place u hu
  obtain ⟨htext, hletters, hle⟩ := letters_infix_of_at? hwf h hu
  refine ⟨String.ofList u.letters, (htext textRoom).trans (if_pos (hle.trans hcost)), ?_⟩
  rwa [String.toList_ofList, String.toList_ofList]

end Every

section Sign

variable {s : String}

/-- Under the name of the minus sign, a call shows what the sign shows of its first argument. -/
theorem text_call_cons (hname : callee.name = Callee.negationName) (u : Formula κ φ)
    (us : List (Formula κ φ)) : (call callee (u :: us)).text = u.negate.text := by
  obtain ⟨name, target, arity, pure⟩ := callee
  cases hname
  rfl

theorem text_call_nil (hname : callee.name = Callee.negationName) :
    (call callee []).text = .error .noOperand := by
  obtain ⟨name, target, arity, pure⟩ := callee
  cases hname
  rfl

theorem exists_text_negate (h : u.negate.text = .ok s) : ∃ cs, s.toList = '-' :: cs := by
  have hsign : u.negate.text = ("-" ++ ·) <$> u.textWithin (textRoom - 4) := rfl
  rw [hsign] at h
  cases htext : u.textWithin (textRoom - 4) with
  | error fault =>
    rw [htext] at h
    cases h
  | ok r =>
    rw [htext] at h
    cases h
    exact ⟨r.toList, String.toList_append⟩

theorem exists_text_call (hform : CallForm.of callee.name args.length = .applied)
    (h : (call callee args).text = .ok s) : ∃ cs, s.toList = callee.name.toList ++ cs := by
  rw [text, textWithin, hform] at h
  replace h : callText callee.name (textsWithin (textRoom - 5) args) = .ok s := h
  unfold callText at h
  rw [length_textsWithin, hform] at h
  cases htexts : (textsWithin (textRoom - 5) args).mapM id with
  | error fault =>
    rw [htexts] at h
    cases h
  | ok texts =>
    rw [htexts] at h
    cases h
    refine ⟨'(' :: ((", ".intercalate texts).toList ++ [')']), ?_⟩
    simp

theorem text_negate_ne (hname : IsName callee.name.toList) (hne : callee.name ≠ Callee.negationName)
    (h : (call callee args).text = .ok s) : u.negate.text ≠ .ok s := by
  intro hsign
  obtain ⟨cs, hcs⟩ := exists_text_negate hsign
  obtain ⟨ds, hds⟩ := exists_text_call (callForm_name hname hne _) h
  cases hchars : callee.name.toList with
  | nil =>
    rw [hchars] at hname
    cases hname
  | cons c name =>
    rw [hchars] at hname
    rw [hcs, hchars] at hds
    cases hds
    exact absurd (isName_cons_iff.mp hname).1 (by decide)

end Sign

section Parse

variable {limits : Limits} {source : String} {bindings : List (Symbol κ φ)}

/-- A formula, and what folding makes of it. -/
inductive Root (t : Formula κ φ) : Formula κ φ → Prop
  | plain : Root t t
  | folded {σ : Type} {host : Host κ φ σ} {s s' : σ} {f : Folded κ φ}
      (fold_eq : t.fold host s = .ok f s') : Root t f.formula

def SignUnbound (bindings : List (Symbol κ φ)) : Prop :=
  ∀ callee, Symbol.resolve? Callee.negationName bindings ≠ some (.callable callee)

theorem SignUnbound.name_ne (h : SignUnbound bindings)
    (hresolved : Symbol.resolve? callee.name bindings = some (.callable callee)) :
    callee.name ≠ Callee.negationName :=
  fun hname => h callee (hname ▸ hresolved)

theorem showsAll_of_parse (hfree : SignUnbound bindings)
    (h : parse limits source bindings = .ok t) :
    t.Every (fun _ _ => True) Callee.ShowsAll := by
  refine every_of_resolve? Callee.showsAll_operator Callee.showsAll_negation (fun s hs => ?_) h
  cases s with
  | cell name c => trivial
  | callable callee => exact Callee.showsAll_of_ne (hfree.name_ne hs)

theorem Root.exists_shows {root : Formula κ φ} (h : Root t root) (hwf : t.WellFormed)
    (hevery : t.Every (fun _ _ => True) Callee.ShowsAll) (hroom : root.text ≠ .error .nesting) :
    ∃ s, root.Shows s := by
  cases h with
  | plain => exact Formula.exists_shows hwf hevery hroom
  | folded hfold =>
    rw [fold_eq_result hwf] at hfold
    obtain ⟨hwf, hevery⟩ := every_of_folding hwf hevery hfold
    exact Formula.exists_shows hwf hevery hroom

/-- If the name of the minus sign is left to it, then what a handle holds has a text, unless its
calls are too deep for one. The text shows that of each argument, and no call has the text of a
minus sign before its argument. -/
theorem text_shows_all (valid : ∀ s ∈ bindings, s.Valid) (hfree : SignUnbound bindings)
    (h : parse limits source bindings = .ok t) :
    (∀ root, Root t root → root.text ≠ .error .nesting → ∃ s, root.Shows s ∧
      (Handle.mk source (some root)).describe =
        .ok ("CompiledExpression(" ++ Text.quote source ++ ", " ++ s ++ ")")) ∧
    ∀ callee, Symbol.resolve? callee.name bindings = some (.callable callee) →
      ∀ u s, (call callee [u]).text = .ok s → u.negate.text ≠ .ok s := by
  constructor
  · intro root hroot hroom
    have hevery := showsAll_of_parse hfree h
    obtain ⟨s, hs⟩ := hroot.exists_shows (wellFormed_of_parse h) hevery hroom
    exact ⟨s, hs, Handle.describe_of_text hs.text_eq⟩
  · intro callee hresolved u s hs
    have hname := Symbol.isName_of_resolve? valid hresolved
    exact text_negate_ne hname (hfree.name_ne hresolved) hs

/-- A cell that takes the name of the minus sign, and a callable that comes too late for it. -/
def signCell : List (Symbol Bool Bool) :=
  [.cell "neg" true, .callable ⟨"neg", .native true, 1, false⟩,
    .callable ⟨"f", .closure true none, 2, false⟩]

def signedCall : Formula Bool Bool :=
  .negate (.call ⟨"f", .closure true none, 2, false⟩ [.cell "neg" true, .negate (.cell "neg" true)])

theorem text_shows_all_signCell : parse ⟨3, 8⟩ "-f(neg, -neg)" signCell = .ok signedCall ∧
    signedCall.Shows "-f(neg, -neg)" ∧
      ∀ u s, (call ⟨"f", .closure true none, 2, false⟩ [u] : Formula Bool Bool).text = .ok s →
        u.negate.text ≠ .ok s := by
  have hvalid : ∀ s ∈ signCell, s.Valid := by decide
  have hfree : SignUnbound signCell := fun _ => nofun
  have hparse : parse ⟨3, 8⟩ "-f(neg, -neg)" signCell = .ok signedCall := by rfl
  obtain ⟨htext, hsign⟩ := text_shows_all hvalid hfree hparse
  obtain ⟨s, hs, -⟩ := htext signedCall .plain (by decide)
  have hletters : signedCall.text = .ok "-f(neg, -neg)" := by rfl
  cases hs.text_eq.symm.trans hletters
  exact ⟨hparse, hs, hsign _ rfl⟩

def signCallable (arity : Nat) : List (Symbol Bool Bool) :=
  [.cell "x" true, .cell "y" false, .callable ⟨"neg", .native true, arity, false⟩]

def signCall (args : List (Formula Bool Bool)) : Formula Bool Bool :=
  .call ⟨"neg", .native true, args.length, false⟩ args

/-- Under the name of the minus sign, a call without arguments has no text, a call of two arguments
shows the first one only, and a call of one argument has the text of the sign. -/
theorem text_hides_signCallable :
    (∀ arity ≤ maxArity, ∀ s ∈ signCallable arity, s.Valid) ∧
      (parse ⟨3, 8⟩ "neg" (signCallable 0) = .ok (signCall []) ∧
        (signCall []).text = .error .noOperand) ∧
      (parse ⟨3, 8⟩ "neg(x, y)" (signCallable 2) =
          .ok (signCall [.cell "x" true, .cell "y" false]) ∧
        (signCall [.cell "x" true, .cell "y" false]).text = .ok "-x" ∧
        ¬ (signCall [.cell "x" true, .cell "y" false]).Shows "-x") ∧
      parse ⟨3, 8⟩ "neg x" (signCallable 1) = .ok (signCall [.cell "x" true]) ∧
        (signCall [.cell "x" true]).text = (cell "x" true : Formula Bool Bool).negate.text := by
  refine ⟨by decide, ⟨by rfl, text_call_nil rfl⟩, ⟨by rfl, ?_, fun hshows => ?_⟩, by rfl,
    text_call_cons rfl _ []⟩
  · exact text_call_cons rfl _ _
  · obtain ⟨s, hs, hinfix⟩ := hshows.parts [1] _ rfl
    cases hs
    revert hinfix
    decide

end Parse

end Formula

end ComplexFormula
