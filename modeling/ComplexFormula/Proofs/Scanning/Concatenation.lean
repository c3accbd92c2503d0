import ComplexFormula.Proofs.Scanning.Munch

/-! # Concatenation of texts

The lexemes of a text, apart from where they stand. A mark that belongs to no number and no name
keeps the text before it from running on into the text after it, so that the lexemes of both stand
one after another.
-/

namespace ComplexFormula

variable {κ φ : Type}

inductive Lexes (bindings : List (Symbol κ φ)) : List Char → List (Lexeme κ φ) → Prop
  | finish {text : List Char} (blank : ∀ c ∈ text, isSpace c = true) : Lexes bindings text []
  | lexeme {text w rest : List Char} {x : Lexeme κ φ} {xs : List (Lexeme κ φ)}
      (munch : Munch bindings (text.dropWhile isSpace) x w)
      (taken : text.dropWhile isSpace = w ++ rest) (tail : Lexes bindings rest xs) :
      Lexes bindings text (x :: xs)

/-- A character that neither numbers nor names can have. -/
structure Divides (c : Char) : Prop where
  identifier : isIdentifierTail c = false
  number : c ∉ ['.', '+', '-']

instance (c : Char) : Decidable (Divides c) :=
  decidable_of_iff (isIdentifierTail c = false ∧ c ∉ ['.', '+', '-'])
    ⟨fun ⟨h, h'⟩ => ⟨h, h'⟩, fun ⟨h, h'⟩ => ⟨h, h'⟩⟩

section Munch

variable {bindings : List (Symbol κ φ)} {text w : List Char} {x : Lexeme κ φ} {c : Char}

theorem Munch.ne_nil (h : Munch bindings text x w) : w ≠ [] := by
  cases h with
  | real hn hl =>
    obtain ⟨rest, hscan⟩ := Decimal.exists_scanNumeral?_of_longest hn hl
    exact (Decimal.scanNumeral?_eq hscan).2
  | imaginary => exact List.append_ne_nil_of_right_ne_nil _ (List.cons_ne_nil _ _)
  | name hl | unbound hl =>
    obtain ⟨c, cs, -, -, rfl⟩ := hl.eq_run
    exact List.cons_ne_nil _ _
  | @operator op => cases op <;> exact List.cons_ne_nil _ _
  | _ => exact List.cons_ne_nil _ _

namespace Divides

theorem not_isDigit (h : Divides c) : c.isDigit = false := by
  have hc := h.identifier
  simp only [isIdentifierTail, Char.isAlphanum, Bool.or_eq_false_iff] at hc
  exact hc.1.2

theorem ne (h : Divides c) {d : Char} (hd : isIdentifierTail d = true) : c ≠ d := by
  rintro rfl
  rw [h.identifier] at hd
  cases hd

theorem not_mem_literal (h : Divides c) (hw : Decimal.IsLiteral w) : c ∉ w := by
  obtain ⟨n, hn, rfl⟩ := hw
  intro hc
  rcases hn.mem_text hc with hdigit | hmark
  · rw [h.not_isDigit] at hdigit
    cases hdigit
  · obtain ⟨hpoint, hplus, hminus⟩ : c ≠ '.' ∧ c ≠ '+' ∧ c ≠ '-' := by simpa using h.number
    have hmarks : c ≠ 'e' ∧ c ≠ 'E' := ⟨h.ne (by decide), h.ne (by decide)⟩
    simp [hpoint, hplus, hminus, hmarks] at hmark

theorem not_mem_name (h : Divides c) (hw : IsName w) : c ∉ w := by
  cases w with
  | nil => exact List.not_mem_nil
  | cons d w =>
    obtain ⟨hd, hw⟩ := isName_cons_iff.mp hw
    have hd : isIdentifierTail d = true := by simp [isIdentifierTail, Char.isAlphanum, hd]
    exact List.not_mem_cons_of_ne_of_not_mem (h.ne hd) fun hc => h.ne (hw c hc) rfl

end Divides

theorem prefix_of_not_mem {a b : List Char} (h : w <+: a ++ c :: b) (hc : c ∉ w) : w <+: a := by
  rcases List.prefix_or_prefix_of_prefix h (List.prefix_append a _) with hw | ⟨v, rfl⟩
  · exact hw
  · rw [List.prefix_append_right_inj] at h
    cases v with
    | nil => simp
    | cons d v =>
      obtain ⟨rfl, -⟩ := List.cons_prefix_cons.mp h
      exact absurd (List.mem_append_right _ List.mem_cons_self) hc

theorem Longest.append {P : List Char → Prop} (h : Longest P w text) (hP : ∀ v, P v → c ∉ v)
    (rest : List Char) : Longest P w (text ++ c :: rest) :=
  ⟨h.begins.trans (List.prefix_append ..), h.holds,
    fun v hv hPv => h.length_le v (prefix_of_not_mem hv (hP v hPv)) hPv⟩

/-- What comes after a dividing character has no influence on the lexeme before it. -/
theorem Munch.append (hc : Divides c) (h : Munch bindings text x w) (rest : List Char) :
    Munch bindings (text ++ c :: rest) x w := by
  have hbegins {v : List Char} (hv : v <+: text) : v <+: text ++ c :: rest :=
    hv.trans (List.prefix_append ..)
  have hliteral : ∀ v, Decimal.IsLiteral v → c ∉ v := fun v => hc.not_mem_literal
  have hname : ∀ v, IsName v → c ∉ v := fun v => hc.not_mem_name
  cases h with
  | @real n hn hl hplain =>
    -- the suffix of imaginary numbers divides nothing, so none has come to follow
    refine .real hn (hl.append hliteral rest) fun hsuffix => hplain (prefix_of_not_mem hsuffix ?_)
    exact List.not_mem_append (hliteral _ ⟨n, hn, rfl⟩) (mt List.mem_singleton.mp (hc.ne rfl))
  | imaginary hn hl hsuffix => exact .imaginary hn (hl.append hliteral rest) (hbegins hsuffix)
  | point hfirst hnone =>
    refine .point (hbegins hfirst) fun v hv hlit => hnone v ?_ hlit
    exact prefix_of_not_mem hv (hliteral v hlit)
  | name hl hs => exact .name (hl.append hname rest) hs
  | unbound hl hs => exact .unbound (hl.append hname rest) hs
  | operator hop hfirst => exact .operator hop (hbegins hfirst)
  | opening hfirst => exact .opening (hbegins hfirst)
  | closing hfirst => exact .closing (hbegins hfirst)
  | separator hfirst => exact .separator (hbegins hfirst)
  | other hfirst hspace hdigit hletter hmark =>
    exact .other (hbegins hfirst) hspace hdigit hletter hmark

end Munch

namespace Lexes

variable {bindings : List (Symbol κ φ)} {text a b : List Char} {xs ys : List (Lexeme κ φ)}
  {c : Char}

theorem eq (h : Lexes bindings text xs) (h' : Lexes bindings text ys) : xs = ys := by
  induction h generalizing ys with
  | finish hb =>
    cases h' with
    | finish => rfl
    | lexeme hm htaken =>
      rw [List.dropWhile_eq_nil_iff.mpr hb] at htaken
      exact absurd (List.append_eq_nil_iff.mp htaken.symm).1 hm.ne_nil
  | lexeme hm htaken _ ih =>
    cases h' with
    | finish hb =>
      rw [List.dropWhile_eq_nil_iff.mpr hb] at htaken
      exact absurd (List.append_eq_nil_iff.mp htaken.symm).1 hm.ne_nil
    | lexeme hm' htaken' htail =>
      obtain ⟨_, hscan⟩ := hm.scan_eq
      obtain ⟨_, hscan'⟩ := hm'.scan_eq
      obtain ⟨rfl, hw⟩ := Prod.mk.inj (hscan.symm.trans hscan')
      obtain ⟨rfl, -⟩ := Prod.mk.inj hw
      obtain rfl := List.append_cancel_left (htaken.symm.trans htaken')
      rw [ih htail]

theorem of_scans {s : Scanner κ φ} {ts : List (Token κ φ)} (h : s.Scans ts) :
    ∃ xs, ts.map Token.lexeme = xs ++ [.finish] ∧ Lexes s.bindings s.rest xs := by
  induction h with
  | @finish s hx =>
    refine ⟨[], by rw [List.map_singleton, hx]; rfl, .finish ?_⟩
    rw [← List.dropWhile_eq_nil_iff]
    cases hd : s.rest.dropWhile isSpace with
    | nil => rfl
    | cons c cs =>
      obtain ⟨x, w, rest, hscan, hne, -⟩ := Lexeme.scan_cons s.bindings c cs
      simp only [Scanner.next, hd, hscan] at hx
      exact absurd hx hne
  | @step s ts hx _ ih =>
    obtain ⟨xs, hts, hlex⟩ := ih
    refine ⟨s.next.1.lexeme :: xs, by rw [List.map_cons, hts]; rfl, ?_⟩
    cases hd : s.rest.dropWhile isSpace with
    | nil => exact absurd (by simp only [Scanner.next, hd, Lexeme.scan_nil]) hx
    | cons c cs =>
      have hspace : isSpace c = false := by
        have hhead := List.head?_dropWhile_not isSpace s.rest
        rwa [hd] at hhead
      have hmunch := munch_scan s.bindings cs hspace
      obtain ⟨x, w, rest, hscan, -, -, hcs⟩ := Lexeme.scan_cons s.bindings c cs
      rw [hscan] at hmunch
      simp only [Scanner.next, hd, hscan] at hlex ⊢
      exact .lexeme (hd ▸ hmunch) (hd.trans hcs) hlex

theorem map_lexeme_sourceTokens_iff {source : String} :
    (sourceTokens source bindings).map Token.lexeme = xs ++ [.finish] ↔
      Lexes bindings source.toList xs := by
  obtain ⟨ys, hys, hlex⟩ := of_scans (Scanner.start source bindings).scans_tokens
  rw [sourceTokens, hys, List.append_cancel_right_eq]
  exact ⟨fun h => h ▸ hlex, fun h => hlex.eq h⟩

theorem nil : Lexes bindings ([] : List Char) [] :=
  .finish (List.forall_mem_nil _)

theorem blanks (ha : ∀ c ∈ a, isSpace c = true) (h : Lexes bindings b xs) :
    Lexes bindings (a ++ b) xs := by
  cases h with
  | finish hb => exact .finish fun c hc => (List.mem_append.mp hc).elim (ha c) (hb c)
  | lexeme hm htaken htail =>
    have hdrop : (a ++ b).dropWhile isSpace = b.dropWhile isSpace := List.dropWhile_append_of_pos ha
    exact .lexeme (hdrop ▸ hm) (hdrop.trans htaken) htail

theorem cons {w : List Char} {x : Lexeme κ φ} (hm : Munch bindings (w ++ text) x w)
    (h : Lexes bindings text xs) : Lexes bindings (w ++ text) (x :: xs) := by
  have hdrop : (w ++ text).dropWhile isSpace = w ++ text := by
    obtain ⟨c, w, rfl⟩ := List.exists_cons_of_ne_nil hm.ne_nil
    rw [List.cons_append] at hm ⊢
    exact List.dropWhile_cons_of_neg (by rw [hm.not_isSpace]; exact Bool.false_ne_true)
  exact .lexeme (hdrop.symm ▸ hm) hdrop h

/-- A dividing character keeps the lexemes of two texts apart. -/
theorem append (hc : Divides c) (h : Lexes bindings a xs) (h' : Lexes bindings (c :: b) ys) :
    Lexes bindings (a ++ c :: b) (xs ++ ys) := by
  induction h with
  | finish hb => exact h'.blanks hb
  | @lexeme a w rest x xs hm htaken _ ih =>
    have hne : ¬ (a.dropWhile isSpace).isEmpty = true := by
      rw [List.isEmpty_iff, htaken]
      exact List.append_ne_nil_of_left_ne_nil hm.ne_nil _
    have hdrop : (a ++ c :: b).dropWhile isSpace = a.dropWhile isSpace ++ c :: b := by
      rw [List.dropWhile_append, if_neg hne]
    refine .lexeme (hdrop.symm ▸ hm.append hc b) ?_ ih
    rw [hdrop, htaken, List.append_assoc]

theorem opening (h : Lexes bindings text xs) : Lexes bindings ('(' :: text) (.opening :: xs) :=
  cons (w := ['(']) (.opening ⟨text, rfl⟩) h

theorem closing (h : Lexes bindings text xs) : Lexes bindings (')' :: text) (.closing :: xs) :=
  cons (w := [')']) (.closing ⟨text, rfl⟩) h

theorem parenthesised (h : Lexes bindings a xs) (h' : Lexes bindings b ys) :
    Lexes bindings ('(' :: (a ++ ')' :: b)) (.opening :: (xs ++ .closing :: ys)) :=
  (h.append (by decide) h'.closing).opening

theorem name {w : List Char} {s : Symbol κ φ} (hw : IsName w)
    (hs : Symbol.resolve? (String.ofList w) bindings = some s)
    (h : Lexes bindings ('(' :: text) xs) :
    Lexes bindings (w ++ '(' :: text) (.symbol s :: xs) := by
  refine h.cons (.name ⟨List.prefix_append .., hw, fun v hv hname => ?_⟩ hs)
  have hdivides : Divides '(' := by decide
  exact (prefix_of_not_mem hv (hdivides.not_mem_name hname)).length_le

end Lexes

def Operator.lexeme : Operator → Lexeme κ φ
  | .comma => .separator
  | op => .operator op

theorem Lexes.operator {bindings : List (Symbol κ φ)} {text : List Char} {xs : List (Lexeme κ φ)}
    (op : Operator) (h : Lexes bindings text xs) :
    Lexes bindings (op.symbol.toList ++ text) (op.lexeme :: xs) := by
  cases op with
  | comma => exact h.cons (.separator ⟨text, rfl⟩)
  | _ => exact h.cons (.operator nofun ⟨text, rfl⟩)

end ComplexFormula
