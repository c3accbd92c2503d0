import ComplexFormula.Proofs.Scanning.Literals

/-! # Maximal munch

The rules for the lexeme at the start of a text, each said of the characters alone. Scanning gives
the one lexeme, over the one run of characters, that they allow.
-/

namespace ComplexFormula

variable {κ φ : Type}

def IsName (w : List Char) : Prop :=
  isIdentifier (String.ofList w) = true

/-- The characters that are lexemes by themselves, and the point. -/
def marks : List Char := ['+', '-', '*', '/', '^', '(', ')', ',', '.']

/-- `Munch bindings text x w`: the text, which has no blank before it, begins with the lexeme `x`
over the characters `w`. -/
inductive Munch (bindings : List (Symbol κ φ)) (text : List Char) : Lexeme κ φ → List Char → Prop
  | real {n : Decimal.Numeral} (valid : n.Valid) (longest : Longest Decimal.IsLiteral n.text text)
      (plain : ¬ n.text ++ ['I'] <+: text) : Munch bindings text (.real n.value) n.text
  | imaginary {n : Decimal.Numeral} (valid : n.Valid)
      (longest : Longest Decimal.IsLiteral n.text text) (suffix : n.text ++ ['I'] <+: text) :
      Munch bindings text (.imaginary n.value) (n.text ++ ['I'])
  /-- A point that begins no literal. -/
  | point (first : ['.'] <+: text) (none : ∀ w, w <+: text → ¬ Decimal.IsLiteral w) :
      Munch bindings text .unknown ['.']
  | name {w : List Char} {s : Symbol κ φ} (longest : Longest IsName w text)
      (resolved : Symbol.resolve? (String.ofList w) bindings = some s) :
      Munch bindings text (.symbol s) w
  | unbound {w : List Char} (longest : Longest IsName w text)
      (unresolved : Symbol.resolve? (String.ofList w) bindings = none) :
      Munch bindings text .unknown w
  | operator {op : Operator} (mark : op ≠ .comma) (first : op.symbol.toList <+: text) :
      Munch bindings text (.operator op) op.symbol.toList
  | opening (first : ['('] <+: text) : Munch bindings text .opening ['(']
  | closing (first : [')'] <+: text) : Munch bindings text .closing [')']
  | separator (first : [','] <+: text) : Munch bindings text .separator [',']
  | other {c : Char} (first : [c] <+: text) (blank : isSpace c = false)
      (digit : c.isDigit = false) (letter : c.isAlpha = false) (mark : c ∉ marks) :
      Munch bindings text .unknown [c]

section Names

variable {c : Char} {cs : List Char}

theorem isName_cons_iff : IsName (c :: cs) ↔ c.isAlpha = true ∧ ∀ x ∈ cs, isIdentifierTail x = true := by
  simp [IsName, isIdentifier]

/-- A letter begins the run of letters, digits and underscores as the longest name. -/
theorem longest_name (hc : c.isAlpha = true) (cs : List Char) :
    Longest IsName (c :: cs.takeWhile isIdentifierTail) (c :: cs) := by
  refine ⟨?_, isName_cons_iff.mpr ⟨hc, fun x hx => List.mem_takeWhile_imp hx⟩, ?_⟩
  · exact List.prefix_cons_inj c |>.mpr (List.takeWhile_prefix _)
  · rintro v ⟨after, h⟩ hv
    cases v with
    | nil => exact Nat.zero_le _
    | cons d v =>
      rw [List.cons_append] at h
      obtain ⟨rfl, rfl⟩ := List.cons.inj h
      rw [List.takeWhile_append_of_pos (isName_cons_iff.mp hv).2, List.length_cons,
        List.length_cons, List.length_append]
      omega

theorem Longest.eq_run {w text : List Char} (h : Longest IsName w text) :
    ∃ c cs, text = c :: cs ∧ c.isAlpha = true ∧ w = c :: cs.takeWhile isIdentifierTail := by
  obtain ⟨after, rfl⟩ := id h.begins
  have hw := h.holds
  cases w with
  | nil => exact absurd hw (by simp [IsName, isIdentifier])
  | cons c w =>
    have hc := (isName_cons_iff.mp hw).1
    exact ⟨c, w ++ after, rfl, hc, h.eq (longest_name hc _)⟩

end Names

/-- The first character of a literal, or a point that begins none. -/
def StartsNumber (c : Char) : Prop :=
  c.isDigit = true ∨ c = '.'

theorem not_startsNumber_of_isAlpha {c : Char} (h : c.isAlpha = true) : ¬ StartsNumber c := by
  rintro (hd | rfl)
  · -- all letters come after the digits
    have hdigit : c.val ≤ '9'.val := of_decide_eq_true (Bool.and_eq_true_iff.mp hd).2
    have hletter : 'A'.val ≤ c.val := by
      rcases Bool.or_eq_true_iff.mp h with h | h
      · exact (of_decide_eq_true h).1
      · exact UInt32.le_trans (by decide) (of_decide_eq_true (Bool.and_eq_true_iff.mp h).1)
    exact absurd (UInt32.le_trans hletter hdigit) (by decide)
  · exact absurd h (by decide)

theorem Decimal.startsNumber_of_scanNumeral? {text rest : List Char} {n : Numeral}
    (h : scanNumeral? text = some (n, rest)) : ∃ c cs, text = c :: cs ∧ StartsNumber c := by
  obtain ⟨rfl, -⟩ := scanNumeral?_eq h
  have hn := valid_of_scanNumeral? h
  obtain ⟨whole, fraction, x⟩ := n
  cases whole with
  | cons d whole => exact ⟨d, _, rfl, .inl (hn.whole d List.mem_cons_self)⟩
  | nil =>
    rcases hn.digit with h | ⟨ds, hds, -⟩
    · exact absurd rfl h
    · obtain rfl : fraction = some ds := hds
      exact ⟨'.', _, rfl, .inr rfl⟩

namespace Lexeme

variable {bindings : List (Symbol κ φ)} {c : Char} {cs text rest : List Char} {n : Decimal.Numeral}

theorem scan_number (hc : StartsNumber c) :
    scan bindings (c :: cs) =
      match Decimal.scanNumeral? (c :: cs) with
      | some (n, 'I' :: rest) => (imaginary n.value, n.text ++ ['I'], rest)
      | some (n, rest) => (real n.value, n.text, rest)
      | none => (unknown, [c], cs) :=
  if_pos (by simpa [StartsNumber] using hc)

theorem scan_imaginary (h : Decimal.scanNumeral? text = some (n, 'I' :: rest)) :
    scan bindings text = (imaginary n.value, n.text ++ ['I'], rest) := by
  obtain ⟨c, cs, rfl, hc⟩ := Decimal.startsNumber_of_scanNumeral? h
  rw [scan_number hc, h]
  rfl

theorem scan_real (h : Decimal.scanNumeral? text = some (n, rest))
    (hrest : ∀ after, rest ≠ 'I' :: after) : scan bindings text = (real n.value, n.text, rest) := by
  obtain ⟨c, cs, rfl, hc⟩ := Decimal.startsNumber_of_scanNumeral? h
  rw [scan_number hc, h]
  split
  · rename_i heq
    cases heq
    exact absurd rfl (hrest _)
  · rename_i heq
    cases heq
    rfl
  · rename_i heq
    cases heq

theorem scan_name {s : Symbol κ φ} (hc : c.isAlpha = true)
    (h : Symbol.resolve? (String.ofList (c :: cs.takeWhile isIdentifierTail)) bindings = some s) :
    scan bindings (c :: cs) =
      (symbol s, c :: cs.takeWhile isIdentifierTail, cs.dropWhile isIdentifierTail) := by
  have hnumber := not_startsNumber_of_isAlpha hc
  rw [scan, if_neg (by simpa [StartsNumber] using hnumber), if_pos hc]
  simp only [h]

theorem scan_unbound (hc : c.isAlpha = true)
    (h : Symbol.resolve? (String.ofList (c :: cs.takeWhile isIdentifierTail)) bindings = none) :
    scan bindings (c :: cs) =
      (unknown, c :: cs.takeWhile isIdentifierTail, cs.dropWhile isIdentifierTail) := by
  have hnumber := not_startsNumber_of_isAlpha hc
  rw [scan, if_neg (by simpa [StartsNumber] using hnumber), if_pos hc]
  simp only [h]

theorem scan_mark (hnumber : ¬ StartsNumber c) (hc : c.isAlpha = false) :
    scan bindings (c :: cs) = (ofMark c, [c], cs) := by
  rw [scan, if_neg (by simpa [StartsNumber] using hnumber), if_neg (by simp [hc])]

theorem ofMark_other (h : c ∉ marks) : (ofMark c : Lexeme κ φ) = unknown := by
  unfold ofMark
  split
  case h_9 => rfl
  all_goals exact absurd (by decide) h

end Lexeme

section

variable {bindings : List (Symbol κ φ)} {text w : List Char} {x : Lexeme κ φ}

/-- The rules leave no choice: what they allow is what is scanned. -/
theorem Munch.scan_eq (h : Munch bindings text x w) :
    ∃ rest, Lexeme.scan bindings text = (x, w, rest) := by
  cases h with
  | real hn hl hplain =>
    obtain ⟨rest, hscan⟩ := Decimal.exists_scanNumeral?_of_longest hn hl
    refine ⟨rest, Lexeme.scan_real hscan ?_⟩
    rintro after rfl
    refine hplain ⟨after, ?_⟩
    rw [(Decimal.scanNumeral?_eq hscan).1, List.append_assoc, List.singleton_append]
  | imaginary hn hl hsuffix =>
    obtain ⟨rest, hscan⟩ := Decimal.exists_scanNumeral?_of_longest hn hl
    obtain ⟨after, hafter⟩ := hsuffix
    rw [(Decimal.scanNumeral?_eq hscan).1, List.append_assoc, List.append_right_inj] at hafter
    subst hafter
    exact ⟨after, Lexeme.scan_imaginary hscan⟩
  | point hfirst hnone =>
    obtain ⟨cs, rfl⟩ := hfirst
    rw [List.singleton_append] at hnone ⊢
    have hscan : Decimal.scanNumeral? ('.' :: cs) = none := by
      by_contra hsome
      obtain ⟨⟨n, rest⟩, hn⟩ := Option.ne_none_iff_exists'.mp hsome
      have hl := Decimal.longest_of_scanNumeral? hn
      exact hnone _ hl.begins hl.holds
    rw [Lexeme.scan_number (.inr rfl), hscan]
    exact ⟨cs, rfl⟩
  | name hl hs =>
    obtain ⟨c, cs, rfl, hc, rfl⟩ := hl.eq_run
    exact ⟨_, Lexeme.scan_name hc hs⟩
  | unbound hl hs =>
    obtain ⟨c, cs, rfl, hc, rfl⟩ := hl.eq_run
    exact ⟨_, Lexeme.scan_unbound hc hs⟩
  | @operator op hop hfirst =>
    obtain ⟨cs, rfl⟩ := hfirst
    cases op with
    | comma => exact absurd rfl hop
    | _ => exact ⟨cs, rfl⟩
  | opening hfirst | closing hfirst | separator hfirst =>
    obtain ⟨cs, rfl⟩ := hfirst
    exact ⟨cs, rfl⟩
  | @other c hfirst _ hdigit hletter hmark =>
    obtain ⟨cs, rfl⟩ := hfirst
    have hnumber : ¬ StartsNumber c := by
      rintro (h | rfl)
      · exact absurd (h.symm.trans hdigit) (by decide)
      · exact hmark (by decide)
    exact ⟨cs, by rw [List.singleton_append, Lexeme.scan_mark hnumber hletter,
      Lexeme.ofMark_other hmark]⟩

theorem munch_number {c : Char} {cs : List Char} (hc : StartsNumber c) :
    Munch bindings (c :: cs) (Lexeme.scan bindings (c :: cs)).1
      (Lexeme.scan bindings (c :: cs)).2.1 := by
  cases hscan : Decimal.scanNumeral? (c :: cs) with
  | none =>
    have hnone : ∀ w, w <+: c :: cs → ¬ Decimal.IsLiteral w :=
      fun w hw => Decimal.not_isLiteral_of_scanNumeral? hscan hw
    rcases hc with hc | rfl
    · exact absurd (Decimal.isLiteral_digit hc) (hnone [c] ⟨cs, rfl⟩)
    · rw [Lexeme.scan_number (.inr rfl), hscan]
      exact .point ⟨cs, rfl⟩ hnone
  | some result =>
    obtain ⟨n, rest⟩ := result
    have hn := Decimal.valid_of_scanNumeral? hscan
    have hl := Decimal.longest_of_scanNumeral? hscan
    have htext := (Decimal.scanNumeral?_eq hscan).1
    by_cases hrest : ∃ after, rest = 'I' :: after
    · obtain ⟨after, rfl⟩ := hrest
      rw [Lexeme.scan_imaginary hscan]
      exact .imaginary hn hl ⟨after, by rw [htext, List.append_assoc, List.singleton_append]⟩
    · rw [Lexeme.scan_real hscan fun after h => hrest ⟨after, h⟩]
      refine .real hn hl ?_
      rintro ⟨after, hafter⟩
      rw [htext, List.append_assoc, List.append_right_inj] at hafter
      exact hrest ⟨after, hafter.symm⟩

theorem munch_mark {c : Char} {cs : List Char} (hspace : isSpace c = false)
    (hnumber : ¬ StartsNumber c) (hletter : c.isAlpha = false) :
    Munch bindings (c :: cs) (Lexeme.ofMark c) [c] := by
  unfold Lexeme.ofMark
  split
  case h_6 => exact .opening ⟨cs, rfl⟩
  case h_7 => exact .closing ⟨cs, rfl⟩
  case h_8 => exact .separator ⟨cs, rfl⟩
  case h_9 =>
    rw [StartsNumber, not_or] at hnumber
    refine .other ⟨cs, rfl⟩ hspace (Bool.eq_false_iff.mpr hnumber.1) hletter ?_
    simp_all [marks]
  all_goals exact .operator nofun ⟨cs, rfl⟩

theorem Munch.ne_finish (h : Munch bindings text x w) : x ≠ .finish := by
  cases h <;> exact nofun

theorem not_isSpace_of_startsNumber {c : Char} (h : StartsNumber c) : isSpace c = false := by
  rw [Bool.eq_false_iff]
  intro hc
  simp only [isSpace, Bool.or_eq_true, decide_eq_true_eq, or_assoc] at hc
  rcases h with h | rfl
  · rcases hc with rfl | rfl | rfl | rfl <;> exact absurd h (by decide)
  · exact absurd hc (by decide)

theorem not_isSpace_of_isAlpha {c : Char} (h : c.isAlpha = true) : isSpace c = false := by
  rw [Bool.eq_false_iff]
  intro hc
  simp only [isSpace, Bool.or_eq_true, decide_eq_true_eq, or_assoc] at hc
  rcases hc with rfl | rfl | rfl | rfl <;> exact absurd h (by decide)

theorem Munch.not_isSpace {c : Char} {cs : List Char} (h : Munch bindings (c :: cs) x w) :
    isSpace c = false := by
  have hmark {d : Char} (hd : isSpace d = false) (hfirst : [d] <+: c :: cs) : isSpace c = false :=
    (List.cons_prefix_cons.mp hfirst).1 ▸ hd
  cases h with
  | real hn hl | imaginary hn hl =>
    obtain ⟨rest, hscan⟩ := Decimal.exists_scanNumeral?_of_longest hn hl
    obtain ⟨c, cs, ⟨rfl, rfl⟩, hc⟩ := Decimal.startsNumber_of_scanNumeral? hscan
    exact not_isSpace_of_startsNumber hc
  | name hl | unbound hl =>
    obtain ⟨c, cs, ⟨rfl, rfl⟩, hc, -⟩ := hl.eq_run
    exact not_isSpace_of_isAlpha hc
  | @operator op _ hfirst => cases op <;> exact hmark rfl hfirst
  | point hfirst | opening hfirst | closing hfirst | separator hfirst => exact hmark rfl hfirst
  | other hfirst hspace => exact hmark hspace hfirst

theorem munch_scan (bindings : List (Symbol κ φ)) {c : Char} (cs : List Char)
    (hspace : isSpace c = false) :
    Munch bindings (c :: cs) (Lexeme.scan bindings (c :: cs)).1
      (Lexeme.scan bindings (c :: cs)).2.1 := by
  by_cases hnumber : StartsNumber c
  · exact munch_number hnumber
  · cases hletter : c.isAlpha with
    | true =>
      have hl := longest_name hletter cs
      cases hs : Symbol.resolve? (String.ofList (c :: cs.takeWhile isIdentifierTail)) bindings with
      | some s =>
        rw [Lexeme.scan_name hletter hs]
        exact .name hl hs
      | none =>
        rw [Lexeme.scan_unbound hletter hs]
        exact .unbound hl hs
    | false =>
      rw [Lexeme.scan_mark hnumber hletter]
      exact munch_mark hspace hnumber hletter

end

end ComplexFormula
