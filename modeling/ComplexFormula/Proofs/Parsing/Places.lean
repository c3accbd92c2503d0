import Mathlib.Data.List.Forall2
import ComplexFormula.Proofs.Parsing.Steps
import ComplexFormula.Proofs.Scanning.Blanks

/-! # The places of tokens

Parsing does not look where tokens stand. Sources whose tokens differ in their places alone are the
same formula, or are at fault at the same token for the same cause.
-/

namespace ComplexFormula

variable {κ φ α β : Type} {P : Token κ φ → Token κ φ → Prop}

/-- Readers that stand before tokens that `P` pairs off, one by one. -/
structure Reader.Paired (P : Token κ φ → Token κ φ → Prop) (r s : Reader κ φ) : Prop where
  current : P r.current s.current
  rest : List.Forall₂ P r.rest s.rest
  depth_eq : r.depth = s.depth

/-- The same has been read, or there is the same fault at two tokens that `P` pairs off. -/
inductive SameOutcome (P : Token κ φ → Token κ φ → Prop) :
    Except ParseFault (α × Reader κ φ) → Except ParseFault (α × Reader κ φ) → Prop
  | ok (x : α) {r s : Reader κ φ} (paired : r.Paired P s) : SameOutcome P (.ok (x, r)) (.ok (x, s))
  | error (cause : ParseFault.Cause) {t u : Token κ φ} (paired : P t u) :
      SameOutcome P (.error ⟨cause, t.stop⟩) (.error ⟨cause, u.stop⟩)

def SameContent (P : Token κ φ → Token κ φ → Prop) : Prop :=
  ∀ t u, P t u → t.content = u.content

namespace Reader.Paired

variable {r s : Reader κ φ}

theorem lexeme_eq (h : r.Paired P s) (hP : SameContent P) : r.current.lexeme = s.current.lexeme :=
  congrArg Prod.fst (hP _ _ h.current)

theorem found_eq (h : r.Paired P s) (hP : SameContent P) : r.found = s.found := by
  have htext : r.current.text = s.current.text := congrArg Prod.snd (hP _ _ h.current)
  rw [found, found, h.lexeme_eq hP, htext]

theorem fail (h : r.Paired P s) (cause : ParseFault.Cause) :
    SameOutcome P (r.fail cause : Except ParseFault (α × Reader κ φ)) (s.fail cause) :=
  .error cause h.current

theorem advance (h : r.Paired P s) : r.advance.Paired P s.advance := by
  obtain ⟨t, ts, d⟩ := r
  obtain ⟨u, us, e⟩ := s
  cases h.rest with
  | nil => exact h
  | cons ht hts => exact ⟨ht, hts, h.depth_eq⟩

theorem passSigns {t u : Token κ φ} {ts us : List (Token κ φ)} (hP : SameContent P) (ht : P t u)
    (hts : List.Forall₂ P ts us) (negative : Bool) :
    (passSigns negative t ts).1 = (passSigns negative u us).1 ∧
      P (passSigns negative t ts).2.1 (passSigns negative u us).2.1 ∧
      List.Forall₂ P (passSigns negative t ts).2.2 (passSigns negative u us).2.2 := by
  induction hts generalizing t u negative with
  | nil => exact ⟨rfl, ht, .nil⟩
  | cons ht' hts ih =>
    have hlexeme : t.lexeme = u.lexeme := congrArg Prod.fst (hP _ _ ht)
    simp only [Reader.passSigns, hlexeme]
    split
    · exact ih ht' negative
    · exact ih ht' !negative
    · exact ⟨rfl, ht, .cons ht' hts⟩

theorem signs (h : r.Paired P s) (hP : SameContent P) :
    r.signs.1 = s.signs.1 ∧ r.signs.2.Paired P s.signs.2 := by
  obtain ⟨hsign, hcurrent, hrest⟩ := passSigns hP h.current h.rest false
  exact ⟨hsign, hcurrent, hrest, h.depth_eq⟩

end Reader.Paired

theorem SameOutcome.bind {o o' : Except ParseFault (α × Reader κ φ)} (h : SameOutcome P o o')
    {k k' : α × Reader κ φ → Except ParseFault (β × Reader κ φ)}
    (hk : ∀ x r s, r.Paired P s → SameOutcome P (k (x, r)) (k' (x, s))) :
    SameOutcome P (o.bind k) (o'.bind k') := by
  cases h with
  | ok x hrs => exact hk x _ _ hrs
  | error cause htu => exact .error cause htu

def Rule.Agrees (P : Token κ φ → Token κ φ → Prop) (rule : Rule κ φ) : Prop :=
  ∀ r s : Reader κ φ, r.Paired P s → SameOutcome P (rule r) (rule s)

namespace Rule.Agrees

variable {a b : Rule κ φ} {joins : Lexeme κ φ → Option Operator} {r s : Reader κ φ}

section

variable (hP : SameContent P)
include hP

theorem chainFrom (h : a.Agrees P) {budget budget' : List (Token κ φ)}
    (hbudget : List.Forall₂ P budget budget') (left : Formula κ φ) (hrs : r.Paired P s) :
    SameOutcome P (Rule.chainFrom joins a budget left r)
      (Rule.chainFrom joins a budget' left s) := by
  induction hbudget generalizing left r s with
  | nil => exact .ok left hrs
  | cons _ _ ih =>
    simp only [Rule.chainFrom, hrs.lexeme_eq hP]
    split
    · exact (h _ _ hrs.advance).bind fun right _ _ hrs' => ih _ hrs'
    · exact .ok left hrs

theorem chain (h : a.Agrees P) : (Rule.chain joins a).Agrees P :=
  fun _ _ hrs => (h _ _ hrs).bind fun left _ _ hrs' =>
    h.chainFrom hP hrs'.rest left hrs'

theorem sum (h : a.Agrees P) : (Rule.sum a).Agrees P := ((h.chain hP).chain hP).chain hP

theorem list (h : a.Agrees P) : (Rule.list a).Agrees P := (h.sum hP).chain hP

theorem arguments (h : a.Agrees P) (k : Nat) (hrs : r.Paired P s) :
    SameOutcome P (Rule.arguments a k r) (Rule.arguments a k s) := by
  induction k generalizing r s with
  | zero => exact .ok [] hrs
  | succ k ih =>
    refine (h _ _ hrs.advance).bind fun t r' s' hrs' => ?_
    dsimp only
    rw [hrs'.lexeme_eq hP]
    split
    · exact (ih hrs').bind fun ts _ _ hrs'' => .ok (t :: ts) hrs''
    · exact .ok [t] hrs'

theorem call (ha : a.Agrees P) (hb : b.Agrees P) (callee : Callee κ φ) :
    (Rule.call a b callee).Agrees P := by
  intro r s hrs
  match harity : callee.arity with
  | 0 =>
    have hx := hrs.lexeme_eq hP
    have hy := hrs.advance.lexeme_eq hP
    by_cases hopening : r.current.lexeme = .opening
    · by_cases hclosing : r.advance.current.lexeme = .closing
      · rw [call_empty harity hopening hclosing, call_empty harity (hx ▸ hopening) (hy ▸ hclosing)]
        exact .ok _ hrs.advance.advance
      · rw [call_unclosed harity hopening hclosing, call_unclosed harity (hx ▸ hopening)
          (hy ▸ hclosing), hrs.advance.found_eq hP]
        exact hrs.advance.fail _
    · rw [call_name harity hopening, call_name harity (hx ▸ hopening)]
      exact .ok _ hrs
  | 1 =>
    rw [call_operand harity, call_operand harity]
    exact (ha _ _ hrs).bind fun arg _ _ hrs' => .ok _ hrs'
  | k + 2 =>
    simp only [Rule.call, harity, hrs.lexeme_eq hP, hrs.found_eq hP]
    split
    · refine ((hb.sum hP).arguments hP (k + 2) hrs).bind fun args r' s' hrs' => ?_
      dsimp only
      rw [hrs'.lexeme_eq hP]
      split
      · exact .ok _ hrs'.advance
      · exact hrs'.fail _
    · exact hrs.fail _

theorem base (ha : a.Agrees P) (hb : b.Agrees P) : (Rule.base a b).Agrees P := by
  intro r s hrs
  simp only [Rule.base, hrs.lexeme_eq hP, hrs.found_eq hP]
  split
  · exact .ok _ hrs.advance
  · exact .ok _ hrs.advance
  · exact .ok _ hrs.advance
  · exact ha.call hP hb _ _ _ hrs.advance
  · refine (hb.list hP _ _ hrs.advance).bind fun t r' s' hrs' => ?_
    have hx := hrs'.lexeme_eq hP
    by_cases hclosing : r'.current.lexeme = .closing
    · simp only [Reader.close_closing hclosing, Reader.close_closing (hx ▸ hclosing)]
      exact .ok _ hrs'.advance
    · simp only [Reader.close_other hclosing, Reader.close_other (hx ▸ hclosing), hrs'.found_eq hP]
      exact hrs'.fail _
  · exact hrs.fail _
  · exact hrs.fail _

theorem power (limit : Int) (room : Nat) : (Rule.power limit room : Rule κ φ).Agrees P := by
  induction room using Nat.strong_induction_on with
  | h room ih =>
  intro r s hrs
  have hdepth := hrs.depth_eq
  by_cases hd : limit < r.depth + 1
  · rw [power_deep hd, power_deep (hdepth ▸ hd)]
    exact hrs.fail _
  · have hd := Int.not_lt.mp hd
    by_cases hroom : room < 2
    · rw [power_exhausted hd hroom, power_exhausted (hdepth ▸ hd) hroom]
      exact hrs.fail _
    · obtain ⟨room, rfl⟩ := Nat.exists_eq_add_of_le' (Nat.le_of_not_lt hroom)
      have hinner : (⟨r.current, r.rest, r.depth + 1⟩ : Reader κ φ).Paired P
          ⟨s.current, s.rest, s.depth + 1⟩ := ⟨hrs.current, hrs.rest, by rw [hdepth]⟩
      obtain ⟨hsign, hsigns⟩ := hinner.signs hP
      have hbase := (ih (room + 1) (by omega)).base hP (ih room (by omega)) _ _ hsigns
      simp only [Rule.power, if_neg (Int.not_lt.mpr hd), if_neg (Int.not_lt.mpr (hdepth ▸ hd)),
        hsign]
      exact hbase.bind fun t r' s' hrs' =>
        .ok _ ⟨hrs'.current, hrs'.rest, by rw [hrs'.depth_eq]⟩

end

end Rule.Agrees

def Reader.readAll (limits : Limits) (r : Reader κ φ) : Except ParseFault (Formula κ φ) := do
  let (t, r) ← Rule.list (Rule.power limits.depth limits.room) r
  if r.current.lexeme.isFinish then .ok t else r.fail (.trailing r.found)

def Reader.ofTokens : List (Token κ φ) → Reader κ φ
  | t :: ts => ⟨t, ts, 0⟩
  | [] => ⟨⟨.finish, 0, 0, []⟩, [], 0⟩

theorem parse_eq_readAll (limits : Limits) (source : String) (bindings : List (Symbol κ φ)) :
    parse limits source bindings =
      (Reader.ofTokens (sourceTokens source bindings)).readAll limits :=
  rfl

theorem Reader.Paired.readAll {r s : Reader κ φ} (hP : SameContent P) (h : r.Paired P s)
    (limits : Limits) :
    (∃ t, r.readAll limits = .ok t ∧ s.readAll limits = .ok t) ∨
      ∃ cause t u, P t u ∧ r.readAll limits = .error ⟨cause, t.stop⟩ ∧
        s.readAll limits = .error ⟨cause, u.stop⟩ := by
  have hlist := (Rule.Agrees.power hP limits.depth limits.room).list hP r s h
  rw [Reader.readAll, Reader.readAll]
  generalize Rule.list (Rule.power limits.depth limits.room) r = o at hlist ⊢
  generalize Rule.list (Rule.power limits.depth limits.room) s = o' at hlist ⊢
  cases hlist with
  | error cause htu => exact .inr ⟨cause, _, _, htu, rfl, rfl⟩
  | @ok t r' s' hrs =>
    simp only [bind, Except.bind, hrs.lexeme_eq hP, hrs.found_eq hP]
    split
    · exact .inl ⟨t, rfl, rfl⟩
    · exact .inr ⟨_, _, _, hrs.current, rfl, rfl⟩

theorem Reader.paired_ofTokens {ts us : List (Token κ φ)} (h : List.Forall₂ P ts us)
    (hne : us ≠ []) : (ofTokens ts).Paired P (ofTokens us) := by
  cases h with
  | nil => exact absurd rfl hne
  | cons ht hts => exact ⟨ht, hts, rfl⟩

/-- Tokens that have nothing but numbers for their places. -/
def numbered (contents : List (Lexeme κ φ × List Char)) : List (Token κ φ) :=
  contents.zipIdx.map fun (content, n) => ⟨content.1, n, n, content.2⟩

/-- The second token is the one of `ts` that has the number of the first. -/
def Numbers (ts : List (Token κ φ)) (t u : Token κ φ) : Prop :=
  t.content = u.content ∧ ts[t.stop]? = some u

theorem numbers_numbered (ts : List (Token κ φ)) :
    List.Forall₂ (Numbers ts) (numbered (ts.map Token.content)) ts := by
  rw [List.forall₂_iff_get]
  refine ⟨by simp [numbered], fun n hn hn' => ?_⟩
  simp [numbered, Numbers, Token.content, List.getElem?_eq_getElem hn']

theorem parse_numbered (limits : Limits) {source : String} {bindings : List (Symbol κ φ)}
    {contents : List (Lexeme κ φ × List Char)}
    (h : (sourceTokens source bindings).map Token.content = contents) :
    (∃ t, (Reader.ofTokens (numbered contents)).readAll limits = .ok t ∧
        parse limits source bindings = .ok t) ∨
      ∃ cause number token, (sourceTokens source bindings)[number]? = some token ∧
        (Reader.ofTokens (numbered contents)).readAll limits = .error ⟨cause, number⟩ ∧
        parse limits source bindings = .error ⟨cause, token.stop⟩ := by
  have hne : sourceTokens source bindings ≠ [] := by
    obtain ⟨us, e, heq, -⟩ := sourceTokens_eq source bindings
    rw [heq]
    exact List.concat_ne_nil e us
  have hpaired := Reader.paired_ofTokens (numbers_numbered (sourceTokens source bindings)) hne
  rw [parse_eq_readAll, ← h]
  rcases hpaired.readAll (fun _ _ h => h.1) limits with hok | ⟨cause, t, u, hu, hfault⟩
  · exact .inl hok
  · exact .inr ⟨cause, t.stop, u, hu.2, hfault⟩

/-- Blanks separate tokens, and nothing more. The tokens of two texts with blanks between them are
those of both; where blanks stand changes neither the tokens but for their places, nor the formula
that they write, nor the token at which they are no formula and the cause of that. -/
theorem parse_respaced (bindings : List (Symbol κ φ)) :
    (∀ s₁ w s₂ : String, w ≠ "" → (∀ c ∈ w.toList, isSpace c = true) →
      sourceTokens (s₁ ++ w ++ s₂) bindings = (sourceTokens s₁ bindings).dropLast ++
        (sourceTokens s₂ bindings).map (Token.shift (s₁.length + w.length))) ∧
    (∀ source source', Respaced bindings source source' →
      contents source' bindings = contents source bindings) ∧
    ∀ limits source,
      (∃ t, ∀ source', Respaced bindings source source' → parse limits source' bindings = .ok t) ∨
        ∃ cause, ∃ number : Nat, ∀ source', Respaced bindings source source' →
          ∃ token : Token κ φ, (sourceTokens source' bindings)[number]? = some token ∧
            parse limits source' bindings = .error ⟨cause, token.stop⟩ := by
  refine ⟨fun s₁ w s₂ => sourceTokens_append_blanks s₁ s₂,
    fun source source' h => h.contents_eq, fun limits source => ?_⟩
  -- one reader, which knows of no places, stands for the readers of all sources
  cases hread : (Reader.ofTokens (numbered (contents source bindings))).readAll limits with
  | ok t =>
    refine .inl ⟨t, fun source' h => ?_⟩
    rcases parse_numbered limits h.contents_eq with ⟨t', ht', hparse⟩ | ⟨_, _, _, -, hfault, -⟩
    · cases hread.symm.trans ht'
      exact hparse
    · cases hread.symm.trans hfault
  | error fault =>
    refine .inr ⟨fault.cause, fault.cursor, fun source' h => ?_⟩
    rcases parse_numbered limits h.contents_eq with ⟨_, ht', -⟩ | ⟨_, _, token, ht, hfault, hparse⟩
    · cases hread.symm.trans ht'
    · cases hread.symm.trans hfault
      exact ⟨token, ht, hparse⟩

/-- A literal that is broken by blanks is two, of whatever kind the blanks are. -/
theorem parse_respaced_broken :
    (∀ c ∈ " ".toList, isSpace c = true) ∧ (∀ c ∈ "\t\n".toList, isSpace c = true) ∧
      sourceTokens ("1." ++ "\t\n" ++ "5") ([] : List (Symbol Empty Empty)) =
        (sourceTokens "1." []).dropLast ++ (sourceTokens "5" []).map (Token.shift 4) ∧
      parse ⟨1, 4⟩ ("1." ++ " " ++ "5") ([] : List (Symbol Empty Empty)) =
        .error ⟨.trailing (some "5"), 4⟩ ∧
      ∃ cursor, parse ⟨1, 4⟩ ("1." ++ "\t\n" ++ "5") ([] : List (Symbol Empty Empty)) =
        .error ⟨.trailing (some "5"), cursor⟩ := by
  have hspace : ∀ c ∈ " ".toList, isSpace c = true := by simp [isSpace]
  have hblank : ∀ c ∈ "\t\n".toList, isSpace c = true := by simp [isSpace]
  have hfault : parse ⟨1, 4⟩ ("1." ++ " " ++ "5") ([] : List (Symbol Empty Empty)) =
      .error ⟨.trailing (some "5"), 4⟩ := by rfl
  obtain ⟨htokens, -, hparse⟩ := parse_respaced ([] : List (Symbol Empty Empty))
  have hreplaced : Respaced ([] : List (Symbol Empty Empty)) ("1." ++ " " ++ "5")
      ("1." ++ "\t\n" ++ "5") := .replaced (by decide) hspace (by decide) hblank
  refine ⟨hspace, hblank, htokens "1." "\t\n" "5" (by decide) hblank, hfault, ?_⟩
  rcases hparse ⟨1, 4⟩ ("1." ++ " " ++ "5") with ⟨t, hok⟩ | ⟨cause, number, hsame⟩
  · cases hfault.symm.trans (hok _ (.refl _))
  · obtain ⟨token, -, hfirst⟩ := hsame _ (.refl _)
    obtain ⟨token', -, hsecond⟩ := hsame _ hreplaced
    obtain rfl := congrArg ParseFault.cause (Except.error.inj (hfault.symm.trans hfirst))
    exact ⟨token'.stop, hsecond⟩

end ComplexFormula
