import ComplexFormula.Proofs.Parsing.Cut
import ComplexFormula.Proofs.Scanning.Tokens

/-! # Whole sources

A parse begins before all tokens of the source. It accepts, is blocked by a token that no sentence
has at this place, or stops where operands are nested too deep.
-/

namespace ComplexFormula

variable {κ φ : Type}

/-- The lexemes are a sentence that writes `t`, nested `n` deep, and the end after it. -/
def Writes (ws : List (Lexeme κ φ)) (t : Formula κ φ) (n : Nat) : Prop :=
  ∃ w, ws = w ++ [.finish] ∧ Derives .list w t n

/-- The lexemes `p` have been read, and `x` cannot come next. -/
inductive Blocked (p : List (Lexeme κ φ)) (x : Lexeme κ φ) : Prop
  | stuck (phrase : Stuck .list p x)
  | trailing {t : Formula κ φ} {n : Nat} (phrase : Derives .list p t n) (ends : Ends .list x)
      (adheres : ¬ Adheres p x) (other : x ≠ .finish)

def sourceLexemes (source : String) (bindings : List (Symbol κ φ)) : List (Lexeme κ φ) :=
  (sourceTokens source bindings).map Token.lexeme

section

variable {source : String} {bindings : List (Symbol κ φ)}

theorem eq_nil_of_finish {ts us : List (Token κ φ)} {t : Token κ φ}
    (h : sourceTokens source bindings = ts ++ t :: us) (ht : t.lexeme = .finish) : us = [] := by
  obtain ⟨vs, e, hvs, -, -, hne⟩ := sourceTokens_eq source bindings
  rcases List.eq_nil_or_concat us with rfl | ⟨us, u, rfl⟩
  · rfl
  · rw [hvs, List.concat_eq_append, ← List.cons_append, ← List.append_assoc] at h
    obtain ⟨rfl, -⟩ := List.append_inj' h rfl
    exact absurd ht (hne t (by simp))

theorem Writes.unknown_not_mem {ws : List (Lexeme κ φ)} {t : Formula κ φ} {n : Nat}
    (h : Writes ws t n) : .unknown ∉ ws := by
  obtain ⟨w, rfl, h⟩ := h
  simp [h.not_mem_finish_unknown.2]

namespace Reader

variable (source bindings)

theorem tokens_start : (start source bindings).tokens = sourceTokens source bindings := by
  obtain ⟨us, e, h, -⟩ := sourceTokens_eq source bindings
  rw [sourceTokens] at h ⊢
  rw [start]
  split
  · rename_i t ts hts
    exact hts.symm
  · rename_i hts
    exact absurd (hts.symm.trans h) (by simp)

theorem depth_start : (start source bindings).depth = 0 := by
  rw [start]
  split <;> rfl

theorem ordered_start : (start source bindings).Ordered := by
  refine ⟨?_, tokens_start source bindings ▸ sourceTokens_sorted source bindings⟩
  obtain ⟨us, e, h, he, -⟩ := sourceTokens_eq source bindings
  rw [← tokens_start] at h
  simp only [Closed, h, List.getLast_append_of_ne_nil _ (List.cons_ne_nil _ _)]
  exact he

end Reader

open Rule

variable {limits : Limits}

theorem parse_eq : parse limits source bindings =
    (list (power limits.depth limits.room) (Reader.start source bindings)).bind fun (t, r) =>
      if r.current.lexeme.isFinish then .ok t else r.fail (.trailing r.found) := rfl

theorem parse_error {f : ParseFault}
    (h : list (power limits.depth limits.room) (Reader.start source bindings) = .error f) :
    parse limits source bindings = .error f := by
  rw [parse_eq, h]
  rfl

theorem parse_finish {t : Formula κ φ} {r : Reader κ φ}
    (h : list (power limits.depth limits.room) (Reader.start source bindings) = .ok (t, r))
    (hr : r.current.lexeme = .finish) : parse limits source bindings = .ok t := by
  rw [parse_eq, h]
  exact if_pos (Lexeme.isFinish_iff.mpr hr)

theorem parse_trailing {t : Formula κ φ} {r : Reader κ φ}
    (h : list (power limits.depth limits.room) (Reader.start source bindings) = .ok (t, r))
    (hr : r.current.lexeme ≠ .finish) :
    parse limits source bindings = r.fail (.trailing r.found) := by
  rw [parse_eq, h]
  exact if_neg (mt Lexeme.isFinish_iff.mp hr)

end

section

variable (limits : Limits) (source : String) (bindings : List (Symbol κ φ))

/-- What may come of a parse. A fault stands at the end of its token. -/
inductive Verdict : Except ParseFault (Formula κ φ) → Prop
  | accepted {t : Formula κ φ} {n : Nat} (writes : Writes (sourceLexemes source bindings) t n)
      (depth : (n : Int) ≤ limits.depth) : Verdict (.ok t)
  | blocked {us vs : List (Token κ φ)} {x : Token κ φ} {cause : ParseFault.Cause}
      (tokens : sourceTokens source bindings = us ++ x :: vs)
      (proper : ParseFault.isNesting ⟨cause, x.stop⟩ = false)
      (blocked : Blocked (us.map Token.lexeme) x.lexeme) : Verdict (.error ⟨cause, x.stop⟩)
  | deep {us vs : List (Token κ φ)} {x : Token κ φ} {cause : ParseFault.Cause}
      (tokens : sourceTokens source bindings = us ++ x :: vs)
      (exceeds : Exceeds limits.depth limits.room 0 us.length cause) :
      Verdict (.error ⟨cause, x.stop⟩)

theorem parse_verdict : Verdict limits source bindings (parse limits source bindings) := by
  have hout := list_outcome (power_outcome limits.depth limits.room)
    (Reader.start source bindings) (Reader.ordered_start source bindings).closed
  have htokens {ts : List (Token κ φ)} {s : Reader κ φ}
      (h : Reader.start source bindings = s.unread ts) :
      sourceTokens source bindings = ts ++ s.current :: s.rest := by
    rw [← Reader.tokens_start, h, Reader.tokens_unread]
    rfl
  generalize hop : Rule.list (Rule.power limits.depth limits.room) (Reader.start source bindings) =
    o at hout
  cases hout with
  | @ok ts t n s hc hder hdep he ha =>
    rw [List.nil_append] at hder ha
    simp only [Reader.depth_start, Category.ceiling] at hdep
    have hts := htokens hc
    by_cases hx : s.current.lexeme = .finish
    · rw [parse_finish hop hx]
      refine .accepted ⟨ts.map Token.lexeme, ?_, hder⟩ (by omega)
      rw [sourceLexemes, hts, eq_nil_of_finish hts hx, List.map_append, List.map_singleton, hx]
    · rw [parse_trailing hop hx]
      exact .blocked hts rfl (.trailing hder he ha hx)
  | stuck hc hp hs =>
    rw [parse_error hop]
    exact .blocked (htokens hc) hp (.stuck hs)
  | deep hc he =>
    rw [parse_error hop]
    rw [Reader.depth_start] at he
    exact .deep (htokens hc) he

end

section

variable {limits : Limits} {source : String} {bindings : List (Symbol κ φ)} {t : Formula κ φ}
  {n : Nat}

/-- A sentence is accepted, or nested too deep, as its derivation tells. -/
theorem parse_of_writes (h : Writes (sourceLexemes source bindings) t n)
    (hroom : 2 * n ≤ limits.room) :
    ((n : Int) ≤ limits.depth → parse limits source bindings = .ok t) ∧
      (limits.depth < n → ∃ f, parse limits source bindings = .error f ∧ f.isNesting = true) := by
  obtain ⟨w, hw, hder⟩ := h
  obtain ⟨ts, es, hts, hwords, hes⟩ := List.map_eq_append_iff.mp hw
  obtain ⟨e, rfl, he⟩ := List.map_eq_singleton_iff.mp hes
  let r : Reader κ φ := ⟨e, [], 0⟩
  have hstart : Reader.start source bindings = r.unread ts :=
    Reader.ext_tokens (by rw [Reader.tokens_start, hts, Reader.tokens_unread]; rfl)
      (by rw [Reader.depth_start, Reader.depth_unread])
  have hx : r.current.lexeme = .finish := he
  have hreads := hder.reads_finish limits.depth hroom hwords trivial hx
  rw [← hstart] at hreads
  constructor
  · intro hn
    exact parse_finish (hreads.within (by simp only [r, Category.ceiling]; omega)) hx
  · intro hn
    obtain ⟨f, hf, hfn⟩ := hreads.beyond (by simp only [r, Category.ceiling]; omega)
    exact ⟨f, parse_error hf, hfn⟩

/-- A parse under tighter limits is that under laxer ones, or stops earlier with a fault of its
own. -/
theorem parse_cut (P : ParseFault.Cause → Prop) (limits limits' : Limits) (source : String)
    (bindings : List (Symbol κ φ)) (hdepth : limits.depth ≤ limits'.depth)
    (hroom : limits.room ≤ limits'.room)
    (hnesting : limits.depth < limits'.depth → P (.nesting limits.depth))
    (hexhausted : limits.room < limits'.room → P .exhausted) :
    parse limits source bindings = parse limits' source bindings ∨
      ∃ f, parse limits source bindings = .error f ∧ P f.cause ∧
        ∀ g, parse limits' source bindings = .error g → f.cursor ≤ g.cursor := by
  have hcut := (RulesCut.power hdepth hroom hnesting hexhausted).list _
    (Reader.ordered_start source bindings)
  rcases hcut.cut with heq | ⟨f, hf, hP, hon⟩
  · left
    rw [parse_eq, heq, parse_eq]
  · refine .inr ⟨f, parse_error hf, hP, fun g hg => ?_⟩
    rw [parse_eq] at hg
    generalize Rule.list (Rule.power limits'.depth limits'.room) (Reader.start source bindings) =
      o at hg hon
    match o with
    | .error f' =>
      obtain rfl := Except.error.inj hg
      exact hon
    | .ok (t, s) =>
      by_cases hx : s.current.lexeme.isFinish
      · exact nomatch (if_pos hx).symm.trans hg
      · obtain rfl := Except.error.inj ((if_neg hx).symm.trans hg)
        exact hon.2

/-- So many levels, and the room for them, are more than the source can use. -/
def ampleLimits (source : String) (bindings : List (Symbol κ φ)) : Limits :=
  ⟨(sourceTokens source bindings).length, 2 * (sourceTokens source bindings).length⟩

theorem not_isNesting_of_ample (hd : (ampleLimits source bindings).depth ≤ limits.depth)
    (hr : (ampleLimits source bindings).room ≤ limits.room) {f : ParseFault}
    (hf : parse limits source bindings = .error f) : f.isNesting = false := by
  have h := parse_verdict limits source bindings
  rw [hf] at h
  cases h with
  | blocked _ hp => exact hp
  | deep htokens he =>
    simp only [ampleLimits, htokens, List.length_append, List.length_cons] at hd hr
    cases he with
    | nesting h => omega
    | exhausted h => omega

/-- The room has been enough for the operands inside operands. -/
def Unexhausted (limits : Limits) (source : String) (bindings : List (Symbol κ φ)) : Prop :=
  ∀ cursor, parse limits source bindings ≠ .error ⟨.exhausted, cursor⟩

theorem Unexhausted.parse_eq (h : Unexhausted limits source bindings) {room : Nat}
    (hroom : limits.room ≤ room) :
    parse limits source bindings = parse ⟨limits.depth, room⟩ source bindings := by
  rcases parse_cut (· = .exhausted) limits ⟨limits.depth, room⟩ source bindings (Int.le_refl _) hroom
    (fun hlt => absurd hlt (Int.lt_irrefl _)) (fun _ => rfl) with heq | ⟨⟨cause, cursor⟩, hf, rfl, -⟩
  · exact heq
  · exact absurd hf (h cursor)

end

end ComplexFormula
