import ComplexFormula.Proofs.Parsing.Boundary

/-! # Putting tokens back

What a rule has consumed is told by putting it back: `r.unread ts` stands before the tokens `ts`
with `r` after them. Facts on rules are equations between a reader before and a reader after.
-/

namespace ComplexFormula

/-- A token at no place, for when only the lexeme counts. -/
def Token.ofLexeme {κ φ : Type} (x : Lexeme κ φ) : Token κ φ := ⟨x, 0, 0, []⟩

theorem Token.map_lexeme_ofLexeme {κ φ : Type} (ws : List (Lexeme κ φ)) :
    (ws.map ofLexeme).map lexeme = ws := by
  rw [List.map_map]
  exact List.map_id ws

namespace Reader

variable {κ φ : Type}

def tokens (r : Reader κ φ) : List (Token κ φ) :=
  r.current :: r.rest

def unread : List (Token κ φ) → Reader κ φ → Reader κ φ
  | [], r => r
  | t :: ts, r => ⟨t, ts ++ r.tokens, r.depth⟩

def Closed (r : Reader κ φ) : Prop :=
  (r.tokens.getLast (List.cons_ne_nil _ _)).lexeme = .finish

section

variable (r : Reader κ φ) (t : Token κ φ) (ts us : List (Token κ φ))

@[simp] theorem unread_nil : r.unread [] = r := rfl

@[simp] theorem current_unread_cons : (r.unread (t :: ts)).current = t := rfl

@[simp] theorem tokens_unread : (r.unread ts).tokens = ts ++ r.tokens := by
  cases ts <;> rfl

@[simp] theorem depth_unread : (r.unread ts).depth = r.depth := by
  cases ts <;> rfl

theorem ext_tokens {r s : Reader κ φ} (ht : r.tokens = s.tokens) (hd : r.depth = s.depth) :
    r = s := by
  cases r
  cases s
  obtain ⟨rfl, rfl⟩ := List.cons.inj ht
  obtain rfl := hd
  rfl

theorem unread_append : r.unread (ts ++ us) = (r.unread us).unread ts :=
  ext_tokens (by simp) (by simp)

@[simp] theorem advance_unread_cons : (r.unread (t :: ts)).advance = r.unread ts := by
  cases ts <;> rfl

@[simp] theorem depth_advance : r.advance.depth = r.depth := by
  rw [advance]
  split <;> rfl

theorem rest_unread_cons : (r.unread (t :: ts)).rest = (r.unread ts).tokens := by
  cases ts <;> rfl

theorem length_rest_unread : (r.unread ts).rest.length = ts.length + r.rest.length := by
  have h := congrArg List.length (tokens_unread r ts)
  simp only [tokens, List.length_append, List.length_cons] at h
  omega

/-- Rules change the depth of a reader and no more. -/
theorem unread_atDepth (d : Nat) :
    (⟨(r.unread ts).current, (r.unread ts).rest, d⟩ : Reader κ φ) =
      (⟨r.current, r.rest, d⟩ : Reader κ φ).unread ts := by
  cases ts <;> rfl

@[simp] theorem closed_unread : (r.unread ts).Closed ↔ r.Closed := by
  have h : r.tokens ≠ [] := List.cons_ne_nil _ _
  simp only [Closed, tokens_unread, List.getLast_append_of_ne_nil _ h]

end

theorem Closed.eq_unread {r : Reader κ φ} (h : r.Closed) (hx : r.current.lexeme ≠ .finish) :
    r = r.advance.unread [r.current] := by
  obtain ⟨t, ts, d⟩ := r
  cases ts with
  | nil => exact absurd h hx
  | cons u us => rfl

theorem Closed.advance {r : Reader κ φ} (h : r.Closed) : r.advance.Closed := by
  obtain ⟨t, ts, d⟩ := r
  cases ts with
  | nil => exact h
  | cons u us => simpa [Closed, tokens, Reader.advance] using h

section Closed

variable {r s : Reader κ φ} {ts : List (Token κ φ)}

theorem Closed.eq_unread_cons (h : r.Closed) (hx : r.current.lexeme ≠ .finish)
    (hs : r.advance = s.unread ts) : r = s.unread (r.current :: ts) := by
  conv_lhs => rw [h.eq_unread hx, hs, ← unread_append]
  rfl

theorem Closed.eq_unread_concat (h : r.Closed) (hs : r = s.unread ts)
    (hx : s.current.lexeme ≠ .finish) : r = s.advance.unread (ts ++ [s.current]) := by
  rw [hs, closed_unread] at h
  rw [unread_append, ← h.eq_unread hx, hs]

end Closed

section Signs

variable {r : Reader κ φ} {ts : List (Token κ φ)} {signs : List Sign}

theorem passSigns_unread (negative : Bool) (hs : ts.map Token.lexeme = signs.map Sign.lexeme)
    (hx : ∀ s : Sign, r.current.lexeme ≠ s.lexeme) :
    passSigns negative (r.unread ts).current (r.unread ts).rest =
      (negative ^^ decide (Odd (signs.count .minus)), r.current, r.rest) := by
  induction ts generalizing negative signs with
  | nil =>
    obtain rfl : signs = [] := by simpa using hs.symm
    cases hr : r.rest with
    | nil => simp [passSigns, hr]
    | cons u us =>
      have hplus := hx .plus
      have hminus := hx .minus
      simp only [unread_nil, hr, passSigns]
      split
      · exact absurd ‹_› hplus
      · exact absurd ‹_› hminus
      · simp
  | cons t ts ih =>
    cases signs with
    | nil => cases hs
    | cons s signs =>
      obtain ⟨ht, hts⟩ := List.cons.inj hs
      rw [current_unread_cons, rest_unread_cons, tokens]
      cases s with
      | plus =>
        rw [passSigns, show t.lexeme = .operator .add from ht]
        simpa using ih negative hts
      | minus =>
        rw [passSigns, show t.lexeme = .operator .sub from ht]
        refine (ih (!negative) hts).trans ?_
        simp only [List.count_cons_self, Nat.odd_add_one]
        by_cases ho : Odd (signs.count .minus) <;> simp [ho]

/-- Passing a run of signs finds out whether it negates. -/
theorem signs_unread (hs : ts.map Token.lexeme = signs.map Sign.lexeme)
    (hx : ∀ s : Sign, r.current.lexeme ≠ s.lexeme) :
    (r.unread ts).signs = (decide (Odd (signs.count .minus)), r) := by
  simp [Reader.signs, passSigns_unread false hs hx]

/-- Every reader stands before a run of signs, which may be empty. -/
theorem Closed.exists_signs (h : r.Closed) :
    ∃ (ts : List (Token κ φ)) (signs : List Sign) (s : Reader κ φ), r = s.unread ts ∧
      ts.map Token.lexeme = signs.map Sign.lexeme ∧ ∀ sign : Sign, s.current.lexeme ≠ sign.lexeme := by
  induction hn : r.rest.length generalizing r with
  | zero =>
    refine ⟨[], [], r, rfl, rfl, fun sign he => ?_⟩
    have hne : r.current.lexeme ≠ .finish := by rw [he]; cases sign <;> exact nofun
    have hl := congrArg (fun s => s.rest.length) (h.eq_unread hne)
    simp only [length_rest_unread, List.length_singleton, hn] at hl
    omega
  | succ n ih =>
    by_cases hs : ∃ sign : Sign, r.current.lexeme = sign.lexeme
    · obtain ⟨sign, hs⟩ := hs
      have hne : r.current.lexeme ≠ .finish := by rw [hs]; cases sign <;> exact nofun
      have hr := h.eq_unread hne
      have hl := congrArg (fun s => s.rest.length) hr
      simp only [length_rest_unread, List.length_singleton, hn] at hl
      obtain ⟨ts, signs, s, he, hts, hx⟩ := ih h.advance (by omega)
      refine ⟨r.current :: ts, sign :: signs, s, ?_, ?_, hx⟩
      · rw [hr, he, ← unread_append]
        rfl
      · rw [List.map_cons, List.map_cons, hs, hts]
    · exact ⟨[], [], r, rfl, rfl, fun sign he => hs ⟨sign, he⟩⟩

end Signs

end Reader

end ComplexFormula
