import Mathlib.Order.Bounds.Basic
import ComplexFormula.Diagnostic
import ComplexFormula.Proofs.Parsing.Acceptance

/-! # Where faults are reported

A fault of the text stands at the first token with which no sentence can go on. What was read before
it can always be completed.
-/

namespace ComplexFormula

variable {κ φ : Type}

def Viable (p : List (Lexeme κ φ)) : Prop :=
  ∃ w t n, Derives .list w t n ∧ p <+: w ++ [.finish]

theorem Viable.mono {p q : List (Lexeme κ φ)} (h : Viable q) (hp : p <+: q) : Viable p := by
  obtain ⟨w, t, n, hder, hq⟩ := h
  exact ⟨w, t, n, hder, hp.trans hq⟩

namespace Blocked

variable {p : List (Lexeme κ φ)} {x : Lexeme κ φ}

theorem completable (h : Blocked p x) : ∃ z t n, Derives .list (p ++ z) t n := by
  cases h with
  | stuck h => exact h.completable
  | trailing h => exact ⟨[], _, _, (List.append_nil p).symm ▸ h⟩

theorem viable (h : Blocked p x) : Viable p := by
  obtain ⟨z, t, n, hder⟩ := h.completable
  exact ⟨p ++ z, t, n, hder, by rw [List.append_assoc]; exact List.prefix_append ..⟩

/-- The reader, which finds every sentence, never passes the lexeme. -/
theorem not_viable (h : Blocked p x) : ¬ Viable (p ++ [x]) := by
  rintro ⟨w, t, n, hder, us, hp⟩
  let last : Reader κ φ := ⟨.ofLexeme .finish, [], 0⟩
  let before : Reader κ φ := ⟨.ofLexeme x, us.map .ofLexeme, 0⟩
  have hsame : last.unread (w.map .ofLexeme) = before.unread (p.map .ofLexeme) := by
    refine Reader.ext_tokens ?_ (by rw [Reader.depth_unread, Reader.depth_unread])
    have hp := congrArg (List.map Token.ofLexeme) hp
    simp only [List.map_append, List.map_cons, List.map_nil, List.append_assoc] at hp
    rw [Reader.tokens_unread, Reader.tokens_unread]
    exact hp.symm
  let limit := max w.length (p.length + 1)
  have hw := hder.nesting_le_length
  have hlast : Rule.ofCategory limit (2 * limit) .list (last.unread (w.map .ofLexeme)) =
      .ok (t, last) :=
    (hder.reads_finish limit (by omega) (Token.map_lexeme_ofLexeme w) trivial rfl).within
      (by simp only [last, Category.ceiling]; omega)
  rw [hsame] at hlast
  cases h with
  | stuck h =>
    obtain ⟨cause, hf⟩ := h.fails limit (2 * limit) (p.map .ofLexeme) before
      (Token.map_lexeme_ofLexeme p) rfl
      (by simp only [before, Category.ceiling, List.length_map]; omega)
      (by simp only [List.length_map]; omega)
    cases hf.symm.trans hlast
  | @trailing t' n' h he ha hx =>
    have hp := h.nesting_le_length
    have hbefore := (h.reads limit (2 * limit) (by omega) (p.map .ofLexeme) before
      (Token.map_lexeme_ofLexeme p) trivial he ha).within
        (by simp only [before, Category.ceiling]; omega)
    have heq := congrArg Prod.snd (Except.ok.inj (hbefore.symm.trans hlast))
    exact hx (congrArg (fun r => r.current.lexeme) heq)

end Blocked

section

variable {limits : Limits} {source : String} {bindings : List (Symbol κ φ)}

theorem ParseFault.kind_eq_nesting_iff {f : ParseFault} :
    f.kind = .nesting ↔ f.isNesting = true := by
  rw [kind]
  split <;> simp_all

theorem ParseFault.kind_eq_malformed_iff {f : ParseFault} :
    f.kind = .malformed ↔ f.isNesting = false := by
  rw [kind]
  split <;> simp_all

theorem ParseFault.one_le_offset (f : ParseFault) : 1 ≤ f.offset :=
  le_max_right ..

theorem blocked_of_parse_error {f : ParseFault} (h : parse limits source bindings = .error f)
    (hf : f.isNesting = false) : ∃ us x vs, sourceTokens source bindings = us ++ x :: vs ∧
      f.cursor = x.stop ∧ Blocked (us.map Token.lexeme) x.lexeme := by
  have hv := parse_verdict limits source bindings
  rw [h] at hv
  cases hv with
  | blocked hts _ hb => exact ⟨_, _, _, hts, rfl, hb⟩
  | deep _ he => exact absurd (he.isNesting _) (by rw [hf]; exact Bool.false_ne_true)

theorem sourceLexemes_eq {us vs : List (Token κ φ)} {x : Token κ φ}
    (hts : sourceTokens source bindings = us ++ x :: vs) :
    sourceLexemes source bindings =
      (us.map Token.lexeme ++ [x.lexeme]) ++ vs.map Token.lexeme := by
  rw [sourceLexemes, hts, List.map_append, List.map_cons, List.append_cons]

theorem not_writes_of_blocked {us vs : List (Token κ φ)} {x : Token κ φ}
    (hts : sourceTokens source bindings = us ++ x :: vs)
    (hb : Blocked (us.map Token.lexeme) x.lexeme) :
    ¬ ∃ t n, Writes (sourceLexemes source bindings) t n := by
  rintro ⟨t, n, w, hw, hder⟩
  refine hb.not_viable ⟨w, t, n, hder, ?_⟩
  rw [← hw, sourceLexemes_eq hts]
  exact List.prefix_append ..

/-- The blocked token is the first one that no sentence has at its place. -/
theorem isLeast_of_blocked {us vs : List (Token κ φ)} {x : Token κ φ}
    (hts : sourceTokens source bindings = us ++ x :: vs)
    (hb : Blocked (us.map Token.lexeme) x.lexeme) :
    IsLeast {k | k < (sourceTokens source bindings).length ∧
      ¬ Viable ((sourceLexemes source bindings).take (k + 1))} us.length := by
  have hlt : us.length < (sourceTokens source bindings).length := by
    rw [hts, List.length_append, List.length_cons]
    omega
  have hfirst : (sourceLexemes source bindings).take (us.length + 1) =
      us.map Token.lexeme ++ [x.lexeme] := by
    rw [sourceLexemes_eq hts]
    exact List.take_left' (by rw [List.length_append, List.length_map, List.length_singleton])
  have hbefore : (sourceLexemes source bindings).take us.length = us.map Token.lexeme := by
    rw [sourceLexemes_eq hts, List.append_assoc]
    exact List.take_left' (List.length_map _)
  refine ⟨⟨hlt, hfirst ▸ hb.not_viable⟩, fun k hk => ?_⟩
  by_contra hlt
  refine hk.2 (hb.viable.mono ?_)
  rw [← hbefore]
  exact List.take_prefix_take_left (by omega)

/-- While operands are not nested too deep, a source is refused if and only if it is no sentence,
at the earliest token that shows it. -/
theorem parse_error_earliest
    (h : ∀ f, parse limits source bindings = .error f → f.kind ≠ .nesting) :
    ((∃ f, parse limits source bindings = .error f ∧ f.kind = .malformed) ↔
        ¬ ∃ w t n, sourceLexemes source bindings = w ++ [.finish] ∧ Derives .list w t n) ∧
      (∃ us e, sourceTokens source bindings = us ++ [e] ∧ e.lexeme = .finish ∧
        e.stop = source.length) ∧
      ∀ f, parse limits source bindings = .error f →
        ∃ k, ∃ hk : k < (sourceTokens source bindings).length,
          IsLeast {k | k < (sourceTokens source bindings).length ∧
            ¬ Viable ((sourceLexemes source bindings).take (k + 1))} k ∧
          f.offset = max 1 ((sourceTokens source bindings)[k].stop : Int) ∧
          1 ≤ f.offset ∧ f.offset ≤ max 1 (source.length : Int) ∧
          ∃ z t n, Derives .list ((sourceLexemes source bindings).take k ++ z) t n := by
  have hproper {f : ParseFault} (hf : parse limits source bindings = .error f) :
      f.isNesting = false :=
    Bool.eq_false_iff.mpr (mt ParseFault.kind_eq_nesting_iff.mpr (h f hf))
  refine ⟨⟨?_, ?_⟩, ?_, ?_⟩
  · rintro ⟨f, hf, -⟩ ⟨w, t, n, hw, hder⟩
    obtain ⟨us, x, vs, hts, -, hb⟩ := blocked_of_parse_error hf (hproper hf)
    exact not_writes_of_blocked hts hb ⟨t, n, w, hw, hder⟩
  · intro hno
    match hp : parse limits source bindings with
    | .ok t =>
      obtain ⟨n, ⟨w, hw, hder⟩, -⟩ := exists_writes_of_parse_ok hp
      exact absurd ⟨w, t, n, hw, hder⟩ hno
    | .error f => exact ⟨f, rfl, ParseFault.kind_eq_malformed_iff.mpr (hproper hp)⟩
  · obtain ⟨us, e, hts, he, hs, -⟩ := sourceTokens_eq source bindings
    exact ⟨us, e, hts, he, hs⟩
  · intro f hf
    obtain ⟨us, x, vs, hts, hcur, hb⟩ := blocked_of_parse_error hf (hproper hf)
    have hk : us.length < (sourceTokens source bindings).length := by rw [hts]; simp
    have hget : (sourceTokens source bindings)[us.length] = x := by simp [hts]
    have hstop := stop_le_length source bindings (hget ▸ List.getElem_mem hk)
    have hoffset : f.offset = max 1 (x.stop : Int) := by
      rw [← hcur]
      exact max_comm ..
    obtain ⟨z, t, n, hder⟩ := hb.completable
    refine ⟨us.length, hk, isLeast_of_blocked hts hb, by rw [hget, hoffset], f.one_le_offset, ?_,
      z, t, n, ?_⟩
    · rw [hoffset]
      omega
    · rw [sourceLexemes_eq hts, List.append_assoc, List.take_left' (List.length_map _)]
      exact hder

/-- One argument for a function of two: the parenthesis that closes the call comes too early. -/
theorem parse_error_earliest_missing_argument :
    (∀ f, parse ⟨100, 328⟩ "pow(x)"
        [.callable (.builtin .pow), (.cell "x" 0 : Symbol Nat Nat)] = .error f →
          f.kind ≠ .nesting) ∧
      ¬ ∃ w t n, sourceLexemes "pow(x)"
          [.callable (.builtin .pow), (.cell "x" 0 : Symbol Nat Nat)] = w ++ [.finish] ∧
        Derives .list w t n := by
  have hparse : parse ⟨100, 328⟩ "pow(x)"
      [.callable (.builtin .pow), (.cell "x" 0 : Symbol Nat Nat)] =
        .error ⟨.argumentCount "pow" 2, 6⟩ := by rfl
  have hkind : ∀ f, parse ⟨100, 328⟩ "pow(x)"
      [.callable (.builtin .pow), (.cell "x" 0 : Symbol Nat Nat)] = .error f →
        f.kind ≠ .nesting := by
    intro f hf
    rw [hparse] at hf
    cases hf
    decide
  exact ⟨hkind, (parse_error_earliest hkind).1.mp ⟨_, hparse, rfl⟩⟩

end

end ComplexFormula
