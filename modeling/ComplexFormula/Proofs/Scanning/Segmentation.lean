import ComplexFormula.Proofs.Scanning.Munch

/-! # Segmentation

A source is cut into tokens in one way: each stands behind blanks and is the lexeme that the rules
allow there. A scanner gives these tokens, one a step, and then the end of the source for ever.
-/

namespace ComplexFormula

variable {κ φ : Type}

/-- The text has nothing but blanks from one place to another. -/
def Blank (text : List Char) (start stop : Nat) : Prop :=
  ∀ i, start ≤ i → i < stop → ∃ c, text[i]? = some c ∧ isSpace c = true

/-- The token is the next one of the text after `place`. -/
structure Token.Follows (bindings : List (Symbol κ φ)) (text : List Char) (place : Nat)
    (t : Token κ φ) : Prop where
  place_le : place ≤ t.start
  start_lt : t.start < t.stop
  stop_le : t.stop ≤ text.length
  blank : Blank text place t.start
  stop_eq : t.stop = t.start + t.text.length
  munch : Munch bindings (text.drop t.start) t.lexeme t.text

/-- The tokens are those of the text after `place`, up to its end. -/
inductive Segments (bindings : List (Symbol κ φ)) (text : List Char) :
    Nat → List (Token κ φ) → Prop
  | finish {place : Nat} (blank : Blank text place text.length) : Segments bindings text place []
  | token {place : Nat} {t : Token κ φ} {ts : List (Token κ φ)}
      (follows : t.Follows bindings text place) (rest : Segments bindings text t.stop ts) :
      Segments bindings text place (t :: ts)

def Token.finish (length : Nat) : Token κ φ :=
  ⟨.finish, length, length, []⟩

section Unique

variable {bindings : List (Symbol κ φ)} {text : List Char}

namespace Token.Follows

variable {place : Nat} {t u : Token κ φ}

theorem start_lt_length (h : t.Follows bindings text place) : t.start < text.length :=
  Nat.lt_of_lt_of_le h.start_lt h.stop_le

theorem le_start_of_blank (h : t.Follows bindings text place) {stop : Nat}
    (hb : Blank text place stop) : stop ≤ t.start := by
  by_contra hlt
  have hin := h.start_lt_length
  obtain ⟨c, hc, hspace⟩ := hb t.start h.place_le (Nat.lt_of_not_le hlt)
  rw [List.getElem?_eq_getElem hin, Option.some.injEq] at hc
  have hm := h.munch
  rw [List.drop_eq_getElem_cons hin] at hm
  rw [← hc, hm.not_isSpace] at hspace
  cases hspace

theorem not_blank (h : t.Follows bindings text place) : ¬ Blank text place text.length :=
  fun hb => Nat.not_le_of_lt h.start_lt_length (h.le_start_of_blank hb)

theorem eq (h : t.Follows bindings text place) (h' : u.Follows bindings text place) : t = u := by
  have hstart := Nat.le_antisymm (h'.le_start_of_blank h.blank) (h.le_start_of_blank h'.blank)
  have hm := h'.munch
  rw [← hstart] at hm
  obtain ⟨rest, hscan⟩ := h.munch.scan_eq
  obtain ⟨rest', hscan'⟩ := hm.scan_eq
  obtain ⟨hx, hw⟩ := Prod.mk.inj (hscan.symm.trans hscan')
  obtain ⟨hw, -⟩ := Prod.mk.inj hw
  have hstop : t.stop = u.stop := by rw [h.stop_eq, h'.stop_eq, hstart, hw]
  obtain ⟨x, start, stop, w⟩ := t
  obtain ⟨x', start', stop', w'⟩ := u
  dsimp only at hx hw hstart hstop
  rw [hx, hw, hstart, hstop]

end Token.Follows

theorem Segments.eq {place : Nat} {ts us : List (Token κ φ)} (h : Segments bindings text place ts)
    (h' : Segments bindings text place us) : ts = us := by
  induction h generalizing us with
  | finish hb =>
    cases h' with
    | finish => rfl
    | token hf => exact absurd hb hf.not_blank
  | token hf _ ih =>
    cases h' with
    | finish hb => exact absurd hb hf.not_blank
    | token hf' hrest =>
      obtain rfl := hf.eq hf'
      rw [ih hrest]

theorem Segments.exists_follows {place : Nat} {ts : List (Token κ φ)}
    (h : Segments bindings text place ts) {t : Token κ φ} (ht : t ∈ ts) :
    ∃ before, t.Follows bindings text before := by
  induction h with
  | finish => cases ht
  | token hf _ ih =>
    rcases List.mem_cons.mp ht with rfl | ht
    · exact ⟨_, hf⟩
    · exact ih ht

theorem Segments.munch_of_mem {place : Nat} {ts : List (Token κ φ)}
    (h : Segments bindings text place ts) {t : Token κ φ} (ht : t ∈ ts) :
    Munch bindings (text.drop t.start) t.lexeme t.text := by
  obtain ⟨_, hf⟩ := h.exists_follows ht
  exact hf.munch

end Unique

namespace Scanner

variable {text : List Char} {s : Scanner κ φ}

/-- The scanner has read the text up to its cursor. -/
structure Within (text : List Char) (s : Scanner κ φ) : Prop where
  rest_eq : s.rest = text.drop s.cursor
  cursor_le : s.cursor ≤ text.length

theorem within_start (source : String) (bindings : List (Symbol κ φ)) :
    (start source bindings).Within source.toList :=
  ⟨rfl, Nat.zero_le _⟩

namespace Within

variable {blanks more : List Char}

theorem length_rest (h : s.Within text) : s.cursor + s.rest.length = text.length := by
  have := h.cursor_le
  rw [h.rest_eq, List.length_drop]
  omega

theorem drop_eq (h : s.Within text) (hrest : s.rest = blanks ++ more) :
    text.drop (s.cursor + blanks.length) = more := by
  rw [← List.drop_drop, ← h.rest_eq, hrest, List.drop_left]

theorem blank (h : s.Within text) (hrest : s.rest = blanks ++ more)
    (hblank : ∀ c ∈ blanks, isSpace c = true) :
    Blank text s.cursor (s.cursor + blanks.length) := by
  intro i hle hlt
  obtain ⟨k, rfl⟩ := Nat.exists_eq_add_of_le hle
  have hk : k < blanks.length := Nat.lt_of_add_lt_add_left hlt
  refine ⟨blanks[k], ?_, hblank _ (List.getElem_mem hk)⟩
  rw [← List.getElem?_drop, ← h.rest_eq, hrest, List.getElem?_append_left hk,
    List.getElem?_eq_getElem hk]

end Within

theorem next_finish (h : s.Within text) (hd : s.rest.dropWhile isSpace = []) :
    s.next = (.finish text.length, ⟨s.bindings, [], text.length⟩) := by
  have htake : s.rest.takeWhile isSpace = s.rest := by
    conv_rhs => rw [← List.takeWhile_append_dropWhile (p := isSpace) (l := s.rest), hd]
    rw [List.append_nil]
  simp only [next, hd, htake, Lexeme.scan_nil, List.length_nil, Nat.add_zero, h.length_rest,
    Token.finish]

theorem next_token (h : s.Within text) (hd : s.rest.dropWhile isSpace ≠ []) :
    s.next.1.Follows s.bindings text s.cursor ∧ s.next.2.Within text ∧
      s.next.2.cursor = s.next.1.stop := by
  obtain ⟨c, cs, hd⟩ := List.exists_cons_of_ne_nil hd
  have hspace : isSpace c = false := by
    have hhead := List.head?_dropWhile_not isSpace s.rest
    rwa [hd] at hhead
  have hrest : s.rest = s.rest.takeWhile isSpace ++ c :: cs := by
    rw [← hd, List.takeWhile_append_dropWhile]
  have hblank := h.blank hrest fun _ hc => List.mem_takeWhile_imp hc
  have hdrop := h.drop_eq hrest
  have hmunch := munch_scan s.bindings cs hspace
  obtain ⟨x, w, rest, hscan, -, hw, hcs⟩ := Lexeme.scan_cons s.bindings c cs
  rw [hscan] at hmunch
  have hpos := List.length_pos_iff.mpr hw
  have hlen := h.length_rest
  rw [hrest, hcs, List.length_append, List.length_append] at hlen
  simp only [next, hd, hscan]
  refine ⟨⟨Nat.le_add_right .., by dsimp only; omega, by dsimp only; omega, hblank, rfl, ?_⟩,
    ⟨?_, by dsimp only; omega⟩, trivial⟩
  · rw [hdrop]
    exact hmunch
  · rw [← List.drop_drop, hdrop, hcs, List.drop_left]

theorem pull_finish (h : s.Within text) (hd : s.rest.dropWhile isSpace = []) (k : Nat) :
    s.pull k = List.replicate k (.finish text.length, text.length) := by
  induction k generalizing s with
  | zero => rfl
  | succ k ih =>
    have hnext : (s.next.2).Within text := by
      rw [next_finish h hd]
      exact ⟨List.drop_length.symm, Nat.le_refl _⟩
    rw [pull, ih hnext (by rw [next_finish h hd]; rfl), next_finish h hd, List.replicate_succ]

/-- The steps of a scanner: the tokens of the text that it has not read, then the end for ever. -/
theorem exists_segments (h : s.Within text) :
    ∃ ts, Segments s.bindings text s.cursor ts ∧ s.cursor + ts.length ≤ text.length ∧
      (∀ k, s.pull k = (ts.take k ++ List.replicate (k - ts.length) (Token.finish text.length)).map
        fun t => (t, t.stop)) ∧
      ∀ k, ts.length < k → s.tokensWithin k = ts ++ [Token.finish text.length] := by
  induction hn : text.length - s.cursor using Nat.strong_induction_on generalizing s with
  | h n ih =>
  by_cases hd : s.rest.dropWhile isSpace = []
  · refine ⟨[], .finish ?_, h.cursor_le, fun k => ?_, fun k hk => ?_⟩
    · have hblank := h.blank (List.append_nil _).symm (List.dropWhile_eq_nil_iff.mp hd)
      rwa [h.length_rest] at hblank
    · rw [pull_finish h hd, List.take_nil, List.nil_append, List.map_replicate]
      rfl
    · obtain ⟨k, rfl⟩ := Nat.exists_eq_succ_of_ne_zero (Nat.ne_of_gt hk)
      rw [tokensWithin, next_finish h hd]
      rfl
  · obtain ⟨hf, hnext, hcursor⟩ := next_token h hd
    have := hf.place_le
    have := hf.start_lt
    have := hf.stop_le
    obtain ⟨ts, hts, hlen, hpull, htokens⟩ := ih (text.length - s.next.2.cursor) (by omega) hnext rfl
    have hmore := mt Lexeme.isFinish_iff.mp hf.munch.ne_finish
    rw [hcursor] at hts
    refine ⟨s.next.1 :: ts, .token hf hts, ?_, fun k => ?_, fun k hk => ?_⟩
    · rw [List.length_cons]
      omega
    · cases k with
      | zero =>
        rw [Nat.zero_sub]
        rfl
      | succ k =>
        rw [pull, hpull k, hcursor, List.take_succ_cons, List.length_cons, Nat.add_sub_add_right,
          List.cons_append, List.map_cons]
    · obtain ⟨k, rfl⟩ := Nat.exists_eq_succ_of_ne_zero (Nat.ne_of_gt (Nat.zero_lt_of_lt hk))
      rw [tokensWithin, htokens k (Nat.lt_of_succ_lt_succ hk), if_neg hmore, List.cons_append]

end Scanner

theorem throughFirst_concat {α : Type} (p : α → Bool) (l : List α) (e : α) :
    ∃ us t, throughFirst p (l ++ [e]) = us ++ [t] ∧ (∀ u ∈ us, u ∈ l ∧ p u = false) ∧
      (p t = true ∧ us ++ [t] <+: l ∨ t = e ∧ us = l) := by
  induction l with
  | nil =>
    refine ⟨[], e, ?_, List.forall_mem_nil _, .inr ⟨rfl, rfl⟩⟩
    rw [List.nil_append, throughFirst]
    split <;> rfl
  | cons x l ih =>
    obtain ⟨us, t, heq, hus, hlast⟩ := ih
    rw [List.cons_append, throughFirst]
    by_cases hx : p x = true
    · rw [if_pos hx]
      exact ⟨[], x, rfl, List.forall_mem_nil _, .inl ⟨hx, l, rfl⟩⟩
    · rw [if_neg hx]
      refine ⟨x :: us, t, by rw [heq, List.cons_append], ?_, ?_⟩
      · intro u hu
        rcases List.mem_cons.mp hu with rfl | hu
        · exact ⟨List.mem_cons_self, Bool.eq_false_iff.mpr hx⟩
        · exact ⟨List.mem_cons_of_mem x (hus u hu).1, (hus u hu).2⟩
      · rcases hlast with ⟨ht, hp⟩ | ⟨ht, rfl⟩
        · exact .inl ⟨ht, List.cons_prefix_cons.mpr ⟨rfl, hp⟩⟩
        · exact .inr ⟨ht, rfl⟩

theorem sourceTokens_segments (source : String) (bindings : List (Symbol κ φ)) :
    ∃ ts : List (Token κ φ), Segments bindings source.toList 0 ts ∧ ts.length ≤ source.length ∧
      sourceTokens source bindings = ts ++ [Token.finish source.length] ∧
      ∀ k, (Scanner.start source bindings).pull k =
        (ts.take k ++ List.replicate (k - ts.length) (Token.finish source.length)).map
          fun t => (t, t.stop) := by
  have hlength : source.toList.length = source.length := String.length_toList
  obtain ⟨ts, hts, hlen, hpull, htokens⟩ :=
    Scanner.exists_segments (Scanner.within_start source bindings)
  rw [hlength] at hlen hpull htokens
  have hlen : ts.length ≤ source.length := Nat.le_trans (Nat.le_add_left ..) hlen
  refine ⟨ts, hts, hlen, htokens _ ?_, hpull⟩
  rw [Scanner.start, hlength]
  exact Nat.lt_succ_of_le hlen

/-- Scanning cuts a source into tokens in the one way that the rules allow. After them it gives the
end for ever; the tokens of a whole source stop there or at the first unknown lexeme. -/
theorem scan_segments (source : String) (bindings : List (Symbol κ φ)) :
    ∃ ts : List (Token κ φ), Segments bindings source.toList 0 ts ∧
      (∀ us, Segments bindings source.toList 0 us → us = ts) ∧ ts.length ≤ source.length ∧
      (∀ k, (Scanner.start source bindings).pull k =
        (ts.take k ++ List.replicate (k - ts.length) (Token.finish source.length)).map
          fun t => (t, t.stop)) ∧
      ∃ us t, tokenize source bindings = us ++ [t] ∧
        us ++ [t] <+: ts ++ [Token.finish source.length] ∧
        (t.lexeme = .finish ∨ t.lexeme = .unknown) ∧
        ∀ u ∈ us, u.lexeme ≠ .finish ∧ u.lexeme ≠ .unknown := by
  obtain ⟨ts, hts, hlen, hall, hpull⟩ := sourceTokens_segments source bindings
  refine ⟨ts, hts, fun us hus => hus.eq hts, hlen, hpull, ?_⟩
  obtain ⟨us, t, heq, hus, hlast⟩ :=
    throughFirst_concat (fun u : Token κ φ => u.lexeme.isUnknown) ts (Token.finish source.length)
  refine ⟨us, t, by rw [tokenize, ← sourceTokens, hall, heq], ?_, ?_, fun u hu =>
    ⟨(hts.munch_of_mem (hus u hu).1).ne_finish, ?_⟩⟩
  · rcases hlast with ⟨-, hp⟩ | ⟨rfl, rfl⟩
    · exact hp.trans (List.prefix_append ..)
    · exact List.prefix_rfl
  · rcases hlast with ⟨ht, -⟩ | ⟨rfl, -⟩
    · exact .inr (Lexeme.isUnknown_iff.mp ht)
    · exact .inl rfl
  · intro hx
    have := (hus u hu).2
    rw [Lexeme.isUnknown_iff.mpr hx] at this
    cases this

end ComplexFormula
