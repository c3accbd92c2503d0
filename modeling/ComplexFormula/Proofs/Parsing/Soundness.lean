import ComplexFormula.Proofs.Parsing.Stuck

/-! # What comes of a rule

Every rule, before any tokens that close with the end of the source, either consumes a phrase of its
category, or stops at a token where reading is stuck, or stops where operands are nested too deep.
The tokens consumed before a stop are the same in all three cases: those put back.
-/

namespace ComplexFormula

variable {κ φ : Type}

/-- Why operands may be nested too deep, once so many tokens have been passed. -/
inductive Exceeds (ceiling : Int) (room depth passed : Nat) : ParseFault.Cause → Prop
  | nesting {limit : Int} (h : ceiling < depth + passed + 1) :
      Exceeds ceiling room depth passed (.nesting limit)
  | exhausted (h : room < 2 * (passed + 1)) : Exceeds ceiling room depth passed .exhausted

/-- What is too deep somewhere is so from further out, with the tokens on the way passed before. -/
theorem Exceeds.shift {ceiling ceiling' : Int} {room room' depth depth' passed passed' : Nat}
    {cause : ParseFault.Cause} (h : Exceeds ceiling room depth passed cause)
    (hdepth : ceiling' + depth + passed ≤ ceiling + depth' + passed')
    (hroom : room' + 2 * passed ≤ room + 2 * passed') :
    Exceeds ceiling' room' depth' passed' cause := by
  cases h with
  | nesting h => exact .nesting (by omega)
  | exhausted h => exact .exhausted (by omega)

theorem Exceeds.isNesting {ceiling : Int} {room depth passed : Nat} {cause : ParseFault.Cause}
    (h : Exceeds ceiling room depth passed cause) (cursor : Nat) :
    ParseFault.isNesting ⟨cause, cursor⟩ = true := by
  cases h <;> rfl

/-- What may come of reading a phrase, of which the tokens `us` have been read before. -/
inductive Outcome (limit : Int) (room : Nat) (c : Category) (us : List (Token κ φ))
    (r : Reader κ φ) : Except ParseFault (Formula κ φ × Reader κ φ) → Prop
  | ok {ts : List (Token κ φ)} {t : Formula κ φ} {n : Nat} {s : Reader κ φ}
      (consumed : r = s.unread ts) (derives : Derives c ((us ++ ts).map Token.lexeme) t n)
      (depth : (r.depth + n : Int) ≤ c.ceiling limit) (ends : Ends c s.current.lexeme)
      (adheres : ¬ Adheres ((us ++ ts).map Token.lexeme) s.current.lexeme) :
      Outcome limit room c us r (.ok (t, s))
  | stuck {ts : List (Token κ φ)} {s : Reader κ φ} {cause : ParseFault.Cause}
      (consumed : r = s.unread ts)
      (proper : ParseFault.isNesting ⟨cause, s.current.stop⟩ = false)
      (stuck : Stuck c ((us ++ ts).map Token.lexeme) s.current.lexeme) :
      Outcome limit room c us r (.error ⟨cause, s.current.stop⟩)
  | deep {ts : List (Token κ φ)} {s : Reader κ φ} {cause : ParseFault.Cause}
      (consumed : r = s.unread ts)
      (exceeds : Exceeds (c.ceiling limit) room r.depth (us ++ ts).length cause) :
      Outcome limit room c us r (.error ⟨cause, s.current.stop⟩)

open Rule

variable {limit : Int} {room : Nat} {c d : Category}

theorem Outcome.unread {us vs : List (Token κ φ)} {r s : Reader κ φ}
    {o : Except ParseFault (Formula κ φ × Reader κ φ)} (hr : r = s.unread vs)
    (h : Outcome limit room c (us ++ vs) s o) : Outcome limit room c us r o := by
  have hd : r.depth = s.depth := by rw [hr, Reader.depth_unread]
  cases h with
  | @ok ts t n s' hc hder hdep he ha =>
    rw [List.append_assoc] at hder ha
    exact .ok (by rw [hr, hc, Reader.unread_append]) hder (hd ▸ hdep) he ha
  | @stuck ts s' cause hc hp hs =>
    rw [List.append_assoc] at hs
    exact .stuck (by rw [hr, hc, Reader.unread_append]) hp hs
  | @deep ts s' cause hc he =>
    rw [List.append_assoc] at he
    exact .deep (by rw [hr, hc, Reader.unread_append]) (hd ▸ he)

section Chain

variable {operand : Rule κ φ} {us : List (Token κ φ)} {left : Formula κ φ} {m : Nat}
  {r : Reader κ φ}

theorem chainFrom_outcome_ended (hd : c.operand? = some d) {budget : List (Token κ φ)}
    (hder : Derives c (us.map Token.lexeme) left m) (hdep : (r.depth + m : Int) ≤ limit)
    (he : Ends d r.current.lexeme) (ha : ¬ Adheres (us.map Token.lexeme) r.current.lexeme)
    (hx : ∀ op, ¬ Joins c r.current.lexeme op) :
    Outcome limit room c us r (chainFrom c.joins operand budget left r) := by
  have hends := he.of_not_joins hd hx
  rw [chainFrom_ended (Category.joins_eq_none hends)]
  exact .ok (Reader.unread_nil r).symm (by rwa [List.append_nil])
    (by rwa [(Category.ceiling_of_operand hd limit).1]) hends (by rwa [List.append_nil])

theorem chainFrom_outcome (hd : c.operand? = some d)
    (ho : ∀ r : Reader κ φ, r.Closed → Outcome limit room d [] r (operand r))
    {budget : List (Token κ φ)} (hr : r.Closed) (hlen : r.rest.length ≤ budget.length)
    (hder : Derives c (us.map Token.lexeme) left m) (hdep : (r.depth + m : Int) ≤ limit)
    (he : Ends d r.current.lexeme) (ha : ¬ Adheres (us.map Token.lexeme) r.current.lexeme) :
    Outcome limit room c us r (chainFrom c.joins operand budget left r) := by
  have hceil := Category.ceiling_of_operand hd limit
  induction budget generalizing us left m r with
  | nil =>
    refine chainFrom_outcome_ended hd hder hdep he ha fun op hx => ?_
    have hlast := congrArg (fun s => s.rest.length) (hr.eq_unread hx.ne_finish)
    simp only [Reader.length_rest_unread, List.length_singleton, List.length_nil] at hlast hlen
    omega
  | cons b budget ih =>
    by_cases hx : ∃ op, Joins c r.current.lexeme op
    · obtain ⟨op, hx⟩ := hx
      have hjoin := Category.joins_eq_some_iff.mpr hx
      have hclosed := hr.advance
      have hdepth : r.advance.depth = r.depth := Reader.depth_advance r
      have hout := ho r.advance hclosed
      generalize hop : operand r.advance = o at hout
      cases hout with
      | @ok ts t n s hc hder' hdep' he' ha' =>
        have hrs := hr.eq_unread_cons hx.ne_finish hc
        have hsd : s.depth = r.advance.depth := by rw [hc, Reader.depth_unread]
        rw [hc, Reader.closed_unread] at hclosed
        rw [hceil.2] at hdep'
        rw [hrs, Reader.length_rest_unread, List.length_cons, List.length_cons] at hlen
        have hnew := Derives.join hd hx hder hder'
        rw [List.nil_append, ← List.map_cons, ← List.map_append] at hnew
        rw [chainFrom_ok hjoin hop]
        refine Outcome.unread hrs (ih hclosed (by omega) hnew (by omega) he' ?_)
        rw [List.nil_append] at ha' hder'
        rwa [List.map_append, List.map_cons,
          adheres_append_iff (List.cons_ne_nil _ _), adheres_cons_iff hder'.ne_nil]
      | @stuck ts s cause hc hp hs =>
        rw [chainFrom_error hjoin hop]
        refine .stuck (hr.eq_unread_cons hx.ne_finish hc) hp ?_
        rw [List.map_append]
        exact .join hd hx hder hs
      | @deep ts s cause hc hexc =>
        rw [chainFrom_error hjoin hop]
        refine .deep (hr.eq_unread_cons hx.ne_finish hc) ?_
        rw [hceil.2, hdepth] at hexc
        rw [hceil.1]
        simp only [List.length_append, List.length_nil, List.length_cons] at hexc ⊢
        exact hexc.shift (by omega) (by omega)
    · exact chainFrom_outcome_ended hd hder hdep he ha fun op h => hx ⟨op, h⟩

theorem chain_outcome (hd : c.operand? = some d)
    (ho : ∀ r : Reader κ φ, r.Closed → Outcome limit room d [] r (operand r)) (hr : r.Closed) :
    Outcome limit room c [] r (chain c.joins operand r) := by
  have hceil := Category.ceiling_of_operand hd limit
  have hout := ho r hr
  generalize hop : operand r = o at hout
  cases hout with
  | @ok ts t n s hc hder hdep he ha =>
    have hsd : s.depth = r.depth := by rw [hc, Reader.depth_unread]
    rw [chain_ok hop]
    rw [hceil.2] at hdep
    refine Outcome.unread hc (chainFrom_outcome hd ho ?_ le_rfl (.single hd hder) (by omega) he ha)
    rwa [hc, Reader.closed_unread] at hr
  | stuck hc hp hs =>
    rw [chain_error hop]
    exact .stuck hc hp (.operand hd hs)
  | deep hc hexc =>
    rw [chain_error hop]
    exact .deep hc (by rwa [hceil.1, ← hceil.2])

end Chain

section Arguments

/-- What may come of reading at most `k` arguments, each after a token of its own. -/
inductive ArgumentsOutcome (limit : Int) (room k : Nat) (r : Reader κ φ) :
    Except ParseFault (List (Formula κ φ) × Reader κ φ) → Prop
  | ok (front : List (Phrase κ φ)) (last : Phrase κ φ) {ts : List (Token κ φ)} {s : Reader κ φ}
      (consumed : r.advance = s.unread ts)
      (words : ts.map Token.lexeme = Phrase.separated front ++ last.words)
      (derives : ∀ p ∈ front ++ [last], Derives .sum p.words p.tree p.nesting)
      (depth : (r.depth + Phrase.deepest (front ++ [last]) : Int) ≤ limit)
      (count : front.length + 1 ≤ k) (ends : Ends .sum s.current.lexeme)
      (adheres : ¬ Adheres last.words s.current.lexeme)
      (separator : s.current.lexeme ≠ .separator ∨ front.length + 1 = k) :
      ArgumentsOutcome limit room k r (.ok ((front ++ [last]).map Phrase.tree, s))
  | stuck (front : List (Phrase κ φ)) {ts : List (Token κ φ)} {w : List (Lexeme κ φ)}
      {s : Reader κ φ} {cause : ParseFault.Cause} (consumed : r.advance = s.unread ts)
      (words : ts.map Token.lexeme = Phrase.separated front ++ w)
      (derives : ∀ p ∈ front, Derives .sum p.words p.tree p.nesting)
      (count : front.length + 1 ≤ k)
      (proper : ParseFault.isNesting ⟨cause, s.current.stop⟩ = false)
      (stuck : Stuck .sum w s.current.lexeme) :
      ArgumentsOutcome limit room k r (.error ⟨cause, s.current.stop⟩)
  | deep {ts : List (Token κ φ)} {s : Reader κ φ} {cause : ParseFault.Cause}
      (consumed : r.advance = s.unread ts) (exceeds : Exceeds limit room r.depth ts.length cause) :
      ArgumentsOutcome limit room k r (.error ⟨cause, s.current.stop⟩)

theorem ArgumentsOutcome.cons {k : Nat} {r s : Reader κ φ} {ts : List (Token κ φ)} {t : Formula κ φ}
    {n : Nat} {o : Except ParseFault (List (Formula κ φ) × Reader κ φ)} (hclosed : s.Closed)
    (hs : s.current.lexeme = .separator) (hc : r.advance = s.unread ts)
    (hder : Derives .sum (ts.map Token.lexeme) t n) (hdep : (r.depth + n : Int) ≤ limit)
    (h : ArgumentsOutcome limit room k s o) :
    ArgumentsOutcome limit room (k + 1) r (o.bind fun (ts, r) => .ok (t :: ts, r)) := by
  have hne : s.current.lexeme ≠ .finish := by rw [hs]; exact nofun
  have hsd : s.depth = r.depth := by rw [← r.depth_advance, hc, Reader.depth_unread]
  have hback {ts' : List (Token κ φ)} {s' : Reader κ φ} (h : s.advance = s'.unread ts') :
      r.advance = s'.unread (ts ++ s.current :: ts') := by
    rw [hc, s'.unread_append, ← hclosed.eq_unread_cons hne h]
  have hwords {ts' : List (Token κ φ)} {ps : List (Phrase κ φ)} {w : List (Lexeme κ φ)}
      (h : ts'.map Token.lexeme = Phrase.separated ps ++ w) :
      (ts ++ s.current :: ts').map Token.lexeme =
        Phrase.separated (⟨ts.map Token.lexeme, t, n⟩ :: ps) ++ w := by
    rw [List.map_append, List.map_cons, h, hs, Phrase.separated_cons, List.append_assoc]
    rfl
  have hall {ps : List (Phrase κ φ)} (h : ∀ p ∈ ps, Derives .sum p.words p.tree p.nesting) :
      ∀ p ∈ (⟨ts.map Token.lexeme, t, n⟩ :: ps : List (Phrase κ φ)),
        Derives .sum p.words p.tree p.nesting := by
    rintro p (_ | ⟨_, hp⟩)
    · exact hder
    · exact h p hp
  cases h with
  | ok front last hc' hw hder' hdep' hcount he' ha' hsep =>
    refine .ok (⟨ts.map Token.lexeme, t, n⟩ :: front) last (hback hc') (hwords hw) (hall hder') ?_
      (Nat.succ_le_succ hcount) he' ha' (hsep.imp_right (congrArg (· + 1)))
    simp only [List.cons_append, Phrase.deepest]
    omega
  | stuck front hc' hw hder' hcount hp hst =>
    exact .stuck (⟨ts.map Token.lexeme, t, n⟩ :: front) (hback hc') (hwords hw) (hall hder')
      (Nat.succ_le_succ hcount) hp hst
  | deep hc' hexc =>
    refine .deep (hback hc') ?_
    rw [hsd] at hexc
    simp only [List.length_append, List.length_cons]
    exact hexc.shift (by omega) (by omega)

theorem arguments_outcome {argument : Rule κ φ}
    (ho : ∀ r : Reader κ φ, r.Closed → Outcome limit room .sum [] r (argument r)) {k : Nat}
    (hk : k ≠ 0) {r : Reader κ φ} (hr : r.Closed) :
    ArgumentsOutcome limit room k r (arguments argument k r) := by
  induction k generalizing r with
  | zero => exact absurd rfl hk
  | succ k ih =>
    have hclosed := hr.advance
    have hout := ho r.advance hclosed
    generalize hop : argument r.advance = o at hout
    cases hout with
    | @ok ts t n s hc hder hdep he ha =>
      rw [List.nil_append] at hder ha
      simp only [Category.ceiling, Reader.depth_advance] at hdep
      by_cases hmore : s.current.lexeme = .separator ∧ k ≠ 0
      · rw [hc, Reader.closed_unread] at hclosed
        rw [arguments_more hop hmore.1 hmore.2]
        exact .cons hclosed hmore.1 hc hder hdep (ih hmore.2 hclosed)
      · have hstop : s.current.lexeme ≠ .separator ∨ k = 0 :=
          (not_and_or.mp hmore).imp_right not_not.mp
        rw [arguments_last hop hstop]
        refine .ok [] ⟨ts.map Token.lexeme, t, n⟩ hc rfl
          (fun p hp => List.mem_singleton.mp hp ▸ hder) ?_ (Nat.le_add_left 1 k) he ha ?_
        · simp only [List.nil_append, Phrase.deepest]
          omega
        · exact hstop.imp_right fun hk => by rw [hk]; rfl
    | stuck hc hp hs =>
      rw [arguments_error hop]
      exact .stuck [] hc rfl (List.forall_mem_nil _) (Nat.le_add_left 1 k) hp hs
    | deep hc hexc =>
      rw [arguments_error hop]
      rw [Reader.depth_advance] at hexc
      exact .deep hc hexc

end Arguments

section Base

variable {operand nested : Rule κ φ} {callee : Callee κ φ} {y : Token κ φ} {r : Reader κ φ}

theorem sum_outcome (h : ∀ r : Reader κ φ, r.Closed → Outcome limit room .power [] r (nested r))
    (r : Reader κ φ) (hr : r.Closed) : Outcome limit room .sum [] r (sum nested r) :=
  chain_outcome (c := .sum) rfl (fun _ hr => chain_outcome (c := .product) rfl
    (fun _ hr => chain_outcome (c := .factor) rfl h hr) hr) hr

theorem list_outcome (h : ∀ r : Reader κ φ, r.Closed → Outcome limit room .power [] r (nested r))
    (r : Reader κ φ) (hr : r.Closed) : Outcome limit room .list [] r (list nested r) :=
  chain_outcome (c := .list) rfl (sum_outcome h) hr

theorem call_name_outcome (hr : r.Closed) (hd : (r.depth : Int) ≤ limit)
    (hy : y.lexeme = .symbol (.callable callee)) (harity : callee.arity = 0) :
    Outcome limit room .base [y] r (call operand nested callee r) := by
  by_cases hx : r.current.lexeme = .opening
  · have hne : r.current.lexeme ≠ .finish := by rw [hx]; exact nofun
    have hcons := hr.eq_unread hne
    by_cases hz : r.advance.current.lexeme = .closing
    · have hne' : r.advance.current.lexeme ≠ .finish := by rw [hz]; exact nofun
      have hcons' := hr.eq_unread_concat hcons hne'
      have hwords : ([y] ++ ([r.current] ++ [r.advance.current])).map Token.lexeme =
          [.symbol (.callable callee), .opening, .closing] := by simp [hy, hx, hz]
      rw [call_empty harity hx hz]
      refine .ok (n := 1) hcons' ?_ ?_ (ends_base _) ?_
      · rw [hwords]
        exact .emptyCall harity
      · simp only [Category.ceiling]
        omega
      · rw [hwords]
        exact not_adheres_closing (u := [_, _])
    · rw [call_unclosed harity hx hz]
      refine .stuck hcons rfl ?_
      simpa [hy, hx] using Stuck.emptyCall harity hz
  · rw [call_name harity hx]
    refine .ok (n := 1) (Reader.unread_nil r).symm ?_ ?_ (ends_base _) ?_
    · simpa [hy] using Derives.name harity
    · simp only [Category.ceiling]
      omega
    · simpa [hy] using fun h => hx (adheres_name_iff.mp h).1

theorem call_operand_outcome
    (ho : ∀ r : Reader κ φ, r.Closed → Outcome limit (room + 1) .power [] r (operand r))
    (hr : r.Closed) (hy : y.lexeme = .symbol (.callable callee)) (harity : callee.arity = 1) :
    Outcome limit (room + 2) .base [y] r (call operand nested callee r) := by
  have hout := ho r hr
  rw [call_operand harity]
  generalize operand r = o at hout
  cases hout with
  | @ok ts t n s hc hder hdep he ha =>
    rw [List.nil_append] at hder ha
    refine .ok (n := n + 1) hc ?_ ?_ (ends_base _) ?_
    · simpa [hy] using Derives.application harity hder
    · simp only [Category.ceiling] at hdep ⊢
      omega
    · rwa [List.map_append, adheres_append_iff hder.ne_nil]
  | stuck hc hp hs =>
    refine .stuck hc hp ?_
    simpa [hy] using Stuck.application harity hs
  | deep hc hexc =>
    refine .deep hc ?_
    simp only [Category.ceiling, List.length_append, List.length_cons, List.length_nil] at hexc ⊢
    exact hexc.shift (by omega) (by omega)

theorem call_arguments_outcome
    (hn : ∀ r : Reader κ φ, r.Closed → Outcome limit room .power [] r (nested r))
    (hr : r.Closed) (hy : y.lexeme = .symbol (.callable callee)) (two_le : 2 ≤ callee.arity) :
    Outcome limit (room + 2) .base [y] r (call operand nested callee r) := by
  by_cases hx : r.current.lexeme = .opening
  · have hne : r.current.lexeme ≠ .finish := by rw [hx]; exact nofun
    have hout := arguments_outcome (sum_outcome hn) (k := callee.arity) (by omega) hr
    generalize hop : arguments (sum nested) callee.arity r = o at hout
    cases hout with
    | @ok front last ts s hc hw hder hdep hcount he ha hsep =>
      rw [call_ok two_le hx hop]
      have hlen : ((front ++ [last]).map Phrase.tree).length = front.length + 1 := by simp
      by_cases hclose : s.current.lexeme = .closing ∧ front.length + 1 = callee.arity
      · have hwords : ([y] ++ (r.current :: ts ++ [s.current])).map Token.lexeme =
            .symbol (.callable callee) :: .opening ::
              (Phrase.separated front ++ last.words ++ [.closing]) := by
          simp [hy, hx, hw, hclose.1]
        have hif : (s.current.lexeme.isClosing &&
            ((front ++ [last]).map Phrase.tree).length == callee.arity) = true := by
          rw [Bool.and_eq_true, Lexeme.isClosing_iff, beq_iff_eq, hlen]
          exact hclose
        rw [if_pos hif]
        refine .ok (n := Phrase.deepest (front ++ [last]) + 1)
          (hr.eq_unread_concat (hr.eq_unread_cons hne hc) (by rw [hclose.1]; exact nofun)) ?_ ?_
          (ends_base _) ?_
        · rw [hwords]
          exact .call two_le hclose.2 hder
        · simp only [Category.ceiling]
          omega
        · rw [hwords, ← List.cons_append, ← List.cons_append]
          exact not_adheres_closing
      · have hif : ¬ (s.current.lexeme.isClosing &&
            ((front ++ [last]).map Phrase.tree).length == callee.arity) = true := by
          rw [Bool.and_eq_true, Lexeme.isClosing_iff, beq_iff_eq, hlen]
          exact hclose
        rw [if_neg hif]
        refine .stuck (hr.eq_unread_cons hne hc) rfl ?_
        have hst := Stuck.arguments two_le hcount hder he ha (not_and_or.mp hclose) hsep
        simpa [hy, hx, hw] using hst
    | @stuck front ts w s cause hc hw hder hcount hp hst =>
      rw [call_error two_le hx hop]
      refine .stuck (hr.eq_unread_cons hne hc) hp ?_
      simpa [hy, hx, hw] using Stuck.argument two_le hcount hder hst
    | @deep ts s cause hc hexc =>
      rw [call_error two_le hx hop]
      refine .deep (hr.eq_unread_cons hne hc) ?_
      simp only [Category.ceiling, List.length_append, List.length_cons, List.length_nil]
      exact hexc.shift (by omega) (by omega)
  · rw [call_unopened two_le hx]
    refine .stuck (Reader.unread_nil r).symm rfl ?_
    simpa [hy] using Stuck.unopened two_le hx

theorem base_list_outcome
    (hn : ∀ r : Reader κ φ, r.Closed → Outcome limit room .power [] r (nested r))
    (hr : r.Closed) (hx : r.current.lexeme = .opening) :
    Outcome limit (room + 2) .base [] r (base operand nested r) := by
  have hne : r.current.lexeme ≠ .finish := by simp [hx]
  have hdepth : r.advance.depth = r.depth := Reader.depth_advance r
  have hout := list_outcome hn r.advance hr.advance
  generalize hop : list nested r.advance = o at hout
  cases hout with
  | @ok ts t n s hc hder hdep he ha =>
    rw [List.nil_append] at hder ha
    simp only [Category.ceiling, hdepth] at hdep
    by_cases hclose : s.current.lexeme = .closing
    · have hwords : (r.current :: ts ++ [s.current]).map Token.lexeme =
          .opening :: (ts.map Token.lexeme ++ [.closing]) := by simp [hx, hclose]
      rw [base_closed hx hop hclose]
      refine .ok (n := n + 1)
        (hr.eq_unread_concat (hr.eq_unread_cons hne hc) (by simp [hclose])) ?_ ?_
        (ends_base _) ?_
      · rw [List.nil_append, hwords]
        exact .parenthesised hder
      · simp only [Category.ceiling]
        omega
      · rw [List.nil_append, hwords, ← List.cons_append]
        exact not_adheres_closing
    · rw [base_unclosed hx hop hclose]
      refine .stuck (hr.eq_unread_cons hne hc) rfl ?_
      rw [List.nil_append, List.map_cons, hx]
      exact .unclosed hder he ha hclose
  | stuck hc hp hs =>
    rw [base_list_error hx hop]
    refine .stuck (hr.eq_unread_cons hne hc) hp ?_
    rw [List.nil_append, List.map_cons, hx]
    exact .list hs
  | deep hc hexc =>
    rw [base_list_error hx hop]
    refine .deep (hr.eq_unread_cons hne hc) ?_
    simp only [Category.ceiling, List.length_append, List.length_cons, List.length_nil,
      hdepth] at hexc ⊢
    exact hexc.shift (by omega) (by omega)

theorem base_leaf_outcome {t : Formula κ φ} (hr : r.Closed) (hd : (r.depth : Int) ≤ limit)
    (hder : Derives .base [r.current.lexeme] t 1)
    (hx : ∀ callee, r.current.lexeme ≠ .symbol (.callable callee)) :
    Outcome limit room .base [] r (.ok (t, r.advance)) := by
  have hne : r.current.lexeme ≠ .finish := fun he =>
    hder.not_mem_finish_unknown.1 (he ▸ List.mem_singleton_self _)
  refine .ok (n := 1) (hr.eq_unread hne) hder ?_ (ends_base _) ?_
  · simp only [Category.ceiling]
    omega
  · rintro ⟨-, callee, h, -⟩
    exact hx callee (Option.some.inj h)

theorem base_outcome
    (ho : ∀ r : Reader κ φ, r.Closed → Outcome limit (room + 1) .power [] r (operand r))
    (hn : ∀ r : Reader κ φ, r.Closed → Outcome limit room .power [] r (nested r))
    (hr : r.Closed) (hd : (r.depth : Int) ≤ limit) (hx : ∀ s : Sign, r.current.lexeme ≠ s.lexeme) :
    Outcome limit (room + 2) .base [] r (base operand nested r) := by
  by_cases hb : Begins r.current.lexeme
  · generalize hl : r.current.lexeme = x at hb
    cases hb with
    | sign s => exact absurd hl (hx s)
    | real x =>
      rw [show base operand nested r = .ok (.constant ⟨x, 0.0⟩, r.advance) by rw [base, hl]]
      exact base_leaf_outcome hr hd (hl ▸ .real x) (by simp [hl])
    | imaginary x =>
      rw [show base operand nested r = .ok (.constant ⟨0.0, x⟩, r.advance) by rw [base, hl]]
      exact base_leaf_outcome hr hd (hl ▸ .imaginary x) (by simp [hl])
    | symbol s =>
      cases s with
      | cell name k =>
        rw [show base operand nested r = .ok (.cell name k, r.advance) by rw [base, hl]]
        exact base_leaf_outcome hr hd (hl ▸ .cell name k) (by simp [hl])
      | callable callee =>
        have hne : r.current.lexeme ≠ .finish := by simp [hl]
        have hcons := hr.eq_unread hne
        have hclosed := hr.advance
        have hdepth : r.advance.depth = r.depth := Reader.depth_advance r
        rw [base_call hl]
        refine Outcome.unread hcons ?_
        rcases harity : callee.arity with _ | _ | k
        · exact call_name_outcome hclosed (by rwa [hdepth]) hl harity
        · exact call_operand_outcome ho hclosed hl harity
        · exact call_arguments_outcome hn hclosed hl (by omega)
    | opening => exact base_list_outcome hn hr hl
  · obtain ⟨cause, hf, hp⟩ := base_other operand nested hb
    rw [hf]
    exact .stuck (Reader.unread_nil r).symm (hp _) (.start hb)

end Base

theorem power_signed_outcome {limit : Int} {room : Nat} {r s : Reader κ φ}
    {ss : List (Token κ φ)} {signs : List Sign} (hd : (r.depth + 1 : Int) ≤ limit)
    (hs : (⟨r.current, r.rest, r.depth + 1⟩ : Reader κ φ) = s.unread ss)
    (hss : ss.map Token.lexeme = signs.map Sign.lexeme)
    (hx : ∀ sign : Sign, s.current.lexeme ≠ sign.lexeme)
    (hout : Outcome limit (room + 2) .base [] s
      (base (power limit (room + 1)) (power limit room) s)) :
    Outcome limit (room + 2) .power [] r (power limit (room + 2) r) := by
  have hsd : s.depth = r.depth + 1 := (s.depth_unread ss).symm.trans (congrArg Reader.depth hs).symm
  have hsigns : (⟨r.current, r.rest, r.depth + 1⟩ : Reader κ φ).signs =
      (decide (Odd (signs.count .minus)), s) := by
    rw [hs, Reader.signs_unread hss hx]
  -- the operand leaves the depth as it found it
  have hback {ts : List (Token κ φ)} {s' : Reader κ φ} (h : s = s'.unread ts) :
      r = (⟨s'.current, s'.rest, r.depth⟩ : Reader κ φ).unread (ss ++ ts) := by
    rw [← Reader.unread_atDepth, s'.unread_append, ← h, ← hs]
  generalize hop : base (power limit (room + 1)) (power limit room) s = o at hout
  cases hout with
  | @ok ts t n s' hc hder hdep he ha =>
    rw [List.nil_append] at hder ha
    simp only [Category.ceiling, hsd] at hdep
    have hs'd : s'.depth - 1 = r.depth := by
      have := congrArg Reader.depth hc
      rw [Reader.depth_unread, hsd] at this
      omega
    rw [power_ok hd hsigns hop, hs'd]
    refine .ok (n := n) (hback hc) ?_ ?_ (ends_power _) ?_
    · have hnew := Derives.signed signs hder
      rw [← hss, ← List.map_append] at hnew
      simpa using hnew
    · simp only [Category.ceiling]
      omega
    · rwa [List.nil_append, List.map_append, adheres_append_iff hder.ne_nil]
  | @stuck ts s' cause hc hp hst =>
    rw [power_error hd hsigns hop]
    refine .stuck (s := ⟨s'.current, s'.rest, r.depth⟩) (hback hc) hp ?_
    have hnew := Stuck.signed signs hst
    rw [List.nil_append, ← hss, ← List.map_append] at hnew
    exact hnew
  | @deep ts s' cause hc hexc =>
    rw [power_error hd hsigns hop]
    refine .deep (s := ⟨s'.current, s'.rest, r.depth⟩) (hback hc) ?_
    simp only [Category.ceiling, List.length_append, List.length_nil, hsd] at hexc ⊢
    exact hexc.shift (by omega) (by omega)

/-- All that may come of an operand, by induction on the room for operands inside of it. -/
theorem power_outcome (limit : Int) (room : Nat) (r : Reader κ φ) (hr : r.Closed) :
    Outcome limit room .power [] r (power limit room r) := by
  induction room using Nat.strong_induction_on generalizing r with
  | h room ih =>
  by_cases hd : (r.depth + 1 : Int) ≤ limit
  · match room with
    | 0 | 1 =>
      rw [power_exhausted hd (by omega)]
      refine .deep (Reader.unread_nil r).symm (.exhausted ?_)
      simp only [List.length_append, List.length_nil]
      omega
    | room + 2 =>
      have hinner : (⟨r.current, r.rest, r.depth + 1⟩ : Reader κ φ).Closed := hr
      obtain ⟨ss, signs, s, hs, hss, hx⟩ := hinner.exists_signs
      have hsd : r.depth + 1 = s.depth := (congrArg Reader.depth hs).trans (s.depth_unread ss)
      have hsc : s.Closed := by rwa [hs, Reader.closed_unread] at hinner
      exact power_signed_outcome hd hs hss hx
        (base_outcome (ih (room + 1) (by omega)) (ih room (by omega)) hsc (by omega) hx)
  · rw [power_deep (by omega)]
    refine .deep (Reader.unread_nil r).symm (.nesting ?_)
    simp only [Category.ceiling, List.length_append, List.length_nil]
    omega

end ComplexFormula
