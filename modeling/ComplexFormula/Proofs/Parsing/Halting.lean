import ComplexFormula.Proofs.Parsing.Lockstep

/-! # Halting

The rules call each other without consuming anything on most of the way, and the loops go on as long
as the source lets them. Yet the machine halts on every source, under every limit, with what parsing
gives, having asked the scanner for each token once at most.
-/

namespace ComplexFormula

variable {κ φ α : Type}

namespace Rule

variable {operand nested argument : Rule κ φ} {callee : Callee κ φ} {r : Reader κ φ}

theorem arguments_append {k : Nat} {args : List (Formula κ φ)} :
    (arguments argument (k + 1) r).bind (fun (ts, r) => .ok (args ++ ts, r)) =
      (argument r.advance).bind fun (t, r) =>
        if r.current.lexeme.isSeparator && k != 0 then
          (arguments argument k r).bind fun (ts, r) => .ok (args ++ [t] ++ ts, r)
        else .ok (args ++ [t], r) := by
  rw [arguments]
  cases argument r.advance with
  | error f => rfl
  | ok a =>
    dsimp only [bind, Except.bind]
    by_cases hmore : (a.2.current.lexeme.isSeparator && k != 0) = true
    · rw [if_pos hmore, if_pos hmore]
      cases arguments argument k a.2 with
      | error f => rfl
      | ok b => simp
    · rw [if_neg hmore, if_neg hmore]

theorem call_parentheses (harity : callee.arity = 0) (hx : r.current.lexeme = .opening) :
    call operand nested callee r =
      (r.advance.close (.unclosedName callee.name)).bind fun r => .ok (.call callee [], r) := by
  simp only [call, harity, if_pos (Lexeme.isOpening_iff.mpr hx)]
  rfl

theorem call_arguments (harity : 2 ≤ callee.arity) (hx : r.current.lexeme = .opening) :
    call operand nested callee r =
      (arguments (sum nested) callee.arity r).bind fun (args, r) =>
        if r.current.lexeme.isClosing && args.length == callee.arity then
          .ok (.call callee args, r.advance)
        else r.fail (.argumentCount callee.name callee.arity) := by
  cases h : arguments (sum nested) callee.arity r with
  | error f => exact call_error harity hx h
  | ok a => exact call_ok harity hx h

theorem base_opening (hx : r.current.lexeme = .opening) :
    base operand nested r =
      (list nested r.advance).bind fun (t, r) => (r.close .unclosed).bind fun r => .ok (t, r) := by
  rw [base, hx]
  rfl

theorem power_signed {limit : Int} {room : Nat} {negative : Bool} {inner : Reader κ φ}
    (hd : (r.depth + 1 : Int) ≤ limit)
    (hs : (⟨r.current, r.rest, r.depth + 1⟩ : Reader κ φ).signs = (negative, inner)) :
    power limit (room + 2) r =
      (base (power limit (room + 1)) (power limit room) inner).bind fun (t, r) =>
        .ok (if negative then t.negate else t, ⟨r.current, r.rest, r.depth - 1⟩) := by
  cases h : base (power limit (room + 1)) (power limit room) inner with
  | error f => exact power_error hd hs h
  | ok a => exact power_ok hd hs h

end Rule

namespace Tracks

open Rule

variable {limit : Int} {source : String} {bindings : List (Symbol κ φ)} {m : Machine κ φ}
  {operand nested : Rule κ φ}

theorem passed (hm : m.Sound limit source bindings) (hx : m.current.Passable)
    (t : Formula κ φ) :
    Tracks limit source bindings (.ok (t, m.reader.advance))
      (fun _ => do
        Run.advance
        return t) m :=
  advance (l := fun r => .ok (t, r)) hm hx fun hnext => pure hnext t

section Arguments

variable (hread : Follows limit source bindings .sum operand)

include hread

/-- The loop passes an opening parenthesis at first and commas later on, since it goes on after
nothing else. -/
theorem arguments {arity k : Nat} {args : List (Formula κ φ)} (hcount : args.length + k = arity)
    (hk : k ≠ 0) (hm : m.Sound limit source bindings) (hx : m.current.Passable) :
    Tracks limit source bindings
      ((Rule.arguments operand k m.reader).bind fun (ts, r) => .ok (args ++ ts, r))
      (Run.arguments limit · arity args) m := by
  induction k generalizing m args with
  | zero => exact absurd rfl hk
  | succ k ih =>
    rw [arguments_append, ← Machine.reader_next hx.1]
    refine of_succ (fun _ => Run.arguments_succ) ((hread _ (hm.next hx)).bind ?_)
    intro t m' hm' _
    refine congr (fun _ => Run.bind_current) ?_
    dsimp only
    rw [Lookahead.current_reader]
    have hstop : (!m'.current.lexeme.isSeparator || args.length + 1 == arity) =
        !(m'.current.lexeme.isSeparator && k != 0) := by
      have hfull : args.length + 1 = arity ↔ k = 0 := by omega
      rw [Bool.not_and, bne, Bool.not_not, beq_eq_beq.mpr hfull]
    by_cases hmore : (m'.current.lexeme.isSeparator && k != 0) = true
    · simp only [hstop, hmore, Bool.not_true, Bool.false_eq_true, if_true, if_false]
      rw [Bool.and_eq_true, Lexeme.isSeparator_iff, bne_iff_ne] at hmore
      have hcount' : (args ++ [t]).length + k = arity := by
        rw [List.length_append, List.length_singleton]
        omega
      exact ih hcount' hmore.2 hm' (Token.passable_of_eq hmore.1 rfl rfl)
    · rw [Bool.not_eq_true] at hmore
      simp only [hstop, hmore, Bool.not_false, Bool.false_eq_true, if_true, if_false]
      exact pure hm' (args ++ [t])

theorem arguments_all {arity : Nat} (harity : arity ≠ 0) (hm : m.Sound limit source bindings)
    (hx : m.current.Passable) :
    Tracks limit source bindings (Rule.arguments operand arity m.reader)
      (Run.arguments limit · arity []) m := by
  have hcount : ([] : List (Formula κ φ)).length + arity = arity := Nat.zero_add arity
  have harguments := arguments hread hcount harity hm hx
  cases ho : Rule.arguments operand arity m.reader with
  | error f =>
    rw [ho] at harguments
    exact harguments
  | ok a =>
    rw [ho] at harguments
    exact harguments

end Arguments

section Call

variable {callee : Callee κ φ}

theorem call_none (harity : callee.arity = 0) (hm : m.next.Sound limit source bindings) :
    Tracks limit source bindings (Rule.call operand nested callee m.next.reader)
      (Run.call limit · callee) m := by
  by_cases hx : m.next.current.lexeme = .opening
  · have hopening := Token.passable_of_eq hx rfl rfl
    rw [Rule.call_parentheses harity hx, ← Machine.reader_next hopening.1]
    exact of_succ (fun _ => Run.call_parentheses harity hx)
      (close (hm.next hopening) fun hclosed => pure hclosed (Formula.call callee []))
  · rw [call_name harity hx]
    exact of_succ (fun _ => Run.call_name harity hx) (pure hm (Formula.call callee []))

theorem call_several
    (hsum : Follows limit source bindings .sum (sum nested))
    (harity : 2 ≤ callee.arity) (hm : m.next.Sound limit source bindings)
    (hx : m.next.current.lexeme = .opening) :
    Tracks limit source bindings (Rule.call operand nested callee m.next.reader)
      (Run.call limit · callee) m := by
  have harguments := arguments_all hsum (by omega : callee.arity ≠ 0) hm
    (Token.passable_of_eq hx rfl rfl)
  rw [Rule.call_arguments harity hx]
  refine of_succ (fun _ => Run.call_arguments harity hx) (harguments.bind ?_)
  intro args m' hm' _
  refine congr (fun _ => Run.bind_current) ?_
  dsimp only
  rw [Lookahead.current_reader]
  by_cases hclose : (m'.current.lexeme.isClosing && args.length == callee.arity) = true
  · simp only [hclose, if_true]
    rw [Bool.and_eq_true, Lexeme.isClosing_iff] at hclose
    exact passed hm' (Token.passable_of_eq hclose.1 rfl rfl) (.call callee args)
  · simp only [hclose, Bool.false_eq_true, if_false]
    exact fail hm' fun _ => .argumentCount callee.name callee.arity

theorem call
    (hpower : Follows limit source bindings .power operand)
    (hsum : Follows limit source bindings .sum (sum nested))
    (hm : m.next.Sound limit source bindings) :
    Tracks limit source bindings (Rule.call operand nested callee m.next.reader)
      (Run.call limit · callee) m := by
  obtain harity | harity | harity :
      callee.arity = 0 ∨ callee.arity = 1 ∨ 2 ≤ callee.arity := by omega
  · exact call_none harity hm
  · rw [call_operand harity]
    exact of_succ (fun _ => Run.call_operand harity)
      ((hpower _ hm).bind fun arg m' hm' _ => pure hm' (Formula.call callee [arg]))
  · by_cases hx : m.next.current.lexeme = .opening
    · exact call_several hsum harity hm hx
    · rw [call_unopened harity hx]
      exact of_succ (fun _ => Run.call_unopened harity hx) (fail hm _)

end Call

section Base

variable {room : Nat}

theorem leaf (hm : m.Sound limit source bindings) (hopening : m.current.lexeme ≠ .opening)
    (hcallee : ∀ callee, m.current.lexeme ≠ .symbol (.callable callee)) :
    Tracks limit source bindings (base operand nested m.reader) (Run.primary limit) m := by
  refine of_succ (fun _ => by rw [Run.primary, Run.bind_current]) ?_
  cases hx : m.current.lexeme with
  | real x =>
    rw [base, Lookahead.current_reader, hx]
    exact passed hm (Token.passable_of_eq hx rfl rfl) _
  | imaginary x =>
    rw [base, Lookahead.current_reader, hx]
    exact passed hm (Token.passable_of_eq hx rfl rfl) _
  | symbol s =>
    cases s with
    | cell name c =>
      rw [base, Lookahead.current_reader, hx]
      exact passed hm (Token.passable_of_eq hx rfl rfl) _
    | callable callee => exact absurd hx (hcallee callee)
  | opening => exact absurd hx hopening
  | unknown =>
    rw [base, Lookahead.current_reader, hx]
    exact fail hm .unknown
  | operator _ | closing | separator | finish =>
    rw [base, Lookahead.current_reader, hx]
    exact fail hm .unexpected

theorem parentheses
    (hlist : Follows limit source bindings .list (list nested))
    (hm : m.Sound limit source bindings) (hx : m.current.lexeme = .opening) :
    Tracks limit source bindings (base operand nested m.reader) (Run.primary limit) m := by
  have hopening := Token.passable_of_eq hx rfl rfl
  rw [base_opening hx, ← Machine.reader_next hopening.1]
  exact of_succ (fun _ => Run.primary_opening hx) ((hlist _ (hm.next hopening)).bind
    fun t m' hm' _ => close hm' fun hclosed => pure hclosed t)

theorem primary
    (hpower : Follows limit source bindings .power operand)
    (hsum : Follows limit source bindings .sum (sum nested))
    (hlist : Follows limit source bindings .list (list nested))
    (hout : Outcome limit room .base [] m.reader (base operand nested m.reader))
    (hm : m.Sound limit source bindings) :
    Tracks limit source bindings (base operand nested m.reader) (Run.primary limit) m := by
  by_cases hopening : m.current.lexeme = .opening
  · exact parentheses hlist hm hopening
  · by_cases hcallee : ∃ callee, m.current.lexeme = .symbol (.callable callee)
    · obtain ⟨callee, hx⟩ := hcallee
      refine of_succ (fun _ => Run.primary_call hx)
        (routine hm (fun hbase => absurd hbase (by decide)) hout ?_)
      intro m' hm' hsame
      have hname : m'.current.Passable := by
        rw [hsame]
        exact Token.passable_of_eq hx rfl rfl
      rw [base_call hx, ← hsame, ← Machine.reader_next hname.1]
      exact call hpower hsum (hm'.next hname)
    · exact leaf hm hopening (not_exists.mp hcallee)

end Base

section Chains

variable {room : Nat}
  (hpower : Follows limit source bindings .power (Rule.power limit room))

include hpower

theorem sum : Follows limit source bindings .sum (Rule.sum (Rule.power limit room)) := by
  have hfactor (r : Reader κ φ) (hr : r.Closed) := chain_outcome (c := .factor) rfl
    (power_outcome limit room) hr
  have hproduct (r : Reader κ φ) (hr : r.Closed) := chain_outcome (c := .product) rfl hfactor hr
  exact chain (c := .sum) rfl (chain (c := .product) rfl
    (chain (c := .factor) rfl hpower (power_outcome limit room)) hfactor) hproduct

theorem list : Follows limit source bindings .list (Rule.list (Rule.power limit room)) :=
  chain (c := .list) rfl (sum hpower) (sum_outcome (power_outcome limit room))

end Chains

section Power

variable {room : Nat}

theorem signs {r : Reader κ φ} {ts : List (Token κ φ)} {ss : List Sign}
    (hm : m.Sound limit source bindings) (hr : m.reader = r.unread ts)
    (hts : ts.map Token.lexeme = ss.map Sign.lexeme)
    (hx : ∀ sign : Sign, r.current.lexeme ≠ sign.lexeme) (negative : Bool) :
    ∃ m' : Machine κ φ, m'.Sound limit source bindings ∧ m'.reader = r ∧
      Run.Ends (Run.signs · negative) m
        (.ok (negative ^^ decide (Odd (ss.count .minus))), m') := by
  induction ts generalizing m ss negative with
  | nil =>
    obtain rfl : ss = [] := by simpa using hts.symm
    have hcurrent (sign : Sign) : m.current.lexeme ≠ sign.lexeme := by
      rw [← Lookahead.current_reader, hr]
      exact hx sign
    refine ⟨m, hm, hr, .of_forall_succ fun _ => ?_⟩
    rw [Run.signs_other hcurrent]
    simp
  | cons t ts ih =>
    cases ss with
    | nil => cases hts
    | cons sign ss =>
      obtain ⟨ht, hrest⟩ := List.cons.inj hts
      have hcurrent : m.current = t := congrArg Reader.current hr
      rw [← hcurrent] at ht
      have hpassable : m.current.Passable := by
        cases sign <;> exact Token.passable_of_eq ht rfl rfl
      have hnext : m.next.reader = r.unread ts := by
        rw [Machine.reader_next hpassable.1, hr, Reader.advance_unread_cons]
      cases sign with
      | plus =>
        obtain ⟨m', hm', hr', hends⟩ := ih (hm.next hpassable) hnext hrest negative
        refine ⟨m', hm', hr', ?_⟩
        rw [List.count_cons_of_ne (by decide)]
        exact hends.of_succ fun _ => Run.signs_plus ht
      | minus =>
        obtain ⟨m', hm', hr', hends⟩ := ih (hm.next hpassable) hnext hrest !negative
        refine ⟨m', hm', hr', ?_⟩
        have hparity : (negative ^^ decide (Odd ((Sign.minus :: ss).count .minus))) =
            (!negative ^^ decide (Odd (ss.count .minus))) := by
          rw [List.count_cons_self, decide_eq_decide.mpr Nat.odd_add_one, decide_not, Bool.xor_not,
            Bool.not_xor]
        rw [hparity]
        exact hends.of_succ fun _ => Run.signs_minus ht

theorem base
    (hpower : Follows limit source bindings .power (Rule.power limit (room + 1)))
    (hnested : Follows limit source bindings .power (Rule.power limit room))
    (hm : m.Sound limit source bindings) (hpos : 1 ≤ m.depth) (hle : (m.depth : Int) ≤ limit)
    (hx : ∀ sign : Sign, m.current.lexeme ≠ sign.lexeme) :
    Tracks limit source bindings
      (Rule.base (Rule.power limit (room + 1)) (Rule.power limit room) m.reader)
      (Run.read limit · .base) m := by
  have hout := base_outcome (power_outcome limit (room + 1)) (power_outcome limit room) hm.closed
    hle hx
  refine of_succ (fun _ => by rw [Run.read]) (routine hm (fun _ => ⟨hpos, hle⟩) hout ?_)
  intro m' hm' hsame
  rw [← hsame] at hout ⊢
  exact (primary hpower (sum hnested) (list hnested) hout hm').of_succ fun _ => by rw [Run.body]

theorem signed
    (hpower : Follows limit source bindings .power (Rule.power limit (room + 1)))
    (hnested : Follows limit source bindings .power (Rule.power limit room))
    (hm : m.Sound limit source bindings) (hd : (m.depth + 1 : Int) ≤ limit) :
    Tracks limit source bindings (Rule.power limit (room + 2) m.reader)
      (fun calls => do
        let negative ← Run.signs calls false
        let t ← Run.read limit calls .base
        Run.ascend
        return if negative then t.negate else t) (m.inside (m.depth + 1)) := by
  have hinner := hm.inside (m.depth + 1)
  obtain ⟨ts, ss, r, hr, hts, hx⟩ := hinner.closed.exists_signs
  obtain ⟨m', hm', rfl, hends⟩ := signs hinner hr hts hx false
  have hs : (⟨m.reader.current, m.reader.rest, m.reader.depth + 1⟩ : Reader κ φ).signs =
      (decide (Odd (ss.count .minus)), m'.reader) := by
    rw [← Reader.signs_unread hts hx, ← hr]
    rfl
  have hdepth : m.depth + 1 = m'.depth := by
    have hdepth := congrArg Reader.depth hr
    rwa [Reader.depth_unread] at hdepth
  rw [Bool.false_xor] at hends
  rw [power_signed hd hs]
  refine after hends ((base hpower hnested hm' (by omega) (by omega) hx).bind ?_)
  intro t m'' hm'' _
  change Tracks limit source bindings
    (.ok (if decide (Odd (ss.count .minus)) then t.negate else t,
      (m''.inside (m''.depth - 1)).reader)) _ m''
  exact .ok (hm''.inside (m''.depth - 1)) (.of_forall fun _ => rfl)

/-- By induction on the room that the rule has, of which the machine knows nothing. -/
theorem power (room : Nat) :
    Follows limit source bindings .power (Rule.power limit room : Rule κ φ) := by
  induction room using Nat.strong_induction_on with
  | h room ih =>
  intro m hm
  refine of_succ (fun _ => by rw [Run.read])
    (routine hm (fun hbase => absurd hbase (by decide))
      (power_outcome limit room m.reader hm.closed) ?_)
  intro m' hm' hsame
  rw [← hsame]
  refine of_succ (fun _ => by rw [Run.body]) ?_
  by_cases hd : limit < m'.depth + 1
  · rw [power_deep hd, Reader.fail, Lookahead.current_reader, ← hm'.level]
    exact .error (hm'.inside (m'.depth + 1))
      (.of_forall fun _ => Run.bind_error (Run.descend_deep hd))
  · have hd := Int.not_lt.mp hd
    by_cases hroom : room < 2
    · rw [power_exhausted hd hroom]
      exact .exhausted
    · obtain ⟨room, rfl⟩ := Nat.exists_eq_add_of_le' (Nat.not_lt.mp hroom)
      exact (signed (ih (room + 1) (by omega)) (ih room (by omega)) hm' hd).congr
        fun _ => Run.bind_ok (Run.descend_ok hd)

end Power

theorem whole (room : Nat) (hm : m.Sound limit source bindings) :
    Tracks limit source bindings
      ((Rule.list (Rule.power limit room) m.reader).bind fun (t, r) =>
        if r.current.lexeme.isFinish then .ok (t, r) else r.fail (.trailing r.found))
      (Run.whole limit) m := by
  refine (list (power room) m hm).bind ?_
  intro t m' hm' _
  refine congr (fun _ => Run.bind_current) ?_
  dsimp only
  rw [Lookahead.current_reader]
  by_cases hx : m'.current.lexeme.isFinish = true
  · simp only [hx, if_true]
    exact pure hm' t
  · simp only [hx, Bool.false_eq_true, if_false]
    exact fail hm' .trailing

theorem ends {o : Except ParseFault (α × Reader κ φ)} {x : Nat → Run κ φ α}
    (h : Tracks limit source bindings o x m)
    (hroom : ∀ cursor, o.map Prod.fst ≠ .error ⟨.exhausted, cursor⟩) :
    ∃ m' : Machine κ φ, m'.Sound limit source bindings ∧ Run.Ends x m (o.map Prod.fst, m') := by
  cases h with
  | ok hm hends => exact ⟨_, hm, hends⟩
  | error hm hends => exact ⟨_, hm, hends⟩
  | exhausted => exact absurd rfl (hroom _)

end Tracks

section Parse

variable {limit : Int} {source : String} {bindings : List (Symbol κ φ)}

theorem Machine.reader_start (source : String) (bindings : List (Symbol κ φ)) :
    (start source bindings).reader = Reader.start source bindings := by
  refine Reader.ext_tokens ?_ (Reader.depth_start source bindings).symm
  rw [Reader.tokens_start, sourceTokens, Scanner.tokens_eq]
  rfl

/-- What parsing gives is the formula alone, without the reader that is left at the end. -/
theorem parse_eq_map {limits : Limits} : parse limits source bindings =
    ((Rule.list (Rule.power limits.depth limits.room) (Reader.start source bindings)).bind
      fun (t, r) =>
        if r.current.lexeme.isFinish then .ok (t, r) else r.fail (.trailing r.found)).map
          Prod.fst := by
  rw [parse_eq]
  cases Rule.list (Rule.power limits.depth limits.room) (Reader.start source bindings) with
  | error f => rfl
  | ok a =>
    dsimp only [Except.bind]
    split <;> rfl

theorem Unexhausted.ends {room : Nat} (h : Unexhausted ⟨limit, room⟩ source bindings) :
    ∃ m : Machine κ φ, m.Sound limit source bindings ∧
      Run.Ends (Run.whole limit) (Machine.start source bindings)
        (parse ⟨limit, room⟩ source bindings, m) := by
  have hwhole := Tracks.whole room (Machine.sound_start limit source bindings)
  rw [Machine.reader_start] at hwhole
  rw [Unexhausted, parse_eq_map] at h
  rw [parse_eq_map]
  exact hwhole.ends h

theorem Machine.Sound.pulls_prefix {m : Machine κ φ} (h : m.Sound limit source bindings) :
    m.pulls <+: sourceTokens source bindings := by
  obtain ⟨ts, hpulls, htokens, -⟩ := h.passed
  rw [hpulls, htokens, List.prefix_append_right_inj]
  exact List.prefix_append [m.current] m.reader.rest

variable (limit source bindings)

/-- The machine halts on every source: it is cut short just if its calls may not nest as deep as
`bound`, and else ends in one state and with what parsing gives. It has asked the scanner for tokens
of the source in their order, each once at most, and has passed neither the end nor an unknown one.
Whenever it has asked for a token and whenever a routine has been called or has returned, the
scanner stands just past the token asked for last. A routine that has returned has passed a token at
least and stands as deep as before; the rule of a base starts within the limit. -/
theorem machine_halts : ∃ bound outcome m,
    (∀ calls, Machine.parse limit calls source bindings =
      if bound ≤ calls then some (outcome, m) else none) ∧
    (∀ room, Unexhausted ⟨limit, room⟩ source bindings →
      parse ⟨limit, room⟩ source bindings = outcome) ∧
    (∃ passed, m.pulls = passed ++ [m.current] ∧ ∀ t ∈ passed, t.Passable) ∧
    m.pulls <+: sourceTokens source bindings ∧
    m.pulls.length ≤ (sourceTokens source bindings).length ∧
    m.Level ∧ ∀ moment ∈ m.journal, moment.Sound limit := by
  have hample : Unexhausted ⟨limit, (ampleLimits source bindings).room⟩ source bindings :=
    unexhausted_of_ample (Nat.le_refl _)
  obtain ⟨m, hm, hends⟩ := hample.ends
  obtain ⟨bound, hbound⟩ := hends.exists_bound fun _ _ => Run.whole_below limit
  obtain ⟨passed, hpulls, -, hpassable⟩ := hm.passed
  exact ⟨bound, _, m, hbound, fun room hroom => hroom.parse_eq_ample, ⟨passed, hpulls, hpassable⟩,
    hm.pulls_prefix, hm.pulls_prefix.length_le, hm.level, hm.events⟩

end Parse

end ComplexFormula
