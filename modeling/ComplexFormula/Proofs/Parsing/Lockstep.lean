import ComplexFormula.Proofs.Parsing.Bounds
import ComplexFormula.Proofs.Parsing.Threshold

/-! # The machine and the rules in step

As long as a rule has room for operands inside of operands, the machine does what the rule does. It
takes the tokens of the source from the scanner one after another and passes none that no formula
has.
-/

namespace ComplexFormula

variable {κ φ α β : Type}

def Token.Passable (t : Token κ φ) : Prop :=
  t.lexeme ≠ .finish ∧ t.lexeme ≠ .unknown

theorem Token.passable_of_eq {t : Token κ φ} {x : Lexeme κ φ} (h : t.lexeme = x)
    (hfinish : x.isFinish = false) (hunknown : x.isUnknown = false) : t.Passable := by
  subst h
  constructor
  · intro he
    rw [Lexeme.isFinish_iff.mpr he] at hfinish
    cases hfinish
  · intro he
    rw [Lexeme.isUnknown_iff.mpr he] at hunknown
    cases hunknown

theorem Joins.passable {c : Category} {op : Operator} {t : Token κ φ}
    (h : Joins c t.lexeme op) : t.Passable := by
  generalize hx : t.lexeme = x at h
  cases h <;> exact Token.passable_of_eq hx rfl rfl

namespace Lookahead

/-- The scanner stands just past the token that it has given last. -/
def Level (l : Lookahead κ φ) : Prop :=
  l.scanner.cursor = l.current.stop

/-- From `before` to `after` so many tokens have been passed, one at least and all of them passable,
and the depth is the same again. -/
structure Passes (before after : Lookahead κ φ) (ts : List (Token κ φ)) : Prop where
  tokens : before.reader.tokens = ts ++ after.reader.tokens
  nonempty : ts ≠ []
  passable : ∀ t ∈ ts, t.Passable
  depth : after.depth = before.depth

end Lookahead

/-- What is right at each moment of a run. -/
inductive Moment.Sound (limit : Int) : Moment κ φ → Prop
  | pulled {l : Lookahead κ φ} (level : l.Level) : Sound limit (.pulled l)
  | entered {routine : Routine} {l : Lookahead κ φ} (level : l.Level)
      (depth : routine = .rule .base → 1 ≤ l.depth ∧ (l.depth : Int) ≤ limit) :
      Sound limit (.entered routine l)
  | returned {routine : Routine} {before after : Lookahead κ φ} (level : after.Level)
      (passes : ∃ ts, before.Passes after ts) : Sound limit (.returned routine before after)

section Scanner

theorem Scanner.Scans.eq {s : Scanner κ φ} {ts us : List (Token κ φ)} (h : Scans s ts)
    (h' : Scans s us) : ts = us := by
  induction h generalizing us with
  | finish hx =>
    cases h' with
    | finish => rfl
    | step hx' => exact absurd hx hx'
  | step hx _ ih =>
    cases h' with
    | finish hx' => exact absurd hx' hx
    | step _ h' => rw [ih h']

theorem Scanner.tokens_eq (s : Scanner κ φ) :
    s.tokens = s.next.1 :: if s.next.1.lexeme.isFinish then [] else s.next.2.tokens := by
  refine s.scans_tokens.eq ?_
  split
  · exact .finish (Lexeme.isFinish_iff.mp ‹_›)
  · exact .step (mt Lexeme.isFinish_iff.mpr ‹_›) s.next.2.scans_tokens

end Scanner

section State

variable {limit : Int} {source : String} {bindings : List (Symbol κ φ)} {m : Machine κ φ}

/-- What holds whenever the machine stands still: the tokens passed and those to come are the tokens
of the source, of which the current one has been pulled last. -/
structure Machine.Sound (limit : Int) (source : String) (bindings : List (Symbol κ φ))
    (m : Machine κ φ) : Prop where
  passed : ∃ ts, m.pulls = ts ++ [m.current] ∧
    sourceTokens source bindings = ts ++ m.reader.tokens ∧ ∀ t ∈ ts, t.Passable
  level : m.Level
  events : ∀ e ∈ m.journal, e.Sound limit

namespace Machine

theorem reader_next (hx : m.current.lexeme ≠ .finish) :
    m.next.reader = m.reader.advance := by
  have hrest : m.reader.rest = m.scanner.tokens :=
    if_neg (mt Lexeme.isFinish_iff.mp hx)
  rw [Reader.advance, hrest, Scanner.tokens_eq]
  rfl

theorem sound_start (limit : Int) (source : String) (bindings : List (Symbol κ φ)) :
    (start source bindings).Sound limit source bindings := by
  refine ⟨⟨[], rfl, ?_, List.forall_mem_nil _⟩, rfl, ?_⟩
  · rw [sourceTokens, Scanner.tokens_eq]
    rfl
  · intro e he
    obtain rfl := List.mem_singleton.mp he
    exact .pulled rfl

namespace Sound

variable (h : m.Sound limit source bindings)

include h

theorem closed : m.reader.Closed := by
  obtain ⟨ts, -, htokens, -⟩ := h.passed
  have hstart : Reader.start source bindings = (m.inside 0).reader.unread ts :=
    Reader.ext_tokens (by rw [Reader.tokens_start, htokens, Reader.tokens_unread]; rfl)
      (by rw [Reader.depth_start, Reader.depth_unread]; rfl)
  have hclosed := (Reader.ordered_start source bindings).closed
  rw [hstart, Reader.closed_unread] at hclosed
  exact hclosed

theorem next (hx : m.current.Passable) : m.next.Sound limit source bindings := by
  obtain ⟨ts, hpulls, htokens, hpassable⟩ := h.passed
  refine ⟨⟨ts ++ [m.current], ?_, ?_, ?_⟩, rfl, ?_⟩
  · have hjournal : m.next.pulls = m.pulls ++ [m.next.current] := by
      simp [Machine.pulls, Machine.next, Moment.pull?, Lookahead.pull]
    rw [hjournal, hpulls]
  · have hadvance := congrArg Reader.tokens (h.closed.eq_unread hx.1)
    rw [Reader.tokens_unread, ← reader_next hx.1] at hadvance
    rw [htokens, hadvance, ← List.append_assoc]
    rfl
  · simpa [or_imp, forall_and] using ⟨hpassable, hx⟩
  · simpa [Machine.next, or_imp, forall_and] using ⟨h.events, Moment.Sound.pulled rfl⟩

theorem log {e : Moment κ φ} (hpull : e.pull? = none) (he : e.Sound limit) :
    (m.log e).Sound limit source bindings := by
  have hpulls : (m.log e).pulls = m.pulls := by
    simp [Machine.pulls, Machine.log, hpull]
  refine ⟨hpulls ▸ h.passed, h.level, ?_⟩
  simpa [Machine.log, or_imp, forall_and] using ⟨h.events, he⟩

theorem inside (d : Nat) : (m.inside d).Sound limit source bindings :=
  ⟨h.passed, h.level, h.events⟩

end Sound

end Machine

end State

theorem Reader.Closed.length_rest {r : Reader κ φ} (h : r.Closed)
    (hx : r.current.lexeme ≠ .finish) : r.rest.length = r.advance.rest.length + 1 := by
  have hlength := congrArg (fun s => s.rest.length) (h.eq_unread hx)
  simp only [Reader.length_rest_unread, List.length_singleton] at hlength
  omega

theorem Outcome.length_rest_le {limit : Int} {room : Nat} {c : Category} {us : List (Token κ φ)}
    {r s : Reader κ φ} {t : Formula κ φ} (h : Outcome limit room c us r (.ok (t, s))) :
    s.rest.length ≤ r.rest.length := by
  cases h with
  | ok hc =>
    rw [hc, Reader.length_rest_unread]
    exact Nat.le_add_left ..

theorem Outcome.passes {limit : Int} {room : Nat} {c : Category} {before after : Lookahead κ φ}
    {t : Formula κ φ} (h : Outcome limit room c [] before.reader (.ok (t, after.reader))) :
    ∃ ts, before.Passes after ts := by
  cases h with
  | @ok ts t n s hc hder =>
    rw [List.nil_append] at hder
    obtain ⟨hfinish, hunknown⟩ := hder.not_mem_finish_unknown
    refine ⟨ts, ⟨?_, ?_, ?_, ?_⟩⟩
    · rw [hc, Reader.tokens_unread]
    · rintro rfl
      exact hder.ne_nil rfl
    · intro t ht
      exact ⟨fun hx => hfinish (hx ▸ List.mem_map_of_mem ht),
        fun hx => hunknown (hx ▸ List.mem_map_of_mem ht)⟩
    · have hdepth := congrArg Reader.depth hc
      rw [Reader.depth_unread] at hdepth
      exact hdepth.symm

/-- The run from `m` on ends where the rule does, or the rule has run out of room. -/
inductive Tracks (limit : Int) (source : String) (bindings : List (Symbol κ φ)) :
    Except ParseFault (α × Reader κ φ) → (Nat → Run κ φ α) → Machine κ φ → Prop
  | ok {a : α} {x : Nat → Run κ φ α} {m m' : Machine κ φ} (sound : m'.Sound limit source bindings)
      (ends : Run.Ends x m (.ok a, m')) : Tracks limit source bindings (.ok (a, m'.reader)) x m
  | error {f : ParseFault} {x : Nat → Run κ φ α} {m m' : Machine κ φ}
      (sound : m'.Sound limit source bindings) (ends : Run.Ends x m (.error f, m')) :
      Tracks limit source bindings (.error f) x m
  | exhausted {cursor : Nat} {x : Nat → Run κ φ α} {m : Machine κ φ} :
      Tracks limit source bindings (.error ⟨.exhausted, cursor⟩) x m

/-- From every sound state, the rule of category `c` of the machine tracks `rule`. -/
def Follows (limit : Int) (source : String) (bindings : List (Symbol κ φ)) (c : Category)
    (rule : Rule κ φ) : Prop :=
  ∀ m : Machine κ φ, m.Sound limit source bindings →
    Tracks limit source bindings (rule m.reader) (Run.read limit · c) m

namespace Tracks

open Rule

variable {limit : Int} {source : String} {bindings : List (Symbol κ φ)} {m m' : Machine κ φ}

section Basic

variable {x y : Nat → Run κ φ α} {k : Nat → α → Run κ φ β}
  {o : Except ParseFault (α × Reader κ φ)}

theorem of_succ (hxy : ∀ calls, x (calls + 1) m = y calls m')
    (h : Tracks limit source bindings o y m') : Tracks limit source bindings o x m := by
  cases h with
  | ok hm hends => exact .ok hm (hends.of_succ hxy)
  | error hm hends => exact .error hm (hends.of_succ hxy)
  | exhausted => exact .exhausted

theorem congr (hxy : ∀ calls, x calls m = y calls m') (h : Tracks limit source bindings o y m') :
    Tracks limit source bindings o x m := by
  cases h with
  | ok hm hends => exact .ok hm (hends.congr hxy)
  | error hm hends => exact .error hm (hends.congr hxy)
  | exhausted => exact .exhausted

theorem pure (hm : m.Sound limit source bindings) (a : α) :
    Tracks limit source bindings (.ok (a, m.reader)) (fun _ => pure a) m :=
  .ok hm (.of_forall fun _ => rfl)

theorem fail (hm : m.Sound limit source bindings) (cause : Found → ParseFault.Cause) :
    Tracks limit source bindings (m.reader.fail (cause m.reader.found) : Except _ (α × _))
      (fun _ => Run.fail cause) m := by
  have hfail : (Run.fail cause : Run κ φ α) m =
      some (.error ⟨cause m.reader.found, m.current.stop⟩, m) := by
    rw [← hm.level]
    rfl
  exact .error hm (.of_forall fun _ => hfail)

theorem after {a : α} {o : Except ParseFault (β × Reader κ φ)} (h : Run.Ends x m (.ok a, m'))
    (hk : Tracks limit source bindings o (fun calls => k calls a) m') :
    Tracks limit source bindings o (fun calls => x calls >>= k calls) m := by
  cases hk with
  | ok hm hends => exact .ok hm (h.bind_ok hends)
  | error hm hends => exact .error hm (h.bind_ok hends)
  | exhausted => exact .exhausted

theorem bind {l : α × Reader κ φ → Except ParseFault (β × Reader κ φ)}
    (h : Tracks limit source bindings o x m)
    (hk : ∀ a m', m'.Sound limit source bindings → o = .ok (a, m'.reader) →
      Tracks limit source bindings (l (a, m'.reader)) (fun calls => k calls a) m') :
    Tracks limit source bindings (o.bind l) (fun calls => x calls >>= k calls) m := by
  cases h with
  | @ok a _ _ m' hm hends => exact after hends (hk a m' hm rfl)
  | error hm hends => exact .error hm hends.bind_error
  | exhausted => exact .exhausted

theorem advance {l : Reader κ φ → Except ParseFault (α × Reader κ φ)} {k : Nat → Run κ φ α}
    (hm : m.Sound limit source bindings) (hx : m.current.Passable)
    (h : m.next.Sound limit source bindings →
      Tracks limit source bindings (l m.next.reader) k m.next) :
    Tracks limit source bindings (l m.reader.advance)
      (fun calls => Run.advance >>= fun _ => k calls) m := by
  rw [← Machine.reader_next hx.1]
  exact (h (hm.next hx)).congr fun _ => Run.bind_advance

theorem close {cause : Found → ParseFault.Cause}
    {l : Reader κ φ → Except ParseFault (α × Reader κ φ)} {k : Nat → Run κ φ α}
    (hm : m.Sound limit source bindings)
    (h : m.next.Sound limit source bindings →
      Tracks limit source bindings (l m.next.reader) k m.next) :
    Tracks limit source bindings ((m.reader.close cause).bind l)
      (fun calls => Run.close cause >>= fun _ => k calls) m := by
  by_cases hx : m.current.lexeme = .closing
  · have hclosing := Token.passable_of_eq hx rfl rfl
    rw [Reader.close_closing hx, ← Machine.reader_next hclosing.1]
    exact (h (hm.next hclosing)).congr fun _ => Run.bind_ok (Run.close_closing hx)
  · rw [Reader.close_other hx]
    have hfail : Tracks limit source bindings (m.reader.fail (cause m.reader.found))
        (fun _ => Run.close cause) m := (Tracks.fail hm cause).congr fun _ => Run.close_other hx
    refine hfail.bind (l := fun a => l a.2) ?_
    intro _ _ _ ho
    cases ho

end Basic

theorem routine {room : Nat} {c : Category} {name : Routine} {x : Nat → Run κ φ (Formula κ φ)}
    {o : Except ParseFault (Formula κ φ × Reader κ φ)} (hm : m.Sound limit source bindings)
    (hdepth : name = .rule .base → 1 ≤ m.depth ∧ (m.depth : Int) ≤ limit)
    (hout : Outcome limit room c [] m.reader o)
    (h : ∀ m' : Machine κ φ, m'.Sound limit source bindings → m'.toLookahead = m.toLookahead →
      Tracks limit source bindings o x m') :
    Tracks limit source bindings o
      (fun calls => do
        let before ← Run.enter name
        let t ← x calls
        Run.leave name before
        return t) m := by
  have hinner := h _ (hm.log rfl (.entered hm.level hdepth)) rfl
  refine congr (fun _ => Run.bind_enter) ?_
  cases hinner with
  | @ok t _ _ m' hm' hends =>
    let returned := m'.log (.returned name m.toLookahead m'.toLookahead)
    have hreturned : returned.Sound limit source bindings :=
      hm'.log rfl (.returned hm'.level hout.passes)
    change Tracks limit source bindings (.ok (t, returned.reader)) _ _
    exact .ok hreturned (hends.bind_ok (.of_forall fun _ => rfl))
  | error hm' hends => exact .error hm' hends.bind_error
  | exhausted => exact .exhausted

section Chain

variable {room : Nat} {c d : Category}

theorem join (hread : Follows limit source bindings d (ofCategory limit room d))
    (hout : ∀ r : Reader κ φ, r.Closed → Outcome limit room d [] r (ofCategory limit room d r))
    {budget : List (Token κ φ)} {left : Formula κ φ} (hm : m.Sound limit source bindings)
    (hlen : m.reader.rest.length ≤ budget.length) :
    Tracks limit source bindings
      (chainFrom c.joins (ofCategory limit room d) budget left m.reader)
      (Run.join limit · c d left) m := by
  induction budget generalizing m left with
  | nil =>
    have hx : c.joins m.current.lexeme = none := by
      by_contra hjoins
      obtain ⟨op, hop⟩ := Option.ne_none_iff_exists'.mp hjoins
      have hlast := hm.closed.length_rest (Category.joins_eq_some_iff.mp hop).ne_finish
      rw [List.length_nil] at hlen
      omega
    exact (pure hm left).of_succ fun _ => Run.join_ended hx
  | cons b budget ih =>
    cases hx : c.joins m.current.lexeme with
    | none =>
      rw [chainFrom_ended hx]
      exact (pure hm left).of_succ fun _ => Run.join_ended hx
    | some op =>
      have hjoins := Category.joins_eq_some_iff.mp hx
      have hnext := hm.next hjoins.passable
      have hlast := hm.closed.length_rest hjoins.ne_finish
      have houtcome := hout _ hnext.closed
      have hstep : chainFrom c.joins (ofCategory limit room d) (b :: budget) left m.reader =
          (ofCategory limit room d m.reader.advance).bind fun a =>
            chainFrom c.joins (ofCategory limit room d) budget (.binary op left a.1) a.2 := by
        rw [chainFrom, show c.joins m.reader.current.lexeme = some op from hx]
        rfl
      rw [← Machine.reader_next hjoins.ne_finish] at hlast hstep
      rw [hstep]
      refine of_succ (fun _ => Run.join_operator hx) ((hread _ hnext).bind ?_)
      intro right m' hm' ho
      rw [ho] at houtcome
      have hle := houtcome.length_rest_le
      rw [List.length_cons] at hlen
      exact ih hm' (by omega)

theorem chain (hd : c.operand? = some d)
    (hread : Follows limit source bindings d (ofCategory limit room d))
    (hout : ∀ r : Reader κ φ, r.Closed → Outcome limit room d [] r (ofCategory limit room d r)) :
    Follows limit source bindings c (ofCategory limit room c) := by
  have hbase : c ≠ .base := by
    rintro rfl
    cases hd
  intro m hm
  rw [ofCategory_eq_chain hd]
  refine of_succ (fun _ => by rw [Run.read]) (routine hm
    (fun hc => absurd (Routine.rule.inj hc) hbase) (chain_outcome hd hout hm.closed) ?_)
  intro m' hm' hm
  rw [← hm]
  exact ((hread m' hm').bind fun left m'' hm'' _ => join hread hout hm'' le_rfl).of_succ
    fun _ => congrFun (Run.body_chain hd) m'

end Chain

end Tracks

end ComplexFormula
