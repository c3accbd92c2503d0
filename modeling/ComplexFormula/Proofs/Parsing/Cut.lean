import ComplexFormula.Proofs.Parsing.Soundness

/-! # Tighter limits

Under tighter limits a rule does the same as under laxer ones, or is cut short. A cut comes no later
than anything that the laxer limits would let be read or report after it.
-/

namespace ComplexFormula

variable {κ φ α β : Type}

/-- A reader of a source: the last token is the end, and tokens stand in the order of the text. -/
structure Reader.Ordered (r : Reader κ φ) : Prop where
  closed : r.Closed
  sorted : r.tokens.Pairwise fun t u => t.stop ≤ u.stop

namespace Reader.Ordered

variable {r s : Reader κ φ} {ts : List (Token κ φ)}

theorem of_unread (h : (s.unread ts).Ordered) :
    s.Ordered ∧ (s.unread ts).current.stop ≤ s.current.stop := by
  obtain ⟨hc, hs⟩ := h
  rw [tokens_unread] at hs
  refine ⟨⟨(closed_unread ..).mp hc, (List.pairwise_append.mp hs).2.1⟩, ?_⟩
  cases ts with
  | nil => exact le_rfl
  | cons t ts =>
    exact (List.pairwise_append.mp hs).2.2 t List.mem_cons_self s.current List.mem_cons_self

theorem advance (h : r.Ordered) : r.advance.Ordered ∧ r.current.stop ≤ r.advance.current.stop := by
  have hc := h.closed.advance
  obtain ⟨t, ts, d⟩ := r
  cases ts with
  | nil => exact ⟨h, le_rfl⟩
  | cons u us =>
    obtain ⟨hle, hs⟩ := List.pairwise_cons.mp h.sorted
    exact ⟨⟨hc, hs⟩, hle u List.mem_cons_self⟩

theorem atDepth (h : r.Ordered) (d : Nat) : (⟨r.current, r.rest, d⟩ : Reader κ φ).Ordered :=
  ⟨h.closed, h.sorted⟩

end Reader.Ordered

/-- What has been read, or the fault, stands at this place or further on. -/
def Onward (place : Nat) : Except ParseFault (α × Reader κ φ) → Prop
  | .ok (_, s) => s.Ordered ∧ place ≤ s.current.stop
  | .error f => place ≤ f.cursor

theorem Onward.mono {p q : Nat} {o : Except ParseFault (α × Reader κ φ)} (h : Onward q o)
    (hle : p ≤ q) : Onward p o := by
  cases o with
  | ok a => exact ⟨h.1, Nat.le_trans hle h.2⟩
  | error f => exact Nat.le_trans hle h

theorem Onward.fail {p : Nat} {r : Reader κ φ} (h : p ≤ r.current.stop)
    (cause : ParseFault.Cause) : Onward p (r.fail cause : Except ParseFault (α × Reader κ φ)) := h

theorem Outcome.onward {limit : Int} {room : Nat} {c : Category} {us : List (Token κ φ)}
    {r : Reader κ φ} {o : Except ParseFault (Formula κ φ × Reader κ φ)}
    (h : Outcome limit room c us r o) (hr : r.Ordered) : Onward r.current.stop o := by
  cases h with
  | ok hc => exact hc ▸ Reader.Ordered.of_unread (hc ▸ hr)
  | stuck hc => exact hc ▸ (Reader.Ordered.of_unread (hc ▸ hr)).2
  | deep hc => exact hc ▸ (Reader.Ordered.of_unread (hc ▸ hr)).2

variable {P : ParseFault.Cause → Prop}

/-- The outcome `o` is `o'`, or is a fault that `P` allows at or before the place of `o'`. Neither
is before `place`. -/
structure Cuts (P : ParseFault.Cause → Prop) (place : Nat)
    (o o' : Except ParseFault (α × Reader κ φ)) : Prop where
  onward : Onward place o'
  cut : o = o' ∨ ∃ f, o = .error f ∧ P f.cause ∧ Onward f.cursor o'

namespace Cuts

variable {p q : Nat} {o o' : Except ParseFault (α × Reader κ φ)}

theorem refl (h : Onward p o) : Cuts P p o o := ⟨h, .inl rfl⟩

theorem mono (h : Cuts P q o o') (hle : p ≤ q) : Cuts P p o o' := ⟨h.onward.mono hle, h.cut⟩

theorem bind (h : Cuts P p o o') {k k' : α × Reader κ φ → Except ParseFault (β × Reader κ φ)}
    (hk : ∀ a s, s.Ordered → Cuts P s.current.stop (k (a, s)) (k' (a, s))) :
    Cuts P p (o.bind k) (o'.bind k') := by
  have honward {q : Nat} (h : Onward q o') : Onward q (o'.bind k') := by
    match o' with
    | .ok (a, s) => exact (hk a s h.1).onward.mono h.2
    | .error f => exact h
  refine ⟨honward h.onward, ?_⟩
  rcases h.cut with rfl | ⟨f, rfl, hf, hle⟩
  · match o with
    | .ok (a, s) => exact (hk a s h.onward.1).cut
    | .error f => exact .inl rfl
  · exact .inr ⟨f, rfl, hf, honward hle⟩

end Cuts

def RulesCut (P : ParseFault.Cause → Prop) (a b : Rule κ φ) : Prop :=
  ∀ r : Reader κ φ, r.Ordered → Cuts P r.current.stop (a r) (b r)

namespace RulesCut

open Rule

variable {a b a' b' : Rule κ φ} {joins : Lexeme κ φ → Option Operator}

theorem advance (h : RulesCut P a b) {r : Reader κ φ} (hr : r.Ordered) :
    Cuts P r.current.stop (a r.advance) (b r.advance) :=
  (h _ hr.advance.1).mono hr.advance.2

theorem chainFrom (h : RulesCut P a b) (budget : List (Token κ φ)) (left : Formula κ φ) :
    RulesCut P (chainFrom joins a budget left) (chainFrom joins b budget left) := by
  induction budget generalizing left with
  | nil => exact fun r hr => .refl ⟨hr, le_rfl⟩
  | cons t budget ih =>
    intro r hr
    simp only [Rule.chainFrom]
    split
    · exact (h.advance hr).bind fun right s hs => ih _ s hs
    · exact .refl ⟨hr, le_rfl⟩

theorem chain (h : RulesCut P a b) : RulesCut P (chain joins a) (chain joins b) :=
  fun r hr => (h r hr).bind fun left s hs => h.chainFrom s.rest left s hs

theorem sum (h : RulesCut P a b) : RulesCut P (sum a) (sum b) := h.chain.chain.chain

theorem list (h : RulesCut P a b) : RulesCut P (list a) (list b) := h.sum.chain

theorem arguments (h : RulesCut P a b) (k : Nat) (r : Reader κ φ) (hr : r.Ordered) :
    Cuts P r.current.stop (arguments a k r) (arguments b k r) := by
  induction k generalizing r with
  | zero => exact .refl ⟨hr, le_rfl⟩
  | succ k ih =>
    refine (h.advance hr).bind fun t s hs => ?_
    dsimp only
    split
    · exact (ih s hs).bind fun ts s' hs' => .refl ⟨hs', le_rfl⟩
    · exact .refl ⟨hs, le_rfl⟩

theorem call (h : RulesCut P a b) (h' : RulesCut P a' b') (callee : Callee κ φ) :
    RulesCut P (call a a' callee) (call b b' callee) := by
  intro r hr
  match harity : callee.arity with
  | 0 =>
    by_cases hx : r.current.lexeme = .opening
    · by_cases hy : r.advance.current.lexeme = .closing
      · rw [call_empty harity hx hy, call_empty harity hx hy]
        have hr' := hr.advance.1.advance
        exact .refl ⟨hr'.1, Nat.le_trans hr.advance.2 hr'.2⟩
      · rw [call_unclosed harity hx hy, call_unclosed harity hx hy]
        exact .refl (.fail hr.advance.2 _)
    · rw [call_name harity hx, call_name harity hx]
      exact .refl ⟨hr, le_rfl⟩
  | 1 =>
    rw [call_operand harity, call_operand harity]
    exact (h r hr).bind fun arg s hs => .refl ⟨hs, le_rfl⟩
  | k + 2 =>
    simp only [Rule.call, harity]
    split
    · refine (h'.sum.arguments (k + 2) r hr).bind fun args s hs => ?_
      dsimp only
      split
      · exact .refl hs.advance
      · exact .refl (.fail le_rfl _)
    · exact .refl (.fail le_rfl _)

theorem base (h : RulesCut P a b) (h' : RulesCut P a' b') : RulesCut P (base a a') (base b b') := by
  intro r hr
  simp only [Rule.base]
  split
  · exact .refl hr.advance
  · exact .refl hr.advance
  · exact .refl hr.advance
  · exact (h.call h' _ _ hr.advance.1).mono hr.advance.2
  · refine (h'.list.advance hr).bind fun t s hs => ?_
    by_cases hx : s.current.lexeme = .closing
    · simp only [Reader.close_closing hx]
      exact .refl hs.advance
    · simp only [Reader.close_other hx]
      exact .refl (.fail le_rfl _)
  · exact .refl (.fail le_rfl _)
  · exact .refl (.fail le_rfl _)

/-- Operands under limits of which one is tighter; `P` allows the faults of the tighter limits. -/
theorem power {limit limit' : Int} {room room' : Nat} (hl : limit ≤ limit') (hr : room ≤ room')
    (hn : limit < limit' → P (.nesting limit)) (he : room < room' → P .exhausted) :
    RulesCut P (power limit room : Rule κ φ) (power limit' room') := by
  induction room using Nat.strong_induction_on generalizing room' with
  | h room ih =>
  intro r hord
  have honward := (power_outcome limit' room' r hord.closed).onward hord
  by_cases hd : limit < r.depth + 1
  · rcases Int.le_iff_eq_or_lt.mp hl with rfl | hlt
    · rw [power_deep hd, power_deep hd]
      exact .refl (.fail le_rfl _)
    · rw [power_deep hd]
      exact ⟨honward, .inr ⟨_, rfl, hn hlt, honward⟩⟩
  · have hd' : ¬ limit' < r.depth + 1 := by omega
    by_cases hroom : room < 2
    · rw [power_exhausted (by omega) hroom]
      rcases Nat.eq_or_lt_of_le hr with rfl | hlt
      · rw [power_exhausted (by omega) hroom]
        exact .refl (.fail le_rfl _)
      · exact ⟨honward, .inr ⟨_, rfl, he hlt, honward⟩⟩
    · obtain ⟨room, rfl⟩ := Nat.exists_eq_add_of_le' (Nat.le_of_not_lt hroom)
      obtain ⟨room', rfl⟩ := Nat.exists_eq_add_of_le' (Nat.le_trans (Nat.le_add_left 2 room) hr)
      have hr : room ≤ room' := Nat.le_of_add_le_add_right hr
      have hinner := hord.atDepth (r.depth + 1)
      obtain ⟨ss, signs, s, hs, hss, hx⟩ := hinner.closed.exists_signs
      obtain ⟨hso, hle⟩ := Reader.Ordered.of_unread (hs ▸ hinner)
      rw [← hs] at hle
      have hbase := (ih (room + 1) (by omega) (Nat.succ_le_succ hr)
        fun _ => he (by omega)).base (ih room (by omega) hr fun _ => he (by omega)) s hso
      simp only [Rule.power, if_neg hd, if_neg hd', hs, Reader.signs_unread hss hx]
      exact (hbase.mono hle).bind fun t s' hs' => .refl ⟨hs'.atDepth _, le_rfl⟩

end RulesCut

end ComplexFormula
