import ComplexFormula.Proofs.Parsing.Steps

/-! # Every derivation is found

The rule of a category, before a phrase that ends there, returns what the phrase writes if the
phrase is nested within the limit, and fails for its nesting if not. The chains are the heart of
it: a derivation that grows on the left is matched by a loop that has just read the left operand.
-/

namespace ComplexFormula

variable {κ φ α : Type}

/-- The expected outcome, or a fault of nesting, as operands nested `n` deep fit in or not. -/
structure Reaches (ceiling : Int) (n : Nat) (r : Reader κ φ)
    (expected outcome : Except ParseFault (α × Reader κ φ)) : Prop where
  within : (r.depth + n : Int) ≤ ceiling → outcome = expected
  beyond : ceiling < r.depth + n → ∃ f, outcome = .error f ∧ f.isNesting = true

namespace Category

def ceiling (limit : Int) : Category → Int
  | base => limit + 1
  | _ => limit

def Entered (limit : Int) : Category → Nat → Prop
  | base, depth => (depth : Int) ≤ limit
  | _, _ => True

theorem ceiling_of_operand {c d : Category} (h : c.operand? = some d) (limit : Int) :
    c.ceiling limit = limit ∧ d.ceiling limit = limit := by
  cases c <;> cases h <;> exact ⟨rfl, rfl⟩

theorem entered_of_operand {c d : Category} (h : c.operand? = some d) (limit : Int) (depth : Nat) :
    c.Entered limit depth ∧ d.Entered limit depth := by
  cases c <;> cases h <;> exact ⟨trivial, trivial⟩

end Category

open Rule

/-- What the phrase writes is returned wherever it ends. -/
def Reads (limit : Int) (room : Nat) (c : Category) (w : List (Lexeme κ φ)) (t : Formula κ φ)
    (n : Nat) : Prop :=
  ∀ (ts : List (Token κ φ)) (r : Reader κ φ), ts.map Token.lexeme = w →
    c.Entered limit r.depth → Ends c r.current.lexeme → ¬ Adheres w r.current.lexeme →
      Reaches (c.ceiling limit) n r (.ok (t, r)) (ofCategory limit room c (r.unread ts))

/-- Wherever its last operand ends, the chain goes on with the phrase on the left. -/
def ReadsChain (limit : Int) (room : Nat) (c d : Category) (w : List (Lexeme κ φ))
    (t : Formula κ φ) (n : Nat) : Prop :=
  ∀ (ts : List (Token κ φ)) (r : Reader κ φ), ts.map Token.lexeme = w →
    Ends d r.current.lexeme → ¬ Adheres w r.current.lexeme →
      ∃ budget : List (Token κ φ), r.rest.length ≤ budget.length ∧
        Reaches limit n r (chainFrom c.joins (ofCategory limit room d) budget t r)
          (ofCategory limit room c (r.unread ts))

section

variable {limit : Int} {room : Nat} {c d : Category} {w : List (Lexeme κ φ)} {t : Formula κ φ}
  {n : Nat}

theorem ReadsChain.reads (hd : c.operand? = some d) (h : ReadsChain limit room c d w t n) :
    Reads limit room c w t n := by
  intro ts r hw _ he ha
  obtain ⟨budget, -, hr⟩ := h ts r hw (he.tighter hd) ha
  rw [chainFrom_ended (Category.joins_eq_none he)] at hr
  rw [(Category.ceiling_of_operand hd limit).1]
  exact hr

theorem Reads.chain (hd : c.operand? = some d) (h : Reads limit room d w t n) :
    ReadsChain limit room c d w t n := by
  intro ts r hw he ha
  have hr := h ts r hw (Category.entered_of_operand hd limit _).2 he ha
  rw [(Category.ceiling_of_operand hd limit).2] at hr
  refine ⟨r.rest, le_rfl, fun hn => ?_, fun hn => ?_⟩
  · rw [ofCategory_eq_chain hd, chain_ok (hr.within hn)]
  · obtain ⟨f, hf, hfn⟩ := hr.beyond hn
    exact ⟨f, by rw [ofCategory_eq_chain hd, chain_error hf], hfn⟩

theorem ReadsChain.join {x : Lexeme κ φ} {op : Operator} {u v : List (Lexeme κ φ)}
    {a b : Formula κ φ} {m : Nat} (hd : c.operand? = some d) (hx : Joins c x op) (hv : v ≠ [])
    (hu : ReadsChain limit room c d u a m) (hb : Reads limit room d v b n) :
    ReadsChain limit room c d (u ++ x :: v) (.binary op a b) (max m n) := by
  intro ts r hw he ha
  obtain ⟨us, ys, rfl, hus, hys⟩ := List.map_eq_append_iff.mp hw
  obtain ⟨y, vs, rfl, hy, hvs⟩ := List.map_eq_cons_iff.mp hys
  have hxy : Joins c y.lexeme op := hy ▸ hx
  obtain ⟨budget, hlen, hleft⟩ := hu us (r.unread (y :: vs)) hus (hxy.ends hd)
    (not_adheres_of_ne hxy.ne_opening)
  rw [← Reader.unread_append] at hleft
  have hright := hb vs r hvs (Category.entered_of_operand hd limit _).2 he
    (by rwa [adheres_append_iff (List.cons_ne_nil _ _), adheres_cons_iff hv] at ha)
  rw [(Category.ceiling_of_operand hd limit).2] at hright
  -- the operator stands among the tokens that the budget counts
  rw [Reader.length_rest_unread, List.length_cons] at hlen
  obtain ⟨z, budget, rfl⟩ := List.exists_cons_of_length_pos (by omega : 0 < budget.length)
  rw [List.length_cons] at hlen
  have hadv : (r.unread (y :: vs)).advance = r.unread vs := Reader.advance_unread_cons ..
  have hjoin : c.joins (r.unread (y :: vs)).current.lexeme = some op :=
    Category.joins_eq_some_iff.mpr hxy
  have hdepth : (r.unread (y :: vs)).depth = r.depth := Reader.depth_unread ..
  refine ⟨budget, by omega, fun hn => ?_, fun hn => ?_⟩
  · rw [hleft.within (by omega), chainFrom_ok hjoin (hadv ▸ hright.within (by omega))]
  · by_cases hm : (r.depth + m : Int) ≤ limit
    · obtain ⟨f, hf, hfn⟩ := hright.beyond (by omega)
      exact ⟨f, by rw [hleft.within (by omega), chainFrom_error hjoin (hadv ▸ hf)], hfn⟩
    · exact hleft.beyond (by omega)

end

theorem arguments_reads {limit : Int} {room : Nat} {front : List (Phrase κ φ)} {last : Phrase κ φ}
    (h : ∀ p ∈ front ++ [last], Reads limit room .sum p.words p.tree p.nesting)
    {k : Nat} (hk : front.length + 1 ≤ k) {ts : List (Token κ φ)} (y : Token κ φ)
    {r : Reader κ φ} (hw : ts.map Token.lexeme = Phrase.separated front ++ last.words)
    (he : Ends .sum r.current.lexeme) (ha : ¬ Adheres last.words r.current.lexeme)
    (hs : r.current.lexeme ≠ .separator ∨ front.length + 1 = k) :
    Reaches limit (Phrase.deepest (front ++ [last])) r (.ok ((front ++ [last]).map Phrase.tree, r))
      (arguments (sum (power limit room)) k (r.unread (y :: ts))) := by
  induction front generalizing k ts y with
  | nil =>
    obtain ⟨k, rfl⟩ := Nat.exists_eq_add_of_le' hk
    have hr := h last (List.mem_singleton_self last) ts r hw trivial he ha
    simp only [List.nil_append, List.map_cons, List.map_nil, Phrase.deepest, Nat.max_zero]
    have hadv : (r.unread (y :: ts)).advance = r.unread ts := Reader.advance_unread_cons ..
    constructor
    · intro hn
      refine arguments_last (hadv ▸ hr.within hn) (hs.imp_right fun hk => ?_)
      simp only [List.length_nil] at hk
      omega
    · intro hn
      obtain ⟨f, hf, hfn⟩ := hr.beyond hn
      exact ⟨f, arguments_error (hadv ▸ hf), hfn⟩
  | cons p front ih =>
    rw [List.length_cons] at hk hs
    obtain ⟨k, rfl⟩ : ∃ l, k = l + 1 := ⟨k - 1, by omega⟩
    rw [Phrase.separated_cons, List.append_assoc, List.cons_append] at hw
    obtain ⟨us, zs, rfl, hus, hzs⟩ := List.map_eq_append_iff.mp hw
    obtain ⟨z, vs, rfl, hz, hvs⟩ := List.map_eq_cons_iff.mp hzs
    have hp := h p (List.mem_append_left _ List.mem_cons_self) us (r.unread (z :: vs)) hus trivial
      (by rw [Reader.current_unread_cons, hz]; exact ends_separator)
      (by rw [Reader.current_unread_cons, hz]; exact not_adheres_of_ne nofun)
    have hrest := ih (fun q hq => h q (List.mem_cons_of_mem p hq)) (k := k) (by omega) z hvs
      (hs.imp_right fun hk => by omega)
    have hadv : (r.unread (y :: (us ++ z :: vs))).advance = (r.unread (z :: vs)).unread us := by
      rw [Reader.advance_unread_cons, Reader.unread_append]
    have hdepth : (r.unread (z :: vs)).depth = r.depth := Reader.depth_unread ..
    simp only [List.cons_append, List.map_cons, Phrase.deepest]
    constructor
    · intro hn
      rw [arguments_more (hadv ▸ hp.within (by simp only [Category.ceiling]; omega))
        (by rw [Reader.current_unread_cons, hz]) (by omega), hrest.within (by omega)]
      rfl
    · intro hn
      by_cases hm : (r.depth + p.nesting : Int) ≤ limit
      · obtain ⟨f, hf, hfn⟩ := hrest.beyond (by omega)
        refine ⟨f, ?_, hfn⟩
        rw [arguments_more (hadv ▸ hp.within (by simp only [Category.ceiling]; omega))
          (by rw [Reader.current_unread_cons, hz]) (by omega), hf]
        rfl
      · obtain ⟨f, hf, hfn⟩ := hp.beyond (by simp only [Category.ceiling]; omega)
        exact ⟨f, arguments_error (hadv ▸ hf), hfn⟩

section Base

variable {limit : Int} {room : Nat}

theorem reads_leaf {x : Lexeme κ φ} {t : Formula κ φ}
    (h : ∀ (operand nested : Rule κ φ) (r : Reader κ φ), r.current.lexeme = x →
      base operand nested r = .ok (t, r.advance)) :
    Reads limit room .base [x] t 1 := by
  intro ts r hw hin _ _
  obtain ⟨y, rfl, hy⟩ := List.map_eq_singleton_iff.mp hw
  simp only [Category.Entered, Category.ceiling] at hin ⊢
  exact ⟨fun _ => h _ _ (r.unread [y]) hy, fun hn => by omega⟩

theorem reads_name {callee : Callee κ φ} (harity : callee.arity = 0) :
    Reads limit room .base [.symbol (.callable callee)] (.call callee []) 1 := by
  intro ts r hw hin _ ha
  obtain ⟨y, rfl, hy⟩ := List.map_eq_singleton_iff.mp hw
  have hx : r.current.lexeme ≠ .opening := fun hx => ha (adheres_name_iff.mpr ⟨hx, harity⟩)
  simp only [Category.Entered, Category.ceiling] at hin ⊢
  refine ⟨fun _ => ?_, fun hn => by omega⟩
  rw [ofCategory, base_call hy, Reader.advance_unread_cons, Reader.unread_nil,
    call_name harity hx]

theorem reads_emptyCall {callee : Callee κ φ} (harity : callee.arity = 0) :
    Reads limit room .base [.symbol (.callable callee), .opening, .closing] (.call callee []) 1 := by
  intro ts r hw hin _ _
  obtain ⟨y, ys, rfl, hy, hys⟩ := List.map_eq_cons_iff.mp hw
  obtain ⟨z, zs, rfl, hz, hzs⟩ := List.map_eq_cons_iff.mp hys
  obtain ⟨e, rfl, he⟩ := List.map_eq_singleton_iff.mp hzs
  simp only [Category.Entered, Category.ceiling] at hin ⊢
  refine ⟨fun _ => ?_, fun hn => by omega⟩
  rw [ofCategory, base_call hy, Reader.advance_unread_cons, call_empty harity hz]
  · simp only [Reader.advance_unread_cons, Reader.unread_nil]
  · rwa [Reader.advance_unread_cons]

theorem Reads.application {callee : Callee κ φ} {w : List (Lexeme κ φ)} {t : Formula κ φ} {n : Nat}
    (harity : callee.arity = 1) (hw : w ≠ []) (h : Reads limit (room - 1) .power w t n) :
    Reads limit room .base (.symbol (.callable callee) :: w) (.call callee [t]) (n + 1) := by
  intro ts r hts hin _ ha
  obtain ⟨y, ys, rfl, hy, hys⟩ := List.map_eq_cons_iff.mp hts
  have hr := h ys r hys trivial (ends_power _) (by rwa [adheres_cons_iff hw] at ha)
  simp only [Category.Entered, Category.ceiling] at hin hr ⊢
  have hcall : ofCategory limit room .base (r.unread (y :: ys)) =
      (ofCategory limit (room - 1) .power (r.unread ys)).bind
        fun p => .ok (.call callee [p.1], p.2) := by
    refine (base_call hy).trans ?_
    rw [Reader.advance_unread_cons, call_operand harity]
    rfl
  rw [hcall]
  constructor
  · intro hn
    rw [hr.within (by omega)]
    rfl
  · intro hn
    obtain ⟨f, hf, hfn⟩ := hr.beyond (by omega)
    exact ⟨f, by rw [hf]; rfl, hfn⟩

theorem Reads.call {callee : Callee κ φ} {front : List (Phrase κ φ)} {last : Phrase κ φ}
    (two_le : 2 ≤ callee.arity) (count : front.length + 1 = callee.arity)
    (h : ∀ p ∈ front ++ [last], Reads limit (room - 2) .sum p.words p.tree p.nesting) :
    Reads limit room .base
      (.symbol (.callable callee) :: .opening ::
        (Phrase.separated front ++ last.words ++ [.closing]))
      (.call callee ((front ++ [last]).map Phrase.tree))
      (Phrase.deepest (front ++ [last]) + 1) := by
  intro ts r hw hin _ _
  obtain ⟨y, ys, rfl, hy, hys⟩ := List.map_eq_cons_iff.mp hw
  obtain ⟨z, zs, rfl, hz, hzs⟩ := List.map_eq_cons_iff.mp hys
  obtain ⟨vs, es, rfl, hvs, hes⟩ := List.map_eq_append_iff.mp hzs
  obtain ⟨e, rfl, he⟩ := List.map_eq_singleton_iff.mp hes
  have hargs := arguments_reads h (Nat.le_of_eq count) z (r := r.unread [e]) hvs
    (by rw [Reader.current_unread_cons, he]; exact ends_closing _)
    (by rw [Reader.current_unread_cons, he]; exact not_adheres_of_ne nofun) (.inr count)
  rw [← Reader.unread_append, List.cons_append] at hargs
  simp only [Category.Entered, Category.ceiling] at hin ⊢
  have hdepth : (r.unread [e]).depth = r.depth := Reader.depth_unread ..
  have hadv : (r.unread (y :: z :: (vs ++ [e]))).advance = r.unread (z :: (vs ++ [e])) :=
    Reader.advance_unread_cons ..
  constructor
  · intro hn
    rw [ofCategory, base_call hy, hadv, call_ok two_le hz (hargs.within (by omega)), if_pos]
    · simp only [Reader.advance_unread_cons, Reader.unread_nil]
    · rw [Bool.and_eq_true, Reader.current_unread_cons, he]
      exact ⟨rfl, by simp [count]⟩
  · intro hn
    obtain ⟨f, hf, hfn⟩ := hargs.beyond (by omega)
    exact ⟨f, by rw [ofCategory, base_call hy, hadv, call_error two_le hz hf], hfn⟩

theorem Reads.parenthesised {w : List (Lexeme κ φ)} {t : Formula κ φ} {n : Nat}
    (h : Reads limit (room - 2) .list w t n) :
    Reads limit room .base (.opening :: (w ++ [.closing])) t (n + 1) := by
  intro ts r hts hin _ _
  obtain ⟨y, ys, rfl, hy, hys⟩ := List.map_eq_cons_iff.mp hts
  obtain ⟨vs, es, rfl, hvs, hes⟩ := List.map_eq_append_iff.mp hys
  obtain ⟨e, rfl, he⟩ := List.map_eq_singleton_iff.mp hes
  have hr := h vs (r.unread [e]) hvs trivial
    (by rw [Reader.current_unread_cons, he]; exact ends_closing _)
    (by rw [Reader.current_unread_cons, he]; exact not_adheres_of_ne nofun)
  rw [← Reader.unread_append] at hr
  simp only [Category.Entered, Category.ceiling] at hin hr ⊢
  have hdepth : (r.unread [e]).depth = r.depth := Reader.depth_unread ..
  have hadv : (r.unread (y :: (vs ++ [e]))).advance = r.unread (vs ++ [e]) :=
    Reader.advance_unread_cons ..
  constructor
  · intro hn
    rw [ofCategory, base_closed hy (hadv ▸ hr.within (by omega)) he, Reader.advance_unread_cons,
      Reader.unread_nil]
  · intro hn
    obtain ⟨f, hf, hfn⟩ := hr.beyond (by omega)
    exact ⟨f, by rw [ofCategory, base_list_error hy (hadv ▸ hf)], hfn⟩

end Base

namespace Derives

variable {c : Category} {w : List (Lexeme κ φ)} {t : Formula κ φ} {n : Nat}

theorem base_head (h : Derives .base w t n) :
    ∃ x v, w = x :: v ∧ ∀ s : Sign, x ≠ s.lexeme := by
  cases h with
  | single h => cases h
  | join h => cases h
  | _ => exact ⟨_, _, rfl, fun s => nofun⟩

theorem reads_signed {limit : Int} {room : Nat} (signs : List Sign) (hb : Derives .base w t n)
    (hroom : 2 * n ≤ room) (h : Reads limit room .base w t n) :
    Reads limit room .power (signs.map Sign.lexeme ++ w)
      (if Odd (signs.count .minus) then t.negate else t) n := by
  intro ts r hts _ _ ha
  obtain ⟨ss, vs, rfl, hss, hvs⟩ := List.map_eq_append_iff.mp hts
  have hpos := hb.nesting_pos
  simp only [Category.ceiling]
  by_cases hd : (r.depth + 1 : Int) ≤ limit
  · obtain ⟨room, rfl⟩ : ∃ k, room = k + 2 := ⟨room - 2, by omega⟩
    let inner : Reader κ φ := ⟨r.current, r.rest, r.depth + 1⟩
    have hinner : inner.depth = r.depth + 1 := rfl
    have hr := h vs inner hvs (by simp only [Category.Entered]; omega) (ends_base _)
      (by rwa [adheres_append_iff hb.ne_nil] at ha)
    have hx : ∀ s : Sign, (inner.unread vs).current.lexeme ≠ s.lexeme := by
      obtain ⟨x, v, rfl, hx⟩ := hb.base_head
      obtain ⟨y, ys, rfl, hy, -⟩ := List.map_eq_cons_iff.mp hvs
      exact fun s => hy ▸ hx s
    have hsigns := Reader.signs_unread hss hx
    rw [← Reader.unread_append, ← Reader.unread_atDepth, ← Reader.depth_unread r (ss ++ vs)] at hsigns
    simp only [Category.ceiling] at hr
    have hd' : ((r.unread (ss ++ vs)).depth + 1 : Int) ≤ limit := by rwa [Reader.depth_unread]
    constructor
    · intro hn
      refine (power_ok hd' hsigns (hr.within (by omega))).trans ?_
      simp [inner]
    · intro hn
      obtain ⟨f, hf, hfn⟩ := hr.beyond (by omega)
      exact ⟨f, power_error hd' hsigns hf, hfn⟩
  · have hdeep : limit < (r.unread (ss ++ vs)).depth + 1 := by rw [Reader.depth_unread]; omega
    exact ⟨fun hn => by omega, fun _ => ⟨_, power_deep hdeep, rfl⟩⟩

/-- Whatever is derived is read, with room for two units for each level of nesting. -/
theorem reads_chain (h : Derives c w t n) (limit : Int) (room : Nat) (hroom : 2 * n ≤ room) :
    Reads limit room c w t n ∧ ∀ d, c.operand? = some d → ReadsChain limit room c d w t n := by
  induction h generalizing room with
  | @single c d w t n hd _ ih =>
    have hc := (ih room hroom).1.chain hd
    refine ⟨hc.reads hd, fun d' hd' => ?_⟩
    obtain rfl := Option.some.inj (hd.symm.trans hd')
    exact hc
  | @join c d x op u v a b m n hd hx _ hb ihu ihv =>
    have hc := ((ihu room (by omega)).2 d hd).join hd hx hb.ne_nil (ihv room (by omega)).1
    refine ⟨hc.reads hd, fun d' hd' => ?_⟩
    obtain rfl := Option.some.inj (hd.symm.trans hd')
    exact hc
  | signed signs hb ih =>
    exact ⟨reads_signed signs hb hroom (ih room hroom).1, fun d hd => nomatch hd⟩
  | real x => exact ⟨reads_leaf fun _ _ r hx => by rw [base, hx], fun d hd => nomatch hd⟩
  | imaginary x => exact ⟨reads_leaf fun _ _ r hx => by rw [base, hx], fun d hd => nomatch hd⟩
  | cell name k => exact ⟨reads_leaf fun _ _ r hx => by rw [base, hx], fun d hd => nomatch hd⟩
  | name harity => exact ⟨reads_name harity, fun d hd => nomatch hd⟩
  | emptyCall harity => exact ⟨reads_emptyCall harity, fun d hd => nomatch hd⟩
  | application harity ho ih =>
    exact ⟨(ih (room - 1) (by omega)).1.application harity ho.ne_nil, fun d hd => nomatch hd⟩
  | call two_le count _ ih =>
    refine ⟨.call two_le count fun p hp => (ih p hp (room - 2) ?_).1, fun d hd => nomatch hd⟩
    have := Phrase.nesting_le_deepest hp
    omega
  | parenthesised _ ih =>
    exact ⟨(ih (room - 2) (by omega)).1.parenthesised, fun d hd => nomatch hd⟩

theorem reads (h : Derives c w t n) (limit : Int) (room : Nat) (hroom : 2 * n ≤ room) :
    Reads limit room c w t n :=
  (h.reads_chain limit room hroom).1

theorem reads_finish (h : Derives c w t n) (limit : Int) {room : Nat} (hroom : 2 * n ≤ room)
    {ts : List (Token κ φ)} {r : Reader κ φ} (hw : ts.map Token.lexeme = w)
    (hentered : c.Entered limit r.depth) (hx : r.current.lexeme = .finish) :
    Reaches (c.ceiling limit) n r (.ok (t, r)) (ofCategory limit room c (r.unread ts)) := by
  apply h.reads limit room hroom ts r hw hentered
  · rw [hx]
    exact ends_finish c
  · apply not_adheres_of_ne
    rw [hx]
    exact nofun

/-- A phrase writes one formula only: the reader, which can return but one, finds every derivation. -/
theorem tree_unique {t' : Formula κ φ} {n' : Nat} (h : Derives c w t n) (h' : Derives c w t' n') :
    t = t' := by
  let r : Reader κ φ := ⟨.ofLexeme .finish, [], 0⟩
  have honce {t : Formula κ φ} {n : Nat} (h : Derives c w t n) (hn : n ≤ w.length) :
      ofCategory w.length (2 * w.length) c (r.unread (w.map .ofLexeme)) = .ok (t, r) := by
    refine (h.reads_finish w.length (by omega) (Token.map_lexeme_ofLexeme w) ?_ rfl).within ?_
    · cases c <;> first | trivial | exact Int.natCast_nonneg w.length
    · cases c <;> simp only [r, Category.ceiling] <;> omega
  have heq := (honce h h.nesting_le_length).symm.trans (honce h' h'.nesting_le_length)
  exact congrArg Prod.fst (Except.ok.inj heq)

end Derives

end ComplexFormula
