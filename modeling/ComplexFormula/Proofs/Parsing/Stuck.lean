import ComplexFormula.Proofs.Parsing.Completeness

/-! # Where reading gets stuck

A phrase that has been begun well and cannot go on with the next lexeme. Such a beginning can be
completed in another way, and every rule that meets it fails at that lexeme.
-/

namespace ComplexFormula

variable {κ φ : Type}

/-- `Stuck c w x`: the lexemes `w` begin a phrase of category `c`, and `x` cannot come next. -/
inductive Stuck : Category → List (Lexeme κ φ) → Lexeme κ φ → Prop
  | operand {c d : Category} {w : List (Lexeme κ φ)} {x : Lexeme κ φ}
      (tighter : c.operand? = some d) (phrase : Stuck d w x) : Stuck c w x
  | join {c d : Category} {y x : Lexeme κ φ} {op : Operator} {u w : List (Lexeme κ φ)}
      {a : Formula κ φ} {m : Nat} (tighter : c.operand? = some d) (operator : Joins c y op)
      (left : Derives c u a m) (right : Stuck d w x) : Stuck c (u ++ y :: w) x
  | signed (signs : List Sign) {w : List (Lexeme κ φ)} {x : Lexeme κ φ}
      (phrase : Stuck .base w x) : Stuck .power (signs.map Sign.lexeme ++ w) x
  | start {x : Lexeme κ φ} (other : ¬ Begins x) : Stuck .base [] x
  | emptyCall {callee : Callee κ φ} {x : Lexeme κ φ} (arity : callee.arity = 0)
      (other : x ≠ .closing) : Stuck .base [.symbol (.callable callee), .opening] x
  | application {callee : Callee κ φ} {w : List (Lexeme κ φ)} {x : Lexeme κ φ}
      (arity : callee.arity = 1) (phrase : Stuck .power w x) :
      Stuck .base (.symbol (.callable callee) :: w) x
  | unopened {callee : Callee κ φ} {x : Lexeme κ φ} (two_le : 2 ≤ callee.arity)
      (other : x ≠ .opening) : Stuck .base [.symbol (.callable callee)] x
  | argument {callee : Callee κ φ} {front : List (Phrase κ φ)} {w : List (Lexeme κ φ)}
      {x : Lexeme κ φ} (two_le : 2 ≤ callee.arity) (count : front.length + 1 ≤ callee.arity)
      (arguments : ∀ p ∈ front, Derives .sum p.words p.tree p.nesting) (phrase : Stuck .sum w x) :
      Stuck .base (.symbol (.callable callee) :: .opening :: (Phrase.separated front ++ w)) x
  /-- Neither another argument nor the end of the arguments. -/
  | arguments {callee : Callee κ φ} {front : List (Phrase κ φ)} {last : Phrase κ φ}
      {x : Lexeme κ φ} (two_le : 2 ≤ callee.arity) (count : front.length + 1 ≤ callee.arity)
      (arguments : ∀ p ∈ front ++ [last], Derives .sum p.words p.tree p.nesting)
      (ends : Ends .sum x) (adheres : ¬ Adheres last.words x)
      (other : x ≠ .closing ∨ front.length + 1 ≠ callee.arity)
      (separator : x ≠ .separator ∨ front.length + 1 = callee.arity) :
      Stuck .base
        (.symbol (.callable callee) :: .opening :: (Phrase.separated front ++ last.words)) x
  | list {w : List (Lexeme κ φ)} {x : Lexeme κ φ} (phrase : Stuck .list w x) :
      Stuck .base (.opening :: w) x
  | unclosed {w : List (Lexeme κ φ)} {t : Formula κ φ} {n : Nat} {x : Lexeme κ φ}
      (phrase : Derives .list w t n) (ends : Ends .list x) (adheres : ¬ Adheres w x)
      (other : x ≠ .closing) : Stuck .base (.opening :: w) x

namespace Phrase

/-- The number zero, which can stand for any operand. -/
def zero : Phrase κ φ := ⟨[.real 0.0], .constant ⟨0.0, 0.0⟩, 1⟩

theorem derives_zero {p : Phrase κ φ} (h : p = zero) : Derives .sum p.words p.tree p.nesting :=
  h ▸ .single rfl (.single rfl (.single rfl (.signed [] (.real 0.0))))

end Phrase

theorem Derives.exists_call {callee : Callee κ φ} (front : List (Phrase κ φ)) (last : Phrase κ φ)
    (two_le : 2 ≤ callee.arity) (count : front.length + 1 ≤ callee.arity)
    (h : ∀ p ∈ front ++ [last], Derives .sum p.words p.tree p.nesting) :
    ∃ z t n, Derives .base (.symbol (.callable callee) :: .opening ::
      (Phrase.separated front ++ last.words ++ z)) t n := by
  rcases Nat.eq_or_lt_of_le count with heq | hlt
  · exact ⟨[.closing], _, _, .call two_le heq h⟩
  · let more := List.replicate (callee.arity - front.length - 2) (Phrase.zero : Phrase κ φ)
    have hall : ∀ p ∈ (front ++ last :: more) ++ [Phrase.zero],
        Derives .sum p.words p.tree p.nesting := by
      intro p hp
      rw [List.append_assoc, List.cons_append, List.append_cons] at hp
      rcases List.mem_append.mp hp with hp | hp
      · exact h p hp
      · rcases List.mem_append.mp hp with hp | hp
        · exact Phrase.derives_zero (List.eq_of_mem_replicate hp)
        · exact Phrase.derives_zero (List.mem_singleton.mp hp)
    have hlen : (front ++ last :: more).length + 1 = callee.arity := by
      simp only [more, List.length_append, List.length_cons, List.length_replicate]
      omega
    have hwords : Phrase.separated (front ++ last :: more) ++ Phrase.zero.words ++ [.closing] =
        Phrase.separated front ++ last.words ++
          .separator :: (Phrase.separated more ++ Phrase.zero.words ++ [.closing]) := by
      simp
    have hcall := Derives.call two_le hlen hall
    rw [hwords] at hcall
    exact ⟨_, _, _, hcall⟩

namespace Stuck

variable {c : Category} {w : List (Lexeme κ φ)} {x : Lexeme κ φ}

/-- What has been read before can always be completed. -/
theorem completable (h : Stuck c w x) : ∃ z t n, Derives c (w ++ z) t n := by
  induction h with
  | operand hd _ ih =>
    obtain ⟨z, t, n, h⟩ := ih
    exact ⟨z, t, n, .single hd h⟩
  | @join c d y x op u w a m hd hy hu _ ih =>
    obtain ⟨z, t, n, h⟩ := ih
    exact ⟨z, _, _, by simpa using Derives.join hd hy hu h⟩
  | signed signs _ ih =>
    obtain ⟨z, t, n, h⟩ := ih
    exact ⟨z, _, n, by simpa using Derives.signed signs h⟩
  | start => exact ⟨[.real 0.0], _, _, .real 0.0⟩
  | emptyCall harity => exact ⟨[.closing], _, _, .emptyCall harity⟩
  | application harity _ ih =>
    obtain ⟨z, t, n, h⟩ := ih
    exact ⟨z, _, _, .application harity h⟩
  | unopened two_le =>
    obtain ⟨z, t, n, h⟩ := Derives.exists_call [] Phrase.zero two_le (by simp; omega)
      fun p hp => Phrase.derives_zero (List.mem_singleton.mp hp)
    exact ⟨_, t, n, h⟩
  | @argument callee front w x two_le count hargs _ ih =>
    obtain ⟨z, t, n, h⟩ := ih
    obtain ⟨z', t', n', h'⟩ := Derives.exists_call front ⟨w ++ z, t, n⟩ two_le count fun p hp => by
      rcases List.mem_append.mp hp with hp | hp
      · exact hargs p hp
      · exact List.mem_singleton.mp hp ▸ h
    exact ⟨z ++ z', t', n', by simpa using h'⟩
  | arguments two_le count hargs =>
    obtain ⟨z, t, n, h⟩ := Derives.exists_call _ _ two_le count hargs
    exact ⟨z, t, n, h⟩
  | list _ ih =>
    obtain ⟨z, t, n, h⟩ := ih
    exact ⟨z ++ [.closing], t, _, by simpa using Derives.parenthesised h⟩
  | unclosed h => exact ⟨[.closing], _, _, .parenthesised h⟩

theorem base_head (h : Stuck .base w x) : ∃ y v, w ++ [x] = y :: v ∧ ∀ s : Sign, y ≠ s.lexeme := by
  cases h with
  | operand h => cases h
  | join h => cases h
  | start hx => exact ⟨x, [], rfl, fun s he => hx (he ▸ .sign s)⟩
  | _ => exact ⟨_, _, rfl, fun s => nofun⟩

end Stuck

open Rule

theorem arguments_fails {limit : Int} {room : Nat} {front : List (Phrase κ φ)}
    (h : ∀ p ∈ front, Derives .sum p.words p.tree p.nesting) {us vs : List (Token κ φ)}
    {r : Reader κ φ} {cause : ParseFault.Cause} (hus : us.map Token.lexeme = Phrase.separated front)
    (hdepth : (r.depth + us.length : Int) ≤ limit) (hroom : 2 * us.length ≤ room)
    (hv : sum (power limit room) (r.unread vs) = r.fail cause) {k : Nat}
    (hk : front.length + 1 ≤ k) (y : Token κ φ) :
    arguments (sum (power limit room)) k (r.unread (y :: (us ++ vs))) = r.fail cause := by
  induction front generalizing us k y with
  | nil =>
    obtain ⟨k, rfl⟩ := Nat.exists_eq_add_of_le' hk
    obtain rfl := List.map_eq_nil_iff.mp hus
    exact arguments_error ((congrArg _ (Reader.advance_unread_cons ..)).trans hv)
  | cons p front ih =>
    obtain ⟨k, rfl⟩ : ∃ l, k = l + 1 := ⟨k - 1, by omega⟩
    rw [Phrase.separated_cons] at hus
    obtain ⟨ps, zs, rfl, hps, hzs⟩ := List.map_eq_append_iff.mp hus
    obtain ⟨z, us, rfl, hz, hus⟩ := List.map_eq_cons_iff.mp hzs
    simp only [List.length_append, List.length_cons] at hdepth hroom hk
    have hp := h p List.mem_cons_self
    have hle := hp.nesting_le_length
    rw [← hps, List.length_map] at hle
    have hr := (hp.reads limit room (by omega)) ps (r.unread (z :: (us ++ vs))) hps trivial
      (by rw [Reader.current_unread_cons, hz]; exact ends_separator)
      (by rw [Reader.current_unread_cons, hz]; exact not_adheres_of_ne nofun)
    have hfirst : sum (power limit room) _ = _ :=
      hr.within (by rw [Reader.depth_unread]; simp only [Category.ceiling]; omega)
    rw [← Reader.unread_append] at hfirst
    have hrest := ih (fun q hq => h q (List.mem_cons_of_mem p hq)) hus (by omega) (by omega)
      (Nat.le_of_succ_le_succ hk) z
    rw [List.append_assoc, List.cons_append, arguments_more
      ((congrArg _ (Reader.advance_unread_cons ..)).trans hfirst)
      (by rw [Reader.current_unread_cons, hz]) (by omega), hrest]
    rfl

/-- With room for all of `w`, its rule fails at the lexeme `x` after it, whatever follows. -/
def Fails (limit : Int) (room : Nat) (c : Category) (w : List (Lexeme κ φ)) (x : Lexeme κ φ) :
    Prop :=
  ∀ (ts : List (Token κ φ)) (r : Reader κ φ), ts.map Token.lexeme = w → r.current.lexeme = x →
    (r.depth + ts.length + 1 : Int) ≤ c.ceiling limit → 2 * (ts.length + 1) ≤ room →
      ∃ cause, ofCategory limit room c (r.unread ts) = r.fail cause

section

variable {limit : Int} {room : Nat} {c d : Category} {w : List (Lexeme κ φ)} {x : Lexeme κ φ}
  {callee : Callee κ φ}

theorem Fails.operand (hd : c.operand? = some d) (h : Fails limit room d w x) :
    Fails limit room c w x := by
  intro ts r hw hx hdepth hroom
  rw [(Category.ceiling_of_operand hd limit).1] at hdepth
  obtain ⟨cause, hf⟩ := h ts r hw hx (by rwa [(Category.ceiling_of_operand hd limit).2]) hroom
  exact ⟨cause, by rw [ofCategory_eq_chain hd, chain_error hf]; rfl⟩

theorem Fails.join {y : Lexeme κ φ} {op : Operator} {u : List (Lexeme κ φ)} {a : Formula κ φ}
    {m : Nat} (hd : c.operand? = some d) (hy : Joins c y op) (hu : Derives c u a m)
    (h : Fails limit room d w x) : Fails limit room c (u ++ y :: w) x := by
  intro ts r hw hx hdepth hroom
  obtain ⟨us, ys, rfl, hus, hys⟩ := List.map_eq_append_iff.mp hw
  obtain ⟨z, vs, rfl, hz, hvs⟩ := List.map_eq_cons_iff.mp hys
  have hjoin : Joins c z.lexeme op := hz ▸ hy
  rw [(Category.ceiling_of_operand hd limit).1] at hdepth
  simp only [List.length_append, List.length_cons] at hdepth hroom
  have hle := hu.nesting_le_length
  rw [← hus, List.length_map] at hle
  obtain ⟨budget, hlen, hleft⟩ := (hu.reads_chain limit room (by omega)).2 d hd us
    (r.unread (z :: vs)) hus (hjoin.ends hd) (not_adheres_of_ne hjoin.ne_opening)
  rw [← Reader.unread_append] at hleft
  rw [Reader.length_rest_unread, List.length_cons] at hlen
  obtain ⟨b, budget, rfl⟩ := List.exists_cons_of_length_pos (by omega : 0 < budget.length)
  obtain ⟨cause, hf⟩ := h vs r hvs hx
    (by rw [(Category.ceiling_of_operand hd limit).2]; omega) (by omega)
  refine ⟨cause, ?_⟩
  rw [hleft.within (by rw [Reader.depth_unread]; omega),
    chainFrom_error (Category.joins_eq_some_iff.mpr hjoin)
      ((congrArg _ (Reader.advance_unread_cons ..)).trans hf)]
  rfl

theorem Fails.signed (signs : List Sign)
    (hhead : ∃ y v, w ++ [x] = y :: v ∧ ∀ s : Sign, y ≠ s.lexeme) (h : Fails limit room .base w x) :
    Fails limit room .power (signs.map Sign.lexeme ++ w) x := by
  intro ts r hw hx hdepth hroom
  obtain ⟨ss, vs, rfl, hss, hvs⟩ := List.map_eq_append_iff.mp hw
  simp only [Category.ceiling, List.length_append] at hdepth hroom
  obtain ⟨room, rfl⟩ : ∃ k, room = k + 2 := ⟨room - 2, by omega⟩
  let inner : Reader κ φ := ⟨r.current, r.rest, r.depth + 1⟩
  have hinner : inner.depth = r.depth + 1 := rfl
  have hsign : ∀ s : Sign, (inner.unread vs).current.lexeme ≠ s.lexeme := by
    obtain ⟨y, v, hyv, hsign⟩ := hhead
    cases vs with
    | nil =>
      obtain rfl := hvs
      rw [← (List.cons.inj hyv).1, ← hx] at hsign
      exact hsign
    | cons z vs =>
      rw [← hvs] at hyv
      rw [← (List.cons.inj hyv).1] at hsign
      exact hsign
  have hsigns := Reader.signs_unread hss hsign
  rw [← Reader.unread_append, ← Reader.unread_atDepth,
    ← Reader.depth_unread r (ss ++ vs)] at hsigns
  obtain ⟨cause, hf⟩ := h vs inner hvs hx (by simp only [Category.ceiling]; omega) (by omega)
  exact ⟨cause, power_error (by rw [Reader.depth_unread]; omega) hsigns hf⟩

theorem Fails.application (harity : callee.arity = 1) (h : Fails limit (room - 1) .power w x) :
    Fails limit room .base (.symbol (.callable callee) :: w) x := by
  intro ts r hw hx hdepth hroom
  obtain ⟨y, ys, rfl, hy, hys⟩ := List.map_eq_cons_iff.mp hw
  simp only [Category.ceiling, List.length_cons] at hdepth hroom
  obtain ⟨cause, hf⟩ := h ys r hys hx (by simp only [Category.ceiling]; omega) (by omega)
  refine ⟨cause, (base_call hy).trans ?_⟩
  rw [Reader.advance_unread_cons, call_operand harity]
  exact congrArg (Except.bind · _) hf

theorem Fails.argument {front : List (Phrase κ φ)} (two_le : 2 ≤ callee.arity)
    (count : front.length + 1 ≤ callee.arity)
    (hargs : ∀ p ∈ front, Derives .sum p.words p.tree p.nesting)
    (h : Fails limit (room - 2) .sum w x) :
    Fails limit room .base
      (.symbol (.callable callee) :: .opening :: (Phrase.separated front ++ w)) x := by
  intro ts r hw hx hdepth hroom
  obtain ⟨y, ys, rfl, hy, hys⟩ := List.map_eq_cons_iff.mp hw
  obtain ⟨z, zs, rfl, hz, hzs⟩ := List.map_eq_cons_iff.mp hys
  obtain ⟨us, vs, rfl, hus, hvs⟩ := List.map_eq_append_iff.mp hzs
  simp only [Category.ceiling, List.length_cons, List.length_append] at hdepth hroom
  obtain ⟨cause, hf⟩ := h vs r hvs hx (by simp only [Category.ceiling]; omega) (by omega)
  refine ⟨cause, (base_call hy).trans ?_⟩
  rw [Reader.advance_unread_cons, call_error two_le hz
    (arguments_fails hargs hus (by omega) (by omega) hf count z)]
  rfl

theorem fails_arguments {front : List (Phrase κ φ)} {last : Phrase κ φ} (two_le : 2 ≤ callee.arity)
    (count : front.length + 1 ≤ callee.arity)
    (hargs : ∀ p ∈ front ++ [last], Derives .sum p.words p.tree p.nesting) (he : Ends .sum x)
    (ha : ¬ Adheres last.words x) (hother : x ≠ .closing ∨ front.length + 1 ≠ callee.arity)
    (hsep : x ≠ .separator ∨ front.length + 1 = callee.arity) :
    Fails limit room .base
      (.symbol (.callable callee) :: .opening :: (Phrase.separated front ++ last.words)) x := by
  intro ts r hw hx hdepth hroom
  obtain ⟨y, ys, rfl, hy, hys⟩ := List.map_eq_cons_iff.mp hw
  obtain ⟨z, zs, rfl, hz, hzs⟩ := List.map_eq_cons_iff.mp hys
  subst hx
  have hdeep := Phrase.deepest_le_length fun p hp => (hargs p hp).nesting_le_length
  rw [← hzs, List.length_map] at hdeep
  simp only [Category.ceiling, List.length_cons] at hdepth hroom
  have hreads : ∀ p ∈ front ++ [last],
      Reads limit (room - 2) .sum p.words p.tree p.nesting := fun p hp =>
    (hargs p hp).reads limit _ (by have := Phrase.nesting_le_deepest hp; omega)
  have hr := arguments_reads hreads count z hzs he ha hsep
  refine ⟨.argumentCount callee.name callee.arity, (base_call hy).trans ?_⟩
  rw [Reader.advance_unread_cons, call_ok two_le hz (hr.within (by omega)), if_neg]
  rw [Bool.and_eq_true, Lexeme.isClosing_iff, beq_iff_eq]
  rintro ⟨hc, hl⟩
  rcases hother with hother | hother
  · exact hother hc
  · exact hother (by simpa using hl)

theorem Fails.list (h : Fails limit (room - 2) .list w x) :
    Fails limit room .base (.opening :: w) x := by
  intro ts r hw hx hdepth hroom
  obtain ⟨y, ys, rfl, hy, hys⟩ := List.map_eq_cons_iff.mp hw
  simp only [Category.ceiling, List.length_cons] at hdepth hroom
  obtain ⟨cause, hf⟩ := h ys r hys hx (by simp only [Category.ceiling]; omega) (by omega)
  exact ⟨cause, base_list_error hy ((congrArg _ (Reader.advance_unread_cons ..)).trans hf)⟩

theorem fails_unclosed {t : Formula κ φ} {n : Nat} (hl : Derives .list w t n) (he : Ends .list x)
    (ha : ¬ Adheres w x) (hother : x ≠ .closing) : Fails limit room .base (.opening :: w) x := by
  intro ts r hw hx hdepth hroom
  obtain ⟨y, ys, rfl, hy, hys⟩ := List.map_eq_cons_iff.mp hw
  subst hx
  simp only [Category.ceiling, List.length_cons] at hdepth hroom
  have hle := hl.nesting_le_length
  rw [← hys, List.length_map] at hle
  have hr := (hl.reads limit (room - 2) (by omega)) ys r hys trivial he ha
  have hok := hr.within (by simp only [Category.ceiling]; omega)
  exact ⟨_, base_unclosed hy ((congrArg _ (Reader.advance_unread_cons ..)).trans hok) hother⟩

theorem Stuck.fails (h : Stuck c w x) (limit : Int) (room : Nat) : Fails limit room c w x := by
  induction h generalizing room with
  | operand hd _ ih => exact (ih room).operand hd
  | join hd hy hu _ ih => exact (ih room).join hd hy hu
  | signed signs hb ih => exact (ih room).signed signs hb.base_head
  | start hother =>
    intro ts r hw hx _ _
    obtain rfl := List.map_eq_nil_iff.mp hw
    obtain ⟨cause, hf, -⟩ := base_other (power limit (room - 1)) (power limit (room - 2))
      (hx.symm ▸ hother)
    exact ⟨cause, hf⟩
  | emptyCall harity hother =>
    intro ts r hw hx _ _
    obtain ⟨y, ys, rfl, hy, hys⟩ := List.map_eq_cons_iff.mp hw
    obtain ⟨z, rfl, hz⟩ := List.map_eq_singleton_iff.mp hys
    have hclose : (r.unread [z]).advance.current.lexeme ≠ .closing := hx.symm ▸ hother
    exact ⟨_, (base_call hy).trans (call_unclosed harity hz hclose)⟩
  | application harity _ ih => exact (ih (room - 1)).application harity
  | unopened two_le hother =>
    intro ts r hw hx _ _
    obtain ⟨y, rfl, hy⟩ := List.map_eq_singleton_iff.mp hw
    exact ⟨_, (base_call hy).trans (call_unopened two_le (hx.symm ▸ hother))⟩
  | argument two_le count hargs _ ih => exact (ih (room - 2)).argument two_le count hargs
  | arguments two_le count hargs he ha hother hsep =>
    exact fails_arguments two_le count hargs he ha hother hsep
  | list _ ih => exact (ih (room - 2)).list
  | unclosed hl he ha hother => exact fails_unclosed hl he ha hother

end

end ComplexFormula
