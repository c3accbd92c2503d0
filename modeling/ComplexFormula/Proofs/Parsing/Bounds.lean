import Mathlib.Data.Nat.Find
import ComplexFormula.Proofs.Parsing.Machine

/-! # Bounds on calls

A bound on how deep calls may nest does nothing but cut runs short. A run that ends under some bound
ends in the same way under every larger one, so that there is a bound from which on it ends, and
below which it is cut.
-/

namespace ComplexFormula

namespace Run

variable {κ φ α β : Type}

/-- Once its calls may nest deep enough, the run from `m` on ends like this. -/
def Ends (x : Nat → Run κ φ α) (m : Machine κ φ)
    (result : Except ParseFault α × Machine κ φ) : Prop :=
  ∃ n, ∀ calls, n ≤ calls → x calls m = some result

namespace Ends

variable {x y : Nat → Run κ φ α} {k : Nat → α → Run κ φ β} {m m' : Machine κ φ} {a : α}
  {f : ParseFault} {result : Except ParseFault α × Machine κ φ}

theorem of_forall (h : ∀ calls, x calls m = some result) : Ends x m result :=
  ⟨0, fun calls _ => h calls⟩

theorem of_succ (hxy : ∀ calls, x (calls + 1) m = y calls m') (h : Ends y m' result) :
    Ends x m result := by
  obtain ⟨n, hn⟩ := h
  refine ⟨n + 1, ?_⟩
  intro calls hcalls
  obtain ⟨less, rfl⟩ := Nat.exists_eq_add_of_le' (Nat.le_of_add_left_le hcalls)
  rw [hxy, hn less (Nat.le_of_succ_le_succ hcalls)]

theorem of_forall_succ (h : ∀ calls, x (calls + 1) m = some result) : Ends x m result :=
  (of_forall (x := fun _ _ => some result) (m := m) fun _ => rfl).of_succ h

theorem congr (hxy : ∀ calls, x calls m = y calls m') (h : Ends y m' result) :
    Ends x m result := by
  obtain ⟨n, hn⟩ := h
  exact ⟨n, fun calls hcalls => (hxy calls).trans (hn calls hcalls)⟩

theorem bind_ok {result : Except ParseFault β × Machine κ φ} (h : Ends x m (.ok a, m'))
    (hk : Ends (fun calls => k calls a) m' result) :
    Ends (fun calls => x calls >>= k calls) m result := by
  obtain ⟨n, hn⟩ := h
  obtain ⟨n', hn'⟩ := hk
  refine ⟨max n n', ?_⟩
  intro calls hcalls
  obtain ⟨hle, hle'⟩ := Nat.max_le.mp hcalls
  exact (Run.bind_ok (hn calls hle)).trans (hn' calls hle')

theorem bind_error (h : Ends x m (.error f, m')) :
    Ends (fun calls => x calls >>= k calls) m (.error f, m') := by
  obtain ⟨n, hn⟩ := h
  exact ⟨n, fun calls hcalls => Run.bind_error (hn calls hcalls)⟩

end Ends

/-- Unless `x` is cut short, `y` ends as `x` does. -/
def Below (x y : Run κ φ α) : Prop :=
  ∀ m result, x m = some result → y m = some result

namespace Below

variable {x y : Run κ φ α} {k l : α → Run κ φ β}

theorem refl (x : Run κ φ α) : Below x x :=
  fun _ _ h => h

theorem trans {z : Run κ φ α} (hxy : Below x y) (hyz : Below y z) : Below x z :=
  fun m result h => hyz m result (hxy m result h)

theorem cut : Below (Run.cut : Run κ φ α) x := by
  rintro m result ⟨⟩

theorem bind (hxy : Below x y) (hkl : ∀ a, Below (k a) (l a)) : Below (x >>= k) (y >>= l) := by
  intro m result h
  cases hx : x m with
  | none =>
    rw [bind_none hx] at h
    cases h
  | some ended =>
    obtain ⟨outcome, m'⟩ := ended
    have hy := hxy _ _ hx
    cases outcome with
    | error f =>
      rw [bind_error hx] at h
      rw [bind_error hy]
      exact h
    | ok a =>
      rw [bind_ok hx] at h
      rw [bind_ok hy]
      exact hkl a _ _ h

theorem bind_right (hkl : ∀ a, Below (k a) (l a)) : Below (x >>= k) (x >>= l) :=
  (refl x).bind hkl

theorem bind_left (hxy : Below x y) : Below (x >>= k) (y >>= k) :=
  hxy.bind fun a => refl (k a)

end Below

theorem signs_below (calls : Nat) (negative : Bool) :
    Below (signs calls negative : Run κ φ Bool) (signs (calls + 1) negative) := by
  induction calls generalizing negative with
  | zero => exact .cut
  | succ calls ih =>
    rw [signs, signs]
    refine .bind_right ?_
    intro token
    split
    · exact .bind_right fun _ => ih negative
    · exact .bind_right fun _ => ih !negative
    · exact .refl _

structure RulesBelow (κ φ : Type) (limit : Int) (calls : Nat) : Prop where
  read (c : Category) :
    Below (read limit calls c : Run κ φ (Formula κ φ)) (read limit (calls + 1) c)
  body (c : Category) :
    Below (body limit calls c : Run κ φ (Formula κ φ)) (body limit (calls + 1) c)
  join (c d : Category) (left : Formula κ φ) :
    Below (join limit calls c d left) (join limit (calls + 1) c d left)
  primary : Below (primary limit calls : Run κ φ (Formula κ φ)) (primary limit (calls + 1))
  call (callee : Callee κ φ) : Below (call limit calls callee) (call limit (calls + 1) callee)
  arguments (arity : Nat) (args : List (Formula κ φ)) :
    Below (arguments limit calls arity args) (arguments limit (calls + 1) arity args)

namespace RulesBelow

variable {limit : Int} {calls : Nat} (h : RulesBelow κ φ limit calls)

include h

theorem read_succ (c : Category) :
    Below (Run.read limit (calls + 1) c : Run κ φ (Formula κ φ))
      (Run.read limit (calls + 2) c) := by
  rw [Run.read, Run.read]
  exact .bind_right fun _ => .bind_left (h.body c)

theorem body_succ (c : Category) :
    Below (Run.body limit (calls + 1) c : Run κ φ (Formula κ φ))
      (Run.body limit (calls + 2) c) := by
  cases c with
  | list | sum | product | factor =>
    rw [body_chain rfl, body_chain rfl]
    exact (h.read _).bind fun left => h.join _ _ left
  | power =>
    rw [Run.body, Run.body]
    exact .bind_right fun _ => (signs_below calls false).bind fun _ => .bind_left (h.read .base)
  | base =>
    rw [Run.body, Run.body]
    exact h.primary

theorem join_succ (c d : Category) (left : Formula κ φ) :
    Below (Run.join limit (calls + 1) c d left) (Run.join limit (calls + 2) c d left) := by
  rw [Run.join, Run.join]
  refine .bind_right ?_
  intro token
  split
  · exact .bind_right fun _ => (h.read d).bind fun right => h.join c d _
  · exact .refl _

theorem primary_succ :
    Below (Run.primary limit (calls + 1) : Run κ φ (Formula κ φ))
      (Run.primary limit (calls + 2)) := by
  rw [Run.primary, Run.primary]
  refine .bind_right ?_
  intro token
  split
  · exact .refl _
  · exact .refl _
  · exact .refl _
  · exact .bind_right fun _ => .bind_left (h.call _)
  · exact .bind_right fun _ => .bind_left (h.read .list)
  · exact .refl _
  · exact .refl _

theorem call_succ (callee : Callee κ φ) :
    Below (Run.call limit (calls + 1) callee) (Run.call limit (calls + 2) callee) := by
  rw [Run.call, Run.call]
  refine .bind_right ?_
  intro _
  split
  · exact .refl _
  · split
    · exact .bind_left (h.read .power)
    · refine .bind_right ?_
      intro token
      split
      · exact .bind_left (h.arguments callee.arity [])
      · exact .refl _

theorem arguments_succ (arity : Nat) (args : List (Formula κ φ)) :
    Below (Run.arguments limit (calls + 1) arity args)
      (Run.arguments limit (calls + 2) arity args) := by
  rw [Run.arguments, Run.arguments]
  refine .bind_right fun _ => (h.read .sum).bind fun t => .bind_right ?_
  intro token
  split
  · exact .refl _
  · exact h.arguments arity _

end RulesBelow

theorem rulesBelow (limit : Int) (calls : Nat) : RulesBelow κ φ limit calls := by
  induction calls with
  | zero =>
    exact ⟨fun _ => .cut, fun _ => .cut, fun _ _ _ => .cut, .cut, fun _ => .cut, fun _ _ => .cut⟩
  | succ calls ih =>
    exact ⟨ih.read_succ, ih.body_succ, ih.join_succ, ih.primary_succ, ih.call_succ,
      ih.arguments_succ⟩

theorem whole_below (limit : Int) {calls calls' : Nat} (hle : calls ≤ calls') :
    Below (whole limit calls : Run κ φ (Formula κ φ)) (whole limit calls') := by
  induction hle with
  | refl => exact .refl _
  | @step calls' _ ih => exact ih.trans (.bind_left ((rulesBelow limit calls').read .list))

/-- A run that ends has an exact bound. -/
theorem Ends.exists_bound {x : Nat → Run κ φ α} {m : Machine κ φ}
    {result : Except ParseFault α × Machine κ φ} (h : Ends x m result)
    (hbelow : ∀ calls calls', calls ≤ calls' → Below (x calls) (x calls')) :
    ∃ bound, ∀ calls, x calls m = if bound ≤ calls then some result else none := by
  classical
  obtain ⟨n, hn⟩ := h
  have hexists : ∃ calls, x calls m = some result := ⟨n, hn n (Nat.le_refl n)⟩
  refine ⟨Nat.find hexists, ?_⟩
  intro calls
  split
  · exact hbelow _ calls ‹_› m result (Nat.find_spec hexists)
  · cases hx : x calls m with
    | none => rfl
    | some other =>
      -- what ends already ends in the same way under the bound `n`, too
      have hcommon := hbelow calls (max calls n) (Nat.le_max_left ..) m other hx
      rw [hn _ (Nat.le_max_right ..)] at hcommon
      rw [← hcommon] at hx
      exact absurd hx (Nat.find_min hexists (Nat.not_le.mp ‹_›))

end Run

end ComplexFormula
