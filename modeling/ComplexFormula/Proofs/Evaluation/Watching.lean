import ComplexFormula.Proofs.Evaluation.Closed
import ComplexFormula.Proofs.Evaluation.Course

/-! # Watching a caller

Any caller can be made to write down what is asked of it. Whatever runs against such a caller shows
its events in order, and else does what it did before.
-/

namespace ComplexFormula

variable {κ φ σ : Type}

namespace Action

variable {α β τ : Type}

theorem beside_bind (a : Action σ α) (k : α → Action σ β) :
    (a >>= k).beside (τ := τ) = a.beside >>= fun x => (k x).beside := by
  funext (s, extra)
  cases ha : a s with
  | ok x s' =>
    have hbeside : a.beside (s, extra) = .ok x (s', extra) := by rw [beside, ha]
    rw [bind_ok hbeside, beside, bind_ok ha, beside]
  | error f s' =>
    have hbeside : a.beside (s, extra) = .error f (s', extra) := by rw [beside, ha]
    rw [bind_error hbeside, beside, bind_error ha]

theorem beside_ofExcept (outcome : Except Fault α) :
    (ofExcept outcome : Action σ α).beside (τ := τ) = ofExcept outcome := by
  cases outcome <;> rfl

theorem beside_orUndefined (x : α) (a : Action σ α) :
    (orUndefined x a).beside (τ := τ) = orUndefined x a.beside := by
  funext (s, extra)
  cases ha : a s with
  | ok y s' =>
    have hbeside : a.beside (s, extra) = .ok y (s', extra) := by rw [beside, ha]
    rw [orUndefined_of_ok x hbeside, beside, orUndefined_of_ok x ha]
  | error f s' =>
    have hbeside : a.beside (s, extra) = .error f (s', extra) := by rw [beside, ha]
    rw [orUndefined_of_error x hbeside, ← beside_ofExcept, beside, beside,
      orUndefined_of_error x ha]

end Action

/-- The callee as a function that is known by all there is to tell of it. -/
def Callee.watched (callee : Callee κ φ) : Callee κ (Callee κ φ) :=
  ⟨callee.name, .native callee, callee.arity, callee.pure⟩

/-- A caller that does what the other does, and writes down each event before it happens. -/
def Host.watching (host : Host κ φ σ) : Host κ (Callee κ φ) (σ × List (Event κ φ)) where
  read c := do
    Formula.note (.read c)
    (host.read c).beside
  function callee args := do
    Formula.note (.call callee args)
    (host.invoke callee.target args).beside
  closure callee _ args := do
    Formula.note (.call callee args)
    (host.invoke callee.target args).beside

namespace Formula

def watched : Formula κ φ → Formula κ (Callee κ φ)
  | constant z => constant z
  | cell name c => cell name c
  | call callee args => call callee.watched (watchedAll args)
where
  watchedAll : List (Formula κ φ) → List (Formula κ (Callee κ φ))
    | [] => []
    | t :: ts => watched t :: watchedAll ts

theorem watchedAll_eq_map (ts : List (Formula κ φ)) : watched.watchedAll ts = ts.map watched := by
  induction ts with
  | nil => rfl
  | cons t ts ih => rw [watched.watchedAll, ih, List.map_cons]

theorem WellFormed.watched {t : Formula κ φ} (h : t.WellFormed) : t.watched.WellFormed := by
  induction h with
  | constant z => exact .constant z
  | cell name c => exact .cell name c
  | call hlen _ ih =>
    rw [Formula.watched, watchedAll_eq_map]
    refine .call (by rw [List.length_map, hlen, Callee.watched]) fun u hu => ?_
    obtain ⟨t, ht, rfl⟩ := List.mem_map.mp hu
    exact ih t ht

theorem closed_watched_iff : (t : Formula κ φ) → (t.watched.Closed ↔ t.Closed)
  | constant z => ⟨fun _ => .constant z, fun _ => .constant z⟩
  | cell .. => by
    constructor
    all_goals
      intro h
      cases h with
      | cell h => exact h.elim
  | call callee args => by
    constructor
    · intro h
      cases h with
      | call hpure hargs => exact .call hpure ((closed_watchedAll_iff args).mp hargs)
    · intro h
      cases h with
      | call hpure hargs => exact .call hpure ((closed_watchedAll_iff args).mpr hargs)
where
  closed_watchedAll_iff : (ts : List (Formula κ φ)) →
      ((∀ u ∈ watched.watchedAll ts, u.Closed) ↔ ∀ t ∈ ts, t.Closed)
    | [] => by simp [watched.watchedAll]
    | t :: ts => by
      rw [watched.watchedAll, List.forall_mem_cons, List.forall_mem_cons, closed_watched_iff t,
        closed_watchedAll_iff ts]

section

variable (host : Host κ φ σ)

theorem watching_value (c : κ) :
    host.watching.value c = (do note (.read c); (host.value c).beside) := by
  have hread : host.watching.read c = (do note (.read c); (host.read c).beside) := rfl
  simp only [Host.value, hread, Action.beside_bind, Action.beside_ofExcept, bind_assoc]

theorem watching_apply (callee : Callee κ φ) (args : List ComplexFloat) :
    host.watching.apply callee.watched args =
      (do note (.call callee args); (host.apply callee args).beside) := by
  -- the note is made whether the call fails or not
  have hundefined : Action.orUndefined (.complex .notANumber)
      (host.watching.invoke callee.watched.target args) = (do
        note (.call callee args)
        Action.orUndefined (.complex .notANumber) (host.invoke callee.target args).beside) := rfl
  simp only [Host.apply, hundefined, Action.beside_bind, Action.beside_ofExcept,
    Action.beside_orUndefined, bind_assoc]

theorem result_watched : (t : Formula κ φ) →
    (evaluation host.watching).result t.watched = (recording host).result t
  | constant _ => rfl
  | cell _ c => watching_value host c
  | call callee args => by
    rw [watched, Pass.result, Pass.result, results_watched args]
    exact bind_congr fun zs => watching_apply host callee zs
where
  results_watched : (ts : List (Formula κ φ)) →
      Pass.result.results (evaluation host.watching) (watched.watchedAll ts) =
        Pass.result.results (recording host) ts
    | [] => rfl
    | t :: ts => by
      rw [watched.watchedAll, Pass.result.results, Pass.result.results, result_watched t,
        results_watched ts]

end

end Formula

end ComplexFormula
