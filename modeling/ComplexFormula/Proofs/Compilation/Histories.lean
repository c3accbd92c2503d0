import ComplexFormula.Session
import ComplexFormula.Proofs.Compilation.Handles

/-! # Histories of a session

Whatever a caller does with a session, a handle stays what it was compiled to until it is released,
and released from then on. So it is evaluated as its formula is in the state of the moment.
-/

namespace ComplexFormula

variable {κ φ σ : Type}

inductive Deed (κ φ σ : Type)
  /-- Changes the caller's own state, as an assignment to a cell does. -/
  | change (f : σ → σ)
  | compile (settings : Settings) (name source : String)
  | evaluate (name : String)
  | evaluateOnce (name : String)
  | release (name : String)
  | bind (symbol : Symbol κ φ) (first : Bool)
  | unbind

namespace Deed

def releases (name : String) : Deed κ φ σ → Bool
  | release n | evaluateOnce n => n == name
  | _ => false

def compiles (name : String) : Deed κ φ σ → Bool
  | compile _ n _ => n == name
  | _ => false

end Deed

namespace Session

def perform (host : Host κ φ σ) (s : Session κ φ σ) : Deed κ φ σ → Session κ φ σ
  | .change f => { s with state := f s.state }
  | .compile settings name source => (s.compile host settings name source).2
  | .evaluate name => (s.evaluate host name).2
  | .evaluateOnce name => (s.evaluateOnce host name).2
  | .release name => s.release name
  | .bind symbol first => s.bind symbol first
  | .unbind => s.unbind

def run (host : Host κ φ σ) (s : Session κ φ σ) (history : List (Deed κ φ σ)) : Session κ φ σ :=
  history.foldl (perform host) s

def outcome {α : Type} (s : Session κ φ σ) :
    EStateM.Result Fault σ α → Except Fault α × Session κ φ σ
  | .ok x state => (.ok x, { s with state := state })
  | .error f state => (.error f, { s with state := state })

/-- Evaluating the handle takes the course of the formula in the state of the moment: its outcome,
its state, and its effects in order. -/
structure Views (host : Host κ φ σ) (s : Session κ φ σ) (name : String) (t : Formula κ φ) : Prop where
  evaluate_eq : s.evaluate host name =
    ((t.course host s.state).outcome, { s with state := (t.course host s.state).state })
  recorded : ∃ root events, (s.handle? name).bind Handle.root = some root ∧
    events.filter Event.isEffect = (t.course host s.state).effects ∧
    ∀ log, root.evaluateRecorded host (s.state, log) =
      Action.ofExcept (t.course host s.state).outcome ((t.course host s.state).state, log ++ events)

/-- Evaluating the handle gives no number, looks at nothing and changes nothing. -/
def Inert (s : Session κ φ σ) (name : String) : Prop :=
  ∀ host : Host κ φ σ, s.evaluate host name = (.ok .notANumber, s)

section Handles

variable (s : Session κ φ σ) (host : Host κ φ σ) (name other : String)

@[simp] theorem handle?_drop :
    (s.drop name).handle? other = if other = name then none else s.handle? other := by
  rw [handle?, handle?, drop]
  induction s.handles with
  | nil => rw [List.filter_nil, List.lookup_nil, ite_self]
  | cons entry entries ih =>
    by_cases hn : entry.1 = name
    · rw [List.filter_cons_of_neg (by simpa using hn), ih, List.lookup_cons, hn]
      by_cases ho : other = name
      · rw [if_pos ho, if_pos ho]
      · rw [if_neg ho, if_neg ho, beq_false_of_ne ho]
    · rw [List.filter_cons_of_pos (by simpa using hn), List.lookup_cons, List.lookup_cons, ih]
      by_cases ho : other = entry.1
      · rw [beq_of_eq ho, if_neg (ho.trans_ne hn), if_neg (ho.trans_ne hn)]
      · rw [beq_false_of_ne ho]

@[simp] theorem handle?_put (h : Handle κ φ) :
    (s.put name h).handle? other = if other = name then some h else s.handle? other := by
  have hdrop := handle?_drop s name other
  rw [handle?] at hdrop
  rw [handle?, put, List.lookup_cons, hdrop]
  by_cases ho : other = name
  · rw [beq_of_eq ho, if_pos ho, if_pos ho]
  · rw [beq_false_of_ne ho, if_neg ho, if_neg ho]

@[simp] theorem handle?_release :
    (s.release name).handle? other =
      if name == other then (s.handle? other).map Handle.release else s.handle? other := by
  rw [release]
  by_cases ho : other = name
  · subst ho
    rw [if_pos (beq_self_eq_true other)]
    split
    · rename_i h hh
      rw [handle?_put, if_pos rfl, hh, Option.map_some]
    · rename_i hh
      rw [hh, Option.map_none]
  · rw [if_neg (by simpa using Ne.symm ho)]
    split
    · rw [handle?_put, if_neg ho]
    · rfl

@[simp] theorem release_release : (s.release name).release name = s.release name := by
  cases hh : s.handle? name with
  | none =>
    have hrelease : s.release name = s := by rw [release, hh]
    rw [hrelease, hrelease]
  | some h =>
    have hrelease : s.release name = s.put name h.release := by rw [release, hh]
    have hput : (s.put name h.release).handle? name = some h.release := by
      rw [handle?_put, if_pos rfl]
    rw [hrelease, release, hput]
    simp [put, drop, Handle.release]

theorem evaluate_eq :
    s.evaluate host name =
      s.outcome (evaluateOption host ((s.handle? name).bind Handle.root) s.state) := by
  rw [evaluate]
  split
  · rename_i hr
    rw [hr, outcome]
  · rename_i hr
    rw [hr, outcome]

theorem outcome_ofExcept {α : Type} (result : Except Fault α) (state : σ) :
    s.outcome (Action.ofExcept result state) = (result, { s with state := state }) := by
  cases result <;> rfl

@[simp] theorem handle?_evaluate : (s.evaluate host name).2.handle? other = s.handle? other := by
  rw [evaluate_eq]
  cases evaluateOption host ((s.handle? name).bind Handle.root) s.state <;> rfl

@[simp] theorem handle?_evaluateOnce :
    (s.evaluateOnce host name).2.handle? other =
      if name == other then (s.handle? other).map Handle.release else s.handle? other := by
  have hrelease := handle?_release (s.evaluate host name).2 name other
  rw [handle?_evaluate] at hrelease
  exact hrelease

section Compile

variable {s host name} {settings : Settings} {source : String} {h : Handle κ φ} {state : σ}

theorem compile_eq_ok
    (hc : ComplexFormula.compile host settings source s.bindings s.state = .ok h state) :
    s.compile host settings name source =
      (.ok h, { s.drop name with state := state }.put name h) := by
  have hdropped : ComplexFormula.compile host settings source (s.drop name).bindings
      (s.drop name).state = .ok h state := hc
  rw [compile, hdropped]

theorem exists_of_compile_eq_ok {s' : Session κ φ σ}
    (hc : s.compile host settings name source = (.ok h, s')) :
    ∃ state, ComplexFormula.compile host settings source s.bindings s.state = .ok h state ∧
      s'.handle? name = some h := by
  rw [compile] at hc
  split at hc
  · rename_i h₁ state hstate
    obtain ⟨heq, rfl⟩ := Prod.mk.inj hc
    cases heq
    exact ⟨state, hstate, by rw [handle?_put, if_pos rfl]⟩
  · cases hc

end Compile

theorem handle?_compile_of_ne {settings : Settings} {source : String} (h : other ≠ name) :
    (s.compile host settings name source).2.handle? other = s.handle? other := by
  have hdrop : (s.drop name).handle? other = s.handle? other := by rw [handle?_drop, if_neg h]
  rw [compile]
  split
  · rw [handle?_put, if_neg h]
    exact hdrop
  · exact hdrop

end Handles

section History

variable {host : Host κ φ σ} {name : String}

variable (host) in
theorem handle?_perform (s : Session κ φ σ) {d : Deed κ φ σ} (hd : d.compiles name = false) :
    (s.perform host d).handle? name =
      if d.releases name then (s.handle? name).map Handle.release else s.handle? name := by
  cases d with
  | change | bind | unbind => rfl
  | compile settings n source =>
    exact handle?_compile_of_ne s host n name (ne_of_beq_false hd).symm
  | evaluate n => exact handle?_evaluate s host n name
  | evaluateOnce n => exact handle?_evaluateOnce s host n name
  | release n => exact handle?_release s n name

variable (host) in
/-- A history leaves a handle as it is until it releases it, which lasts. -/
theorem handle?_run (s : Session κ φ σ) {history : List (Deed κ φ σ)}
    (hh : ∀ d ∈ history, d.compiles name = false) :
    (s.run host history).handle? name =
      if history.any (Deed.releases name) then (s.handle? name).map Handle.release
      else s.handle? name := by
  induction history generalizing s with
  | nil => rfl
  | cons d history ih =>
    obtain ⟨hd, hh⟩ := List.forall_mem_cons.mp hh
    have hstep := handle?_perform host s hd
    have hrun : s.run host (d :: history) = (s.perform host d).run host history := rfl
    rw [hrun, ih _ hh, hstep, List.any_cons]
    cases d.releases name with
    | false => rfl
    | true =>
      rw [if_pos rfl, Option.map_map, Bool.true_or, if_pos rfl]
      split <;> rfl

theorem inert_of_root_eq_none {s : Session κ φ σ} (h : (s.handle? name).bind Handle.root = none) :
    s.Inert name := by
  intro host
  rw [evaluate_eq, h]
  rfl

theorem views_of_root {s : Session κ φ σ} {t root : Formula κ φ}
    (h : (s.handle? name).bind Handle.root = some root) (hwf : root.WellFormed)
    (halike : ∀ state, (root.course host state).Alike (t.course host state)) :
    s.Views host name t := by
  obtain ⟨houtcome, heffects, hstate⟩ := halike s.state
  constructor
  · rw [evaluate_eq, h, evaluateOption, Formula.evaluate_eq_course host hwf, outcome_ofExcept,
      houtcome, hstate]
  · refine ⟨root, _, h, heffects, fun log => ?_⟩
    rw [Formula.evaluateRecorded_eq host hwf, houtcome, hstate]

/-- A handle shows its formula in every state that it is evaluated in, until it is released; then it
stays inert. Evaluating it or releasing it is nothing to other handles. -/
theorem views_of_compile {settings : Settings} {source : String} {h : Handle κ φ}
    {s₀ s₁ : Session κ φ σ} (honest : ∀ symbol ∈ s₀.bindings, symbol.Honest host)
    (compiled : s₀.compile host settings name source = (.ok h, s₁)) :
    (∃ t, parse settings.limits source s₀.bindings = .ok t ∧
      ∀ history : List (Deed κ φ σ), (∀ d ∈ history, d.compiles name = false) →
        if history.any (Deed.releases name) then (s₁.run host history).Inert name
        else (s₁.run host history).Views host name t) ∧
      (∀ (s : Session κ φ σ) (n : String), (s.handle? n).bind Handle.root = none → s.Inert n) ∧
      (∀ (s : Session κ φ σ) (n : String), (s.release n).release n = s.release n) ∧
      ∀ (s : Session κ φ σ) (n other : String),
        (s.evaluate host n).2.handle? other = s.handle? other ∧
          (other ≠ n → (s.release n).handle? other = s.handle? other ∧
            (s.evaluateOnce host n).2.handle? other = s.handle? other) := by
  refine ⟨?_, fun s n => inert_of_root_eq_none, release_release, fun s n other =>
    ⟨handle?_evaluate s host n other, fun ho => ?_⟩⟩
  · obtain ⟨state, hcompile, hhandle⟩ := exists_of_compile_eq_ok compiled
    obtain ⟨t, root, hparse, hprepare, rfl⟩ := exists_of_compile_ok hcompile
    refine ⟨t, hparse, fun history hh => ?_⟩
    have hrun := handle?_run host s₁ hh
    rw [hhandle] at hrun
    split at hrun
    · rename_i hreleased
      rw [if_pos hreleased]
      exact inert_of_root_eq_none (by rw [hrun]; rfl)
    · rename_i hkept
      rw [if_neg hkept]
      obtain ⟨hroot, halike⟩ := course_of_prepare (wellFormed_of_parse hparse)
        (honest_of_parse honest hparse) hprepare
      exact views_of_root (by rw [hrun]; rfl) hroot halike
  · have hn : ¬ (n == other) = true := by simpa using Ne.symm ho
    exact ⟨by rw [handle?_release, if_neg hn], by rw [handle?_evaluateOnce, if_neg hn]⟩

def cellAndPi : List (Symbol Unit Empty) :=
  [.cell "x" (), .callable (.builtin .pi)]

/-- The handle for `-x+pi`, in which the constant has been folded. -/
def shifted : Handle Unit Empty :=
  ⟨"-x+pi", some (.binary .add (.negate (.cell "x" ())) (.constant (.ofReal ComplexFloat.pi)))⟩

def shiftedSession : Session Unit Empty ComplexFloat :=
  ⟨.zero, cellAndPi, [("f", shifted)]⟩

/-- The cell is zero when the handle is compiled and evaluated first, and one when it is evaluated
again; after a release the handle does not look at the cell any more. -/
theorem views_of_compile_shifted :
    (∀ symbol ∈ cellAndPi, symbol.Honest Formula.cellHost) ∧
      (start .zero cellAndPi).compile Formula.cellHost {} "f" "-x+pi" =
        (.ok shifted, shiftedSession) ∧
      (let s := shiftedSession.run Formula.cellHost [.evaluate "f", .change fun _ => .one]
       s.evaluate Formula.cellHost "f" = (.ok ⟨2.141592653589793, 0.0⟩, s) ∧
         ∃ root events, (s.handle? "f").bind Handle.root = some root ∧
           events.filter Event.isEffect = [.read ()] ∧
           root.evaluateRecorded Formula.cellHost (.one, []) =
             .ok ⟨2.141592653589793, 0.0⟩ (.one, events)) ∧
      let s := shiftedSession.run Formula.cellHost [.evaluateOnce "f", .change fun _ => .one]
      s.evaluate Formula.cellHost "f" = (.ok .notANumber, s) := by
  have honest : ∀ symbol ∈ cellAndPi, symbol.Honest Formula.cellHost :=
    List.forall_mem_cons.mpr ⟨trivial, List.forall_mem_singleton.mpr
      fun _ => Callee.Honest.of_primitive rfl⟩
  have hparse : parse (Settings.limits {}) "-x+pi" cellAndPi =
      .ok (.binary .add (.negate (.cell "x" ())) (.call (.builtin .pi) [])) := by rfl
  have hprepare : prepare Formula.cellHost true
      (.binary .add (.negate (.cell "x" ())) (.call (.builtin .pi) [])) ComplexFloat.zero =
        .ok (.binary .add (.negate (.cell "x" ())) (.constant (.ofReal ComplexFloat.pi)))
          ComplexFloat.zero := by
    have hfold := Formula.fold_eq_result (wellFormed_of_parse hparse) Formula.cellHost
    rw [prepare, if_pos rfl, hfold]
    rfl
  have compiled : (start .zero cellAndPi).compile Formula.cellHost {} "f" "-x+pi" =
      (.ok shifted, shiftedSession) :=
    compile_eq_ok (compile_ok hparse hprepare)
  obtain ⟨⟨t, ht, hviews⟩, -⟩ := views_of_compile honest compiled
  cases hparse.symm.trans ht
  obtain ⟨hvalue, root, events, hroot, heffects, hrecord⟩ :=
    hviews [.evaluate "f", .change fun _ => .one] (by simp [Deed.compiles])
  exact ⟨honest, compiled, ⟨hvalue, root, events, hroot, heffects, hrecord []⟩,
    hviews [.evaluateOnce "f", .change fun _ => .one] (by simp [Deed.compiles]) Formula.cellHost⟩

end History

end Session

end ComplexFormula
