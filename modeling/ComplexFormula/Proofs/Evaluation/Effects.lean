import ComplexFormula.Proofs.Evaluation.Course
import ComplexFormula.Proofs.Evaluation.Folding

/-! # Effects of an evaluation

Of all that happens in the course of an evaluation, pure calls alone are hidden from the caller.
Folding makes some of them beforehand, and leaves the outcome, the effects and the state as they are.
-/

namespace ComplexFormula

variable {κ φ σ α β : Type}

/-- The caller notices that a cell is read, or a call made that is not pure. -/
def Event.isEffect : Event κ φ → Bool
  | read _ => true
  | call callee _ => !callee.pure

namespace Course

def effects (a : Course κ φ σ α) : List (Event κ φ) :=
  a.events.filter Event.isEffect

/-- The courses differ in pure calls at most. -/
structure Alike (a b : Course κ φ σ α) : Prop where
  outcome_eq : a.outcome = b.outcome
  effects_eq : a.effects = b.effects
  state_eq : a.state = b.state

namespace Alike

variable {a b c : Course κ φ σ α}

theorem refl (a : Course κ φ σ α) : a.Alike a :=
  ⟨rfl, rfl, rfl⟩

theorem symm (h : a.Alike b) : b.Alike a :=
  ⟨h.outcome_eq.symm, h.effects_eq.symm, h.state_eq.symm⟩

theorem trans (h : a.Alike b) (h' : b.Alike c) : a.Alike c :=
  ⟨h.outcome_eq.trans h'.outcome_eq, h.effects_eq.trans h'.effects_eq, h.state_eq.trans h'.state_eq⟩

theorem andThen {k l : α → σ → Course κ φ σ β} (h : a.Alike b)
    (hk : ∀ x, (k x a.state).Alike (l x a.state)) : (a.andThen k).Alike (b.andThen l) := by
  obtain ⟨houtcome, heffects, hstate⟩ := h
  simp only [Course.andThen, ← houtcome, ← hstate]
  cases a.outcome with
  | error f => exact ⟨rfl, heffects, rfl⟩
  | ok x =>
    obtain ⟨houtcome', heffects', hstate'⟩ := hk x
    refine ⟨houtcome', ?_, hstate'⟩
    simp only [effects, List.filter_append] at heffects heffects' ⊢
    rw [heffects, heffects']

end Alike

end Course

namespace Formula

variable {host : Host κ φ σ}

theorem courses_constants (values : List ComplexFloat) (s : σ) :
    course.courses host (values.map .constant) s = ⟨.ok values, [], s⟩ := by
  induction values with
  | nil => rfl
  | cons z values ih =>
    rw [List.map_cons, course.courses, course]
    simp only [Course.andThen, ih]
    rfl

theorem callCourse_alike {callee : Callee κ φ} {values : List ComplexFloat} {s s' : σ}
    {z : ComplexFloat} (hpure : callee.pure = true) (hcallee : callee.Honest host)
    (hlen : values.length = callee.arity) (hz : host.apply callee values s = .ok z s') (s₁ : σ) :
    (host.callCourse callee values s₁).Alike ⟨.ok z, [], s₁⟩ := by
  obtain ⟨hvalue, hevents⟩ := host.apply_eq_callCourse callee values s₁
  rw [hcallee.apply_eq_ok hlen hz] at hvalue
  have heffects : (host.callCourse callee values s₁).effects = [] := by
    rw [Course.effects, hevents, List.filter_cons_of_neg (by rw [Event.isEffect, hpure]; decide),
      List.filter_nil]
  obtain ⟨houtcome, hstate⟩ := Action.eq_of_ofExcept_eq_ok hvalue.symm
  exact ⟨houtcome, heffects, hstate⟩

theorem courses_alike {args : List (Formula κ φ)}
    (h : ∀ t ∈ args, ∀ (s s' : σ) (f : Folded κ φ), (folding host).result t s = .ok f s' →
      ∀ s₁, (f.formula.course host s₁).Alike (t.course host s₁))
    {s s' : σ} {fs : List (Folded κ φ)}
    (hfs : Pass.result.results (folding host) args s = .ok fs s') (s₁ : σ) :
    (course.courses host (fs.map Folded.formula) s₁).Alike (course.courses host args s₁) := by
  induction args generalizing s fs s₁ with
  | nil =>
    rw [Pass.result.results] at hfs
    cases hfs
    exact .refl _
  | cons t ts ih =>
    rw [Pass.result.results] at hfs
    obtain ⟨f, s₂, hf, hfs⟩ := Action.exists_of_bind_ok hfs
    obtain ⟨fs, s₃, hrest, hfs⟩ := Action.exists_of_bind_ok hfs
    cases hfs
    have hts := ih (fun u hu => h u (List.mem_cons_of_mem t hu)) hrest
    rw [List.map_cons, course.courses, course.courses]
    exact (h t List.mem_cons_self _ _ _ hf s₁).andThen fun z =>
      (hts _).andThen fun zs => .refl _

/-- Whenever the folded formula is evaluated, it takes the course that the formula would. -/
theorem course_fold {t : Formula κ φ} (hwf : t.WellFormed) (hh : t.Honest host) {s s' : σ}
    {f : Folded κ φ} (hf : (folding host).result t s = .ok f s') (s₁ : σ) :
    (f.formula.course host s₁).Alike (t.course host s₁) := by
  induction hwf generalizing s f s' s₁ with
  | constant z =>
    cases hf
    exact .refl _
  | cell name c =>
    cases hf
    exact .refl _
  | @call callee args hlen _ ih =>
    cases hh with
    | call hcallee hhargs =>
      rw [Pass.result] at hf
      obtain ⟨fs, s₂, hfs, hf⟩ := Action.exists_of_bind_ok hf
      have hcount := (folding host).length_of_results hfs
      have hargs := courses_alike
        (fun t ht s s' f hf s₁ => ih t ht (hhargs t ht) hf s₁) hfs s₁
      rcases foldCall_cases hf with ⟨values, z, hpure, hvalues, hz, rfl⟩ | hf
      · have hvlen : values.length = callee.arity := by
          have := congrArg List.length hvalues
          rw [List.length_map, List.length_map] at this
          omega
        rw [hvalues, courses_constants] at hargs
        have hcall : ((⟨.ok values, [], s₁⟩ : Course κ φ σ _).andThen
            (host.callCourse callee)).Alike ⟨.ok z, [], s₁⟩ :=
          callCourse_alike hpure (hcallee hpure) hvlen hz s₁
        exact hcall.symm.trans (hargs.andThen fun zs => .refl _)
      · rw [hf]
        exact hargs.andThen fun zs => .refl _

end Formula

end ComplexFormula
