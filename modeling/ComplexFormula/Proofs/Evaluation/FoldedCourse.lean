import ComplexFormula.Proofs.Compilation.Handles
import ComplexFormula.Proofs.Evaluation.Parts
import ComplexFormula.Proofs.Evaluation.Watching

/-! # The course of folding

Folding makes the calls of the closed parts of a formula, each of them once, and no others. Where
one of them fails, folding fails as it does.
-/

namespace ComplexFormula

variable {κ φ σ : Type}

section Courses

variable {α β : Type}

def Event.callee? : Event κ φ → Option (Callee κ φ)
  | read _ => none
  | call callee _ => some callee

/-- All that happens are calls of these callees in this order, up to the first that fails. -/
structure Course.Calls (course : Course κ φ σ α) (callees : List (Callee κ φ)) : Prop where
  isPrefix : course.events.map Event.callee? <+: callees.map some
  all {x : α} (value : course.outcome = .ok x) :
    course.events.map Event.callee? = callees.map some

namespace Course.Calls

theorem andThen {a : Course κ φ σ α} {k : α → σ → Course κ φ σ β} {l l' : List (Callee κ φ)}
    (ha : a.Calls l) (hk : ∀ x, (k x a.state).Calls l') : (a.andThen k).Calls (l ++ l') := by
  unfold Course.andThen
  cases ho : a.outcome with
  | ok x =>
    constructor
    · rw [List.map_append, List.map_append, ha.all ho, List.prefix_append_right_inj]
      exact (hk x).isPrefix
    · intro y hy
      rw [List.map_append, List.map_append, ha.all ho, (hk x).all hy]
  | error f =>
    constructor
    · rw [List.map_append]
      exact ha.isPrefix.trans (List.prefix_append ..)
    · exact nofun

end Course.Calls

end Courses

namespace Formula

/-- The callees of a formula, those of the arguments before the one that they are for. -/
def callees : Formula κ φ → List (Callee κ φ)
  | constant _ => []
  | cell .. => []
  | call callee args => calleesOf args ++ [callee]
where
  calleesOf : List (Formula κ φ) → List (Callee κ φ)
    | [] => []
    | t :: ts => callees t ++ calleesOf ts

section

variable (host : Host κ φ σ)

theorem callCourse_calls (callee : Callee κ φ) (args : List ComplexFloat) (s : σ) :
    (host.callCourse callee args s).Calls [callee] := by
  have hevents : (host.callCourse callee args s).events.map Event.callee? = [some callee] := by
    rw [Host.callCourse]
    split <;> rfl
  exact ⟨hevents ▸ List.prefix_rfl, fun _ => hevents⟩

theorem courses_calls {ts : List (Formula κ φ)}
    (h : ∀ t ∈ ts, ∀ s, (t.course host s).Calls t.callees) (s : σ) :
    (course.courses host ts s).Calls (callees.calleesOf ts) := by
  induction ts generalizing s with
  | nil => exact ⟨List.prefix_rfl, fun _ => rfl⟩
  | cons t ts ih =>
    obtain ⟨ht, hts⟩ := List.forall_mem_cons.mp h
    refine (ht s).andThen fun z => ?_
    have hnil (zs : List ComplexFloat) (s : σ) :
        (⟨.ok (z :: zs), [], s⟩ : Course κ φ σ (List ComplexFloat)).Calls [] :=
      ⟨List.prefix_rfl, fun _ => rfl⟩
    have hrest := (ih hts (t.course host s).state).andThen fun zs => hnil zs _
    rwa [List.append_nil] at hrest

theorem course_calls {t : Formula κ φ} (h : t.Closed) (s : σ) :
    (t.course host s).Calls t.callees := by
  induction h generalizing s with
  | constant z => exact ⟨List.prefix_rfl, fun _ => rfl⟩
  | cell h => exact h.elim
  | call _ _ ih => exact (courses_calls host ih s).andThen fun zs => callCourse_calls host _ zs _

theorem mapM_evaluate {ts : List (Formula κ φ)} (h : ∀ t ∈ ts, t.WellFormed) (s : σ) :
    ts.mapM (evaluate host) s =
      Action.ofExcept (course.courses host ts s).outcome (course.courses host ts s).state := by
  induction ts generalizing s with
  | nil => rfl
  | cons t ts ih =>
    obtain ⟨ht, hts⟩ := List.forall_mem_cons.mp h
    have hvalue := evaluate_eq_course host ht s
    simp only [List.mapM_cons, course.courses, Course.andThen]
    cases ho : (t.course host s).outcome with
    | error f =>
      rw [ho] at hvalue
      exact Action.bind_error hvalue
    | ok z =>
      rw [ho] at hvalue
      rw [Action.bind_ok hvalue]
      have hrest := Action.map_ofExcept (z :: ·) (ih hts (t.course host s).state)
      rw [map_eq_pure_bind] at hrest
      refine hrest.trans ?_
      cases (course.courses host ts (t.course host s).state).outcome <;> rfl

end

theorem closedParts_watched : (t : Formula κ φ) →
    t.watched.closedParts = t.closedParts.map watched
  | constant _ => rfl
  | cell .. => rfl
  | call callee args => by
    have hclosed := closed_watched_iff (call callee args)
    rw [watched] at hclosed
    rw [watched, closedParts, closedParts]
    by_cases h : (call callee args).Closed
    · rw [if_pos h, if_pos (hclosed.mpr h)]
      rfl
    · rw [if_neg h, if_neg (mt hclosed.mp h), partsOf_watched args]
where
  partsOf_watched : (ts : List (Formula κ φ)) →
      closedParts.partsOf (watched.watchedAll ts) = (closedParts.partsOf ts).map watched
    | [] => rfl
    | t :: ts => by
      rw [watched.watchedAll, closedParts.partsOf, closedParts.partsOf, List.map_append,
        closedParts_watched t, partsOf_watched ts]

theorem fill_watched (zs : List ComplexFloat) : (t : Formula κ φ) →
    t.watched.fill zs = (t.fill zs).watched
  | constant _ => by cases zs <;> rfl
  | cell .. => rfl
  | call callee args => by
    have hclosed := closed_watched_iff (call callee args)
    rw [watched] at hclosed
    rw [watched, fill, fill]
    by_cases h : (call callee args).Closed
    · rw [if_pos h, if_pos (hclosed.mpr h)]
      cases zs <;> rfl
    · rw [if_neg h, if_neg (mt hclosed.mp h), fillAll_watched zs args, watched]
where
  fillAll_watched (zs : List ComplexFloat) : (ts : List (Formula κ φ)) →
      fill.fillAll (watched.watchedAll ts) zs = watched.watchedAll (fill.fillAll ts zs)
    | [] => rfl
    | t :: ts => by
      rw [watched.watchedAll, fill.fillAll, fill.fillAll, watched.watchedAll,
        closedParts_watched, List.length_map, fill_watched _ t, fillAll_watched _ ts]

section

variable (host : Host κ φ σ)

theorem fold_watched {t : Formula κ φ} (hwf : t.WellFormed) (s : σ) (log : List (Event κ φ)) :
    (Folded.formula <$> t.watched.fold host.watching) (s, log) =
      Action.ofExcept
        ((fun zs => (t.fill zs).watched) <$> (course.courses host t.closedParts s).outcome)
        ((course.courses host t.closedParts s).state,
          log ++ (course.courses host t.closedParts s).events) := by
  have hparts := results_take host
    (fun u hu => result_takes host (closed_of_mem_closedParts hwf u hu).1) s log
  rw [← result_watched.results_watched, watchedAll_eq_map, ← closedParts_watched,
    results_eq_mapM] at hparts
  have hfill : t.watched.fill = fun zs => (t.fill zs).watched :=
    funext fun zs => fill_watched zs t
  rw [formula_fold host.watching hwf.watched, hfill]
  exact Action.map_ofExcept _ hparts

theorem calleesOf_eq_flatMap (ts : List (Formula κ φ)) :
    callees.calleesOf ts = ts.flatMap callees := by
  induction ts with
  | nil => rfl
  | cons t ts ih => rw [callees.calleesOf, ih, List.flatMap_cons]

theorem mapM_result {ts : List (Formula κ φ)} (h : ∀ t ∈ ts, t.WellFormed) :
    ts.mapM (evaluation host).result = ts.mapM (evaluate host) := by
  induction ts with
  | nil => rfl
  | cons t ts ih =>
    obtain ⟨ht, hts⟩ := List.forall_mem_cons.mp h
    rw [List.mapM_cons, List.mapM_cons, ih hts, evaluate_eq_result ht]

theorem fold_eq_courses {t : Formula κ φ} (hwf : t.WellFormed) (s : σ) :
    (Folded.formula <$> t.fold host) s =
      Action.ofExcept (t.fill <$> (course.courses host t.closedParts s).outcome)
        (course.courses host t.closedParts s).state := by
  have hparts (u : Formula κ φ) (hu : u ∈ t.closedParts) : u.WellFormed :=
    (closed_of_mem_closedParts hwf u hu).1
  rw [formula_fold host hwf, mapM_result host hparts]
  exact Action.map_ofExcept _ (mapM_evaluate host hparts s)

variable {settings : Settings} {source : String} {bindings : List (Symbol κ φ)}

theorem compile_folding {t : Formula κ φ} (hfolding : settings.folding = true)
    (hparse : parse settings.limits source bindings = .ok t) (hwf : t.WellFormed) (s : σ) :
    compile host settings source bindings s =
      match (course.courses host t.closedParts s).outcome with
      | .ok zs => .ok ⟨source, some (t.fill zs)⟩ (course.courses host t.closedParts s).state
      | .error fault =>
        .error (.ofFault fault) (course.courses host t.closedParts s).state := by
  have hfold := fold_eq_courses host hwf s
  have hprepare : prepare host settings.folding t s = (Folded.formula <$> t.fold host) s := by
    rw [prepare, if_pos hfolding]
  rw [← hprepare] at hfold
  cases ho : (course.courses host t.closedParts s).outcome with
  | ok zs =>
    rw [ho] at hfold
    exact compile_ok hparse hfold
  | error fault =>
    rw [ho] at hfold
    exact compile_escaped hparse hfold

/-- Folding takes the course of evaluating the closed parts one after another. It makes their calls,
once each, and no others, and reads no cell; the values take the places of the parts. Where one of
the calls fails, so does folding, and then there is no handle: compiling tells of memory that has
run out, and passes on any other fault. -/
theorem fold_evaluates_closedParts {t : Formula κ φ} (hwf : t.WellFormed) (s : σ) :
    let parts := course.courses host t.closedParts s
    t.closedParts.mapM (evaluate host) s = Action.ofExcept parts.outcome parts.state ∧
      parts.Calls (t.closedParts.flatMap callees) ∧
      (Folded.formula <$> t.fold host) s = Action.ofExcept (t.fill <$> parts.outcome) parts.state ∧
      (∀ log, (Folded.formula <$> t.watched.fold host.watching) (s, log) =
        Action.ofExcept ((fun zs => (t.fill zs).watched) <$> parts.outcome)
          (parts.state, log ++ parts.events)) ∧
      ∀ settings source bindings, settings.folding = true →
        parse settings.limits source bindings = .ok t →
          compile host settings source bindings s =
            match parts.outcome with
            | .ok zs => .ok ⟨source, some (t.fill zs)⟩ parts.state
            | .error fault => .error (.ofFault fault) parts.state := by
  have hparts := closed_of_mem_closedParts hwf
  have hcalls := courses_calls host (fun u hu => course_calls host (hparts u hu).2) s
  rw [calleesOf_eq_flatMap] at hcalls
  exact ⟨mapM_evaluate host (fun u hu => (hparts u hu).1) s, hcalls, fold_eq_courses host hwf s,
    fold_watched host hwf s, fun settings source bindings hfolding hparse =>
      compile_folding host hfolding hparse hwf s⟩

end

/-- Two functions that are called before evaluation, though they are not honest, and a cell. -/
def eagerBindings : List (Symbol Unit Bool) :=
  [.callable ⟨"store", .native true, 1, true⟩, .callable ⟨"fail", .native false, 1, true⟩,
    .cell "x" ()]

def failStored : Formula Unit Bool :=
  .call ⟨"fail", .native false, 1, true⟩
    [.call ⟨"store", .native true, 1, true⟩ [.constant ⟨1.0, 0.0⟩]]

theorem fold_evaluates_closedParts_failStored :
    (binary .comma failStored (.cell "x" ())).WellFormed ∧
      [failStored].mapM (evaluate storingHost) .zero = .error (.raised "Boom") ⟨1.0, 0.0⟩ ∧
      (Folded.formula <$> (binary .comma failStored (.cell "x" ())).fold storingHost) .zero =
        .error (.raised "Boom") ⟨1.0, 0.0⟩ ∧
      compile storingHost {} "fail store 1, x" eagerBindings .zero =
        .error (.escaped (.raised "Boom")) ⟨1.0, 0.0⟩ := by
  have hwf : (binary .comma failStored (.cell "x" ())).WellFormed := by
    refine .call rfl (List.forall_mem_cons.mpr ⟨?_, List.forall_mem_singleton.mpr (.cell "x" ())⟩)
    refine .call rfl (List.forall_mem_singleton.mpr ?_)
    exact .call rfl (List.forall_mem_singleton.mpr (.constant _))
  have hparse : parse ⟨defaultDepth, defaultRoom⟩ "fail store 1, x" eagerBindings =
      .ok (binary .comma failStored (.cell "x" ())) := by rfl
  obtain ⟨hvalues, -, hfold, -, hcompile⟩ := fold_evaluates_closedParts storingHost hwf .zero
  exact ⟨hwf, hvalues, hfold, hcompile {} _ _ rfl hparse⟩

end Formula

end ComplexFormula

