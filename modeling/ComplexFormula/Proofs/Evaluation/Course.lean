import ComplexFormula.Proofs.Evaluation.Stack
import ComplexFormula.Proofs.Evaluation.Trace

/-! # The course of an evaluation

What evaluating a formula does, told by recursion over it: the value or the fault it ends with, the
cells it reads and the calls it makes, in order, and the state it leaves. The pass that works off
tasks takes the same course.
-/

namespace ComplexFormula

variable {κ φ σ α β : Type}

inductive Event (κ φ : Type)
  | read (c : κ)
  | call (callee : Callee κ φ) (args : List ComplexFloat)

structure Course (κ φ σ α : Type) where
  outcome : Except Fault α
  events : List (Event κ φ)
  state : σ

/-- The second course follows where the first has a value. -/
def Course.andThen (a : Course κ φ σ α) (k : α → σ → Course κ φ σ β) : Course κ φ σ β :=
  match a.outcome with
  | .ok x => ⟨(k x a.state).outcome, a.events ++ (k x a.state).events, (k x a.state).state⟩
  | .error f => ⟨.error f, a.events, a.state⟩

namespace Host

variable (host : Host κ φ σ)

def readCourse (c : κ) (s : σ) : Course κ φ σ ComplexFloat :=
  match host.read c s with
  | .ok x s' => ⟨x.toComplex, [.read c], s'⟩
  | .error f s' => ⟨.error f, [.read c], s'⟩

/-- Mathematical faults mean that there is no number as the value. All others end the evaluation,
and so does a result that is no number. -/
def callCourse (callee : Callee κ φ) (args : List ComplexFloat) (s : σ) :
    Course κ φ σ ComplexFloat :=
  match host.invoke callee.target args s with
  | .ok x s' => ⟨x.toComplex, [.call callee args], s'⟩
  | .error f s' =>
    ⟨if f.isUndefined then .ok .notANumber else .error f, [.call callee args], s'⟩

end Host

namespace Formula

def course (host : Host κ φ σ) : Formula κ φ → σ → Course κ φ σ ComplexFloat
  | .constant z, s => ⟨.ok z, [], s⟩
  | .cell _ c, s => host.readCourse c s
  | .call callee args, s => (courses args s).andThen (host.callCourse callee)
where
  courses : List (Formula κ φ) → σ → Course κ φ σ (List ComplexFloat)
    | [], s => ⟨.ok [], [], s⟩
    | t :: ts, s =>
      (t.course host s).andThen fun z s => (courses ts s).andThen fun zs s => ⟨.ok (z :: zs), [], s⟩

/-- An event is written down before it happens. -/
def note (event : Event κ φ) : Action (σ × List (Event κ φ)) Unit :=
  modify fun (s, log) => (s, log ++ [event])

def recording (host : Host κ φ σ) : Pass κ φ (σ × List (Event κ φ)) ComplexFloat where
  constant := pure
  cell _ c := do
    note (.read c)
    (host.value c).beside
  call callee args := do
    note (.call callee args)
    (host.apply callee args).beside

def evaluateRecorded (host : Host κ φ σ) (t : Formula κ φ) :
    Action (σ × List (Event κ φ)) ComplexFloat := do
  let values ← (recording host).run [.visit t] []
  return values.headD .notANumber

end Formula

namespace Action

section Undefined

variable {a : Action σ α} {s s' : σ} (value : α)

theorem orUndefined_of_ok {x : α} (h : a s = .ok x s') : orUndefined value a s = .ok x s' := by
  have heq : orUndefined value a s = orUndefined value (fun _ => a s) s := rfl
  rw [heq, h]
  rfl

theorem orUndefined_of_error {f : Fault} (h : a s = .error f s') :
    orUndefined value a s = ofExcept (if f.isUndefined then .ok value else .error f) s' := by
  have heq : orUndefined value a s = orUndefined value (fun _ => a s) s := rfl
  rw [heq, h]
  change (if f.isUndefined then pure value else throw f : Action σ α) s' = _
  split <;> rfl

end Undefined

theorem eq_of_ofExcept_eq_ok {outcome : Except Fault α} {x : α} {s s' : σ}
    (h : (ofExcept outcome : Action σ α) s = .ok x s') : outcome = .ok x ∧ s = s' := by
  cases outcome with
  | ok y =>
    cases h
    exact ⟨rfl, rfl⟩
  | error f => cases h

theorem map_ofExcept {a : Action σ α} {outcome : Except Fault α} {s s' : σ} (g : α → β)
    (h : a s = ofExcept outcome s') : (g <$> a) s = ofExcept (g <$> outcome) s' := by
  cases outcome with
  | ok x => exact map_ok h
  | error f => exact map_error h

def Takes (a : Action (σ × List (Event κ φ)) α) (course : σ → Course κ φ σ α) : Prop :=
  ∀ s log, a (s, log) =
    ofExcept (course s).outcome ((course s).state, log ++ (course s).events)

theorem takes_pure (x : α) :
    Takes (κ := κ) (φ := φ) (σ := σ) (pure x) fun s => ⟨.ok x, [], s⟩ := by
  intro s log
  rw [List.append_nil]
  rfl

theorem Takes.bind {a : Action (σ × List (Event κ φ)) α} {course : σ → Course κ φ σ α}
    {k : α → Action (σ × List (Event κ φ)) β} {next : α → σ → Course κ φ σ β}
    (ha : a.Takes course) (hk : ∀ x, (k x).Takes (next x)) :
    (a >>= k).Takes fun s => (course s).andThen next := by
  intro s log
  have hs := ha s log
  simp only [Course.andThen]
  cases ho : (course s).outcome with
  | ok x =>
    rw [ho] at hs
    rw [bind_ok hs, hk x, List.append_assoc]
  | error f =>
    rw [ho] at hs
    exact bind_error hs

theorem takes_note {event : Event κ φ} {b : Action σ α} {course : σ → Course κ φ σ α}
    (h : ∀ s, b s = ofExcept (course s).outcome (course s).state ∧ (course s).events = [event]) :
    Takes (do Formula.note event; b.beside) course := by
  intro s log
  obtain ⟨hb, he⟩ := h s
  have hnote : Formula.note event (s, log) = .ok () (s, log ++ [event]) := rfl
  rw [bind_ok hnote, he, beside, hb]
  cases (course s).outcome <;> rfl

theorem Erases.eq_ofExcept {τ : Type} {a : Action (σ × τ) α} {b : Action σ α} (h : Erases a b)
    {s s' : σ} {extra extra' : τ} {outcome : Except Fault α}
    (ha : a (s, extra) = ofExcept outcome (s', extra')) : b s = ofExcept outcome s' := by
  cases hb : b s with
  | ok x s₁ =>
    obtain ⟨_, hx⟩ := h.ok hb extra
    cases outcome with
    | ok y =>
      cases ha.symm.trans hx
      rfl
    | error f => exact nomatch ha.symm.trans hx
  | error f s₁ =>
    obtain ⟨_, hf⟩ := h.error hb extra
    cases outcome with
    | ok y => exact nomatch ha.symm.trans hf
    | error g =>
      cases ha.symm.trans hf
      rfl

end Action

namespace Host

variable (host : Host κ φ σ)

theorem value_eq_readCourse (c : κ) (s : σ) :
    host.value c s = Action.ofExcept (host.readCourse c s).outcome (host.readCourse c s).state ∧
      (host.readCourse c s).events = [.read c] := by
  rw [value, readCourse]
  cases hr : host.read c s with
  | ok x s' => exact ⟨Action.bind_ok hr, rfl⟩
  | error f s' => exact ⟨Action.bind_error hr, rfl⟩

theorem apply_eq_callCourse (callee : Callee κ φ) (args : List ComplexFloat) (s : σ) :
    host.apply callee args s =
        Action.ofExcept (host.callCourse callee args s).outcome
          (host.callCourse callee args s).state ∧
      (host.callCourse callee args s).events = [.call callee args] := by
  rw [apply, callCourse]
  cases hi : host.invoke callee.target args s with
  | ok x s' => exact ⟨Action.bind_ok (Action.orUndefined_of_ok _ hi), rfl⟩
  | error f s' =>
    have hcaught := Action.orUndefined_of_error (.complex .notANumber) hi
    by_cases hf : f.isUndefined = true
    · simp only [if_pos hf] at hcaught ⊢
      exact ⟨Action.bind_ok hcaught, trivial⟩
    · simp only [if_neg hf] at hcaught ⊢
      exact ⟨Action.bind_error hcaught, trivial⟩

end Host

namespace Formula

variable (host : Host κ φ σ)

theorem results_take {args : List (Formula κ φ)}
    (h : ∀ t ∈ args, ((recording host).result t).Takes (t.course host)) :
    (Pass.result.results (recording host) args).Takes (course.courses host args) := by
  induction args with
  | nil => exact Action.takes_pure []
  | cons t ts ih =>
    have ih := ih fun u hu => h u (List.mem_cons_of_mem t hu)
    exact (h t List.mem_cons_self).bind fun z => ih.bind fun zs => Action.takes_pure (z :: zs)

theorem result_takes {t : Formula κ φ} (h : t.WellFormed) :
    ((recording host).result t).Takes (t.course host) := by
  induction h with
  | constant z => exact Action.takes_pure z
  | cell name c => exact Action.takes_note (host.value_eq_readCourse c)
  | @call callee args _ _ ih =>
    have hcall (zs : List ComplexFloat) :
        ((recording host).call callee zs).Takes (host.callCourse callee zs) :=
      Action.takes_note (host.apply_eq_callCourse callee zs)
    exact (results_take host ih).bind hcall

theorem note_erases (event : Event κ φ) {b : Action σ α} :
    Action.Erases (do note event; b.beside) b where
  ok h log := (Action.beside_erases b).ok h (log ++ [event])
  error h log := (Action.beside_erases b).error h (log ++ [event])

theorem run_recording_erases (t : Formula κ φ) :
    ((recording host).run [.visit t] []).Erases ((evaluation host).run [.visit t] []) :=
  Pass.run_erases Action.pure_erases (fun _ c => note_erases (.read c))
    (fun callee args => note_erases (.call callee args)) _ _

theorem evaluateRecorded_eq {t : Formula κ φ} (h : t.WellFormed) (s : σ)
    (log : List (Event κ φ)) :
    t.evaluateRecorded host (s, log) =
      Action.ofExcept (t.course host s).outcome
        ((t.course host s).state, log ++ (t.course host s).events) := by
  have hresult : t.evaluateRecorded host = (recording host).result t := by
    rw [evaluateRecorded, Pass.run_singleton _ h]
    simp
  rw [hresult]
  exact result_takes host h s log

theorem run_eq_course {t : Formula κ φ} (h : t.WellFormed) (s : σ) :
    (evaluation host).run [.visit t] [] s =
      Action.ofExcept ((fun z => [z]) <$> (t.course host s).outcome) (t.course host s).state := by
  have hrecording : (recording host).run [.visit t] [] (s, []) =
      Action.ofExcept ((fun z => [z]) <$> (t.course host s).outcome)
        ((t.course host s).state, [] ++ (t.course host s).events) := by
    have hresult := result_takes host h s []
    rw [Pass.run_singleton _ h]
    exact Action.map_ofExcept (fun z => [z]) hresult
  exact (run_recording_erases host t).eq_ofExcept hrecording

theorem evaluate_eq_course {t : Formula κ φ} (h : t.WellFormed) (s : σ) :
    t.evaluate host s = Action.ofExcept (t.course host s).outcome (t.course host s).state := by
  have hvalue := Action.map_ofExcept (fun zs => zs.headD .notANumber) (run_eq_course host h s)
  rw [map_eq_pure_bind] at hvalue
  refine hvalue.trans ?_
  cases (t.course host s).outcome <;> rfl

/-- The machine that works off tasks does what recursion over the formula does. It ends with one
value alone on the stack or with a fault, and no call is short of results on the way. -/
theorem evaluate_takes_course {t : Formula κ φ} (h : t.WellFormed) (s : σ) :
    (∀ a, (evaluation host).Steps (.first t s) a → ¬ a.Short) ∧
      (evaluation host).Ends (.first t s)
        (Action.ofExcept ((fun z => [z]) <$> (t.course host s).outcome) (t.course host s).state) ∧
      t.evaluate host s = Action.ofExcept (t.course host s).outcome (t.course host s).state ∧
      ∀ log, t.evaluateRecorded host (s, log) =
        Action.ofExcept (t.course host s).outcome
          ((t.course host s).state, log ++ (t.course host s).events) := by
  refine ⟨fun a => Pass.not_short_of_steps h, ?_, evaluate_eq_course host h s,
    evaluateRecorded_eq host h s⟩
  rw [← run_eq_course host h s]
  exact Pass.ends_run (evaluation host) [.visit t] [] s

/-- A caller with one cell. The function `true` stores its argument there, and `false` fails. -/
def storingHost : Host Unit Bool ComplexFloat where
  read _ := return .complex (← get)
  function stores args :=
    if stores then do
      set (args.headD .notANumber)
      return .complex (args.headD .notANumber)
    else throw (.raised "Boom")
  closure _ _ args := return .complex (args.headD .notANumber)

def storeThenFail : Formula Unit Bool :=
  .binary .comma (.call ⟨"store", .native true, 1, false⟩ [.constant ⟨1.0, 0.0⟩])
    (.call ⟨"fail", .native false, 1, false⟩ [.cell "x" ()])

/-- What has been stored stays, and the comma is never called. -/
theorem evaluate_takes_course_storeThenFail :
    storeThenFail.WellFormed ∧
      storeThenFail.course storingHost .zero =
        ⟨.error (.raised "Boom"),
          [.call ⟨"store", .native true, 1, false⟩ [⟨1.0, 0.0⟩], .read (),
            .call ⟨"fail", .native false, 1, false⟩ [⟨1.0, 0.0⟩]], ⟨1.0, 0.0⟩⟩ ∧
      (∀ a, (evaluation storingHost).Steps (.first storeThenFail .zero) a → ¬ a.Short) ∧
      (evaluation storingHost).Ends (.first storeThenFail .zero)
        (.error (.raised "Boom") ⟨1.0, 0.0⟩) ∧
      storeThenFail.evaluate storingHost .zero = .error (.raised "Boom") ⟨1.0, 0.0⟩ ∧
      storeThenFail.evaluateRecorded storingHost (.zero, []) =
        .error (.raised "Boom") (⟨1.0, 0.0⟩,
          [.call ⟨"store", .native true, 1, false⟩ [⟨1.0, 0.0⟩], .read (),
            .call ⟨"fail", .native false, 1, false⟩ [⟨1.0, 0.0⟩]]) := by
  have hwf : storeThenFail.WellFormed := by
    refine .call rfl (List.forall_mem_cons.mpr ⟨?_, List.forall_mem_singleton.mpr ?_⟩)
    · exact .call rfl (List.forall_mem_singleton.mpr (.constant _))
    · exact .call rfl (List.forall_mem_singleton.mpr (.cell "x" ()))
  have hcourse : storeThenFail.course storingHost .zero =
      ⟨.error (.raised "Boom"),
        [.call ⟨"store", .native true, 1, false⟩ [⟨1.0, 0.0⟩], .read (),
          .call ⟨"fail", .native false, 1, false⟩ [⟨1.0, 0.0⟩]], ⟨1.0, 0.0⟩⟩ := by rfl
  obtain ⟨hshort, hends, hvalue, hrecord⟩ := evaluate_takes_course storingHost hwf .zero
  rw [hcourse] at hends hvalue hrecord
  exact ⟨hwf, hcourse, hshort, hends, hvalue, hrecord []⟩

end Formula

end ComplexFormula
