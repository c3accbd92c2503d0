import ComplexFormula.Proofs.Compilation.Handles

/-! # Interpretation

Every call of the language itself has a value. So compiling succeeds over cells that hold numbers.
Without bindings it leaves the value alone, and interpretation never fails.
-/

namespace ComplexFormula

namespace Formula

variable {κ φ σ β : Type}

theorem exists_results_eq {pass : Pass κ φ σ β} {args : List (Formula κ φ)}
    (h : ∀ t ∈ args, ∃ b, pass.result t = Action.ofExcept (.ok b)) :
    ∃ bs : List β, bs.length = args.length ∧
      Pass.result.results pass args = Action.ofExcept (.ok bs) := by
  induction args with
  | nil => exact ⟨[], rfl, rfl⟩
  | cons t ts ih =>
    obtain ⟨b, hb⟩ := h t List.mem_cons_self
    obtain ⟨bs, hlen, hbs⟩ := ih fun u hu => h u (List.mem_cons_of_mem t hu)
    refine ⟨b :: bs, congrArg Nat.succ hlen, ?_⟩
    rw [Pass.result.results, hb, hbs]
    rfl

variable (host : Host κ φ σ)

theorem exists_result_eq {t : Formula κ φ} (hwf : t.WellFormed)
    (h : t.Every (fun _ c => ∃ z, host.value c = Action.ofExcept (.ok z)) Callee.Standard) :
    ∃ z, (evaluation host).result t = Action.ofExcept (.ok z) := by
  induction hwf with
  | constant z => exact ⟨z, rfl⟩
  | cell name c =>
    cases h with
    | cell hcell => exact hcell
  | @call callee args hlen _ ih =>
    cases h with
    | call hcallee hargs =>
      obtain ⟨zs, hcount, hzs⟩ := exists_results_eq fun t ht => ih t ht (hargs t ht)
      obtain ⟨z, hz⟩ := hcallee.exists_apply_eq host (hcount.trans hlen)
      refine ⟨z, ?_⟩
      rw [Pass.result, hzs]
      exact hz

theorem course_of_result {t : Formula κ φ} (hwf : t.WellFormed) {s s' : σ} {z : ComplexFloat}
    (h : (evaluation host).result t s = .ok z s') :
    (t.course host s).outcome = .ok z ∧ (t.course host s).state = s' := by
  have hcourse := evaluate_eq_course host hwf s
  rw [evaluate_eq_result hwf, h] at hcourse
  exact Action.eq_of_ofExcept_eq_ok hcourse.symm

theorem exists_foldCall_eq {callee : Callee κ φ} (hcallee : callee.Standard)
    {fs : List (Folded κ φ)} (hlen : fs.length = callee.arity) :
    ∃ f, foldCall host callee fs = Action.ofExcept (.ok f) := by
  unfold foldCall
  split
  · rename_i values _ hvalues
    have hcount : values.length = fs.length := by
      rw [← List.length_map Folded.formula, Folded.map_formula_of_constants hvalues, List.length_map]
    obtain ⟨z, hz⟩ := hcallee.exists_apply_eq host (hcount.trans hlen)
    exact ⟨.value z, by rw [hz]; rfl⟩
  · split
    · exact ⟨_, rfl⟩
    · exact ⟨_, rfl⟩

theorem exists_folded_eq {t : Formula κ φ} (hwf : t.WellFormed) {cells : String → κ → Prop}
    (h : t.Every cells Callee.Standard) :
    ∃ f, (folding host).result t = Action.ofExcept (.ok f) := by
  induction hwf with
  | constant z => exact ⟨_, rfl⟩
  | cell name c => exact ⟨_, rfl⟩
  | @call callee args hlen _ ih =>
    cases h with
    | call hcallee hargs =>
      obtain ⟨fs, hcount, hfs⟩ := exists_results_eq fun t ht => ih t ht (hargs t ht)
      obtain ⟨f, hf⟩ := exists_foldCall_eq host hcallee (hcount.trans hlen)
      refine ⟨f, ?_⟩
      rw [Pass.result, hfs]
      exact hf

end Formula

open Formula

/-- Compiling succeeds over cells that hold numbers, and the handle has the value of the formula. -/
theorem exists_compile_ok {κ φ σ : Type} {host : Host κ φ σ} {settings : Settings} {source : String}
    {bindings : List (Symbol κ φ)} {t : Formula κ φ}
    (hbindings : ∀ b ∈ bindings,
      b.Meets (fun _ c => ∃ z, host.value c = Action.ofExcept (.ok z)) Callee.Standard)
    (h : parse settings.limits source bindings = .ok t) (s : σ) :
    ∃ z handle, (t.course host s).outcome = .ok z ∧
      compile host settings source bindings s = .ok handle s ∧ handle.evaluate host s = .ok z s := by
  have hwf := wellFormed_of_parse h
  have hevery := every_of_parse (fun _ hc => hc) hbindings h
  have hpure : t.Every (fun _ _ => True) fun callee => callee.pure = true → callee.Honest host :=
    hevery.imp (fun _ _ _ => trivial) fun _ hc _ => hc.honest host
  obtain ⟨z, hz⟩ := exists_result_eq host hwf hevery
  obtain ⟨root, hroot⟩ : ∃ root, prepare host settings.folding t s = .ok root s := by
    cases hfolding : settings.folding with
    | false => exact ⟨t, rfl⟩
    | true =>
      obtain ⟨f, hf⟩ := exists_folded_eq host hwf hevery
      rw [← fold_eq_result hwf] at hf
      exact ⟨f.formula, Action.map_ok (congrFun hf s)⟩
  obtain ⟨houtcome, hstate⟩ := course_of_result host hwf (congrFun hz s)
  refine ⟨z, _, houtcome, compile_ok h hroot, ?_⟩
  have hvalue := evaluate_of_prepare hwf hpure.honest hroot s
  rw [houtcome, hstate] at hvalue
  exact hvalue

theorem compile_of_parse {source : String} {t : Formula Empty Empty}
    (h : parse ⟨100, defaultRoom⟩ source [] = .ok t) :
    ∃ z, (t.course emptyHost ()).outcome = .ok z ∧
      compile emptyHost {} source [] () = .ok ⟨source, some (.constant z)⟩ () := by
  have hwf := wellFormed_of_parse h
  have hevery := every_of_parse_nil h
  have hclosed : t.Closed := hevery.imp (fun _ _ => id) fun _ => Callee.Standard.pure_eq
  obtain ⟨z, hz⟩ := exists_result_eq emptyHost hwf (hevery.imp (fun _ _ => False.elim) fun _ => id)
  refine ⟨z, (course_of_result emptyHost hwf (congrFun hz ())).1, ?_⟩
  have hfold := fold_cases emptyHost hwf hclosed ()
  rw [hz] at hfold
  rcases hfold with ⟨folded, y, s, hf, hy, hfolded⟩ | ⟨f, s, -, hf⟩
  · cases hy
    have hprepare : prepare emptyHost true t () = .ok (.constant z) () := by
      rw [prepare, if_pos rfl, Action.map_ok hf, hfolded]
    exact compile_ok h hprepare
  · cases hf

/-- Every text has a value: the outcome of the course of its formula, which is also all that
compiling leaves of it, or no number if it is no formula. -/
theorem interpret_total (source : String) :
    (∃ z, interpret source = .ok z) ∧
      match parse ⟨100, defaultRoom⟩ source ([] : List (Symbol Empty Empty)) with
      | .error _ => interpret source = .ok .notANumber
      | .ok t => ∃ z, (t.course emptyHost ()).outcome = .ok z ∧ interpret source = .ok z ∧
          compile emptyHost {} source [] () = .ok ⟨source, some (.constant z)⟩ () := by
  cases h : parse ⟨100, defaultRoom⟩ source ([] : List (Symbol Empty Empty)) with
  | error fault =>
    have hinterpret : interpret source = .ok .notANumber := by
      have hcompile : compile emptyHost {} source [] () = .error (.malformed fault) () :=
        compile_malformed h
      unfold interpret
      simp only [hcompile]
    exact ⟨⟨_, hinterpret⟩, hinterpret⟩
  | ok t =>
    obtain ⟨z, hz, hcompile⟩ := compile_of_parse h
    have hvalue : Handle.evaluate emptyHost ⟨source, some (.constant z)⟩ () = .ok z () :=
      evaluate_eq_course emptyHost (.constant z) ()
    have hinterpret : interpret source = .ok z := by
      unfold interpret
      simp only [hcompile, hvalue]
    exact ⟨⟨z, hinterpret⟩, z, hz, hinterpret, hcompile⟩

theorem interpret_total_quotients :
    interpret "(7-2)/4*3" = .ok ⟨3.75, 0.0⟩ ∧
      compile emptyHost {} "(7-2)/4*3" [] () =
        .ok ⟨"(7-2)/4*3", some (.constant ⟨3.75, 0.0⟩)⟩ () ∧
      interpret "1/0" = .ok .notANumber ∧ interpret "1/" = .ok .notANumber := by
  have hparse : parse ⟨100, defaultRoom⟩ "(7-2)/4*3" ([] : List (Symbol Empty Empty)) =
      .ok (.binary .mul
        (.binary .div (.binary .sub (.constant ⟨7.0, 0.0⟩) (.constant ⟨2.0, 0.0⟩))
          (.constant ⟨4.0, 0.0⟩))
        (.constant ⟨3.0, 0.0⟩)) := by rfl
  have hundefined : parse ⟨100, defaultRoom⟩ "1/0" ([] : List (Symbol Empty Empty)) =
      .ok (.binary .div (.constant ⟨1.0, 0.0⟩) (.constant ⟨0.0, 0.0⟩)) := by rfl
  have hbroken : parse ⟨100, defaultRoom⟩ "1/" ([] : List (Symbol Empty Empty)) =
      .error ⟨.unexpected none, 2⟩ := by rfl
  obtain ⟨-, hvalue⟩ := interpret_total "(7-2)/4*3"
  obtain ⟨-, hquotient⟩ := interpret_total "1/0"
  obtain ⟨-, hnone⟩ := interpret_total "1/"
  rw [hparse] at hvalue
  rw [hundefined] at hquotient
  rw [hbroken] at hnone
  obtain ⟨z, hz, hinterpret, hcompile⟩ := hvalue
  obtain ⟨y, hy, hinfinite, -⟩ := hquotient
  cases hz
  cases hy
  exact ⟨hinterpret, hcompile, hinfinite, hnone⟩

end ComplexFormula
