import ComplexFormula.Proofs.Evaluation.Closed
import ComplexFormula.Proofs.Evaluation.Primitives
import ComplexFormula.Proofs.Parsing.Acceptance
import ComplexFormula.Proofs.Scanning.Segmentation

/-! # The nodes of a parsed formula

A derivation gives every call its arguments, and takes cells and callees from nowhere but its
lexemes. So what holds of the bindings, of the builtins and of the operators holds of a formula that
is parsed.
-/

namespace ComplexFormula

variable {κ φ σ : Type}

namespace Derives

variable {c : Category} {w : List (Lexeme κ φ)} {t : Formula κ φ} {n : Nat}

theorem wellFormed (h : Derives c w t n) : t.WellFormed := by
  induction h with
  | single _ _ ih | parenthesised _ ih => exact ih
  | join _ _ _ _ ihl ihr =>
    exact .call rfl (List.forall_mem_cons.mpr ⟨ihl, List.forall_mem_singleton.mpr ihr⟩)
  | signed signs _ ih =>
    split
    · exact .call rfl (List.forall_mem_singleton.mpr ih)
    · exact ih
  | real | imaginary => exact .constant _
  | cell name k => exact .cell name k
  | name arity | emptyCall arity => exact .call arity.symm (List.forall_mem_nil _)
  | application arity _ ih => exact .call arity.symm (List.forall_mem_singleton.mpr ih)
  | call _ count _ ih =>
    refine .call (by simp [count]) fun t ht => ?_
    obtain ⟨p, hp, rfl⟩ := List.mem_map.mp ht
    exact ih p hp

end Derives

/-- What is asked of cells and of callees, asked of a symbol. -/
def Symbol.Meets (cells : String → κ → Prop) (callees : Callee κ φ → Prop) : Symbol κ φ → Prop
  | .cell name c => cells name c
  | .callable callee => callees callee

def Symbol.Honest (host : Host κ φ σ) : Symbol κ φ → Prop :=
  Meets (fun _ _ => True) fun callee => callee.pure = true → callee.Honest host

theorem Formula.Every.honest {host : Host κ φ σ} {cells : String → κ → Prop} {t : Formula κ φ}
    (h : t.Every cells fun callee => callee.pure = true → callee.Honest host) : t.Honest host := by
  induction h with
  | constant z => exact .constant z
  | cell => exact .cell _ _
  | call hcallee _ ih => exact .call hcallee ih

section Every

variable {cells : String → κ → Prop} {callees : Callee κ φ → Prop}

theorem Phrase.mem_of_mem_words {front : List (Phrase κ φ)} {last p : Phrase κ φ}
    (hp : p ∈ front ++ [last]) {x : Lexeme κ φ} (hx : x ∈ p.words) :
    x ∈ separated front ++ last.words := by
  rcases List.mem_append.mp hp with hp | hp
  · exact List.mem_append_left _
      (List.mem_flatMap.mpr ⟨p, hp, List.mem_append_left _ hx⟩)
  · obtain rfl := List.mem_singleton.mp hp
    exact List.mem_append_right _ hx

/-- Cells and callees come from the lexemes, but for operators and the minus sign. -/
theorem Derives.every {c : Category} {w : List (Lexeme κ φ)} {t : Formula κ φ} {n : Nat}
    (h : Derives c w t n) (hoperator : ∀ op, callees (.operator op)) (hnegation : callees .negation)
    (hw : ∀ s, .symbol s ∈ w → s.Meets cells callees) : t.Every cells callees := by
  induction h with
  | single _ _ ih => exact ih hw
  | join _ _ _ _ ihl ihr =>
    have hl := ihl fun s hs => hw s (List.mem_append_left _ hs)
    have hr := ihr fun s hs => hw s (List.mem_append_right _ (List.mem_cons_of_mem _ hs))
    exact .call (hoperator _) (List.forall_mem_cons.mpr ⟨hl, List.forall_mem_singleton.mpr hr⟩)
  | signed signs _ ih =>
    have hbase := ih fun s hs => hw s (List.mem_append_right _ hs)
    split
    · exact .call hnegation (List.forall_mem_singleton.mpr hbase)
    · exact hbase
  | real | imaginary => exact .constant _
  | cell name k => exact .cell (hw _ List.mem_cons_self)
  | name | emptyCall => exact .call (hw _ List.mem_cons_self) (List.forall_mem_nil _)
  | application _ _ ih =>
    have hoperand := ih fun s hs => hw s (List.mem_cons_of_mem _ hs)
    exact .call (hw _ List.mem_cons_self) (List.forall_mem_singleton.mpr hoperand)
  | call _ _ _ ih =>
    refine .call (hw _ List.mem_cons_self) fun t ht => ?_
    obtain ⟨p, hp, rfl⟩ := List.mem_map.mp ht
    refine ih p hp fun s hs => hw s ?_
    have hmem := Phrase.mem_of_mem_words hp hs
    exact List.mem_cons_of_mem _ (List.mem_cons_of_mem _ (List.mem_append_left _ hmem))
  | parenthesised _ ih =>
    exact ih fun s hs => hw s (List.mem_cons_of_mem _ (List.mem_append_left _ hs))

end Every

theorem Symbol.mem_of_resolve? {name : String} {bindings : List (Symbol κ φ)} {s : Symbol κ φ}
    (h : resolve? name bindings = some s) : s ∈ bindings ∨ ∃ f, s = builtin f := by
  rw [resolve?] at h
  split at h
  · rename_i hfound
    cases h
    exact .inl (List.mem_of_find?_eq_some hfound)
  · obtain ⟨f, -, rfl⟩ := Option.map_eq_some_iff.mp h
    exact .inr ⟨f, rfl⟩

theorem Builtin.name_of_find? {name : String} {f : Builtin} (h : find? name = some f) :
    f.name = name := by
  rw [find?] at h
  split at h
  · split at h
    · cases h
      assumption
    · cases h
  · cases h

/-- Every builtin is found: the table is in the order that the search relies on. -/
theorem Builtin.find?_name (f : Builtin) : find? f.name = some f := by
  cases f <;> decide +kernel

theorem Symbol.name_of_resolve? {name : String} {bindings : List (Symbol κ φ)} {s : Symbol κ φ}
    (h : resolve? name bindings = some s) : s.name = name := by
  rw [resolve?] at h
  split at h
  · rename_i hfound
    cases h
    rw [findBinding?] at hfound
    have hname := List.find?_some hfound
    exact eq_of_beq hname
  · obtain ⟨f, hf, rfl⟩ := Option.map_eq_some_iff.mp h
    exact Builtin.name_of_find? hf

section Parse

variable {limits : Limits} {source : String} {bindings : List (Symbol κ φ)} {t : Formula κ φ}

theorem exists_name_of_symbol_mem {s : Symbol κ φ}
    (h : .symbol s ∈ sourceLexemes source bindings) :
    ∃ w, IsName w ∧ Symbol.resolve? (String.ofList w) bindings = some s := by
  obtain ⟨ts, hts, -, hall, -⟩ := sourceTokens_segments source bindings
  obtain ⟨u, hu, hs⟩ := List.mem_map.mp h
  rw [hall] at hu
  rcases List.mem_append.mp hu with hu | hu
  · have hmunch := hts.munch_of_mem hu
    rw [hs] at hmunch
    cases hmunch with
    | name longest hresolved => exact ⟨_, longest.holds, hresolved⟩
  · obtain rfl := List.mem_singleton.mp hu
    cases hs

theorem resolve?_of_symbol_mem {s : Symbol κ φ} (h : .symbol s ∈ sourceLexemes source bindings) :
    Symbol.resolve? s.name bindings = some s := by
  obtain ⟨w, -, hresolved⟩ := exists_name_of_symbol_mem h
  rw [Symbol.name_of_resolve? hresolved, hresolved]

theorem isName_of_symbol_mem {s : Symbol κ φ} (h : .symbol s ∈ sourceLexemes source bindings) :
    IsName s.name.toList := by
  obtain ⟨w, hw, hresolved⟩ := exists_name_of_symbol_mem h
  rwa [Symbol.name_of_resolve? hresolved, String.toList_ofList]

theorem wellFormed_of_parse (h : parse limits source bindings = .ok t) : t.WellFormed := by
  obtain ⟨n, ⟨w, -, hder⟩, -⟩ := exists_writes_of_parse_ok h
  exact hder.wellFormed

theorem every_of_isName {cells : String → κ → Prop} {callees : Callee κ φ → Prop}
    (hoperator : ∀ op, callees (.operator op)) (hnegation : callees .negation)
    (hsymbols : ∀ s, IsName s.name.toList → Symbol.resolve? s.name bindings = some s →
      s.Meets cells callees)
    (h : parse limits source bindings = .ok t) : t.Every cells callees := by
  obtain ⟨n, ⟨w, hlex, hder⟩, -⟩ := exists_writes_of_parse_ok h
  refine hder.every hoperator hnegation fun s hs => ?_
  have hmem : .symbol s ∈ sourceLexemes source bindings := by
    rw [hlex]
    exact List.mem_append_left _ hs
  exact hsymbols s (isName_of_symbol_mem hmem) (resolve?_of_symbol_mem hmem)

theorem every_of_resolve? {cells : String → κ → Prop} {callees : Callee κ φ → Prop}
    (hoperator : ∀ op, callees (.operator op)) (hnegation : callees .negation)
    (hsymbols : ∀ s, Symbol.resolve? s.name bindings = some s → s.Meets cells callees)
    (h : parse limits source bindings = .ok t) : t.Every cells callees :=
  every_of_isName hoperator hnegation (fun s _ => hsymbols s) h

/-- What holds of the bindings and of all that the language brings along holds of every node. -/
theorem every_of_parse {cells : String → κ → Prop} {callees : Callee κ φ → Prop}
    (hstandard : ∀ callee, callee.Standard → callees callee)
    (hbindings : ∀ s ∈ bindings, s.Meets cells callees)
    (h : parse limits source bindings = .ok t) : t.Every cells callees := by
  refine every_of_resolve? (fun op => hstandard _ (.operator op)) (hstandard _ .negation)
    (fun s hs => ?_) h
  rcases Symbol.mem_of_resolve? hs with hs | ⟨f, rfl⟩
  · exact hbindings s hs
  · exact hstandard _ (.builtin f)

theorem honest_of_parse {host : Host κ φ σ} (hbindings : ∀ s ∈ bindings, s.Honest host)
    (h : parse limits source bindings = .ok t) : t.Honest host := by
  have hevery : t.Every (fun _ _ => True) fun callee => callee.pure = true → callee.Honest host :=
    every_of_parse (fun _ hc _ => hc.honest host) hbindings h
  exact hevery.honest

theorem every_of_parse_nil (h : parse limits source ([] : List (Symbol κ φ)) = .ok t) :
    t.Every (fun _ _ => False) Callee.Standard :=
  every_of_parse (fun _ hc => hc) (List.forall_mem_nil _) h

end Parse

end ComplexFormula
