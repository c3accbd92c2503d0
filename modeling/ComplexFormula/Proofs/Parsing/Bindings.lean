import Mathlib.Data.List.Find
import Mathlib.Data.List.Nodup
import ComplexFormula.Proofs.Parsing.Nodes
import ComplexFormula.Proofs.Parsing.Places
import ComplexFormula.Proofs.Symbols.Search

/-! # What a parse takes from the bindings

A name stands for the first binding of it, or else for the builtin of it. A parse asks for nothing
but the identifiers of its source, so that bindings which give these the same symbols are as good as
each other.
-/

namespace ComplexFormula

variable {κ φ κ' φ' : Type}

namespace Symbol

/-- What a name stands for: the first binding that has it, or else the builtin that has it. -/
inductive StandsFor (bindings : List (Symbol κ φ)) (name : String) : Symbol κ φ → Prop
  | binding {before after : List (Symbol κ φ)} {s : Symbol κ φ}
      (place : bindings = before ++ s :: after) (name_eq : s.name = name)
      (first : ∀ b ∈ before, b.name ≠ name) : StandsFor bindings name s
  | builtin {f : Builtin} (unbound : ∀ b ∈ bindings, b.name ≠ name) (name_eq : f.name = name) :
      StandsFor bindings name (.builtin f)

variable {bindings before added after : List (Symbol κ φ)} {name : String} {s : Symbol κ φ}

theorem findBinding?_eq_none_iff :
    findBinding? name bindings = none ↔ ∀ b ∈ bindings, b.name ≠ name := by
  simp [findBinding?]

theorem resolve?_eq_some_iff : resolve? name bindings = some s ↔ StandsFor bindings name s := by
  rw [resolve?]
  cases hfound : findBinding? name bindings with
  | some b =>
    have hbound : ¬ ∀ b ∈ bindings, b.name ≠ name := by
      rw [← findBinding?_eq_none_iff, hfound]
      exact Option.some_ne_none b
    obtain ⟨hname, before, after, hplace, hfirst⟩ := List.find?_eq_some_iff_append.mp hfound
    have hfirst : ∀ b ∈ before, b.name ≠ name := by simpa using hfirst
    constructor
    · rintro ⟨⟩
      exact .binding hplace (eq_of_beq hname) hfirst
    · rintro (⟨hplace', hname', hfirst'⟩ | ⟨hunbound⟩)
      · exact hfound.symm.trans <| List.find?_eq_some_iff_append.mpr
          ⟨beq_iff_eq.mpr hname', _, _, hplace', by simpa using hfirst'⟩
      · exact absurd hunbound hbound
  | none =>
    have hunbound := findBinding?_eq_none_iff.mp hfound
    simp only [findBuiltin?, Option.map_eq_some_iff]
    constructor
    · rintro ⟨f, hf, rfl⟩
      exact .builtin hunbound (Builtin.name_of_find? hf)
    · rintro (⟨rfl, hname, -⟩ | ⟨-, rfl⟩)
      · exact absurd hname (hunbound s (by simp))
      · exact ⟨_, Builtin.find?_name _, rfl⟩

theorem resolve?_eq_none_iff : resolve? name bindings = none ↔
    (∀ b ∈ bindings, b.name ≠ name) ∧ ∀ f : Builtin, f.name ≠ name := by
  rw [resolve?, ← findBinding?_eq_none_iff]
  cases findBinding? name bindings with
  | some b => simp
  | none =>
    simp only [true_and, findBuiltin?, Option.map_eq_none_iff]
    constructor
    · rintro h f rfl
      exact absurd (f.find?_name.symm.trans h) (Option.some_ne_none f)
    · intro h
      exact Option.eq_none_iff_forall_ne_some.mpr fun f hf => h f (Builtin.name_of_find? hf)

theorem resolve?_congr {bindings' : List (Symbol κ φ)}
    (h : findBinding? name bindings = findBinding? name bindings') :
    resolve? name bindings = resolve? name bindings' := by
  rw [resolve?, resolve?, h]

theorem findBinding?_perm {bindings' : List (Symbol κ φ)} (h : bindings.Perm bindings')
    (distinct : (bindings.map Symbol.name).Nodup) (name : String) :
    findBinding? name bindings = findBinding? name bindings' := by
  refine List.find?_eq_find?_of_perm h fun s hs t ht => ?_
  obtain ⟨hs, hsname⟩ := hs
  obtain ⟨ht, htname⟩ := ht
  exact List.inj_on_of_nodup_map distinct hs ht
    ((eq_of_beq hsname).trans (eq_of_beq htname).symm)

theorem findBinding?_shadowed (h : s.name ∈ before.map Symbol.name) (name : String) :
    findBinding? name (before ++ s :: after) = findBinding? name (before ++ after) := by
  rw [findBinding?, findBinding?, List.find?_append, List.find?_append, List.find?_cons]
  by_cases hs : s.name = name
  · obtain ⟨b, hb, hname⟩ := List.mem_map.mp h
    have hfound : (before.find? (·.name == name)).isSome := by
      rw [List.find?_isSome]
      exact ⟨b, hb, beq_iff_eq.mpr (hname.trans hs)⟩
    obtain ⟨t, ht⟩ := Option.isSome_iff_exists.mp hfound
    rw [ht, Option.some_or, Option.some_or]
  · rw [beq_eq_false_iff_ne.mpr hs]

theorem findBinding?_added (h : ∀ s ∈ added, s.name ≠ name) :
    findBinding? name (before ++ added ++ after) = findBinding? name (before ++ after) := by
  have hadded : added.find? (·.name == name) = none :=
    List.find?_eq_none.mpr fun s hs => by simpa using h s hs
  simp only [findBinding?, List.find?_append, hadded, Option.or_none]

end Symbol

section Identifiers

variable {bindings : List (Symbol κ φ)} {text w : List Char} {x : Lexeme κ φ} {place : Nat}
  {t : Token κ φ} {ts : List (Token κ φ)}

theorem Munch.exists_rebound (h : Munch bindings text x w) (bindings' : List (Symbol κ' φ')) :
    ∃ x', Munch bindings' text x' w := by
  cases h with
  | real valid longest plain => exact ⟨_, .real valid longest plain⟩
  | imaginary valid longest suffix => exact ⟨_, .imaginary valid longest suffix⟩
  | point first none => exact ⟨_, .point first none⟩
  | name longest | unbound longest =>
    cases hs : Symbol.resolve? (String.ofList w) bindings' with
    | some s => exact ⟨_, .name longest hs⟩
    | none => exact ⟨_, .unbound longest hs⟩
  | operator mark first => exact ⟨_, .operator mark first⟩
  | opening first => exact ⟨_, .opening first⟩
  | closing first => exact ⟨_, .closing first⟩
  | separator first => exact ⟨_, .separator first⟩
  | other first blank digit letter mark => exact ⟨_, .other first blank digit letter mark⟩

theorem Munch.rebind {bindings' : List (Symbol κ φ)} (h : Munch bindings text x w)
    (hw : IsName w → Symbol.resolve? (String.ofList w) bindings' =
      Symbol.resolve? (String.ofList w) bindings) : Munch bindings' text x w := by
  cases h with
  | name longest resolved => exact .name longest ((hw longest.holds).trans resolved)
  | unbound longest unresolved => exact .unbound longest ((hw longest.holds).trans unresolved)
  | real valid longest plain => exact .real valid longest plain
  | imaginary valid longest suffix => exact .imaginary valid longest suffix
  | point first none => exact .point first none
  | operator mark first => exact .operator mark first
  | opening first => exact .opening first
  | closing first => exact .closing first
  | separator first => exact .separator first
  | other first blank digit letter mark => exact .other first blank digit letter mark

theorem Segments.exists_rebound (h : Segments bindings text place ts)
    (bindings' : List (Symbol κ' φ')) :
    ∃ us, Segments bindings' text place us ∧ us.map Token.text = ts.map Token.text := by
  induction h with
  | finish hb => exact ⟨[], .finish hb, rfl⟩
  | @token place t ts hf _ ih =>
    obtain ⟨us, hus, htext⟩ := ih
    obtain ⟨x', hx'⟩ := hf.munch.exists_rebound bindings'
    have hf' : (⟨x', t.start, t.stop, t.text⟩ : Token κ' φ').Follows bindings' text place :=
      ⟨hf.place_le, hf.start_lt, hf.stop_le, hf.blank, hf.stop_eq, hx'⟩
    exact ⟨_ :: us, .token hf' hus, by rw [List.map_cons, List.map_cons, htext]⟩

theorem Segments.rebind {bindings' : List (Symbol κ φ)} (h : Segments bindings text place ts)
    (hts : ∀ t ∈ ts, IsName t.text → Symbol.resolve? (String.ofList t.text) bindings' =
      Symbol.resolve? (String.ofList t.text) bindings) : Segments bindings' text place ts := by
  induction h with
  | finish hb => exact .finish hb
  | token hf _ ih =>
    obtain ⟨ht, hts⟩ := List.forall_mem_cons.mp hts
    exact .token ⟨hf.place_le, hf.start_lt, hf.stop_le, hf.blank, hf.stop_eq, hf.munch.rebind ht⟩
      (ih hts)

/-- The identifiers among the lexemes of a source, whether they stand for something or not. -/
def identifiers (source : String) : List String :=
  ((sourceTokens source ([] : List (Symbol Empty Empty))).map fun t =>
    String.ofList t.text).filter isIdentifier

theorem mem_identifiers {source : String} (h : Segments bindings source.toList 0 ts)
    (ht : t ∈ ts) (hname : IsName t.text) : String.ofList t.text ∈ identifiers source := by
  obtain ⟨us, hus, htext⟩ := h.exists_rebound ([] : List (Symbol Empty Empty))
  obtain ⟨vs, hvs, -, hall, -⟩ := sourceTokens_segments source ([] : List (Symbol Empty Empty))
  obtain rfl := hus.eq hvs
  have hmem : t.text ∈ us.map Token.text := htext ▸ List.mem_map_of_mem ht
  obtain ⟨u, hu, hut⟩ := List.mem_map.mp hmem
  refine List.mem_filter.mpr ⟨List.mem_map.mpr ⟨u, ?_, by rw [hut]⟩, hname⟩
  rw [hall]
  exact List.mem_append_left _ hu

theorem sourceTokens_congr {source : String} {bindings bindings' : List (Symbol κ φ)}
    (h : ∀ name ∈ identifiers source,
      Symbol.resolve? name bindings = Symbol.resolve? name bindings') :
    sourceTokens source bindings = sourceTokens source bindings' := by
  obtain ⟨ts, hts, -, hall, -⟩ := sourceTokens_segments source bindings
  obtain ⟨us, hus, -, hall', -⟩ := sourceTokens_segments source bindings'
  have hsame : Segments bindings' source.toList 0 ts :=
    hts.rebind fun t ht hname => (h _ (mem_identifiers hts ht hname)).symm
  rw [hall, hall', hsame.eq hus]

theorem parse_congr (limits : Limits) {source : String} {bindings bindings' : List (Symbol κ φ)}
    (h : ∀ name ∈ identifiers source,
      Symbol.resolve? name bindings = Symbol.resolve? name bindings') :
    parse limits source bindings = parse limits source bindings' := by
  rw [parse_eq_readAll, parse_eq_readAll, sourceTokens_congr h]

end Identifiers

/-- A name stands for the first binding that has it, or else for the builtin that the search finds,
which is the one that a scan finds, as it is in every table in strict order. So a parse is the same
when bindings of different names change places, when one comes or goes behind another of its name,
and when bindings come in anywhere whose names are no identifiers of the source. -/
theorem parse_of_firstMatches :
    (∀ (bindings : List (Symbol κ φ)) (name : String),
      (∀ s, Symbol.resolve? name bindings = some s ↔ Symbol.StandsFor bindings name s) ∧
      (Symbol.resolve? name bindings = none ↔
        (∀ b ∈ bindings, b.name ≠ name) ∧ ∀ f : Builtin, f.name ≠ name)) ∧
    (∀ name, Builtin.find? name = searchTable Builtin.name Builtin.table name ∧
      Builtin.find? name = Builtin.table.toList.find? (·.name == name)) ∧
    (∀ (α : Type) (key : α → String) (table : Array α),
      (table.toList.Pairwise fun x y => key x < key y) →
        ∀ name, searchTable key table name = table.toList.find? (key · == name)) ∧
    ∀ (limits : Limits) (source : String),
      (∀ bindings bindings' : List (Symbol κ φ), bindings.Perm bindings' →
        (bindings.map Symbol.name).Nodup →
          parse limits source bindings = parse limits source bindings') ∧
      (∀ (before after : List (Symbol κ φ)) (s : Symbol κ φ), s.name ∈ before.map Symbol.name →
        parse limits source (before ++ s :: after) = parse limits source (before ++ after)) ∧
      ∀ before added after : List (Symbol κ φ), (∀ s ∈ added, s.name ∉ identifiers source) →
        parse limits source (before ++ added ++ after) =
          parse limits source (before ++ after) := by
  refine ⟨fun bindings name => ⟨fun s => Symbol.resolve?_eq_some_iff, Symbol.resolve?_eq_none_iff⟩,
    fun name => ⟨Builtin.find?_eq_searchTable name, Builtin.find?_eq_find? name⟩,
    fun α key table sorted => searchTable_eq_find? sorted, fun limits source => ⟨?_, ?_, ?_⟩⟩
  · intro bindings bindings' hperm hdistinct
    refine parse_congr limits fun name _ => Symbol.resolve?_congr ?_
    exact Symbol.findBinding?_perm hperm hdistinct name
  · intro before after s hs
    refine parse_congr limits fun name _ => Symbol.resolve?_congr ?_
    exact Symbol.findBinding?_shadowed hs name
  · intro before added after hadded
    refine parse_congr limits fun name hname => Symbol.resolve?_congr ?_
    exact Symbol.findBinding?_added fun s hs heq => hadded s hs (heq ▸ hname)

/-- A cell takes the place of a builtin, whatever comes behind it and wherever it stands. -/
theorem parse_of_firstMatches_shadowedConstant :
    ["I", "abs", "acos"].Pairwise (· < ·) ∧ searchTable id #["I", "abs", "acos"] "ab" = none ∧
      [Symbol.cell "pi" 1, .cell "x" 2].Perm [.cell "x" 2, (.cell "pi" 1 : Symbol Nat Empty)] ∧
      ["pi", "x"].Nodup ∧ "p" ∉ identifiers "x*pi" ∧
      parse ⟨1, 4⟩ "x*pi" [.cell "x" 2, .cell "p" 4, .cell "pi" 1, .cell "pi" 3] =
        .ok (.binary .mul (.cell "x" 2) (.cell "pi" 1) : Formula Nat Empty) := by
  obtain ⟨-, -, htable, hparse⟩ := parse_of_firstMatches (κ := Nat) (φ := Empty)
  obtain ⟨hpermuted, hshadowed, hadded⟩ := hparse ⟨1, 4⟩ "x*pi"
  have hsorted : ["I", "abs", "acos"].Pairwise (· < ·) := by decide
  have hperm : [Symbol.cell "pi" 1, .cell "x" 2].Perm
      [.cell "x" 2, (.cell "pi" 1 : Symbol Nat Empty)] := .swap ..
  have hdistinct : ["pi", "x"].Nodup := by decide
  have hfirst : parse ⟨1, 4⟩ "x*pi" [Symbol.cell "pi" 1, .cell "x" 2] =
      .ok (.binary .mul (.cell "x" 2) (.cell "pi" 1) : Formula Nat Empty) := by rfl
  have hother : "p" ∉ identifiers "x*pi" := by decide +kernel
  refine ⟨hsorted, (htable String id #["I", "abs", "acos"] hsorted "ab").trans (by decide), hperm,
    hdistinct, hother, ?_⟩
  calc parse ⟨1, 4⟩ "x*pi" [Symbol.cell "x" 2, .cell "p" 4, .cell "pi" 1, .cell "pi" 3]
      = parse ⟨1, 4⟩ "x*pi" [.cell "x" 2, .cell "pi" 1, .cell "pi" 3] :=
        hadded [.cell "x" 2] [.cell "p" 4] [.cell "pi" 1, .cell "pi" 3]
          (List.forall_mem_singleton.mpr hother)
    _ = parse ⟨1, 4⟩ "x*pi" [.cell "x" 2, .cell "pi" 1] :=
        hshadowed [.cell "x" 2, .cell "pi" 1] [] (.cell "pi" 3) (by decide)
    _ = parse ⟨1, 4⟩ "x*pi" [.cell "pi" 1, .cell "x" 2] := (hpermuted _ _ hperm hdistinct).symm
    _ = .ok (.binary .mul (.cell "x" 2) (.cell "pi" 1)) := hfirst

end ComplexFormula
