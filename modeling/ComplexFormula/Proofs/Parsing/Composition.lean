import Mathlib.Data.List.Forall2
import ComplexFormula.Proofs.Parsing.Acceptance
import ComplexFormula.Proofs.Parsing.Nodes
import ComplexFormula.Proofs.Scanning.Concatenation

/-! # Composition of sources

Sources in parentheses are put together with signs, operators and names, and give the formula that
is put together from theirs in the same way. Each pair of parentheses and each name takes one level.
-/

namespace ComplexFormula

variable {κ φ : Type}

/-- The source gives the formula under a depth limit, in any room that suffices. Two units for each
level are enough. -/
structure Accepted (bindings : List (Symbol κ φ)) (depth : Int) (source : String)
    (t : Formula κ φ) : Prop where
  parse_eq : ∀ room, Unexhausted ⟨depth, room⟩ source bindings →
    parse ⟨depth, room⟩ source bindings = .ok t
  unexhausted : ∀ room : Nat, 2 * depth ≤ room → Unexhausted ⟨depth, room⟩ source bindings

section Derivations

variable {c d : Category} {u v w : List (Lexeme κ φ)} {a b t : Formula κ φ} {m n : Nat}

theorem Derives.of_power (h : Derives .power w t n) (hc : c ≠ .base) : Derives c w t n := by
  have hfactor : Derives .factor w t n := .single rfl h
  have hproduct : Derives .product w t n := .single rfl hfactor
  have hsum : Derives .sum w t n := .single rfl hproduct
  cases c with
  | list => exact .single rfl hsum
  | sum => exact hsum
  | product => exact hproduct
  | factor => exact hfactor
  | power => exact h
  | base => exact absurd rfl hc

theorem Derives.of_base (h : Derives .base w t n) (c : Category) : Derives c w t n := by
  have hpower : Derives .power w t n := .signed [] h
  by_cases hc : c = .base
  · rwa [hc]
  · exact hpower.of_power hc

theorem Derives.list_of_joins {x : Lexeme κ φ} {op : Operator} (hj : Joins c x op)
    (h : Derives c w t n) : Derives .list w t n := by
  cases hj with
  | comma => exact h
  | add | sub => exact .single rfl h
  | mul | div => exact .single rfl (.single rfl h)
  | pow => exact .single rfl (.single rfl (.single rfl h))

theorem Operator.exists_joins (op : Operator) :
    ∃ c d : Category, c.operand? = some d ∧ Joins c (op.lexeme : Lexeme κ φ) op := by
  cases op with
  | add => exact ⟨_, _, rfl, .add⟩
  | sub => exact ⟨_, _, rfl, .sub⟩
  | mul => exact ⟨_, _, rfl, .mul⟩
  | div => exact ⟨_, _, rfl, .div⟩
  | pow => exact ⟨_, _, rfl, .pow⟩
  | comma => exact ⟨_, _, rfl, .comma⟩

theorem Derives.binary (op : Operator) (hu : Derives .power u a m) (hv : Derives .power v b n) :
    Derives .list (u ++ op.lexeme :: v) (.binary op a b) (max m n) := by
  obtain ⟨c, d, hd, hj⟩ := op.exists_joins
  have hc : c ≠ .base := by
    rintro rfl
    cases hd
  have hne : d ≠ .base := by
    rintro rfl
    cases c <;> cases hd
  exact .list_of_joins hj (.join hd hj (hu.of_power hc) (hv.of_power hne))

theorem Derives.negated (h : Derives .base w t n) :
    Derives .list (.operator .sub :: w) t.negate n :=
  .single rfl (.single rfl (.single rfl (.single rfl (.signed [.minus] h))))

end Derivations

/-- The text is a phrase that writes the formula, nested no deeper than the limit. -/
def Spells (bindings : List (Symbol κ φ)) (c : Category) (depth : Int) (text : List Char)
    (t : Formula κ φ) : Prop :=
  ∃ w n, Lexes bindings text w ∧ Derives c w t n ∧ (n : Int) ≤ depth

section Spelling

variable {bindings : List (Symbol κ φ)} {depth : Int} {source : String} {t : Formula κ φ}

theorem Spells.accepted (h : Spells bindings .list depth source.toList t) :
    Accepted bindings depth source t := by
  obtain ⟨w, n, hlex, hder, hn⟩ := h
  have hw : Writes (sourceLexemes source bindings) t n :=
    ⟨w, Lexes.map_lexeme_sourceTokens_iff.mpr hlex, hder⟩
  refine ⟨fun room hroom => parse_ok_of_writes hroom hw hn, fun room hroom cursor hp => ?_⟩
  have hroom : 2 * n ≤ (⟨depth, room⟩ : Limits).room := by
    dsimp only
    omega
  cases ((parse_of_writes hw hroom).1 hn).symm.trans hp

theorem spells_of_parse {limits : Limits} (h : parse limits source bindings = .ok t) :
    Spells bindings .list limits.depth source.toList t := by
  obtain ⟨n, ⟨w, hlex, hder⟩, hn⟩ := exists_writes_of_parse_ok h
  exact ⟨w, n, Lexes.map_lexeme_sourceTokens_iff.mp hlex, hder, hn⟩

end Spelling

section Composition

variable {bindings : List (Symbol κ φ)} {depth : Int} {a b : List Char} {t t₁ t₂ : Formula κ φ}

theorem Spells.parenthesised (h : Spells bindings .list depth a t) :
    Spells bindings .base (depth + 1) ('(' :: (a ++ [')'])) t := by
  obtain ⟨w, n, hlex, hder, hn⟩ := h
  exact ⟨_, n + 1, hlex.parenthesised .nil, .parenthesised hder, by omega⟩

theorem Spells.of_base (h : Spells bindings .base depth a t) : Spells bindings .list depth a t := by
  obtain ⟨w, n, hlex, hder, hn⟩ := h
  exact ⟨w, n, hlex, hder.of_base _, hn⟩

theorem Spells.negated (h : Spells bindings .base depth a t) :
    Spells bindings .list depth ('-' :: a) t.negate := by
  obtain ⟨w, n, hlex, hder, hn⟩ := h
  exact ⟨_, n, hlex.operator .sub, hder.negated, hn⟩

theorem Spells.binary (op : Operator) (h₁ : Spells bindings .list depth a t₁)
    (h₂ : Spells bindings .base (depth + 1) b t₂) :
    Spells bindings .list (depth + 1) ('(' :: (a ++ ')' :: (op.symbol.toList ++ b)))
      (.binary op t₁ t₂) := by
  obtain ⟨u, m, hu, hm, hmn⟩ := h₁
  obtain ⟨v, n, hv, hn, hnn⟩ := h₂
  have hlex := hu.parenthesised (hv.operator op)
  have hder := Derives.binary op (hm.parenthesised.of_base _) (hn.of_base _)
  refine ⟨_, _, ?_, hder, by omega⟩
  simpa using hlex

theorem Spells.application {name : List Char} {callee : Callee κ φ} (hname : IsName name)
    (hs : Symbol.resolve? (String.ofList name) bindings = some (.callable callee))
    (harity : callee.arity = 1) (h : Spells bindings .base depth ('(' :: a) t) :
    Spells bindings .list (depth + 1) (name ++ '(' :: a) (.call callee [t]) := by
  obtain ⟨w, n, hlex, hder, hn⟩ := h
  exact ⟨_, n + 1, .name hname hs hlex, (Derives.application harity (hder.of_base _)).of_base _,
    by omega⟩

theorem Phrase.intercalate_words (front : List (Phrase κ φ)) (last : Phrase κ φ) :
    [Lexeme.separator].intercalate ((front ++ [last]).map words) =
      separated front ++ last.words := by
  induction front with
  | nil => simp [separated]
  | cons p front ih =>
    cases front with
    | nil => simp [separated]
    | cons q front => simpa using ih

/-- Texts in parentheses, with commas between them, are phrases in parentheses with commas between
them. -/
theorem exists_phrases {parts : List (List Char)} {ts : List (Formula κ φ)}
    (h : List.Forall₂ (Spells bindings .list depth) parts ts) :
    ∃ ps : List (Phrase κ φ), ps.map Phrase.tree = ts ∧
      (∀ p ∈ ps, Derives .base p.words p.tree p.nesting ∧ (p.nesting : Int) ≤ depth + 1) ∧
      (parts ≠ [] → ∀ tail ys, Lexes bindings tail ys →
        Lexes bindings ('(' :: ([')', ',', '('].intercalate parts ++ ')' :: tail))
          ([Lexeme.separator].intercalate (ps.map Phrase.words) ++ ys)) := by
  induction h with
  | nil => exact ⟨[], rfl, List.forall_mem_nil _, fun h => absurd rfl h⟩
  | @cons part t parts ts hpart hparts ih =>
    obtain ⟨w, n, hlex, hder, hn⟩ := hpart
    obtain ⟨ps, htrees, hps, htext⟩ := ih
    let p : Phrase κ φ := ⟨.opening :: (w ++ [.closing]), t, n + 1⟩
    have hp : (p.nesting : Int) ≤ depth + 1 := by
      simp only [p]
      omega
    refine ⟨p :: ps, by rw [List.map_cons, htrees],
      List.forall_mem_cons.mpr ⟨⟨hder.parenthesised, hp⟩, hps⟩, ?_⟩
    intro _ tail ys htail
    -- a comma comes first only where there is another part
    cases hparts with
    | nil =>
      obtain rfl := List.map_eq_nil_iff.mp htrees
      simpa [p] using hlex.parenthesised htail
    | @cons part' t' parts' ts' =>
      obtain ⟨q, qs, rfl, -⟩ := List.map_eq_cons_iff.mp htrees
      have hmore := (htext (List.cons_ne_nil _ _) tail ys htail).operator .comma
      simpa [p, Operator.symbol, Operator.lexeme] using hlex.parenthesised hmore

theorem Spells.call {name : List Char} {callee : Callee κ φ} {parts : List (List Char)}
    {ts : List (Formula κ φ)} (hname : IsName name)
    (hs : Symbol.resolve? (String.ofList name) bindings = some (.callable callee))
    (two_le : 2 ≤ callee.arity) (count : parts.length = callee.arity)
    (h : List.Forall₂ (Spells bindings .list depth) parts ts) :
    Spells bindings .list (depth + 2)
      (name ++ '(' :: '(' :: ([')', ',', '('].intercalate parts ++ [')', ')']))
      (.call callee ts) := by
  obtain ⟨ps, htrees, hps, htext⟩ := exists_phrases h
  have hlength : ps.length = callee.arity := by
    rw [← count, h.length_eq, ← htrees, List.length_map]
  rcases List.eq_nil_or_concat' ps with rfl | ⟨front, last, rfl⟩
  · simp only [List.length_nil] at hlength
    omega
  have hparts : parts ≠ [] := by
    rintro rfl
    simp only [List.length_nil] at count
    omega
  have hlex := htext hparts [')'] [.closing] Lexes.nil.closing
  rw [Phrase.intercalate_words] at hlex
  have hcount : front.length + 1 = callee.arity := by simpa using hlength
  have hder := Derives.call two_le hcount fun p hp => (hps p hp).1.of_base .sum
  rw [htrees] at hder
  have hdeepest : Phrase.deepest (front ++ [last]) ≤ (depth + 1).toNat :=
    Phrase.deepest_le fun p hp => by
      have := (hps p hp).2
      omega
  have hlast := (hps last (List.mem_append_right _ (List.mem_singleton_self last))).2
  exact ⟨_, _, .name hname hs hlex.opening, hder.of_base _, by omega⟩

end Composition

section Names

variable {bindings : List (Symbol κ φ)}

theorem Builtin.isIdentifier_name (f : Builtin) : isIdentifier f.name = true := by
  cases f <;> decide

theorem Symbol.isName_of_resolve? (valid : ∀ s ∈ bindings, s.Valid) {name : String}
    {s : Symbol κ φ} (h : resolve? name bindings = some s) : IsName name.toList := by
  rw [IsName, String.ofList_toList, ← name_of_resolve? h]
  rcases mem_of_resolve? h with hs | ⟨f, rfl⟩
  · exact (valid s hs).1
  · exact f.isIdentifier_name

end Names

/-- Whatever the parts hold, they are read in parentheses as they are read alone. -/
theorem parse_compositional (limits : Limits) {bindings : List (Symbol κ φ)}
    (valid : ∀ s ∈ bindings, s.Valid) :
    (∀ source t, parse limits source bindings = .ok t →
      Accepted bindings (limits.depth + 1) ("(" ++ source ++ ")") t ∧
      Accepted bindings (limits.depth + 1) ("-(" ++ source ++ ")") t.negate ∧
      ∀ name callee, Symbol.resolve? name bindings = some (.callable callee) → callee.arity = 1 →
        Accepted bindings (limits.depth + 2) (name ++ "(" ++ source ++ ")") (.call callee [t])) ∧
    (∀ (op : Operator) source₁ source₂ t₁ t₂,
      parse limits source₁ bindings = .ok t₁ → parse limits source₂ bindings = .ok t₂ →
        Accepted bindings (limits.depth + 1)
          ("(" ++ source₁ ++ ")" ++ op.symbol ++ "(" ++ source₂ ++ ")") (.binary op t₁ t₂)) ∧
    ∀ name callee parts ts, Symbol.resolve? name bindings = some (.callable callee) →
      2 ≤ callee.arity → parts.length = callee.arity →
        List.Forall₂ (fun source t => parse limits source bindings = .ok t) parts ts →
          Accepted bindings (limits.depth + 2) (name ++ "((" ++ "),(".intercalate parts ++ "))")
            (.call callee ts) := by
  refine ⟨fun source t h => ?_, fun op source₁ source₂ t₁ t₂ h₁ h₂ => ?_,
    fun name callee parts ts hs two_le count h => ?_⟩
  · have hinside := (spells_of_parse h).parenthesised
    refine ⟨Spells.accepted ?_, Spells.accepted ?_, fun name callee hs harity => Spells.accepted ?_⟩
    · simpa using hinside.of_base
    · simpa using hinside.negated
    · have hname := Symbol.isName_of_resolve? valid hs
      rw [← String.ofList_toList (s := name)] at hs
      have hcall := hinside.application hname hs harity
      simpa [Int.add_assoc] using hcall
  · have hboth := (spells_of_parse h₁).binary op (spells_of_parse h₂).parenthesised
    refine Spells.accepted ?_
    simpa using hboth
  · have hname := Symbol.isName_of_resolve? valid hs
    rw [← String.ofList_toList (s := name)] at hs
    have hparts : List.Forall₂ (Spells bindings .list limits.depth) (parts.map String.toList) ts :=
      List.forall₂_map_left_iff.mpr (h.imp fun _ _ => spells_of_parse)
    have hcall := Spells.call hname hs two_le (by rw [List.length_map, count]) hparts
    refine Spells.accepted ?_
    simpa [String.toList_intercalate] using hcall

def mixing : List (Symbol Nat Bool) :=
  [.callable ⟨"mix", .closure true none, 2, false⟩, .cell "x" 0]

def listed : Formula Nat Bool := .binary .comma (.cell "x" 0) (.negate (.cell "x" 0))

def squared : Formula Nat Bool := .binary .mul (.cell "x" 0) (.cell "x" 0)

/-- A part with a comma and a blank at its end, and another. -/
theorem parse_compositional_mixing :
    (∀ s ∈ mixing, s.Valid) ∧ parse ⟨1, 4⟩ "x, -x " mixing = .ok listed ∧
      parse ⟨1, 4⟩ "x*x" mixing = .ok squared ∧
      Accepted mixing 2 "(x, -x )" listed ∧ Accepted mixing 2 "-(x, -x )" listed.negate ∧
      Accepted mixing 3 "sin(x, -x )" (.call (.builtin .sin) [listed]) ∧
      Accepted mixing 2 "(x, -x )^(x*x)" (.binary .pow listed squared) ∧
      Accepted mixing 3 "mix((x, -x ),(x*x))"
        (.call ⟨"mix", .closure true none, 2, false⟩ [listed, squared]) := by
  have valid : ∀ s ∈ mixing, s.Valid := by decide
  have hlisted : parse ⟨1, 4⟩ "x, -x " mixing = .ok listed := by rfl
  have hsquared : parse ⟨1, 4⟩ "x*x" mixing = .ok squared := by rfl
  have hsin : Symbol.resolve? "sin" mixing = some (.callable (.builtin .sin)) :=
    congrArg (Option.map Symbol.builtin) (Builtin.find?_name .sin)
  obtain ⟨hone, htwo, hcall⟩ := parse_compositional ⟨1, 4⟩ valid
  obtain ⟨hinside, hnegated, happlied⟩ := hone _ _ hlisted
  exact ⟨valid, hlisted, hsquared, hinside, hnegated, happlied _ _ hsin rfl,
    htwo .pow _ _ _ _ hlisted hsquared,
    hcall "mix" _ ["x, -x ", "x*x"] _ rfl (Nat.le_refl 2) rfl (.cons hlisted (.cons hsquared .nil))⟩

end ComplexFormula
