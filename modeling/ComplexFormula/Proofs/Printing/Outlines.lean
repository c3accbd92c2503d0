import Mathlib.Data.List.Basic
import ComplexFormula.Proofs.Evaluation.NormalForms
import ComplexFormula.Proofs.Parsing.Origins
import ComplexFormula.Proofs.Printing.Labels

/-! # Outlines

An outline has a line for each node, in pre-order. The label of a call tells how many arguments
follow, so that the lines tell the shape of the formula, and all of it but its cells and callables.
-/

namespace ComplexFormula

variable {κ φ : Type}

namespace Formula

section Preorder

/-- The nodes with their depths: a node, then all below its first argument, and so on. -/
def preorder : (depth : Nat) → Formula κ φ → Agenda κ φ
  | depth, constant z => [(constant z, depth)]
  | depth, cell name c => [(cell name c, depth)]
  | depth, call callee args => (call callee args, depth) :: preorders (depth + 1) args
where
  preorders : (depth : Nat) → List (Formula κ φ) → Agenda κ φ
    | _, [] => []
    | depth, t :: ts => preorder depth t ++ preorders depth ts

theorem flatMap_preorder_ofArguments (args : List (Formula κ φ)) (depth : Nat) :
    (Agenda.ofArguments args depth).flatMap (fun e => e.1.preorder e.2) =
      preorder.preorders depth args := by
  induction args with
  | nil => rfl
  | cons t ts ih =>
    rw [preorder.preorders, ← ih]
    rfl

/-- With the arguments of a call on top of what is left to walk, they come before it. -/
theorem walkFrom_eq_flatMap (agenda : Agenda κ φ) :
    walkFrom agenda = agenda.flatMap fun e => e.1.preorder e.2 := by
  fun_induction walkFrom agenda with
  | case1 => rfl
  | case2 callee args depth rest ih =>
    rw [ih, List.flatMap_append, flatMap_preorder_ofArguments, List.flatMap_cons, preorder,
      List.cons_append]
  | case3 leaf depth rest hleaf ih =>
    rw [ih, List.flatMap_cons]
    cases leaf with
    | call callee args => exact (hleaf callee args rfl).elim
    | _ => rfl

theorem walk_eq_preorder (t : Formula κ φ) : t.walk = t.preorder 0 := by
  rw [walk, walkFrom_eq_flatMap, List.flatMap_singleton]

end Preorder

section Alike

def children : Formula κ φ → List (Formula κ φ)
  | call _ args => args
  | _ => []

theorem preorder_eq_cons (t : Formula κ φ) (depth : Nat) :
    t.preorder depth = (t, depth) :: preorder.preorders (depth + 1) t.children := by
  cases t <;> rfl

/-- Formulas of one shape, with the same nodes at the same places. -/
inductive Alike : Formula κ φ → Formula κ φ → Prop
  | node {t t' : Formula κ φ} (same : t.SameNode t')
      (children : List.Forall₂ Alike t.children t'.children) : Alike t t'

variable {t t' : Formula κ φ} {ts ts' : List (Formula κ φ)}

theorem SameNode.length_children_eq (h : t.SameNode t') (hwf : t.WellFormed)
    (hwf' : t'.WellFormed) : t.children.length = t'.children.length := by
  cases h with
  | constant | cell => rfl
  | call _ harity _ =>
    cases hwf with
    | call hlen _ =>
      cases hwf' with
      | call hlen' _ => exact hlen.trans (harity.trans hlen'.symm)

def Agenda.labels (agenda : Agenda κ φ) : List String :=
  agenda.map fun e => e.1.label

/-- Where the labels of a walk begin, whatever comes after them, no other formula is walked. -/
def Decodable (t : Formula κ φ) : Prop :=
  ∀ (t' : Formula κ φ) (depth depth' : Nat) (rest rest' : List String), t'.WellFormed →
    Agenda.labels (t.preorder depth) ++ rest = Agenda.labels (t'.preorder depth') ++ rest' →
      t.Alike t' ∧ rest = rest'

theorem forall₂_alike_of_labels (hlen : ts.length = ts'.length) (hts : ∀ t ∈ ts, t.Decodable)
    (hwf : ∀ t' ∈ ts', t'.WellFormed) {depth depth' : Nat} {rest rest' : List String}
    (h : Agenda.labels (preorder.preorders depth ts) ++ rest =
      Agenda.labels (preorder.preorders depth' ts') ++ rest') :
    List.Forall₂ Alike ts ts' ∧ rest = rest' := by
  induction ts generalizing ts' with
  | nil =>
    obtain rfl := List.length_eq_zero_iff.mp hlen.symm
    exact ⟨.nil, h⟩
  | cons t ts ih =>
    obtain ⟨t', ts', rfl⟩ := List.exists_cons_of_length_eq_add_one hlen.symm
    obtain ⟨ht, hts⟩ := List.forall_mem_cons.mp hts
    obtain ⟨hwf', hwfs'⟩ := List.forall_mem_cons.mp hwf
    simp only [preorder.preorders, Agenda.labels, List.map_append, List.append_assoc] at h
    obtain ⟨halike, hrest⟩ := ht _ _ _ _ _ hwf' h
    obtain ⟨hall, hrest⟩ := ih (Nat.succ.inj hlen) hts hwfs' hrest
    exact ⟨.cons halike hall, hrest⟩

theorem decodable_of_children (hwf : t.WellFormed) (ht : t.Graphic)
    (h : ∀ u ∈ t.children, u.Decodable) : t.Decodable := by
  intro t' depth depth' rest rest' hwf' hlabels
  simp only [preorder_eq_cons, Agenda.labels, List.map_cons, List.cons_append, List.cons.injEq]
    at hlabels
  obtain ⟨hlabel, hlabels⟩ := hlabels
  have hsame := sameNode_of_label_eq ht hlabel
  have hwfs' : ∀ u ∈ t'.children, u.WellFormed := by
    cases hwf' with
    | constant | cell => exact List.forall_mem_nil _
    | call _ hargs => exact hargs
  -- one label is one arity, so that both sides go on with as many arguments
  obtain ⟨hchildren, hrest⟩ :=
    forall₂_alike_of_labels (hsame.length_children_eq hwf hwf') h hwfs' hlabels
  exact ⟨.node hsame hchildren, hrest⟩

theorem decodable (hwf : t.WellFormed) (ht : t.Graphic) : t.Decodable := by
  induction hwf with
  | constant z => exact decodable_of_children (.constant z) ht (List.forall_mem_nil _)
  | cell name c => exact decodable_of_children (.cell name c) ht (List.forall_mem_nil _)
  | @call callee args hlen hargs ih =>
    have hwf : (call callee args).WellFormed := .call hlen hargs
    refine decodable_of_children hwf ht fun u hu => ih u hu ?_
    cases ht with
    | call _ hgraphic => exact hgraphic u hu

end Alike

section Lines

variable {t : Formula κ φ}

theorem graphic_of_mem_preorder : (t : Formula κ φ) → t.Graphic → (depth : Nat) →
    ∀ e ∈ t.preorder depth, e.1.Graphic
  | constant z, ht, _ => List.forall_mem_singleton.mpr ht
  | cell .., ht, _ => List.forall_mem_singleton.mpr ht
  | call _ args, ht, depth => by
    refine List.forall_mem_cons.mpr ⟨ht, ?_⟩
    cases ht with
    | call _ hargs => exact graphic_of_mem_preorders args hargs (depth + 1)
where
  graphic_of_mem_preorders : (ts : List (Formula κ φ)) → (∀ t ∈ ts, t.Graphic) → (depth : Nat) →
      ∀ e ∈ preorder.preorders depth ts, e.1.Graphic
    | [], _, _ => List.forall_mem_nil _
    | t :: ts, hts, depth => by
      obtain ⟨ht, hts⟩ := List.forall_mem_cons.mp hts
      exact List.forall_mem_append.mpr
        ⟨graphic_of_mem_preorder t ht depth, graphic_of_mem_preorders ts hts depth⟩

theorem toList_outlineLine (e : Formula κ φ × Nat) :
    (outlineLine e).toList = List.replicate e.2 ' ' ++ e.1.label.toList := by
  rw [outlineLine, String.toList_append, String.toList_ofList]

theorem dropWhile_outlineLine (e : Formula κ φ × Nat) :
    (outlineLine e).toList.dropWhile (· == ' ') = e.1.label.toList := by
  obtain ⟨c, cs, hlabel, hc⟩ := e.1.exists_head_label
  have hspace : (c == ' ') = false := beq_eq_false_iff_ne.mpr fun heq => by
    rw [heq] at hc
    exact absurd hc (by decide)
  rw [toList_outlineLine, List.dropWhile_append_of_pos (by simp), hlabel, List.dropWhile_cons,
    hspace, if_neg Bool.false_ne_true]

theorem graphic_outlineLine {e : Formula κ φ × Nat} (he : e.1.Graphic) :
    ∀ c ∈ (outlineLine e).toList, c = ' ' ∨ IsGraphic c := by
  rw [toList_outlineLine, List.forall_mem_append]
  exact ⟨fun c hc => .inl (List.eq_of_mem_replicate hc), graphic_label he⟩

theorem splitOn_outline (ht : t.Graphic) :
    t.outline.toList.splitOn '\n' = t.walk.map fun e => (outlineLine e).toList := by
  have hlines : t.outline.toList =
      ['\n'].intercalate (t.walk.map fun e => (outlineLine e).toList) := by
    rw [outline, String.toList_intercalate, List.map_map]
    rfl
  rw [hlines, walk_eq_preorder]
  refine List.splitOn_intercalate '\n' (List.forall_mem_map.mpr fun e he hc => ?_) ?_
  · have hend := graphic_outlineLine (graphic_of_mem_preorder t ht 0 e he) _ hc
    exact absurd hend (by decide)
  · rw [preorder_eq_cons]
    exact List.cons_ne_nil _ _

theorem graphic_of_mem_splitOn_outline (ht : t.Graphic) :
    ∀ line ∈ t.outline.toList.splitOn '\n', ∀ c ∈ line, c = ' ' ∨ IsGraphic c := by
  rw [splitOn_outline ht, walk_eq_preorder, List.forall_mem_map]
  exact fun e he => graphic_outlineLine (graphic_of_mem_preorder t ht 0 e he)

theorem length_splitOn_outline (ht : t.Graphic) :
    (t.outline.toList.splitOn '\n').length = t.nodeCount := by
  rw [splitOn_outline ht, List.length_map, nodeCount]

theorem labels_walk (ht : t.Graphic) : t.walk.labels =
    (t.outline.toList.splitOn '\n').map fun l => String.ofList (l.dropWhile (· == ' ')) := by
  rw [splitOn_outline ht, List.map_map, Agenda.labels]
  refine List.map_congr_left fun e _ => ?_
  rw [Function.comp_apply, dropWhile_outlineLine, String.ofList_toList]

theorem alike_of_outline_eq {t' : Formula κ φ} (hwf : t.WellFormed) (hwf' : t'.WellFormed)
    (ht : t.Graphic) (ht' : t'.Graphic) (h : t.outline = t'.outline) : t.Alike t' := by
  have hlabels : t.walk.labels ++ [] = t'.walk.labels ++ [] := by
    rw [labels_walk ht, labels_walk ht', h]
  rw [walk_eq_preorder, walk_eq_preorder] at hlabels
  exact (decodable hwf ht t' 0 0 [] [] hwf' hlabels).1

end Lines

section Made

/-- What is read from a source, and what folding makes of it. -/
inductive Made : Formula κ φ → Prop
  | parsed {limits : Limits} {source : String} {bindings : List (Symbol κ φ)} {t : Formula κ φ}
      (parse_eq : parse limits source bindings = .ok t) : Made t
  | folded {σ : Type} {host : Host κ φ σ} {s s' : σ} {t : Formula κ φ} {f : Folded κ φ}
      (made : Made t) (fold_eq : t.fold host s = .ok f s') : Made f.formula

variable {t : Formula κ φ}

theorem graphic_of_parse {limits : Limits} {source : String} {bindings : List (Symbol κ φ)}
    (h : parse limits source bindings = .ok t) : t.Graphic := by
  have hsymbol (op : Operator) : ∀ c ∈ op.symbol.toList, IsGraphic c := by
    cases op <;> exact List.all_iff_forall_prop.mp (by decide)
  have hminus : ∀ c ∈ Callee.negationName.toList, IsGraphic c :=
    List.all_iff_forall_prop.mp (by decide)
  refine every_of_isName hsymbol hminus (fun s hs _ => ?_) h
  cases s <;> exact hs.isGraphic

theorem Made.wellFormed_and_graphic (h : t.Made) : t.WellFormed ∧ t.Graphic := by
  induction h with
  | parsed hparse => exact ⟨wellFormed_of_parse hparse, graphic_of_parse hparse⟩
  | folded _ hfold ih =>
    rw [fold_eq_result ih.1] at hfold
    exact every_of_folding ih.1 ih.2 hfold

/-- A walk meets the nodes in pre-order, each at its depth. An outline has a line for each of them,
without any character that would end it early, and formulas with one outline are of one shape with
the same nodes. -/
theorem outline_faithful :
    (∀ t : Formula κ φ, t.walk = t.preorder 0 ∧ t.nodeCount = t.size) ∧
      (∀ t : Formula κ φ, t.Made → (t.outline.toList.splitOn '\n').length = t.nodeCount ∧
        ∀ line ∈ t.outline.toList.splitOn '\n', ∀ c ∈ line, c = ' ' ∨ IsGraphic c) ∧
      ∀ t t' : Formula κ φ, t.Made → t'.Made → t.outline = t'.outline → t.Alike t' := by
  refine ⟨fun t => ⟨t.walk_eq_preorder, t.nodeCount_eq_size⟩, fun t h => ?_,
    fun t t' h h' houtline => ?_⟩
  · obtain ⟨-, ht⟩ := h.wellFormed_and_graphic
    exact ⟨length_splitOn_outline ht, graphic_of_mem_splitOn_outline ht⟩
  · obtain ⟨hwf, ht⟩ := h.wellFormed_and_graphic
    obtain ⟨hwf', ht'⟩ := h'.wellFormed_and_graphic
    exact alike_of_outline_eq hwf hwf' ht ht' houtline

def closureOver (f : Bool) (x : Nat) : Formula Nat Bool :=
  .negate (.call ⟨"f", .closure f none, 2, f⟩ [.cell "x" x, .negate (.cell "x" x)])

/-- What an outline leaves open: the cell, and what the closure does. -/
theorem outline_faithful_closureOver :
    (closureOver true 1).Made ∧ (closureOver false 2).Made ∧
      (closureOver true 1).outline = (closureOver false 2).outline ∧
      (closureOver true 1).Alike (closureOver false 2) ∧
      ((closureOver true 1).outline.toList.splitOn '\n').length = 5 := by
  have hmade : (closureOver true 1).Made := by
    have hparse : parse ⟨3, 8⟩ "-f(x, -x)"
        [.cell "x" 1, .callable ⟨"f", .closure true none, 2, true⟩] =
          .ok (closureOver true 1) := by rfl
    exact .parsed hparse
  have hmade' : (closureOver false 2).Made := by
    have hparse : parse ⟨3, 8⟩ "-f(x, -x)"
        [.cell "x" 2, .callable ⟨"f", .closure false none, 2, false⟩] =
          .ok (closureOver false 2) := by rfl
    exact .parsed hparse
  have houtline : (closureOver true 1).outline = (closureOver false 2).outline := by
    rw [outline, outline, walk_eq_preorder, walk_eq_preorder]
    rfl
  obtain ⟨hwalk, hlines, halike⟩ := outline_faithful (κ := Nat) (φ := Bool)
  refine ⟨hmade, hmade', houtline, halike _ _ hmade hmade' houtline, ?_⟩
  rw [(hlines _ hmade).1, (hwalk _).2]
  rfl

end Made

end Formula

end ComplexFormula
