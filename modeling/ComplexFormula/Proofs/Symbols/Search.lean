import Mathlib.Data.List.Basic
import ComplexFormula.Symbol.Resolution

/-! # Searching a table of names

A table in strict order of its names is searched by halves. The search finds what a scan of the
whole table finds, for every name whatsoever.
-/

namespace ComplexFormula

section Bound

variable {α : Type} {before : α → Bool} {xs : Array α} {low high k : Nat}

/-- Where `before` holds of the elements up to an index alone, the search ends at that index. -/
theorem lowerBoundFrom_eq (hk : ∀ i, (h : i < xs.size) → (before xs[i] = true ↔ i < k))
    (hlow : low ≤ k) (hhigh : k ≤ high) (hsize : high ≤ xs.size) :
    lowerBoundFrom before xs low high = k := by
  fun_induction lowerBoundFrom before xs low high with
  | case1 low high hlt middle x hx hbefore ih =>
    obtain ⟨hmiddle, rfl⟩ := Array.getElem?_eq_some_iff.mp hx
    have hbelow := (hk middle hmiddle).mp hbefore
    exact ih hbelow hhigh hsize
  | case2 low high hlt middle x hx hbefore ih =>
    obtain ⟨hmiddle, rfl⟩ := Array.getElem?_eq_some_iff.mp hx
    have habove := Nat.le_of_not_lt (mt (hk middle hmiddle).mpr hbefore)
    exact ih hlow habove (Nat.le_of_lt hmiddle)
  | case3 low high hlt middle hx =>
    have houtside := Array.getElem?_eq_none_iff.mp hx
    omega
  | case4 low high hle =>
    omega

theorem lowerBound_eq (hk : ∀ i, (h : i < xs.size) → (before xs[i] = true ↔ i < k))
    (hsize : k ≤ xs.size) : lowerBound before xs = k :=
  lowerBoundFrom_eq hk (Nat.zero_le k) hsize (Nat.le_refl _)

theorem lowerBound_append {front back : List α} (h : xs.toList = front ++ back)
    (hfront : ∀ x ∈ front, before x = true) (hback : ∀ x ∈ back, before x = false) :
    lowerBound before xs = front.length := by
  have hlength := congrArg List.length h
  rw [List.length_append, Array.length_toList] at hlength
  refine lowerBound_eq (fun i hi => ?_) (by omega)
  have hget : (front ++ back)[i]? = some xs[i] := by
    rw [← h, Array.getElem?_toList, Array.getElem?_eq_getElem hi]
  rcases Nat.lt_or_ge i front.length with hlt | hge
  · rw [List.getElem?_append_left hlt] at hget
    exact iff_of_true (hfront _ (List.mem_of_getElem? hget)) hlt
  · rw [List.getElem?_append_right hge] at hget
    have hfails := hback _ (List.mem_of_getElem? hget)
    exact iff_of_false (Bool.eq_false_iff.mp hfails) (Nat.not_lt_of_le hge)

end Bound

section Table

variable {α : Type}

/-- Looks a name up in a table by halves, as the builtins are looked up in theirs. -/
def searchTable (key : α → String) (table : Array α) (name : String) : Option α :=
  match table[lowerBound (fun x => key x < name) table]? with
  | some x => if key x = name then some x else none
  | none => none

variable {key : α → String} {table : Array α}

theorem exists_append_of_sorted {xs : List α} (sorted : xs.Pairwise fun x y => key x < key y)
    (name : String) : ∃ front back, xs = front ++ back ∧ (∀ x ∈ front, key x < name) ∧
      ∀ x ∈ back, ¬ key x < name := by
  induction xs with
  | nil => exact ⟨[], [], rfl, List.forall_mem_nil _, List.forall_mem_nil _⟩
  | cons x xs ih =>
    obtain ⟨hx, hxs⟩ := List.pairwise_cons.mp sorted
    by_cases hlt : key x < name
    · obtain ⟨front, back, rfl, hfront, hback⟩ := ih hxs
      exact ⟨x :: front, back, rfl, List.forall_mem_cons.mpr ⟨hlt, hfront⟩, hback⟩
    · refine ⟨[], x :: xs, rfl, List.forall_mem_nil _, List.forall_mem_cons.mpr ⟨hlt, ?_⟩⟩
      exact fun y hy hlt' => hlt (String.lt_trans (hx y hy) hlt')

theorem searchTable_append {name : String} {front back : List α}
    (h : table.toList = front ++ back) (hfront : ∀ x ∈ front, key x < name)
    (hback : ∀ x ∈ back, ¬ key x < name) :
    searchTable key table name = back.head?.filter (key · == name) := by
  have hbound : lowerBound (fun x => key x < name) table = front.length :=
    lowerBound_append h (fun x hx => decide_eq_true (hfront x hx))
      (fun x hx => decide_eq_false (hback x hx))
  have hget : table[front.length]? = back.head? := by
    rw [← Array.getElem?_toList, h, List.getElem?_append_right (Nat.le_refl _), Nat.sub_self,
      List.head?_eq_getElem?]
  rw [searchTable, hbound, hget]
  cases back with
  | nil => rfl
  | cons x back => simp [Option.filter]

/-- In a table in strict order by code points the search agrees with a scan. -/
theorem searchTable_eq_find? (sorted : table.toList.Pairwise fun x y => key x < key y)
    (name : String) : searchTable key table name = table.toList.find? (key · == name) := by
  obtain ⟨front, back, hsplit, hfront, hback⟩ := exists_append_of_sorted sorted name
  have hskipped : front.find? (key · == name) = none := by
    refine List.find?_eq_none.mpr fun x hx heq => ?_
    exact String.lt_irrefl _ (eq_of_beq heq ▸ hfront x hx)
  rw [searchTable_append hsplit hfront hback, hsplit, List.find?_append, hskipped, Option.none_or]
  cases back with
  | nil => rfl
  | cons y back =>
    by_cases heq : key y = name
    · simp [heq]
    · -- the name would have come before the ones that come after `y`
      rw [hsplit] at sorted
      have hlater := (List.pairwise_cons.mp (List.pairwise_append.mp sorted).2.1).1
      have hnone : back.find? (key · == name) = none := by
        refine List.find?_eq_none.mpr fun x hx heq => ?_
        exact hback y List.mem_cons_self (eq_of_beq heq ▸ hlater x hx)
      simp [heq, hnone]

end Table

namespace Builtin

theorem find?_eq_searchTable (name : String) : find? name = searchTable Builtin.name table name := by
  rw [find?, searchTable]
  generalize table[lowerBound (fun f => f.name < name) table]? = found
  cases found <;> rfl

/-- The builtins are in strict order, so that the search among them agrees with a scan. -/
theorem find?_eq_find? (name : String) : find? name = table.toList.find? (·.name == name) := by
  have sorted : table.toList.Pairwise fun f g => f.name < g.name := by decide +kernel
  rw [find?_eq_searchTable, searchTable_eq_find? sorted]

end Builtin

end ComplexFormula
