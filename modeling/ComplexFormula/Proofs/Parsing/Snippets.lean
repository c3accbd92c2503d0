import Mathlib.Data.Bool.AllAny
import ComplexFormula.Diagnostic
import ComplexFormula.Proofs.Parsing.Verdict
import ComplexFormula.Proofs.Scanning.Blanks

/-! # Where the caret stands

A diagnostic shows the source with a caret under the last character of the token that is at fault.
That holds for sources of one line: a line break is a blank like others between tokens, but the text
of the diagnostic shows it as it is.
-/

namespace ComplexFormula

variable {κ φ : Type}

/-- What may end a line: a newline does, and blanks and carets do not. -/
structure EndsLines (isBreak : Char → Bool) : Prop where
  newline : isBreak '\n' = true
  blank : isBreak ' ' = false
  caret : isBreak '^' = false

/-- How many characters stand before a place on its line. -/
def columnAt (isBreak : Char → Bool) (text : List Char) (place : Nat) : Nat :=
  ((text.take place).reverse.takeWhile fun c => !isBreak c).length

section Column

variable {isBreak : Char → Bool}

theorem columnAt_eq_iff {text : List Char} {place : Nat} (hplace : place ≤ text.length) :
    columnAt isBreak text place = place ↔ ∀ c ∈ text.take place, isBreak c = false := by
  have hlength : (text.take place).reverse.length = place := by
    rw [List.length_reverse, List.length_take_of_le hplace]
  have hall : (text.take place).reverse.takeWhile (fun c => !isBreak c) =
      (text.take place).reverse ↔ ∀ c ∈ text.take place, isBreak c = false := by
    simp [List.takeWhile_eq_self_iff]
  rw [← hall, columnAt]
  constructor
  · exact fun h => (List.takeWhile_sublist _).eq_of_length (h.trans hlength.symm)
  · exact fun h => by rw [h, hlength]

theorem columnAt_append_cons {sep : Char} (hsep : isBreak sep = true) (front : List Char)
    {w : List Char} (hw : ∀ c ∈ w, isBreak c = false) (rest : List Char) :
    columnAt isBreak (front ++ sep :: (w ++ rest)) (front.length + 1 + w.length) = w.length := by
  have htake : (front ++ sep :: (w ++ rest)).take (front.length + 1 + w.length) =
      front ++ sep :: w := by
    rw [← List.cons_append, ← List.append_assoc]
    refine List.take_left' ?_
    rw [List.length_append, List.length_cons]
    omega
  have hline : ∀ c ∈ w.reverse, (!isBreak c) = true := by simpa using hw
  rw [columnAt, htake, List.reverse_append, List.reverse_cons, List.append_assoc,
    List.takeWhile_append_of_pos hline, List.singleton_append,
    List.takeWhile_cons_of_neg (by simp [hsep]), List.append_nil, List.length_reverse]

theorem splitOnP_eq_singleton_iff {w : List Char} :
    w.splitOnP isBreak = [w] ↔ ∀ c ∈ w, isBreak c = false := by
  refine ⟨fun h c hc => ?_, List.splitOnP_eq_singleton⟩
  by_contra hbreak
  -- a break would leave two pieces at least
  obtain ⟨front, rest, rfl⟩ := List.mem_iff_append.mp hc
  rw [List.splitOnP_append_cons _ _ (eq_true_of_ne_false hbreak)] at h
  have hlength := congrArg List.length h
  have hfront := List.length_pos_iff.mpr (List.splitOnP_ne_nil isBreak front)
  have hrest := List.length_pos_iff.mpr (List.splitOnP_ne_nil isBreak rest)
  rw [List.length_append, List.length_singleton] at hlength
  omega

end Column

namespace SourceContext

variable {isBreak : Char → Bool} {c : SourceContext} {place : Nat}

def shown (w : List Char) : List Char :=
  ' ' :: ' ' :: w

theorem toList_render (c : SourceContext) :
    c.render.toList = shown c.source.toList ++ '\n' :: shown c.marker.toList := by
  simp [render, shown]

theorem shown_marker (c : SourceContext) :
    shown c.marker.toList = List.replicate (c.column + 2) ' ' ++ ['^'] := by
  rw [marker, String.toList_append, String.toList_ofList]
  rfl

theorem length_render (c : SourceContext) :
    c.render.toList.length = c.source.toList.length + 2 + 1 + (c.column + 2) + 1 := by
  rw [toList_render, shown_marker]
  simp only [shown, List.length_append, List.length_cons, List.length_replicate, List.length_nil]
  omega

theorem getLast?_render (c : SourceContext) : c.render.toList.getLast? = some '^' := by
  rw [toList_render, shown_marker, ← List.cons_append, ← List.append_assoc, List.getLast?_concat]

theorem getElem?_render (hplace : place < c.source.toList.length) :
    c.render.toList[place + 2]? = c.source.toList[place]? := by
  rw [toList_render, List.getElem?_append_left (Nat.add_lt_add_right hplace 2)]
  rfl

theorem columnAt_caret (h : EndsLines isBreak) (c : SourceContext) :
    columnAt isBreak c.render.toList (c.render.toList.length - 1) = c.column + 2 := by
  have hindent : ∀ x ∈ List.replicate (c.column + 2) ' ', isBreak x = false := by
    intro x hx
    rw [List.eq_of_mem_replicate hx, h.blank]
  have hcolumn := columnAt_append_cons h.newline (shown c.source.toList) hindent ['^']
  rw [List.length_replicate] at hcolumn
  rw [length_render, toList_render, shown_marker]
  exact hcolumn

theorem columnAt_source_iff (h : EndsLines isBreak) (hplace : place ≤ c.source.toList.length) :
    columnAt isBreak c.render.toList (place + 2) = place + 2 ↔
      ∀ x ∈ c.source.toList.take place, isBreak x = false := by
  have htake : c.render.toList.take (place + 2) = shown (c.source.toList.take place) := by
    rw [toList_render, List.take_append_of_le_length (Nat.add_le_add_right hplace 2)]
    rfl
  rw [columnAt_eq_iff (by rw [length_render]; omega), htake]
  simp [shown, h.blank]

/-- The caret at the end of the text stands in the column of a character of the source. -/
def Aligned (isBreak : Char → Bool) (c : SourceContext) (place : Nat) : Prop :=
  columnAt isBreak c.render.toList (c.render.toList.length - 1) =
    columnAt isBreak c.render.toList (place + 2)

theorem aligned_column_iff (h : EndsLines isBreak) (hcolumn : c.column ≤ c.source.toList.length) :
    c.Aligned isBreak c.column ↔ ∀ x ∈ c.source.toList.take c.column, isBreak x = false := by
  rw [Aligned, columnAt_caret h, eq_comm, columnAt_source_iff h hcolumn]

theorem splitOnP_render_iff (h : EndsLines isBreak) :
    c.render.toList.splitOnP isBreak = [shown c.source.toList, shown c.marker.toList] ↔
      ∀ x ∈ c.source.toList, isBreak x = false := by
  have hmarker : ∀ x ∈ shown c.marker.toList, isBreak x = false := by
    simp [shown_marker, h.blank, h.caret]
  have hsource : (∀ x ∈ shown c.source.toList, isBreak x = false) ↔
      ∀ x ∈ c.source.toList, isBreak x = false := by
    simp [shown, h.blank]
  have hlines : [shown c.source.toList, shown c.marker.toList] =
      [shown c.source.toList] ++ [shown c.marker.toList] := rfl
  rw [toList_render, List.splitOnP_append_cons _ _ h.newline, List.splitOnP_eq_singleton hmarker,
    hlines, List.append_left_inj, splitOnP_eq_singleton_iff, hsource]

/-- The text of the context is two lines, source and marker, and the caret at its end is under a
character of the source. -/
structure PointsAt (isBreak : Char → Bool) (c : SourceContext) (place : Nat) : Prop where
  lines : c.render.toList.splitOnP isBreak = [shown c.source.toList, shown c.marker.toList]
  caret : c.render.toList.getLast? = some '^'
  character : place < c.source.toList.length → c.render.toList[place + 2]? = c.source.toList[place]?
  aligned : c.Aligned isBreak place

theorem pointsAt_column_iff (h : EndsLines isBreak) (hcolumn : c.column ≤ c.source.toList.length) :
    c.PointsAt isBreak c.column ↔ ∀ x ∈ c.source.toList, isBreak x = false := by
  refine ⟨fun hpoints => (splitOnP_render_iff h).mp hpoints.lines, fun hsource => ?_⟩
  refine ⟨(splitOnP_render_iff h).mpr hsource, getLast?_render c, getElem?_render, ?_⟩
  exact (aligned_column_iff h hcolumn).mpr fun x hx => hsource x (List.mem_of_mem_take hx)

end SourceContext

section Fault

variable {limits : Limits} {source : String} {bindings : List (Symbol κ φ)} {f : ParseFault}

/-- The token, after `us`, that the fault is about. Either nothing can go on with it, or it stands
where operands are nested too deep. -/
structure ParseFault.About (limits : Limits) (source : String) (bindings : List (Symbol κ φ))
    (us : List (Token κ φ)) (t : Token κ φ) (f : ParseFault) : Prop where
  tokens : us ++ [t] <+: sourceTokens source bindings
  cursor_eq : f.cursor = t.stop
  reason : Blocked (us.map Token.lexeme) t.lexeme ∨
    Exceeds limits.depth limits.room 0 us.length f.cause

theorem exists_about_of_parse_error (h : parse limits source bindings = .error f) :
    ∃ us t, f.About limits source bindings us t := by
  have hverdict := parse_verdict limits source bindings
  rw [h] at hverdict
  cases hverdict with
  | blocked htokens _ hblocked =>
    exact ⟨_, _, ⟨_, by rw [htokens, List.append_assoc]; rfl⟩, rfl, .inl hblocked⟩
  | deep htokens hexceeds =>
    exact ⟨_, _, ⟨_, by rw [htokens, List.append_assoc]; rfl⟩, rfl, .inr hexceeds⟩

theorem last_of_mem {t : Token κ φ} (ht : t ∈ sourceTokens source bindings) :
    (t.lexeme ≠ .finish → t.text ≠ [] ∧ source.toList[t.stop - 1]? = t.text.getLast?) ∧
      (t.lexeme = .finish → t.stop = source.length) := by
  obtain ⟨ts, hts, -, hall, -⟩ := sourceTokens_segments source bindings
  rw [hall] at ht
  rcases List.mem_append.mp ht with ht | ht
  · obtain ⟨before, hfollows⟩ := hts.exists_follows ht
    refine ⟨fun _ => ?_, fun hfinish => absurd hfinish hfollows.munch.ne_finish⟩
    have hlt := hfollows.start_lt
    have hstop := hfollows.stop_eq
    obtain ⟨rest, hrest⟩ := hfollows.munch.text_prefix
    have hplace : t.stop - 1 = t.start + (t.text.length - 1) := by omega
    refine ⟨List.ne_nil_of_length_pos (by omega), ?_⟩
    rw [List.getLast?_eq_getElem?, hplace, ← List.getElem?_drop, ← hrest,
      List.getElem?_append_left (by omega)]
  · obtain rfl := List.mem_singleton.mp ht
    exact ⟨fun hfinish => absurd rfl hfinish, fun _ => rfl⟩

theorem column_of_cursor_le (hcursor : f.cursor ≤ source.length) :
    (SourceContext.mk source f.offset).column = f.cursor - 1 := by
  simp only [SourceContext.column, ParseFault.offset, Diagnostic.place]
  omega

/-- A diagnostic of a fault is the source and a caret under the last character of the token that the
fault is about, or of the source if it ends too early, just if the source is on one line. The caret
has the right column as long as no line ends before it. -/
theorem snippet_points_iff {isBreak : Char → Bool} (hbreak : EndsLines isBreak)
    (h : parse limits source bindings = .error f) :
    (f.diagnostic source).context = some ⟨source, f.offset⟩ ∧
      ∃ us t place, f.About limits source bindings us t ∧ f.offset = (place : Nat) + 1 ∧
        (t.lexeme ≠ .finish → t.text ≠ [] ∧ source.toList[place]? = t.text.getLast?) ∧
        (t.lexeme = .finish → place = source.length - 1) ∧
        ((SourceContext.mk source f.offset).PointsAt isBreak place ↔
          ∀ c ∈ source.toList, isBreak c = false) ∧
        ((SourceContext.mk source f.offset).Aligned isBreak place ↔
          ∀ c ∈ source.toList.take place, isBreak c = false) := by
  refine ⟨rfl, ?_⟩
  obtain ⟨us, t, habout⟩ := exists_about_of_parse_error h
  have hmem : t ∈ sourceTokens source bindings :=
    habout.tokens.subset (List.mem_append_right us (List.mem_singleton_self t))
  have hcursor : f.cursor ≤ source.length := habout.cursor_eq ▸ stop_le_length source bindings hmem
  have hcolumn := column_of_cursor_le hcursor
  obtain ⟨htoken, hfinish⟩ := last_of_mem hmem
  rw [← habout.cursor_eq] at htoken hfinish
  have hle : (SourceContext.mk source f.offset).column ≤ source.toList.length := by
    rw [hcolumn, String.length_toList]
    exact (Nat.sub_le ..).trans hcursor
  refine ⟨us, t, f.cursor - 1, habout, ?_, htoken, fun ht => by rw [hfinish ht], ?_, ?_⟩
  · simp only [ParseFault.offset, Diagnostic.place]
    omega
  · rw [← hcolumn]
    exact SourceContext.pointsAt_column_iff hbreak hle
  · rw [← hcolumn]
    exact SourceContext.aligned_column_iff hbreak hle

def isLineEnd (c : Char) : Bool :=
  c = '\n' || c = '\r'

theorem snippet_points_iff_unclosed :
    parse ⟨3, 8⟩ "x * (\tx" [(.cell "x" true : Symbol Bool Bool)] = .error ⟨.unclosed none, 7⟩ ∧
      (SourceContext.mk "x * (\tx" 7).PointsAt isLineEnd 6 := by
  have hparse : parse ⟨3, 8⟩ "x * (\tx" [(.cell "x" true : Symbol Bool Bool)] =
      .error ⟨.unclosed none, 7⟩ := by rfl
  have hends : EndsLines isLineEnd := ⟨by decide, by decide, by decide⟩
  obtain ⟨-, us, t, place, -, hplace, -, -, hpoints, -⟩ := snippet_points_iff hends hparse
  obtain rfl : place = 6 := by
    have hoffset : (7 : Int) = place + 1 := hplace
    omega
  exact ⟨hparse, hpoints.mpr (List.all_iff_forall_prop.mp (by decide))⟩

/-- For a token on the second line, there are three lines and the caret is in another column. -/
theorem snippet_misses_secondLine :
    parse ⟨3, 8⟩ "x +\n* x" [(.cell "x" true : Symbol Bool Bool)] =
        .error ⟨.unexpected (some "*"), 5⟩ ∧
      ((SourceContext.mk "x +\n* x" 5).render.toList.splitOnP isLineEnd).length = 3 ∧
      columnAt isLineEnd (SourceContext.mk "x +\n* x" 5).render.toList
        ((SourceContext.mk "x +\n* x" 5).render.toList.length - 1) = 6 ∧
      columnAt isLineEnd (SourceContext.mk "x +\n* x" 5).render.toList (4 + 2) = 0 ∧
      ¬ (SourceContext.mk "x +\n* x" 5).PointsAt isLineEnd 4 := by
  refine ⟨by rfl, by decide, by decide, by decide, fun hpoints => ?_⟩
  have haligned := hpoints.aligned
  rw [SourceContext.Aligned] at haligned
  exact absurd haligned (by decide)

end Fault

end ComplexFormula
