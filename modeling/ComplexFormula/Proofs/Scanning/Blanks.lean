import ComplexFormula.Proofs.Scanning.Concatenation
import ComplexFormula.Proofs.Scanning.Segmentation

/-! # Blanks

Blanks separate tokens and mean nothing else. Two texts with blanks between them have the tokens of
both, the second ones moved; and a text that is cut where no token is broken has the tokens of its
pieces, whether blanks are put there or not.
-/

namespace ComplexFormula

variable {κ φ : Type}

namespace Token

def shift (n : Nat) (t : Token κ φ) : Token κ φ :=
  { t with start := n + t.start, stop := n + t.stop }

def content (t : Token κ φ) : Lexeme κ φ × List Char :=
  (t.lexeme, t.text)

theorem content_comp_shift (n : Nat) :
    (content ∘ shift n : Token κ φ → Lexeme κ φ × List Char) = content := rfl

@[simp] theorem shift_finish (n length : Nat) :
    (finish length : Token κ φ).shift n = finish (n + length) := rfl

end Token

theorem divides_of_isSpace {c : Char} (h : isSpace c = true) : Divides c := by
  simp only [isSpace, Bool.or_eq_true, decide_eq_true_eq, or_assoc] at h
  rcases h with rfl | rfl | rfl | rfl <;> decide

section Blank

variable {text a b : List Char} {i j k : Nat}

theorem Blank.trans (h : Blank text i j) (h' : Blank text j k) : Blank text i k := by
  intro n hi hk
  rcases Nat.lt_or_ge n j with hn | hn
  · exact h n hi hn
  · exact h' n hn hk

theorem Blank.mono (h : Blank text i j) {i' j' : Nat} (hi : i ≤ i') (hj : j' ≤ j) :
    Blank text i' j' :=
  fun n hn hn' => h n (Nat.le_trans hi hn) (Nat.lt_of_lt_of_le hn' hj)

theorem blank_append_left_iff (hj : j ≤ a.length) : Blank (a ++ b) i j ↔ Blank a i j := by
  refine forall₃_congr fun n _ hn => ?_
  rw [List.getElem?_append_left (Nat.lt_of_lt_of_le hn hj)]

theorem Blank.append_right (h : Blank b i j) : Blank (a ++ b) (a.length + i) (a.length + j) := by
  intro n hi hj
  obtain ⟨m, rfl⟩ := Nat.exists_eq_add_of_le (Nat.le_trans (Nat.le_add_right ..) hi)
  rw [List.getElem?_append_right (Nat.le_add_right ..), Nat.add_sub_cancel_left]
  exact h m (Nat.le_of_add_le_add_left hi) (Nat.lt_of_add_lt_add_left hj)

theorem blank_of_forall {w : List Char} (h : ∀ c ∈ w, isSpace c = true) : Blank w 0 w.length :=
  fun n _ hn => ⟨w[n], List.getElem?_eq_getElem hn, h _ (List.getElem_mem hn)⟩

end Blank

section Segments

variable {bindings : List (Symbol κ φ)} {a b : List Char} {place : Nat} {t : Token κ φ}
  {ts us : List (Token κ φ)} {c : Char}

theorem drop_append_of_follows (h : t.Follows bindings a place) (b : List Char) :
    (a ++ b).drop t.start = a.drop t.start ++ b :=
  List.drop_append_of_le_length h.start_lt_length.le

theorem Token.Follows.append (hc : Divides c) (h : t.Follows bindings a place) (b : List Char) :
    t.Follows bindings (a ++ c :: b) place where
  place_le := h.place_le
  start_lt := h.start_lt
  stop_le := Nat.le_trans h.stop_le (by rw [List.length_append]; exact Nat.le_add_right ..)
  blank := (blank_append_left_iff h.start_lt_length.le).mpr h.blank
  stop_eq := h.stop_eq
  munch := by
    rw [drop_append_of_follows h]
    exact h.munch.append hc b

theorem Token.Follows.shift (h : t.Follows bindings b place) (a : List Char) :
    (t.shift a.length).Follows bindings (a ++ b) (a.length + place) where
  place_le := Nat.add_le_add_left h.place_le _
  start_lt := Nat.add_lt_add_left h.start_lt _
  stop_le := by
    rw [List.length_append]
    exact Nat.add_le_add_left h.stop_le _
  blank := h.blank.append_right
  stop_eq := by
    rw [Token.shift, h.stop_eq]
    exact (Nat.add_assoc ..).symm
  munch := by
    rw [Token.shift, List.drop_length_add_append]
    exact h.munch

theorem Segments.shift (h : Segments bindings b place ts) (a : List Char) :
    Segments bindings (a ++ b) (a.length + place) (ts.map (Token.shift a.length)) := by
  induction h with
  | finish hb =>
    refine .finish ?_
    rw [List.length_append]
    exact hb.append_right
  | token hf _ ih => exact .token (hf.shift a) ih

/-- Blanks in front of tokens belong to the first of them. -/
theorem Segments.of_blank {text : List Char} {p q : Nat} (hle : p ≤ q) (hb : Blank text p q)
    (h : Segments bindings text q ts) : Segments bindings text p ts := by
  cases h with
  | finish hq => exact .finish (hb.trans hq)
  | token hf hrest =>
    exact .token { hf with
      place_le := Nat.le_trans hle hf.place_le
      blank := hb.trans hf.blank } hrest

theorem Segments.append (hc : Divides c) (h : Segments bindings a place ts)
    (hle : place ≤ a.length) (h' : Segments bindings (a ++ c :: b) a.length us) :
    Segments bindings (a ++ c :: b) place (ts ++ us) := by
  induction h with
  | finish hb => exact h'.of_blank hle ((blank_append_left_iff le_rfl).mpr hb)
  | token hf _ ih => exact .token (hf.append hc b) (ih hf.stop_le)

theorem Segments.append_blanks {w : List Char} (hne : w ≠ []) (hw : ∀ c ∈ w, isSpace c = true)
    (h : Segments bindings a 0 ts) (h' : Segments bindings b 0 us) :
    Segments bindings (a ++ w ++ b) 0 (ts ++ us.map (Token.shift (a.length + w.length))) := by
  obtain ⟨c, w', hcons⟩ := List.exists_cons_of_ne_nil hne
  have hsecond := h'.shift (a ++ w)
  rw [List.length_append, Nat.add_zero] at hsecond
  have hblank : Blank (a ++ w ++ b) a.length (a.length + w.length) := by
    rw [blank_append_left_iff (by rw [List.length_append])]
    exact (blank_of_forall hw).append_right
  have htext : a ++ w ++ b = a ++ c :: (w' ++ b) := by
    rw [hcons, List.append_assoc, List.cons_append]
  have hsecond := hsecond.of_blank (Nat.le_add_right ..) hblank
  rw [htext] at hsecond ⊢
  exact h.append (divides_of_isSpace (hw c (hcons ▸ List.mem_cons_self))) (Nat.zero_le _) hsecond

end Segments

section Cut

variable {bindings : List (Symbol κ φ)} {a b w : List Char} {x : Lexeme κ φ} {place : Nat}
  {t : Token κ φ} {ts : List (Token κ φ)}

theorem Longest.cut {P : List Char → Prop} (h : Longest P w (a ++ b)) (hw : w <+: a) :
    Longest P w a :=
  ⟨hw, h.holds, fun v hv => h.length_le v (hv.trans (List.prefix_append ..))⟩

/-- A lexeme is what it is though the text ends behind it, or further on. -/
theorem Munch.cut (h : Munch bindings (a ++ b) x w) (hw : w <+: a) : Munch bindings a x w := by
  cases h with
  | real hn hl hplain =>
    exact .real hn (hl.cut hw) fun hsuffix => hplain (hsuffix.trans (List.prefix_append ..))
  | imaginary hn hl =>
    exact .imaginary hn (hl.cut ((List.prefix_append ..).trans hw)) hw
  | point _ hnone => exact .point hw fun v hv => hnone v (hv.trans (List.prefix_append ..))
  | name hl hs => exact .name (hl.cut hw) hs
  | unbound hl hs => exact .unbound (hl.cut hw) hs
  | operator hop => exact .operator hop hw
  | opening => exact .opening hw
  | closing => exact .closing hw
  | separator => exact .separator hw
  | other _ hspace hdigit hletter hmark => exact .other hw hspace hdigit hletter hmark

theorem Munch.text_prefix {text : List Char} (h : Munch bindings text x w) : w <+: text := by
  cases h with
  | real _ hl => exact hl.begins
  | name hl | unbound hl => exact hl.begins
  | _ => assumption

theorem Token.Follows.cut (h : t.Follows bindings (a ++ b) place) (hstop : t.stop ≤ a.length) :
    t.Follows bindings a place where
  place_le := h.place_le
  start_lt := h.start_lt
  stop_le := hstop
  blank := (blank_append_left_iff (h.start_lt.le.trans hstop)).mp h.blank
  stop_eq := h.stop_eq
  munch := by
    have hm := h.munch
    rw [List.drop_append_of_le_length (h.start_lt.le.trans hstop)] at hm
    refine hm.cut (List.prefix_of_prefix_length_le hm.text_prefix (List.prefix_append ..) ?_)
    have hstop_eq := h.stop_eq
    rw [List.length_drop]
    omega

/-- Where no token is broken, the tokens before the place are those of the text before it. -/
theorem Segments.cut (h : Segments bindings (a ++ b) place ts) (hle : place ≤ a.length)
    (hwhole : ∀ t ∈ ts, t.stop ≤ a.length ∨ a.length ≤ t.start) :
    ∃ us vs, ts = us ++ vs ∧ Segments bindings a place us ∧
      Segments bindings (a ++ b) a.length vs := by
  induction h with
  | finish hb =>
    have hlength : a.length ≤ (a ++ b).length := by
      rw [List.length_append]
      exact Nat.le_add_right ..
    exact ⟨[], [], rfl, .finish ((blank_append_left_iff le_rfl).mp (hb.mono le_rfl hlength)),
      .finish (hb.mono hle le_rfl)⟩
  | @token place t ts hf hrest ih =>
    obtain ⟨ht, hts⟩ := List.forall_mem_cons.mp hwhole
    rcases ht with hstop | hstart
    · obtain ⟨us, vs, rfl, hus, hvs⟩ := ih hstop hts
      exact ⟨t :: us, vs, rfl, .token (hf.cut hstop) hus, hvs⟩
    · refine ⟨[], t :: ts, rfl,
        .finish ((blank_append_left_iff le_rfl).mp (hf.blank.mono le_rfl hstart)), .token ?_ hrest⟩
      exact { hf with
        place_le := hstart
        blank := hf.blank.mono hle le_rfl }

end Cut

section Sources

variable {bindings : List (Symbol κ φ)}

theorem sourceTokens_of_segments {source : String} {ts : List (Token κ φ)}
    (h : Segments bindings source.toList 0 ts) :
    sourceTokens source bindings = ts ++ [Token.finish source.length] := by
  obtain ⟨us, hus, -, htokens, -⟩ := sourceTokens_segments source bindings
  rw [htokens, hus.eq h]

theorem sourceTokens_of_append {a b whole : String} {n : Nat}
    (hlength : whole.length = n + b.length)
    (h : ∀ ts us, Segments bindings a.toList 0 ts → Segments bindings b.toList 0 us →
      Segments bindings whole.toList 0 (ts ++ us.map (Token.shift n))) :
    sourceTokens whole bindings =
      (sourceTokens a bindings).dropLast ++ (sourceTokens b bindings).map (Token.shift n) := by
  obtain ⟨ts, hts, -⟩ := sourceTokens_segments a bindings
  obtain ⟨us, hus, -⟩ := sourceTokens_segments b bindings
  rw [sourceTokens_of_segments (h ts us hts hus), sourceTokens_of_segments hts,
    sourceTokens_of_segments hus, hlength, List.dropLast_concat, List.map_append,
    List.map_singleton, Token.shift_finish, List.append_assoc]

/-- The tokens of two sources with blanks between them: those of the first without its end, and
those of the second where they stand then. -/
theorem sourceTokens_append_blanks (s₁ s₂ : String) {w : String} (hne : w ≠ "")
    (hw : ∀ c ∈ w.toList, isSpace c = true) :
    sourceTokens (s₁ ++ w ++ s₂) bindings = (sourceTokens s₁ bindings).dropLast ++
      (sourceTokens s₂ bindings).map (Token.shift (s₁.length + w.length)) := by
  refine sourceTokens_of_append (by simp) fun ts us hts hus => ?_
  have hne : w.toList ≠ [] := by simpa using hne
  rw [String.toList_append, String.toList_append, ← String.length_toList, ← String.length_toList]
  exact hts.append_blanks hne hw hus

/-- No token of the source is broken by a cut after so many characters. -/
def Whole (bindings : List (Symbol κ φ)) (source : String) (place : Nat) : Prop :=
  ∀ t ∈ sourceTokens source bindings, t.stop ≤ place ∨ place ≤ t.start

theorem sourceTokens_append {a b : String} (h : Whole bindings (a ++ b) a.length) :
    sourceTokens (a ++ b) bindings = (sourceTokens a bindings).dropLast ++
      (sourceTokens b bindings).map (Token.shift a.length) := by
  refine sourceTokens_of_append (by simp) fun ts us hts hus => ?_
  obtain ⟨all, hall, -⟩ := sourceTokens_segments (a ++ b) bindings
  have hwhole : ∀ t ∈ all, t.stop ≤ a.toList.length ∨ a.toList.length ≤ t.start := by
    intro t ht
    rw [String.length_toList]
    refine h t ?_
    rw [sourceTokens_of_segments hall]
    exact List.mem_append_left _ ht
  rw [String.toList_append] at hall
  obtain ⟨us', vs, rfl, hus', hvs⟩ := hall.cut (Nat.zero_le _) hwhole
  have hshift := hus.shift a.toList
  rw [Nat.add_zero] at hshift
  rw [String.toList_append]
  rw [hts.eq hus', ← String.length_toList, hshift.eq hvs]
  exact hall

theorem whole_zero (source : String) : Whole bindings source 0 :=
  fun _ _ => .inr (Nat.zero_le _)

theorem whole_length (source : String) : Whole bindings source source.length :=
  fun _ ht => .inl (stop_le_length source bindings ht)

/-- A source becomes another by blanks that are put where no token is broken, or in the place of
other blanks. -/
inductive Respaced (bindings : List (Symbol κ φ)) : String → String → Prop
  | refl (source : String) : Respaced bindings source source
  | inserted {a b w : String} (blank : ∀ c ∈ w.toList, isSpace c = true)
      (whole : Whole bindings (a ++ b) a.length) : Respaced bindings (a ++ b) (a ++ w ++ b)
  | front {source w : String} (blank : ∀ c ∈ w.toList, isSpace c = true) :
      Respaced bindings source (w ++ source)
  | behind {source w : String} (blank : ∀ c ∈ w.toList, isSpace c = true) :
      Respaced bindings source (source ++ w)
  | replaced {a b v w : String} (old_ne : v ≠ "") (old_blank : ∀ c ∈ v.toList, isSpace c = true)
      (new_ne : w ≠ "") (new_blank : ∀ c ∈ w.toList, isSpace c = true) :
      Respaced bindings (a ++ v ++ b) (a ++ w ++ b)
  | trans {source middle source' : String} (first : Respaced bindings source middle)
      (second : Respaced bindings middle source') : Respaced bindings source source'

def contents (source : String) (bindings : List (Symbol κ φ)) : List (Lexeme κ φ × List Char) :=
  (sourceTokens source bindings).map Token.content

theorem contents_append_blanks (a b : String) {w : String} (hne : w ≠ "")
    (hw : ∀ c ∈ w.toList, isSpace c = true) :
    contents (a ++ w ++ b) bindings = (contents a bindings).dropLast ++ contents b bindings := by
  rw [contents, sourceTokens_append_blanks a b hne hw, List.map_append, List.map_dropLast,
    List.map_map, Token.content_comp_shift, contents, contents]

theorem contents_inserted {a b w : String} (hw : ∀ c ∈ w.toList, isSpace c = true)
    (h : Whole bindings (a ++ b) a.length) :
    contents (a ++ w ++ b) bindings = contents (a ++ b) bindings := by
  by_cases hne : w = ""
  · rw [hne, String.append_empty]
  · rw [contents_append_blanks a b hne hw, contents, contents, contents, sourceTokens_append h,
      List.map_append, List.map_dropLast, List.map_map, Token.content_comp_shift]

theorem Respaced.contents_eq {source source' : String} (h : Respaced bindings source source') :
    contents source' bindings = contents source bindings := by
  induction h with
  | refl => rfl
  | inserted hw hwhole => exact contents_inserted hw hwhole
  | @front source w hw =>
    have hinserted : contents ("" ++ w ++ source) bindings = contents ("" ++ source) bindings :=
      contents_inserted hw (whole_zero _)
    rwa [String.empty_append, String.empty_append] at hinserted
  | @behind source w hw =>
    have hwhole : Whole bindings (source ++ "") source.length := by
      rw [String.append_empty]
      exact whole_length source
    have hinserted := contents_inserted hw hwhole
    rwa [String.append_empty, String.append_empty] at hinserted
  | replaced hne hv hne' hw =>
    rw [contents_append_blanks _ _ hne' hw, contents_append_blanks _ _ hne hv]
  | trans _ _ ih ih' => rw [ih', ih]

end Sources

end ComplexFormula
