import SourceBench.Proofs.Text.Lines
import SourceBench.Text.Margin

/-!
# Margins

The margin of lines is the longest text of blanks and tabs that all of them begin with, empty ones apart
(`margin_isPrefix`, `isPrefix_margin`).  Lines without their margin have none left (`dedented_dedent`), and indenting
such lines by blanks and tabs gives them just that margin (`margin_indented`).  So taking off the margin undoes every
indentation (`dedent_indented`).
-/
namespace SourceBench.Text

open List

variable {p a : List Char}

/-! ## What lines begin with in common -/

theorem sharedStart_isPrefix_left : ∀ a b : List Char, sharedStart a b <+: a
  | x :: a, y :: b => by
    rw [sharedStart]
    split
    · exact cons_prefix_cons.2 ⟨rfl, sharedStart_isPrefix_left a b⟩
    · exact nil_prefix
  | [], _ => by simp [sharedStart]
  | _ :: _, [] => by simp [sharedStart]

theorem sharedStart_isPrefix_right : ∀ a b : List Char, sharedStart a b <+: b
  | x :: a, y :: b => by
    rw [sharedStart]
    split
    · rename_i heq
      exact cons_prefix_cons.2 ⟨beq_iff_eq.1 heq, sharedStart_isPrefix_right a b⟩
    · exact nil_prefix
  | [], _ => by simp [sharedStart]
  | _ :: _, [] => by simp [sharedStart]

theorem isPrefix_sharedStart : ∀ {p a b : List Char}, p <+: a → p <+: b → p <+: sharedStart a b
  | [], _, _, _, _ => nil_prefix
  | x :: p, [], _, ha, _ => absurd (prefix_nil.1 ha) (cons_ne_nil x p)
  | x :: p, _ :: _, [], _, hb => absurd (prefix_nil.1 hb) (cons_ne_nil x p)
  | x :: p, y :: a, z :: b, ha, hb => by
    obtain ⟨rfl, ha'⟩ := cons_prefix_cons.1 ha
    obtain ⟨rfl, hb'⟩ := cons_prefix_cons.1 hb
    rw [sharedStart, if_pos (beq_self_eq_true _)]
    exact cons_prefix_cons.2 ⟨rfl, isPrefix_sharedStart ha' hb'⟩

theorem foldl_sharedStart_isPrefix : ∀ (as : List (List Char)) (b : List Char), ∀ a ∈ b :: as,
    as.foldl sharedStart b <+: a
  | [], b => by simp
  | a :: as, b => by
    have ih := foldl_sharedStart_isPrefix as (sharedStart b a)
    rw [forall_mem_cons] at ih
    rw [foldl_cons, forall_mem_cons, forall_mem_cons]
    exact ⟨ih.1.trans (sharedStart_isPrefix_left b a), ih.1.trans (sharedStart_isPrefix_right b a), ih.2⟩

theorem isPrefix_foldl_sharedStart : ∀ {as : List (List Char)} {b : List Char},
    (∀ a ∈ b :: as, p <+: a) → p <+: as.foldl sharedStart b
  | [], _, h => h _ mem_cons_self
  | a :: as, b, h => by
    rw [forall_mem_cons, forall_mem_cons] at h
    rw [foldl_cons]
    exact isPrefix_foldl_sharedStart (forall_mem_cons.2 ⟨isPrefix_sharedStart h.1 h.2.1, h.2.2⟩)

theorem isPrefix_takeWhile_iff {α : Type} {q : α → Bool} {p l : List α} :
    p <+: l.takeWhile q ↔ p <+: l ∧ ∀ c ∈ p, q c := by
  constructor
  · intro h
    exact ⟨h.trans (List.takeWhile_prefix q), fun c hc => mem_takeWhile_imp (h.subset hc)⟩
  · rintro ⟨⟨r, rfl⟩, hp⟩
    rw [takeWhile_append_of_pos hp]
    exact prefix_append _ _

/-! ## The margin -/

variable {ls : List (List Char)}

def starts (ls : List (List Char)) : List (List Char) := (ls.filter (!·.isEmpty)).map (·.takeWhile isTabOrBlank)

theorem mem_starts : a ∈ starts ls ↔ ∃ l ∈ ls, l ≠ [] ∧ l.takeWhile isTabOrBlank = a := by
  simp [starts, and_assoc]

theorem margin_eq (ls : List (List Char)) : margin ls = match starts ls with
    | [] => []
    | m :: ms => ms.foldl sharedStart m := rfl

theorem margin_of_forall_nil (h : ∀ l ∈ ls, l = []) : margin ls = [] := by
  have hnil : starts ls = [] := eq_nil_iff_forall_not_mem.2 fun a ha => by
    obtain ⟨l, hl, hne, -⟩ := mem_starts.1 ha
    exact hne (h l hl)
  rw [margin_eq, hnil]

theorem margin_isPrefix_start (ha : a ∈ starts ls) : margin ls <+: a := by
  rw [margin_eq]
  cases hs : starts ls with
  | nil =>
    rw [hs] at ha
    cases ha
  | cons m ms => exact foldl_sharedStart_isPrefix ms m a (hs ▸ ha)

theorem isTabOrBlank_of_mem_margin {c : Char} (h : c ∈ margin ls) : isTabOrBlank c := by
  by_cases hnil : ∀ l ∈ ls, l = []
  · rw [margin_of_forall_nil hnil] at h
    cases h
  · simp only [not_forall] at hnil
    obtain ⟨l, hl, hne⟩ := hnil
    have hprefix := margin_isPrefix_start (mem_starts.2 ⟨l, hl, hne, rfl⟩)
    exact (isPrefix_takeWhile_iff.1 hprefix).2 c h

variable {l pad : List Char}

theorem margin_isPrefix (hl : l ∈ ls) (hne : l ≠ []) : margin ls <+: l :=
  (isPrefix_takeWhile_iff.1 (margin_isPrefix_start (mem_starts.2 ⟨l, hl, hne, rfl⟩))).1

theorem isPrefix_margin (hl : l ∈ ls) (hne : l ≠ []) (hp : ∀ c ∈ p, isTabOrBlank c)
    (h : ∀ l ∈ ls, l ≠ [] → p <+: l) : p <+: margin ls := by
  have hstarts : ∀ a ∈ starts ls, p <+: a := fun a ha => by
    obtain ⟨l, hl, hne, rfl⟩ := mem_starts.1 ha
    exact isPrefix_takeWhile_iff.2 ⟨h l hl hne, hp⟩
  rw [margin_eq]
  cases hs : starts ls with
  | nil =>
    have hmem : l.takeWhile isTabOrBlank ∈ starts ls := mem_starts.2 ⟨l, hl, hne, rfl⟩
    rw [hs] at hmem
    cases hmem
  | cons m ms => exact isPrefix_foldl_sharedStart (hs ▸ hstarts)

/-! ## Lines without their margin -/

/-- Only empty lines are made of blanks and tabs alone. -/
def Solid (ls : List (List Char)) : Prop := ∀ l ∈ ls, l ≠ [] → ∃ c ∈ l, isTabOrBlank c = false

theorem solid_clearBlankLines (ls : List (List Char)) : Solid (clearBlankLines ls) := by
  intro l hl hne
  obtain ⟨l', -, rfl⟩ := mem_map.1 hl
  split at hne
  · exact absurd rfl hne
  · rename_i hall
    rw [if_neg hall]
    simpa using hall

theorem Solid.clearBlankLines_eq (h : Solid ls) : clearBlankLines ls = ls := by
  rw [clearBlankLines]
  refine (map_congr_left fun l hl => ?_).trans (map_id' ls)
  split
  · rename_i hall
    by_contra hne
    obtain ⟨c, hc, hseen⟩ := h l hl (Ne.symm hne)
    rw [all_eq_true.1 hall c hc] at hseen
    cases hseen
  · rfl

theorem Solid.exists_drop (h : Solid ls) (hl : l ∈ ls) (hne : l ≠ []) :
    ∃ t, l = margin ls ++ t ∧ l.drop (margin ls).length = t ∧ ∃ c ∈ t, isTabOrBlank c = false := by
  obtain ⟨t, rfl⟩ := margin_isPrefix hl hne
  refine ⟨t, rfl, drop_left, ?_⟩
  obtain ⟨c, hc, hseen⟩ := h _ hl hne
  rcases mem_append.1 hc with hc | hc
  · rw [isTabOrBlank_of_mem_margin hc] at hseen
    cases hseen
  · exact ⟨c, hc, hseen⟩

theorem Solid.margin_drop (h : Solid ls) : margin (ls.map (·.drop (margin ls).length)) = [] := by
  by_cases hnil : ∀ l ∈ ls, l = []
  · refine margin_of_forall_nil fun l hl => ?_
    obtain ⟨l', hl', rfl⟩ := mem_map.1 hl
    rw [hnil l' hl', drop_nil]
  · simp only [not_forall] at hnil
    obtain ⟨l₀, hl₀, hne₀⟩ := hnil
    generalize hrest : margin (ls.map (·.drop (margin ls).length)) = rest
    -- The margin and what lines behind it would share are together no longer than the margin.
    have hlong : margin ls ++ rest <+: margin ls := by
      refine isPrefix_margin hl₀ hne₀ (fun c hc => ?_) fun l hl hne => ?_
      · rcases mem_append.1 hc with hc | hc
        · exact isTabOrBlank_of_mem_margin hc
        · rw [← hrest] at hc
          exact isTabOrBlank_of_mem_margin hc
      · obtain ⟨t, ht, hdrop, c, hc, -⟩ := h.exists_drop hl hne
        have hshared : rest <+: t := by
          rw [← hrest]
          exact margin_isPrefix (mem_map.2 ⟨l, hl, hdrop⟩) (ne_nil_of_mem hc)
        rw [ht]
        exact (prefix_append_right_inj _).2 hshared
    have := hlong.length_le
    rw [length_append] at this
    exact eq_nil_of_length_eq_zero (by omega)

/-- Lines of a text that has no margin. -/
structure Dedented (ls : List (List Char)) : Prop where
  solid : Solid ls
  margin_eq : margin ls = []
  plain : ∀ l ∈ ls, '\n' ∉ l

def dedentLines (cs : List Char) : List (List Char) :=
  (clearBlankLines (splitOn '\n' cs)).map (·.drop (margin (clearBlankLines (splitOn '\n' cs))).length)

theorem dedent_eq (cs : List Char) : dedent cs = joinLines (dedentLines cs) := rfl

theorem mem_of_mem_dedentLines {cs : List Char} (hl : l ∈ dedentLines cs) : ∀ c ∈ l, c ∈ cs ∧ c ≠ '\n' := by
  obtain ⟨k', hk', rfl⟩ := mem_map.1 hl
  obtain ⟨k, hk, rfl⟩ := mem_map.1 hk'
  intro c hc
  have hline : c ∈ k := by
    have := mem_of_mem_drop hc
    split at this
    · cases this
    · exact this
  refine ⟨(infix_of_mem_splitOn cs k hk).subset hline, ?_⟩
  rintro rfl
  exact not_mem_of_mem_splitOn cs k hk hline

theorem splitOn_dedent (cs : List Char) : splitOn '\n' (dedent cs) = dedentLines cs := by
  refine splitOn_join (fun hnil => ?_) fun l hl hbreak => (mem_of_mem_dedentLines hl _ hbreak).2 rfl
  exact splitOn_ne_nil '\n' cs (map_eq_nil_iff.1 (map_eq_nil_iff.1 hnil))

theorem dedented_dedent (cs : List Char) : Dedented (splitOn '\n' (dedent cs)) := by
  have hsolid := solid_clearBlankLines (splitOn '\n' cs)
  rw [splitOn_dedent]
  refine ⟨fun l hl hne => ?_, hsolid.margin_drop, fun l hl hbreak => (mem_of_mem_dedentLines hl _ hbreak).2 rfl⟩
  obtain ⟨l', hl', rfl⟩ := mem_map.1 hl
  have hne' : l' ≠ [] := by
    rintro rfl
    exact hne drop_nil
  obtain ⟨t, -, hdrop, hseen⟩ := hsolid.exists_drop hl' hne'
  rwa [hdrop]

/-! ## Indented lines -/

def indented (pad l : List Char) : List Char := if l.isEmpty then [] else pad ++ l

@[simp] theorem indented_nil (pad : List Char) : indented pad [] = [] := rfl

theorem indented_of_ne_nil (h : l ≠ []) (pad : List Char) : indented pad l = pad ++ l := by
  simp [indented, h]

theorem ne_nil_of_indented_ne_nil (h : indented pad l ≠ []) : l ≠ [] := by
  rintro rfl
  exact h rfl

theorem margin_indented (hpad : ∀ c ∈ pad, isTabOrBlank c) (hmargin : margin ls = []) (hl : l ∈ ls) (hne : l ≠ []) :
    margin (ls.map (indented pad)) = pad := by
  have hmem : pad ++ l ∈ ls.map (indented pad) := mem_map.2 ⟨l, hl, indented_of_ne_nil hne pad⟩
  have hpadded : pad <+: margin (ls.map (indented pad)) := by
    refine isPrefix_margin hmem (by simp [hne]) hpad fun k hk hkne => ?_
    obtain ⟨k', -, rfl⟩ := mem_map.1 hk
    rw [indented_of_ne_nil (ne_nil_of_indented_ne_nil hkne)]
    exact prefix_append _ _
  obtain ⟨t, ht⟩ := hpadded
  have hshared : t <+: margin ls := by
    refine isPrefix_margin hl hne (fun c hc => ?_) fun k hk hkne => ?_
    · have hc' : c ∈ margin (ls.map (indented pad)) := ht ▸ mem_append_right pad hc
      exact isTabOrBlank_of_mem_margin hc'
    · have hk' : pad ++ k ∈ ls.map (indented pad) := mem_map.2 ⟨k, hk, indented_of_ne_nil hkne pad⟩
      have hstart := margin_isPrefix hk' (by simp [hkne])
      rw [← ht] at hstart
      exact (prefix_append_right_inj pad).1 hstart
  rw [hmargin, prefix_nil] at hshared
  rw [← ht, hshared, append_nil]

theorem Solid.map_indented (h : Solid ls) (pad : List Char) : Solid (ls.map (indented pad)) := by
  intro l hl hne
  obtain ⟨k, hk, rfl⟩ := mem_map.1 hl
  obtain ⟨c, hc, hseen⟩ := h k hk (ne_nil_of_indented_ne_nil hne)
  rw [indented_of_ne_nil (ne_nil_of_indented_ne_nil hne)]
  exact ⟨c, mem_append_right pad hc, hseen⟩

theorem not_mem_indented (hpad : ∀ c ∈ pad, isTabOrBlank c) (hl : '\n' ∉ l) : '\n' ∉ indented pad l := by
  unfold indented
  split
  · exact not_mem_nil
  · intro hmem
    rcases mem_append.1 hmem with hmem | hmem
    · exact absurd (hpad _ hmem) (by decide)
    · exact hl hmem

/-- **Taking off the margin undoes every indentation** of lines without a margin. -/
theorem dedent_indented (h : Dedented ls) (hpad : ∀ c ∈ pad, isTabOrBlank c) :
    dedent (joinLines (ls.map (indented pad))) = joinLines ls := by
  rcases eq_or_ne ls [] with rfl | hne
  · rfl
  have hsplit : splitOn '\n' (joinLines (ls.map (indented pad))) = ls.map (indented pad) := by
    refine splitOn_join (mt map_eq_nil_iff.1 hne) fun l hl => ?_
    obtain ⟨k, hk, rfl⟩ := mem_map.1 hl
    exact not_mem_indented hpad (h.plain k hk)
  rw [dedent_eq, dedentLines, hsplit, (h.solid.map_indented pad).clearBlankLines_eq, map_map]
  refine congrArg joinLines ((map_congr_left fun l hl => ?_).trans (map_id' ls))
  rw [Function.comp_apply]
  rcases eq_or_ne l [] with rfl | hlne
  · rw [indented_nil, drop_nil]
  · rw [margin_indented hpad h.margin_eq hl hlne, indented_of_ne_nil hlne, drop_left]

end SourceBench.Text
