import SourceBench.Proofs.Edit.NewMembers
import SourceBench.Proofs.Text.Margin

/-!
# Method bodies

The lines that a new method has between its head and its closing brace are those of the given body without its margin
and without blank lines at both ends, moved to the place of the class (`Members.bodyLines_eq`).  They keep the
indentation that they have among themselves: taking off their margin gives the body back (`Document.addMethod_indents`).
-/
namespace SourceBench

open List hiding splitOn

variable {ls : List (List Char)} {q : List Char → Bool} {l outer inner : List Char} {bytes : Bytes}

namespace Text

/-! ## Blank lines at both ends -/

def isBlankLine (l : List Char) : Bool := l.all isSpace

theorem isEmpty_trim (l : List Char) : (trim l).isEmpty = isBlankLine l := by
  rw [Bool.eq_iff_iff, List.isEmpty_iff, trim_eq_nil, isBlankLine, all_eq_true]

def withoutBlankEnds (ls : List (List Char)) : List (List Char) := (ls.dropWhile isBlankLine).rdropWhile isBlankLine

theorem exists_blankEnds (ls : List (List Char)) : ∃ a b, ls = a ++ withoutBlankEnds ls ++ b ∧
    (∀ l ∈ a, isBlankLine l) ∧ ∀ l ∈ b, isBlankLine l := by
  refine ⟨ls.takeWhile isBlankLine, (ls.dropWhile isBlankLine).rtakeWhile isBlankLine, ?_,
    fun l hl => mem_takeWhile_imp hl, fun l hl => mem_rtakeWhile_imp hl⟩
  rw [append_assoc, withoutBlankEnds, rdropWhile_append_rtakeWhile, takeWhile_append_dropWhile]

theorem withoutBlankEnds_subset (ls : List (List Char)) : withoutBlankEnds ls ⊆ ls :=
  fun _ hl => (dropWhile_sublist isBlankLine).subset (( rdropWhile_prefix isBlankLine _).subset hl)

theorem dropWhile_joinLines : ∀ {ls : List (List Char)}, (∀ l ∈ ls, '\n' ∉ l) →
    (∀ l ∈ ls, q l = l.isEmpty) → (joinLines ls).dropWhile (· == '\n') = joinLines (ls.dropWhile q)
  | [], _, _ => rfl
  | [[]], _, hq => by
    rw [dropWhile_cons_of_pos (hq [] mem_cons_self)]
    rfl
  | [] :: m :: ls, hplain, hq => by
    rw [forall_mem_cons] at hplain hq
    rw [dropWhile_cons_of_pos hq.1, ← dropWhile_joinLines hplain.2 hq.2]
    rfl
  | (c :: l) :: ls, hplain, hq => by
    have hc : c ≠ '\n' := by
      rintro rfl
      exact hplain _ mem_cons_self mem_cons_self
    have hstart : ∃ r, joinLines ((c :: l) :: ls) = c :: r := ⟨_, join_cons ['\n'] (c :: l) ls⟩
    obtain ⟨r, hr⟩ := hstart
    rw [dropWhile_cons_of_neg (by simp [hq _ mem_cons_self]), hr, dropWhile_cons_of_neg (by simpa using hc)]

theorem joinLines_concat (h : ls ≠ []) (l : List Char) : joinLines (ls ++ [l]) = joinLines ls ++ '\n' :: l := by
  obtain ⟨k, ls, rfl⟩ := exists_cons_of_ne_nil h
  simp [joinLines, join_cons]

theorem reverse_joinLines : ∀ ls : List (List Char), (joinLines ls).reverse = joinLines (ls.map reverse).reverse
  | [] => rfl
  | [l] => rfl
  | l :: m :: ls => by
    have hjoin : joinLines (l :: m :: ls) = l ++ ['\n'] ++ joinLines (m :: ls) := rfl
    have hlast : ((l :: m :: ls).map reverse).reverse = ((m :: ls).map reverse).reverse ++ [l.reverse] := by simp
    rw [hjoin, hlast, joinLines_concat (by simp), ← reverse_joinLines (m :: ls)]
    simp

theorem rdropWhile_joinLines (hplain : ∀ l ∈ ls, '\n' ∉ l)
    (hq : ∀ l ∈ ls, q l = l.isEmpty) : (joinLines ls).rdropWhile (· == '\n') = joinLines (ls.rdropWhile q) := by
  -- The other end is the front of the reversed text.
  have hback : (joinLines (ls.map reverse).reverse).dropWhile (· == '\n')
      = joinLines ((ls.map reverse).reverse.dropWhile (q ∘ reverse)) := by
    refine dropWhile_joinLines (fun l hl => ?_) fun l hl => ?_
    · obtain ⟨k, hk, rfl⟩ := mem_map.1 (mem_reverse.1 hl)
      simpa using hplain k hk
    · obtain ⟨k, hk, rfl⟩ := mem_map.1 (mem_reverse.1 hl)
      simpa using hq k hk
  have hcomp : (q ∘ reverse) ∘ reverse = q := by
    funext l
    simp
  have hlines : ((ls.map reverse).reverse.dropWhile (q ∘ reverse)).map reverse = ls.reverse.dropWhile q := by
    rw [← map_reverse, dropWhile_map, hcomp, map_map]
    simp
  rw [rdropWhile, reverse_joinLines, hback, reverse_joinLines, hlines, rdropWhile]

end Text

namespace Members

open Text

theorem trimBreaks_joinLines (hplain : ∀ l ∈ ls, '\n' ∉ l)
    (hblank : ∀ l ∈ ls, isBlankLine l = l.isEmpty) : trimBreaks (joinLines ls) = joinLines (withoutBlankEnds ls) := by
  have hsub : ∀ l ∈ ls.dropWhile isBlankLine, l ∈ ls := fun l hl => (dropWhile_sublist isBlankLine).subset hl
  have hback := rdropWhile_joinLines (fun l hl => hplain l (hsub l hl)) fun l hl => hblank l (hsub l hl)
  rw [← dropWhile_joinLines hplain hblank] at hback
  exact hback

/-! ## The lines of a body -/

/-- The lines of a method body, without the margin they share and without blank lines at both ends. -/
def dedentedLines (body : List Char) : List (List Char) := withoutBlankEnds (splitOn '\n' (dedent body))

/-- White space is blanks, tabs and line feeds only. -/
def PlainSpace (cs : List Char) : Prop := ∀ c ∈ cs, isSpace c = true → c = ' ' ∨ c = '\t' ∨ c = '\n'

instance (cs : List Char) : Decidable (PlainSpace cs) := decidableBAll _ cs

section Body

variable {body : List Char} (hbody : PlainSpace body)
include hbody

theorem isBlankLine_of_mem_dedent (hl : l ∈ splitOn '\n' (dedent body)) : isBlankLine l = l.isEmpty := by
  cases l with
  | nil => rfl
  | cons c r =>
    obtain ⟨x, hx, hseen⟩ := (dedented_dedent body).solid _ hl (cons_ne_nil c r)
    rw [splitOn_dedent] at hl
    obtain ⟨hmem, hbreak⟩ := mem_of_mem_dedentLines hl x hx
    have hspace : isSpace x = false := by
      by_contra hspace
      rcases hbody x hmem (by simpa using hspace) with rfl | rfl | rfl
      · cases hseen
      · cases hseen
      · exact hbreak rfl
    rw [isEmpty_cons, isBlankLine, all_eq_false]
    exact ⟨x, hx, by simp [hspace]⟩

theorem isBlankLine_of_mem (hl : l ∈ dedentedLines body) : isBlankLine l = l.isEmpty :=
  isBlankLine_of_mem_dedent hbody (withoutBlankEnds_subset _ hl)

theorem dedented_dedentedLines : Dedented (dedentedLines body) := by
  have hlines := dedented_dedent body
  have hsub := withoutBlankEnds_subset (splitOn '\n' (dedent body))
  -- Only empty lines are gone, which do not count for the margin.
  have hstarts : starts (dedentedLines body) = starts (splitOn '\n' (dedent body)) := by
    obtain ⟨a, b, hsplit, ha, hb⟩ := exists_blankEnds (splitOn '\n' (dedent body))
    have hnone : ∀ ls ⊆ splitOn '\n' (dedent body), (∀ l ∈ ls, isBlankLine l) → ls.filter (!·.isEmpty) = [] := by
      intro ls hls hblank
      rw [filter_eq_nil_iff]
      intro l hl
      rw [← isBlankLine_of_mem_dedent hbody (hls hl), hblank l hl]
      decide
    have ha' := hnone a (fun l hl => by rw [hsplit]; simp [hl]) ha
    have hb' := hnone b (fun l hl => by rw [hsplit]; simp [hl]) hb
    have hfilter : (splitOn '\n' (dedent body)).filter (!·.isEmpty) = (dedentedLines body).filter (!·.isEmpty) := by
      conv_lhs => rw [hsplit, filter_append, filter_append, ha', hb', nil_append, append_nil]
      rfl
    rw [starts, starts, hfilter]
  refine ⟨fun l hl => hlines.solid l (hsub hl), ?_, fun l hl => hlines.plain l (hsub hl)⟩
  rw [margin_eq, hstarts, ← margin_eq]
  exact hlines.margin_eq

theorem trimBreaks_dedent : trimBreaks (dedent body) = joinLines (dedentedLines body) := by
  have hlines : dedent body = joinLines (splitOn '\n' (dedent body)) := by rw [splitOn_dedent, dedent_eq]
  conv_lhs => rw [hlines]
  exact trimBreaks_joinLines (dedented_dedent body).plain fun l hl => isBlankLine_of_mem_dedent hbody hl

theorem splitOn_dedentedLines (h : dedentedLines body ≠ []) :
    splitOn '\n' (joinLines (dedentedLines body)) = dedentedLines body :=
  splitOn_join h (dedented_dedentedLines hbody).plain

theorem joinLines_dedentedLines_ne_nil (h : dedentedLines body ≠ []) : joinLines (dedentedLines body) ≠ [] := by
  intro hnil
  have hone := splitOn_dedentedLines hbody h
  rw [hnil] at hone
  have hlast := rdropWhile_last_not isBlankLine ((splitOn '\n' (dedent body)).dropWhile isBlankLine) h
  have hempty : (dedentedLines body).getLast h = [] := by
    simp only [← hone]
    rfl
  exact hlast (hempty ▸ rfl)

theorem map_indented_dedentedLines (pad : List Char) : (dedentedLines body).map (indented pad)
    = (dedentedLines body).map fun l => if isBlankLine l then [] else pad ++ l :=
  map_congr_left fun l hl => by rw [indented, isBlankLine_of_mem hbody hl]

end Body

theorem bodyLines_eq {body : String} (hbody : PlainSpace body.toList) (step : List Char) :
    bodyLines step body = (dedentedLines body.toList).map (indented step) := by
  rw [bodyLines, trimBreaks_dedent hbody]
  rcases eq_or_ne (dedentedLines body.toList) [] with hnil | hne
  · rw [hnil]
    rfl
  · split
    · rename_i hempty
      exact absurd hempty (joinLines_dedentedLines_ne_nil hbody hne)
    · rw [splitOn_dedentedLines hbody hne, map_indented_dedentedLines hbody]
      exact map_congr_left fun l _ => by rw [isEmpty_trim]

/-! ## Moved to the place of a class -/

/-- `step` is what members are indented with behind `outer`, the indentation of their class; if they are not deeper than
that, it is the step that is used for new code. -/
def IsStep (outer inner step : List Char) : Prop :=
  (inner = outer ++ step ∧ step ≠ []) ∨ ((∀ s, inner = outer ++ s → s = []) ∧ step = indentStep)

theorem isStep_stepOf (bytes : Bytes) (v : View) (c : Declaration) :
    IsStep (classIndent bytes c) (memberIndent bytes v c) (stepOf bytes v c) := by
  unfold stepOf
  generalize classIndent bytes c = outer
  generalize memberIndent bytes v c = inner
  dsimp only
  split
  · rename_i hdeep
    rw [Bool.and_eq_true, decide_eq_true_eq, isPrefixOf_iff_prefix] at hdeep
    obtain ⟨hlong, s, rfl⟩ := hdeep
    refine .inl ⟨by rw [drop_left], ?_⟩
    rw [drop_left]
    rintro rfl
    simp at hlong
  · rename_i hflat
    refine .inr ⟨?_, rfl⟩
    rintro s rfl
    by_contra hne
    apply hflat
    rw [Bool.and_eq_true, decide_eq_true_eq, isPrefixOf_iff_prefix, length_append]
    have := length_pos_iff.2 hne
    exact ⟨by omega, prefix_append _ _⟩

theorem isTabOrBlank_of_indents {n : Nat} {indent : List Char} (h : Bytes.Indents bytes n indent) :
    ∀ c ∈ indent, isTabOrBlank c := by
  obtain ⟨-, -, -, -, -, -, hindent, -⟩ := h
  intro c hc
  rcases hindent c hc with rfl | rfl <;> rfl

theorem isTabOrBlank_of_indentsMembers {v : View} {c : Declaration}
    (h : IndentsMembers bytes v c outer inner) (houter : ∀ x ∈ outer, isTabOrBlank x) :
    ∀ x ∈ inner, isTabOrBlank x := by
  unfold IndentsMembers at h
  split at h
  · exact isTabOrBlank_of_indents h
  · subst h
    rw [forall_mem_append]
    exact ⟨houter, all_eq_true.1 rfl⟩

theorem IsStep.isTabOrBlank {step : List Char} (h : IsStep outer inner step)
    (hinner : ∀ x ∈ inner, isTabOrBlank x) : ∀ x ∈ step, isTabOrBlank x := by
  rcases h with ⟨rfl, -⟩ | ⟨-, rfl⟩
  · exact (forall_mem_append.1 hinner).2
  · exact all_eq_true.1 rfl

theorem padded_indented (inner step l : List Char) : padded inner (indented step l) = indented (inner ++ step) l := by
  rw [show padded inner (indented step l) = indented inner (indented step l) from rfl]
  rcases eq_or_ne l [] with rfl | hne
  · rfl
  · rw [indented_of_ne_nil hne, indented_of_ne_nil (by simp [hne]), indented_of_ne_nil hne, append_assoc]

theorem block_method {op : AddMethod} (hbody : PlainSpace op.body.toList) (lead outer inner step : List Char) :
    block lead outer inner ([signature op] ++ bodyLines step op.body ++ [['\x7d']])
      = lead ++ joinLines ((inner ++ signature op) ::
          ((dedentedLines op.body.toList).map (indented (inner ++ step)) ++ [inner ++ ['\x7d']])) ++ '\n' :: outer := by
  have hhead : padded inner (signature op) = inner ++ signature op := by simp [padded, signature]
  have hlines : (padded inner) ∘ (indented step) = indented (inner ++ step) :=
    funext fun l => padded_indented inner step l
  rw [block, bodyLines_eq hbody, map_append, map_append, map_map, hlines, map_singleton, hhead]
  rfl

end Members

namespace Document

open Members Text

/-- **A method body keeps the indentation that its lines have among themselves.**  In a document that was reached in any
way, where adding a method succeeds and white space in its body is blanks, tabs and line feeds, the lines between its
head and its closing brace are those of the body without its margin and without blank lines at both ends: blank ones are
empty, and all others stand behind the indentation of members and one step more.  Taking off their margin gives the body
back. -/
theorem addMethod_indents [Syntax.Recovery] {source : List Char} {as : List Access} {d : Document}
    (hd : d = (ofText source).accessAll as) {op : AddMethod} {p : Plan} (h : (d.perform (.addMethod op)).2 = .ok p)
    (hbody : PlainSpace op.body.toList) :
    ∃ text c range outer inner step lead lines inserted, d.text? = some text ∧
      (View.ofText text).outline.tree.find? .classDecl op.owner = some c ∧ c.bodyRange = some range ∧
      Bytes.Indents d.bytes c.startByte outer ∧ IndentsMembers d.bytes (.ofText text) c outer inner ∧
      IsStep outer inner step ∧ (lead = ['\n'] ∨ lead = ['\n', '\n']) ∧
      inserted = lead ++ joinLines ((inner ++ signature op) :: (lines ++ [inner ++ ['\x7d']])) ++ '\n' :: outer ∧
      Inserted d.bytes (d.perform (.addMethod op)).1.bytes range inserted ∧
      ((Syntax.parse .typescript text = none → InBraces d.bytes range) →
        ∃ front ws back, Added d.bytes (d.perform (.addMethod op)).1.bytes range front ws back inserted) ∧
      (∀ l ∈ lines, '\n' ∉ l) ∧
      lines = (dedentedLines op.body.toList).map (fun l => if isBlankLine l then [] else inner ++ step ++ l) ∧
      dedent (joinLines lines) = joinLines (dedentedLines op.body.toList) := by
  have hcoherent : d.Coherent := hd ▸ accessAll_coherent as (coherent_ofText source)
  obtain ⟨text, htext, hbytes, hplan, hresult⟩ := plan_of_perform hcoherent rfl h
  obtain ⟨c, range, hclass, rfl⟩ := addMethod_eq_ok hplan
  obtain ⟨lead, hlead, hinserted⟩ := insertLines_inserted (Utf8.encode text) (.ofText text) c range
    ([signature op] ++ bodyLines (stepOf (Utf8.encode text) (.ofText text) c) op.body ++ [['\x7d']])
    (!((View.ofText text).outline.tree.membersOf c).isEmpty)
  obtain ⟨hfind, hrange⟩ := of_classNamed hclass
  have houter := Bytes.indents_indentAt (Utf8.encode text) c.startByte
  have hinner := indentsMembers_memberIndent (Utf8.encode text) (.ofText text) c
  have hstep := isStep_stepOf (Utf8.encode text) (.ofText text) c
  have hblank := isTabOrBlank_of_indentsMembers hinner (isTabOrBlank_of_indents houter)
  have hpad := List.forall_mem_append.2 ⟨hblank, hstep.isTabOrBlank hblank⟩
  have hdedented := dedented_dedentedLines hbody
  rw [block_method hbody] at hinserted
  rw [hresult, hbytes]
  refine ⟨text, c, range, _, _, _, lead, _, _, htext, hfind, hrange, houter, hinner, hstep, hlead, rfl, hinserted,
    fun hbroken => hinserted.added (inBraces_of_ofText hclass hbroken), ?_, map_indented_dedentedLines hbody _,
    dedent_indented hdedented hpad⟩
  intro l hl
  obtain ⟨k, hk, rfl⟩ := List.mem_map.1 hl
  exact not_mem_indented hpad (hdedented.plain k hk)

def tabbedSource : List Char := "  class A \x7b\n  \tx = 1;\n  \x7d\n".toList

def tabbedClass : Document := (ofText tabbedSource).accessAll [.readOutline]

/-- Adds a method whose body has a margin of blanks, a deeper line, and blank lines inside and at both ends. -/
def addsNested : AddMethod := ⟨"A", "m", "", "void", "\n    if (a) \x7b\n     \tb();\n \t\n    \x7d\n  \n"⟩

def tabbedClassGrown : List Char :=
  "  class A \x7b\n  \tx = 1;\n\n  \tm(): void \x7b\n  \t\tif (a) \x7b\n  \t\t \tb();\n\n  \t\t\x7d\n  \t\x7d\n  \x7d\n"
    |>.toList

theorem addMethod_indents_nested : (∃ p, (tabbedClass.perform (.addMethod addsNested)).2 = .ok p) ∧
    PlainSpace addsNested.body.toList ∧
    dedentedLines addsNested.body.toList = ["if (a) \x7b".toList, " \tb();".toList, [], ['\x7d']] ∧
    ∃ outer inner step range lead lines, IsStep outer inner step ∧
      Inserted tabbedClass.bytes (Utf8.encode tabbedClassGrown) range
        (lead ++ joinLines ((inner ++ signature addsNested) :: (lines ++ [inner ++ ['\x7d']])) ++ '\n' :: outer) ∧
      lines = (dedentedLines addsNested.body.toList).map (fun l => if isBlankLine l then [] else inner ++ step ++ l) ∧
      dedent (joinLines lines) = joinLines (dedentedLines addsNested.body.toList) := by
  obtain ⟨⟨p, hp⟩, hbytes, hbody, hdedented⟩ : (∃ p, (tabbedClass.perform (.addMethod addsNested)).2 = .ok p) ∧
      (tabbedClass.perform (.addMethod addsNested)).1.bytes = Utf8.encode tabbedClassGrown ∧
      PlainSpace addsNested.body.toList ∧
      dedentedLines addsNested.body.toList = ["if (a) \x7b".toList, " \tb();".toList, [], ['\x7d']] := by
    rw [tabbedClass, show tabbedSource = _ from String.toList_ofList,
      show tabbedClassGrown = _ from String.toList_ofList]
    decide +kernel
  have hreached : tabbedClass = (ofText tabbedSource).accessAll [.readOutline] := rfl
  obtain ⟨text, c, range, outer, inner, step, lead, lines, -, -, -, -, -, -, hstep, -, rfl, hinserted, -, -, hlines,
    hback⟩ := addMethod_indents hreached hp hbody
  rw [hbytes] at hinserted
  exact ⟨⟨p, hp⟩, hbody, hdedented, outer, inner, step, range, lead, lines, hstep, hinserted, hlines, hback⟩

end Document
end SourceBench
