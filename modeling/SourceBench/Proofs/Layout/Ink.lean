import SourceBench.Proofs.Layout.Spelling

/-!
# What formatting leaves of a text

The ink of a text is what is left of it without blanks and white space.  Each token that is printed adds its ink to the
page and nothing else (`Page.ink_print`), so a page has the ink of its tokens in their order.  A source that breaks the
grammar is only trimmed, which keeps the ink of its lines.  In either case formatting keeps the ink of the source
(`format_keeps_ink`).
-/
namespace SourceBench.Layout

open Syntax Text List Page

def ink (cs : List Char) : List Char := cs.filter isInk

@[simp] theorem ink_nil : ink [] = [] := rfl

@[simp] theorem ink_append (a b : List Char) : ink (a ++ b) = ink a ++ ink b := filter_append ..

theorem ink_cons (c : Char) (cs : List Char) : ink (c :: cs) = ink [c] ++ ink cs := ink_append [c] cs

@[simp] theorem ink_blank_cons (cs : List Char) : ink (' ' :: cs) = ink cs := ink_cons ' ' cs

theorem ink_eq_nil_of_blank {cs : List Char} (h : ∀ c ∈ cs, isBlank c) : ink cs = [] :=
  filter_eq_nil_iff.2 fun c hc => by simp [isInk, h c hc]

theorem ink_singleton_of_isSpace {c : Char} (h : isSpace c) : ink [c] = [] := by simp [ink, isInk, h]

theorem ink_eq_filter_seen (cs : List Char) : ink cs = (seen cs).filter (! isBlank ·) := by
  rw [ink, seen, filter_filter]
  rfl

theorem ink_of_seen_eq {a b : List Char} (h : seen a = seen b) : ink a = ink b := by
  rw [ink_eq_filter_seen, ink_eq_filter_seen, h]

theorem ink_trimRight (cs : List Char) : ink (trimRight cs) = ink cs := ink_of_seen_eq (seen_trimRight cs)

theorem ink_commentText (text : List Char) (d : Nat) : ink (commentText text d) = ink text :=
  ink_of_seen_eq (sameLines_commentText text d).seen_eq.symm

theorem ink_indentation (d : Nat) : ink (indentation d) = [] :=
  ink_eq_nil_of_blank fun _ hc => isBlank_of_mem_indentation hc

/-! ## Lines -/

theorem ink_endLines (ls : List (List Char)) : ink (endLines ls) = ls.flatMap ink := by
  induction ls with
  | nil => rfl
  | cons l ls ih =>
    have hend : ink ['\n'] = [] := by decide
    rw [show endLines (l :: ls) = l ++ ['\n'] ++ endLines ls from rfl, ink_append, ink_append, hend, ih, append_nil,
      flatMap_cons]

theorem flatMap_ink_dropTrailingEmpty (ls : List (List Char)) :
    (dropTrailingEmpty ls).flatMap ink = ls.flatMap ink := by
  have hsplit : ls = dropTrailingEmpty ls ++ (ls.reverse.takeWhile isEmpty).reverse := by
    rw [dropTrailingEmpty, ← reverse_append, takeWhile_append_dropWhile, reverse_reverse]
  have hempty : (ls.reverse.takeWhile isEmpty).reverse.flatMap ink = [] := by
    rw [flatMap_eq_nil_iff]
    intro l hl
    have hl' : l.isEmpty := mem_takeWhile_imp (mem_reverse.1 hl)
    rw [isEmpty_iff.1 hl', ink_nil]
  conv_rhs => rw [hsplit, flatMap_append, hempty, append_nil]

theorem ink_closeLines (ls : List (List Char)) : ink (closeLines ls) = ls.flatMap ink := by
  rw [← flatMap_ink_dropTrailingEmpty]
  unfold closeLines
  cases dropTrailingEmpty ls with
  | nil => rfl
  | cons l r =>
    dsimp only
    rw [joinLines_concat _ (cons_ne_nil l r), ink_endLines]

theorem isSpace_of_isLineBreak {c : Char} (h : isLineBreak c) : isSpace c := by
  simp only [isLineBreak, isSpace, Bool.or_eq_true, Bool.and_eq_true, decide_eq_true_eq, beq_iff_eq] at h ⊢
  omega

theorem flatMap_ink_splitLinesFrom (line cs : List Char) :
    (splitLinesFrom line cs).flatMap ink = ink line.reverse ++ ink cs := by
  fun_induction splitLinesFrom line cs with
  | case1 line hempty => simp [isEmpty_iff.1 hempty]
  | case2 line hempty => simp
  | case3 line rest ih =>
    have hend : ink ['\r', '\n'] = [] := by decide
    rw [flatMap_cons, ih, show '\r' :: '\n' :: rest = ['\r', '\n'] ++ rest from rfl, ink_append, hend]
    rfl
  | case4 line c rest _ hbreak ih =>
    rw [flatMap_cons, ih, ink_cons c rest, ink_singleton_of_isSpace (isSpace_of_isLineBreak hbreak)]
    rfl
  | case5 line c rest _ hbreak ih => rw [ih, reverse_cons, ink_append, append_assoc, ← ink_cons]

theorem ink_trimLines (source : List Char) : ink (trimLines source) = ink source := by
  have hline : (ink ∘ trimRight) = ink := funext ink_trimRight
  rw [trimLines, ink_closeLines, flatMap_map, show (fun l => ink (trimRight l)) = ink from hline, splitLines,
    flatMap_ink_splitLinesFrom]
  rfl

/-! ## Pages -/

def Page.ink (g : Page) : List Char := g.lines.reverse.flatMap Layout.ink ++ Layout.ink g.current

theorem Page.ink_flush (g : Page) : g.flush.ink = g.ink := by
  unfold flush
  split
  · rfl
  · simp [ink, ink_trimRight, ink_indentation]

theorem Page.ink_break (g : Page) (ends : Bool) (empty : Page → Bool) : (if ends then
      let g := g.flush
      if empty g then { g with lines := [] :: g.lines } else g
    else g).ink = g.ink := by
  cases ends with
  | false => rfl
  | true =>
    rw [if_pos rfl, ← g.ink_flush]
    dsimp only
    split
    · simp [ink]
    · rfl

theorem Page.ink_put (g : Page) (t : Placed) (comment blank pending : Bool) (last : Option Placed) :
    ink { (if g.current.isEmpty then
        { g with depth := t.depth, current := if comment then commentText t.text t.depth else t.text }
      else { g with current := g.current ++ (if blank then [' '] else []) ++ t.text }) with
      breakPending := pending, last := last } = g.ink ++ Layout.ink t.text := by
  by_cases hempty : g.current.isEmpty
  · rw [if_pos hempty, ink, ink, isEmpty_iff.1 hempty]
    cases comment <;> simp [ink_commentText]
  · rw [if_neg hempty]
    cases blank <;> simp [ink]

theorem Page.ink_print (g : Page) (t : Placed) : (g.print t).ink = g.ink ++ Layout.ink t.text := by
  unfold print
  split
  · simp [ink, ink_commentText]
  · unfold place
    refine (ink_put ..).trans (congrArg (· ++ Layout.ink t.text) ?_)
    let isApart (g : Page) : Bool := (t.startsStatement || t.tree.kind == .comment) &&
      g.last.any fun a => !a.isToken "\x7b" && a.tree.stopRow + 2 ≤ t.tree.startRow
    exact ink_break g _ isApart

theorem Page.ink_foldl_print (ts : List Placed) (g : Page) :
    (ts.foldl print g).ink = g.ink ++ ts.flatMap fun t => Layout.ink t.text := by
  induction ts generalizing g with
  | nil => simp
  | cons t ts ih => rw [foldl_cons, ih, g.ink_print, flatMap_cons, append_assoc]

theorem ink_lines (ts : List Placed) : (lines ts).flatMap ink = ts.flatMap fun t => ink t.text := by
  have hpage := Page.ink_foldl_print ts .empty
  rw [← Page.ink_flush] at hpage
  have hcurrent : (ts.foldl Page.print .empty).flush.current = [] := by
    unfold Page.flush
    split
    · next h => exact isEmpty_iff.1 h
    · rfl
  rw [Page.ink, hcurrent, ink_nil, append_nil] at hpage
  exact hpage

/-! ## Sources -/

theorem Laid.ink : ∀ {ts : List Placed} {c d : Cursor}, Laid ts c d →
    Layout.ink c.rest = (ts.flatMap fun t => Layout.ink t.text) ++ Layout.ink d.rest
  | [], _, _, h => by rw [show _ = _ from h]; rfl
  | t :: ts, _, _, ⟨_, _, ⟨gap, hgap, hblank⟩, hpass, _, hts⟩ => by
    rw [hgap.1, hpass.1, ink_append, ink_append, ink_eq_nil_of_blank hblank, hts.ink, flatMap_cons, nil_append,
      append_assoc]

theorem ink_of_parse {source : List Char} {t : Tree} (h : parse .typescript source = some t) :
    ink source = (tokens source t).flatMap fun p => ink p.text := by
  obtain ⟨d, hlaid, hblank⟩ := parse_laid h
  have hink := hlaid.ink
  rwa [ink_eq_nil_of_blank hblank, append_nil] at hink

theorem ink_print (source : List Char) (t : Tree) :
    ink (print source t) = (tokens source t).flatMap fun p => ink p.text := by
  rw [print, ink_closeLines, ink_lines]
  rfl

/-- **Formatting only moves white space**: whether or not a source can be read, what is left of it without white space
is left of its printed form; and what is left of a source that can be read are its tokens, each once and in their
order. -/
theorem format_keeps_ink (source : List Char) : ink (format source) = ink source ∧
    ∀ t, parse .typescript source = some t → ink (format source) = (tokens source t).flatMap fun p => ink p.text := by
  have hread : ∀ t, parse .typescript source = some t →
      ink (format source) = (tokens source t).flatMap fun p => ink p.text := by
    intro t ht
    rw [format, ht]
    exact ink_print source t
  refine ⟨?_, hread⟩
  cases hparse : parse .typescript source with
  | some t => rw [hread t hparse, ink_of_parse hparse]
  | none =>
    rw [format, hparse]
    exact ink_trimLines source

theorem format_keeps_ink_commented : ∃ source t, source = "/* a\n  b */ f ( 'c  d' ) // e \n".toList ∧
    parse .typescript source = some t ∧ ink (format source) = (tokens source t).flatMap fun p => ink p.text := by
  obtain ⟨source, hsource⟩ : ∃ source, source = "/* a\n  b */ f ( 'c  d' ) // e \n".toList := ⟨_, rfl⟩
  have hread : (parse .typescript source).isSome = true := by
    rw [hsource.trans String.toList_ofList]
    decide +kernel
  obtain ⟨t, h⟩ := Option.isSome_iff_exists.1 hread
  exact ⟨source, t, hsource, h, (format_keeps_ink source).2 t h⟩

end SourceBench.Layout
