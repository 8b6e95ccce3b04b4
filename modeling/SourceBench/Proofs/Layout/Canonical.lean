import Mathlib.Data.List.Chain
import Mathlib.Data.List.Forall2
import SourceBench.Proofs.Layout.Ink

/-!
# The lines of a printed page

A printed page is its tokens in rows: each line that is not empty is a row of tokens, and it begins with the indentation
of the first of them.  Printing a token keeps that of the lines that have ended and of the line being printed
(`Page.Holds.print`), and that no line ends with white space, that no two empty lines follow each other, and that no
empty line comes first.  A page ends with the line being printed, so no empty line comes last either.
-/
namespace SourceBench.Layout

open Syntax Text List

variable {l : List Char} {row : List Placed}

/-! ## Rows -/

/-- The line is a row of tokens: it begins with the indentation and the first character of the first of them, and it has
their ink. -/
def IsRow (row : List Placed) (l : List Char) : Prop :=
  (∃ a rest c r w, row = a :: rest ∧ a.text = c :: r ∧ l = indentation a.depth ++ c :: w) ∧
    ink l = row.flatMap fun t => ink t.text

theorem IsRow.ne_nil (h : IsRow row l) : l ≠ [] := by
  obtain ⟨⟨a, rest, c, r, w, -, -, hl⟩, -⟩ := h
  rw [hl]
  simp

def Trimmed (l : List Char) : Prop := ∀ c, l.getLast? = some c → isSpace c = false

theorem trimmed_trimRight (l : List Char) : Trimmed (trimRight l) := by
  intro c hc
  obtain ⟨r, hr⟩ := getLast?_eq_some_iff.1 hc
  have hlast := rdropWhile_last_not isSpace l (by rw [← trimRight_eq_rdropWhile, hr]; simp)
  simpa [← trimRight_eq_rdropWhile, hr] using hlast

/-- The lines are rows of tokens and empty lines: no line ends with white space, and no empty line comes first or
follows another. -/
structure Rows (rows : List (List Placed)) (ls : List (List Char)) : Prop where
  apart : ls.IsChain fun l m => l ≠ [] ∨ m ≠ []
  first : ls.head? ≠ some []
  trimmed : ∀ l ∈ ls, Trimmed l
  rows : List.Forall₂ IsRow rows (ls.filter (!·.isEmpty))

section Rows

variable {rows : List (List Placed)} {ls : List (List Char)}

theorem rows_nil : Rows [] [] := ⟨.nil, nofun, nofun, .nil⟩

theorem Rows.concat (h : Rows rows ls) {added : List (List Placed)}
    (hapart : ∀ m ∈ ls.getLast?, m ≠ [] ∨ l ≠ []) (hfirst : ls ≠ [] ∨ l ≠ []) (hl : Trimmed l)
    (hadded : List.Forall₂ IsRow added ([l].filter (!·.isEmpty))) : Rows (rows ++ added) (ls ++ [l]) := by
  refine ⟨?_, ?_, ?_, ?_⟩
  · rw [isChain_append]
    exact ⟨h.apart, .singleton l, fun m hm l' hl' => Option.some.inj hl' ▸ hapart m hm⟩
  · cases ls with
    | nil => simpa using hfirst
    | cons m ls => exact h.first
  · intro m hm
    rcases mem_append.1 hm with hm | hm
    · exact h.trimmed m hm
    · rw [mem_singleton.1 hm]
      exact hl
  · rw [filter_append]
    exact rel_append h.rows hadded

theorem Rows.line (h : Rows rows ls) (hrow : IsRow row l) (hl : Trimmed l) : Rows (rows ++ [row]) (ls ++ [l]) := by
  have hne := hrow.ne_nil
  refine h.concat (fun _ _ => .inr hne) (.inr hne) hl ?_
  rw [filter_cons_of_pos (by simpa using hne)]
  exact .cons hrow .nil

theorem Rows.gap (h : Rows rows (ls ++ [l])) (hne : l ≠ []) : Rows rows (ls ++ [l] ++ [[]]) := by
  have hlast : ∀ m ∈ (ls ++ [l]).getLast?, m ≠ [] ∨ ([] : List Char) ≠ [] := by
    simpa using hne
  have hgap : Rows (rows ++ []) (ls ++ [l] ++ [[]]) := h.concat hlast (.inl (by simp)) nofun .nil
  rwa [append_nil] at hgap

end Rows

/-! ## Pages -/

/-- The lines of the page are the rows, and the line being printed is the last row. -/
structure Page.Holds (g : Page) (rows : List (List Placed)) (row : List Placed) : Prop where
  lines : Rows rows g.lines.reverse
  current : ∃ a rest c r w, row = a :: rest ∧ a.text = c :: r ∧ isInk c = true ∧ g.current = c :: w ∧ g.depth = a.depth
  ink : Layout.ink g.current = row.flatMap fun t => Layout.ink t.text
  last : g.last.isSome = true

theorem ink_shown (t : Placed) (d : Nat) : ink (shown t d) = ink t.text := by
  unfold shown
  split
  · exact ink_commentText t.text d
  · rfl

section Page

variable {g : Page} {rows : List (List Placed)} {row : List Placed}

namespace Page.Holds

variable (h : g.Holds rows row)

include h

theorem isRow : IsRow row (trimRight (indentation g.depth ++ g.current)) := by
  obtain ⟨a, rest, c, r, w, hrow, htext, hc, hcurrent, hdepth⟩ := h.current
  have hspace := isSpace_of_isInk hc
  refine ⟨⟨a, rest, c, r, trimRight w, hrow, htext, ?_⟩, ?_⟩
  · rw [hcurrent, hdepth, trimRight_append ⟨c, mem_cons_self, hspace⟩, trimRight_cons hspace]
  · rw [ink_trimRight, ink_append, ink_indentation, nil_append, h.ink]

theorem ended :
    Rows (rows ++ [row]) (g.lines.reverse ++ [trimRight (indentation g.depth ++ g.current)]) :=
  h.lines.line h.isRow (trimmed_trimRight _)

theorem current_ne_nil : g.current ≠ [] := by
  obtain ⟨_, _, c, _, w, -, -, -, hcurrent, -⟩ := h.current
  rw [hcurrent]
  exact cons_ne_nil c w

theorem lines_flush :
    g.flush.lines.reverse = g.lines.reverse ++ [trimRight (indentation g.depth ++ g.current)] := by
  rw [Page.flush, if_neg (by simpa using h.current_ne_nil), reverse_cons]

theorem extend (b : Placed) (blank : List Char) (hblank : Layout.ink blank = []) (d : Nat)
    (pending : Bool) :
    ({ g with current := g.current ++ blank ++ shown b d, breakPending := pending, last := some b } : Page).Holds rows
      (row ++ [b]) := by
  obtain ⟨a, rest, c, r, w, hrow, htext, hc, hcurrent, hdepth⟩ := h.current
  refine ⟨h.lines, ⟨a, rest ++ [b], c, r, w ++ blank ++ shown b d, ?_, htext, hc, ?_, hdepth⟩, ?_, rfl⟩
  · rw [hrow, cons_append]
  · simp [hcurrent]
  · simp [h.ink, hblank, ink_shown]

theorem print {b : Placed} (hb : b.Sound) :
    (g.print b).Holds rows (row ++ [b]) ∨ (g.print b).Holds (rows ++ [row]) [b] := by
  obtain ⟨a, hlast⟩ := Option.isSome_iff_exists.1 h.last
  rw [Page.print_eq b hlast h.current_ne_nil]
  cases joint g.breakPending a b with
  | append =>
    refine .inl ?_
    have hextend := h.extend b [' '] rfl g.depth (pendingAfter g.breakPending a b)
    rwa [append_assoc] at hextend
  | inline blank =>
    refine .inl (h.extend b _ ?_ g.depth _)
    cases blank <;> rfl
  | newline empty =>
    obtain ⟨c, r, w, htext, hshown, hc⟩ := hb.shown_opens b.depth
    refine .inr ⟨?_, ⟨b, [], c, r, w, rfl, htext, hc, hshown, rfl⟩, by simp [ink_shown], rfl⟩
    cases empty with
    | false => simpa using h.ended
    | true => simpa using h.ended.gap h.isRow.ne_nil

end Page.Holds

theorem Page.Holds.foldl_print {bs : List Placed} (hbs : ∀ b ∈ bs, b.Sound) (h : g.Holds rows row) :
    ∃ rows' row', (bs.foldl Page.print g).Holds rows' row' ∧ (rows' ++ [row']).flatten = (rows ++ [row]).flatten
      ++ bs := by
  induction bs generalizing g rows row with
  | nil => exact ⟨rows, row, h, by simp⟩
  | cons b bs ih =>
    have hrest := fun x hx => hbs x (mem_cons_of_mem b hx)
    rcases h.print (hbs b mem_cons_self) with hprint | hprint
    · obtain ⟨rows', row', h', heq⟩ := ih hrest hprint
      exact ⟨rows', row', h', by simp [heq]⟩
    · obtain ⟨rows', row', h', heq⟩ := ih hrest hprint
      exact ⟨rows', row', h', by simp [heq]⟩

end Page

/-- **Tokens are printed as rows**, and no empty line comes last. -/
theorem lines_rows {ts : List Placed} (h : ∀ t ∈ ts, t.Sound) :
    ∃ rows, ts = rows.flatten ∧ Rows rows (lines ts) ∧ (lines ts).getLast? ≠ some [] := by
  cases ts with
  | nil => exact ⟨[], rfl, rows_nil, nofun⟩
  | cons a bs =>
    have hfirst : Page.empty.print a = ⟨[], shown a a.depth, a.depth, isComment a, some a⟩ := by
      simp [Page.print, Page.place, Page.empty, shown, isComment]
    obtain ⟨c, r, w, htext, hshown, hc⟩ := (h a mem_cons_self).shown_opens a.depth
    have hpage : (Page.empty.print a).Holds [] [a] := by
      rw [hfirst]
      exact ⟨rows_nil, ⟨a, [], c, r, w, rfl, htext, hc, hshown, rfl⟩, by simp [ink_shown], rfl⟩
    obtain ⟨rows, row, hend, hflat⟩ := hpage.foldl_print fun b hb => h b (mem_cons_of_mem a hb)
    have hlines := hend.lines_flush
    refine ⟨rows ++ [row], by simpa using hflat.symm, ?_, ?_⟩
    · rw [lines, foldl_cons, hlines]
      exact hend.ended
    · rw [lines, foldl_cons, hlines, getLast?_concat]
      exact fun heq => hend.isRow.ne_nil (Option.some.inj heq)

theorem closeLines_eq {ls : List (List Char)} (h : ls.getLast? ≠ some []) : closeLines ls = endLines ls := by
  rcases eq_nil_or_concat' ls with rfl | ⟨ls, l, rfl⟩
  · rfl
  · refine closeLines_concat (fun hl => h ?_) ls
    rw [hl, getLast?_concat]

/-- **The layout of a printed source.**  The tokens stand in rows.  A line that is not empty is a row: it begins with
the indentation of its first token and the first character of that.  No line ends with white space, and no empty line
follows another or comes first or last.  The printed text is the lines, each with its end. -/
theorem format_canonical {source : List Char} {t : Tree} (h : parse .typescript source = some t) :
    ∃ rows, tokens source t = rows.flatten ∧ Rows rows (lines (tokens source t)) ∧
      (lines (tokens source t)).getLast? ≠ some [] ∧ format source = endLines (lines (tokens source t)) := by
  obtain ⟨rows, hflat, hrows, hlast⟩ := lines_rows (parse_sound h)
  refine ⟨rows, hflat, hrows, hlast, ?_⟩
  rw [format, h]
  exact closeLines_eq hlast

/-- A function with a comment in it, and an empty line behind it. -/
theorem format_canonical_function :
    ∃ source t rows, source = "function f ( ) \x7b // a\n return 1 ; \x7d\n\n\ng ( ) ;".toList ∧
    parse .typescript source = some t ∧ tokens source t = rows.flatten ∧ Rows rows (lines (tokens source t)) ∧
      format source = endLines (lines (tokens source t)) := by
  obtain ⟨source, hsource⟩ : ∃ source, source = "function f ( ) \x7b // a\n return 1 ; \x7d\n\n\ng ( ) ;".toList :=
    ⟨_, rfl⟩
  have hread : (parse .typescript source).isSome = true := by
    rw [hsource.trans String.toList_ofList]
    decide +kernel
  obtain ⟨t, h⟩ := Option.isSome_iff_exists.1 hread
  obtain ⟨rows, hflat, hrows, -, hformat⟩ := format_canonical h
  exact ⟨source, t, rows, hsource, h, hflat, hrows, hformat⟩

end SourceBench.Layout
