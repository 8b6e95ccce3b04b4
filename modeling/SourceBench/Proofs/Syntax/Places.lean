import Mathlib.Data.List.TakeWhile
import SourceBench.Proofs.Text.Utf8
import SourceBench.Syntax.Grammar.Statements

/-!
# Trees in their places

`Tree.Covers` says of a tree that its leaves spell the text between two cursors with only blanks between them, and that
its spans and those of all trees below it are the places where they were read.  That siblings are ordered, that a child
lies in its parent and that a leaf is the text at its span all follow from it.
-/
namespace SourceBench.Syntax

open List

/-! ## Passing over text -/

def Pos.afterAll (p : Pos) (text : List Char) : Pos := text.foldl Pos.after p

@[simp] theorem Pos.afterAll_nil (p : Pos) : p.afterAll [] = p := rfl

theorem Pos.afterAll_append (p : Pos) (a b : List Char) : p.afterAll (a ++ b) = (p.afterAll a).afterAll b :=
  foldl_append

theorem Pos.afterAll_byte : ∀ (text : List Char) (p : Pos), (p.afterAll text).byte = p.byte + Utf8.byteSize text
  | [], _ => rfl
  | a :: text, p => by
    show ((p.after a).afterAll text).byte = _
    rw [Pos.afterAll_byte text, Utf8.byteSize_cons, ← Nat.add_assoc]
    rfl

namespace Cursor

def Passes (c : Cursor) (text : List Char) (d : Cursor) : Prop :=
  c.rest = text ++ d.rest ∧ d.pos = c.pos.afterAll text

theorem passes_nil (c : Cursor) : c.Passes [] c := ⟨rfl, rfl⟩

theorem Passes.trans {c d e : Cursor} {a b : List Char} (h : c.Passes a d) (h' : d.Passes b e) : c.Passes (a ++ b) e :=
  ⟨by rw [h.1, h'.1, append_assoc], by rw [h'.2, h.2, Pos.afterAll_append]⟩

theorem skip_passes : ∀ (n : Nat) (c : Cursor), c.Passes (c.rest.take n) (c.skip n)
  | 0, c => passes_nil c
  | _ + 1, ⟨[], p⟩ => passes_nil ⟨[], p⟩
  | n + 1, ⟨a :: r, p⟩ => by
    obtain ⟨hrest, hpos⟩ := skip_passes n ⟨r, p.after a⟩
    exact ⟨congrArg (a :: ·) hrest, hpos⟩

def BlankTo (c d : Cursor) : Prop := ∃ gap, c.Passes gap d ∧ ∀ x ∈ gap, isBlank x = true

theorem blankTo_refl (c : Cursor) : c.BlankTo c := ⟨[], passes_nil c, by simp⟩

theorem BlankTo.trans {c d e : Cursor} (h : c.BlankTo d) (h' : d.BlankTo e) : c.BlankTo e := by
  obtain ⟨a, ha, hblank⟩ := h
  obtain ⟨b, hb, hblank'⟩ := h'
  refine ⟨a ++ b, ha.trans hb, fun x hx => ?_⟩
  rcases mem_append.1 hx with hx | hx
  · exact hblank x hx
  · exact hblank' x hx

theorem skipBlank_blankTo (c : Cursor) : c.BlankTo c.skipBlank := by
  refine ⟨_, skip_passes _ c, fun x hx => ?_⟩
  rw [← prefix_iff_eq_take.1 (List.takeWhile_prefix isBlank)] at hx
  exact mem_takeWhile_imp hx

end Cursor

/-! ## Covering -/

open Cursor

mutual
/-- The tree was read from the first cursor up to the second: each leaf is the text at its place, and only blanks stand
between the children. -/
def Tree.Covers : Tree → Cursor → Cursor → Prop
  | .leaf _ _ s text, c, d => text ≠ [] ∧ c.Passes text d ∧ s = ⟨c.pos, d.pos⟩
  | .node _ _ _ [], _, _ => False
  | .node _ _ s (t :: ts), c, e => s = ⟨c.pos, e.pos⟩ ∧ ∃ d, t.Covers c d ∧ coversAll ts d e
/-- The trees were read one after another, with only blanks before each. -/
def coversAll : List Tree → Cursor → Cursor → Prop
  | [], c, d => c = d
  | t :: ts, c, e => ∃ c' d, c.BlankTo c' ∧ t.Covers c' d ∧ coversAll ts d e
end

variable {t : Tree} {c d : Cursor} {ts : List Tree}

theorem Tree.Covers.span_eq (h : t.Covers c d) : t.span = ⟨c.pos, d.pos⟩ := by
  cases t with
  | leaf r k s text => exact h.2.2
  | node r k s cs =>
    cases cs with
    | nil => exact h.elim
    | cons t ts => exact h.1

theorem Tree.covers_withRole (r : Role) (t : Tree) (c d : Cursor) : (t.withRole r).Covers c d ↔ t.Covers c d := by
  cases t with
  | leaf r' k s text => rfl
  | node r' k s cs => cases cs <;> rfl

theorem coversAll_append : ∀ (ts us : List Tree) (c e : Cursor),
    coversAll (ts ++ us) c e ↔ ∃ d, coversAll ts c d ∧ coversAll us d e
  | [], us, c, e => by simp [coversAll]
  | t :: ts, us, c, e => by
    simp only [cons_append, coversAll, coversAll_append ts us]
    constructor
    · rintro ⟨c', d, hgap, ht, m, hts, hus⟩
      exact ⟨m, ⟨c', d, hgap, ht, hts⟩, hus⟩
    · rintro ⟨m, ⟨c', d, hgap, ht, hts⟩, hus⟩
      exact ⟨c', d, hgap, ht, m, hts, hus⟩

theorem coversAll_singleton {c' : Cursor} (hgap : c.BlankTo c') (ht : t.Covers c' d) :
    coversAll [t] c d := ⟨c', d, hgap, ht, rfl⟩

theorem coversAll_of_blankTo {b : Cursor} (hgap : b.BlankTo c) (h : coversAll ts c d) (hne : ts ≠ []) :
    coversAll ts b d := by
  cases ts with
  | nil => exact absurd rfl hne
  | cons t ts =>
    obtain ⟨c', d', hgap', ht, hts⟩ := h
    exact ⟨c', d', hgap.trans hgap', ht, hts⟩

theorem coversAll_getLast : ∀ {ts : List Tree} {c d : Cursor} {u : Tree}, coversAll ts c d → ts.getLast? = some u →
    u.span.stop = d.pos
  | [], _, _, _, _, hu => by cases hu
  | [t], _, _, _, ⟨c', d', _, ht, hd⟩, hu => by
    rw [getLast?_singleton, Option.some.injEq] at hu
    rw [← hu, ht.span_eq, show d' = _ from hd]
  | _ :: t' :: ts, _, _, _, ⟨_, _, _, _, hts⟩, hu => by
    rw [getLast?_cons_cons] at hu
    exact coversAll_getLast hts hu

def Cursor.Reads (c : Cursor) (ts : List Tree) (e : Cursor) : Prop := ∃ d, coversAll ts c d ∧ d.BlankTo e

theorem Cursor.reads_nil (c : Cursor) : c.Reads [] c := ⟨c, rfl, blankTo_refl c⟩

theorem Cursor.Reads.append {e : Cursor} {us : List Tree} (h : c.Reads ts d) (h' : d.Reads us e) :
    c.Reads (ts ++ us) e := by
  obtain ⟨m, hts, hgap⟩ := h
  obtain ⟨m', hus, hgap'⟩ := h'
  by_cases hne : us = []
  · subst hne
    rw [append_nil]
    have hd : d = m' := hus
    exact ⟨m, hts, hgap.trans (hd ▸ hgap')⟩
  · exact ⟨m', (coversAll_append ts us _ _).2 ⟨m, hts, coversAll_of_blankTo hgap hus hne⟩, hgap'⟩

/-! ## Order of places -/

theorem Cursor.Passes.byte_eq {text : List Char} (h : c.Passes text d) :
    d.pos.byte = c.pos.byte + Utf8.byteSize text := by
  rw [h.2, Pos.afterAll_byte]

theorem Cursor.BlankTo.byte_le (h : c.BlankTo d) : c.pos.byte ≤ d.pos.byte := by
  obtain ⟨gap, hpass, -⟩ := h
  rw [hpass.byte_eq]
  exact Nat.le_add_right _ _

mutual
theorem Tree.Covers.passes : ∀ {t : Tree} {c d : Cursor}, t.Covers c d → ∃ text, text ≠ [] ∧ c.Passes text d
  | .leaf _ _ _ text, _, _, h => ⟨text, h.1, h.2.1⟩
  | .node _ _ _ [], _, _, h => h.elim
  | .node _ _ _ (_ :: _), _, _, ⟨_, _, ht, hts⟩ => by
    obtain ⟨a, ha, hpass⟩ := ht.passes
    obtain ⟨b, hpass'⟩ := coversAll_passes hts
    exact ⟨a ++ b, by simp [ha], hpass.trans hpass'⟩
theorem coversAll_passes : ∀ {ts : List Tree} {c d : Cursor}, coversAll ts c d → ∃ text, c.Passes text d
  | [], c, _, h => ⟨[], h ▸ Cursor.passes_nil c⟩
  | _ :: _, _, _, ⟨_, _, ⟨gap, hgap, _⟩, ht, hts⟩ => by
    obtain ⟨a, -, hpass⟩ := ht.passes
    obtain ⟨b, hpass'⟩ := coversAll_passes hts
    exact ⟨gap ++ (a ++ b), hgap.trans (hpass.trans hpass')⟩
end

theorem Tree.Covers.byte_lt (h : t.Covers c d) : c.pos.byte < d.pos.byte := by
  obtain ⟨text, hne, hpass⟩ := h.passes
  have := Utf8.byteSize_pos hne
  have := hpass.byte_eq
  omega

theorem coversAll_byte_le (h : coversAll ts c d) : c.pos.byte ≤ d.pos.byte := by
  obtain ⟨text, hpass⟩ := coversAll_passes h
  rw [hpass.byte_eq]
  exact Nat.le_add_right _ _

theorem Tree.Covers.start_eq (h : t.Covers c d) : t.start = c.pos.byte := by
  rw [Tree.start, h.span_eq]

theorem Tree.Covers.stop_eq (h : t.Covers c d) : t.stop = d.pos.byte := by
  rw [Tree.stop, h.span_eq]

theorem Tree.Covers.children {t : Tree} {c d : Cursor} (h : t.Covers c d) {u : Tree} (hu : u ∈ t.children) :
    coversAll t.children c d := by
  cases t with
  | leaf r k s text => cases hu
  | node r k s cs =>
    cases cs with
    | nil => cases hu
    | cons t ts =>
      obtain ⟨-, e, ht, hts⟩ := h
      exact ⟨c, e, blankTo_refl c, ht, hts⟩

theorem coversAll_mem : ∀ {ts : List Tree} {c d : Cursor}, coversAll ts c d → ∀ u ∈ ts,
    ∃ c' d', u.Covers c' d' ∧ c.pos.byte ≤ c'.pos.byte ∧ d'.pos.byte ≤ d.pos.byte
  | t :: ts, _, _, ⟨c', d', hgap, ht, hts⟩, u, hu => by
    rcases mem_cons.1 hu with rfl | hu
    · exact ⟨c', d', ht, hgap.byte_le, coversAll_byte_le hts⟩
    · obtain ⟨c'', d'', hu', hle, hle'⟩ := coversAll_mem hts u hu
      have := hgap.byte_le
      have := ht.byte_lt
      exact ⟨c'', d'', hu', by omega, hle'⟩

theorem coversAll_pairwise : ∀ {ts : List Tree} {c d : Cursor}, coversAll ts c d →
    ts.Pairwise (fun t u => t.stop ≤ u.start)
  | [], _, _, _ => .nil
  | t :: ts, _, _, ⟨c', d', _, ht, hts⟩ => by
    refine pairwise_cons.2 ⟨fun u hu => ?_, coversAll_pairwise hts⟩
    obtain ⟨c'', d'', hu', hle, -⟩ := coversAll_mem hts u hu
    rw [ht.stop_eq, hu'.start_eq]
    exact hle

def Tree.Placed (t : Tree) : Prop := ∃ c d, t.Covers c d

theorem Tree.Placed.start_lt_stop (h : t.Placed) : t.start < t.stop := by
  obtain ⟨c, d, h⟩ := h
  rw [h.start_eq, h.stop_eq]
  exact h.byte_lt

theorem Tree.Placed.child {t u : Tree} (h : t.Placed) (hu : u ∈ t.children) :
    u.Placed ∧ t.start ≤ u.start ∧ u.stop ≤ t.stop := by
  obtain ⟨c, d, h⟩ := h
  obtain ⟨c', d', hu', hle, hle'⟩ := coversAll_mem (h.children hu) u hu
  rw [h.start_eq, h.stop_eq, hu'.start_eq, hu'.stop_eq]
  exact ⟨⟨c', d', hu'⟩, hle, hle'⟩

end SourceBench.Syntax
