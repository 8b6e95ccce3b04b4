import Mathlib.Data.List.Chain
import SourceBench.Proofs.Layout.Twins

/-!
# The printed text read again

When the printed text of a source is read again and gives the same tokens, each token has the text that was printed for
it and begins as many rows behind the one before it as its joint has line ends (`reprinted_of_laid`,
`Restored.reprinted`).
-/
namespace SourceBench.Layout

open Syntax Text Cursor List

variable {pending : Bool} {gap y text : List Char} {ps : List (Placed × Placed)} {p : Placed × Placed}

/-! ## Texts that begin alike -/

variable {x r rest rest' own : List Char} {a a' b : Placed} {d : Nat}

theorem append_blank_inj {gap' : List Char} (h : gap ++ x = gap' ++ y) (hgap : ∀ c ∈ gap, isBlank c)
    (hgap' : ∀ c ∈ gap', isBlank c) (hx : ∃ c r, x = c :: r ∧ isInk c)
    (hy : ∃ c r, y = c :: r ∧ isInk c) : gap = gap' ∧ x = y := by
  have htake {gap x : List Char} (hgap : ∀ c ∈ gap, isBlank c) (hx : ∃ c r, x = c :: r ∧ isInk c) :
      (gap ++ x).takeWhile isBlank = gap := by
    obtain ⟨c, r, rfl, hc⟩ := hx
    rw [takeWhile_append_of_pos hgap, takeWhile_cons_of_neg (by simp [isBlank_of_isInk hc]), append_nil]
  have hgaps : gap = gap' := by rw [← htake hgap hx, h, htake hgap' hy]
  exact ⟨hgaps, append_cancel_left (hgaps ▸ h)⟩

theorem inked_concat_ne_nil {b : Char} (h : text = r ++ [b]) (hb : isInk b) : inked text ≠ [] := by
  rw [h, inked_append]
  simp [inked, hb]

theorem eq_nil_of_inked {c : List Char} (hend : ∃ r b, x ++ c = r ++ [b] ∧ isInk b)
    (hink : inked x = inked (x ++ c)) : c = [] := by
  obtain ⟨r, b, hend, hb⟩ := hend
  rw [inked_append] at hink
  have hnil : inked c = [] := append_cancel_left (hink.symm.trans (append_nil _).symm)
  rcases eq_nil_or_concat' c with rfl | ⟨w, b', rfl⟩
  · rfl
  · rw [← append_assoc] at hend
    have hb' : b' = b := by simpa using append_inj_right' hend rfl
    exact absurd hnil (inked_concat_ne_nil rfl (hb' ▸ hb))

theorem eq_of_inked (h : x ++ rest = y ++ rest') (hx : ∃ r b, x = r ++ [b] ∧ isInk b)
    (hy : ∃ r b, y = r ++ [b] ∧ isInk b) (hink : inked x = inked y) : y = x := by
  rcases append_eq_append_iff.1 h with ⟨c, rfl, -⟩ | ⟨c, rfl, -⟩
  · rw [eq_nil_of_inked hy hink, append_nil]
  · rw [eq_nil_of_inked hx hink.symm, append_nil]

theorem eq_of_line (hline : '\n' ∉ text) (h : trimRight text ++ '\n' :: rest = text ++ rest') :
    text = trimRight text := by
  rcases append_eq_append_iff.1 h with ⟨c, hc, hrest⟩ | ⟨c, hc, -⟩
  · -- A longer text would hold the line end.
    cases c with
    | nil => rwa [append_nil] at hc
    | cons x c =>
      rw [cons_append, cons.injEq] at hrest
      exact absurd (by rw [hc, ← hrest.1]; simp) hline
  · have hlen := (trimRight_isPrefix text).length_le
    have hlen' := congrArg length hc
    rw [length_append] at hlen'
    rw [show c = [] from length_eq_zero_iff.1 (by omega), append_nil] at hc
    exact hc.symm

/-! ## The text of a token read again -/

theorem Akin.isComment_eq (h : Akin a a') : isComment a = isComment a' := by
  rw [isComment, isComment, h.kind_eq]

theorem shown_of_not_isComment (h : isComment a = false) (d : Nat) : shown a d = a.text := by
  rw [shown, h]
  rfl

theorem isLineComment_of_text (hc : isComment a) {x : Char} (ht : a.text = '/' :: x :: r) :
    isLineComment a = (x == '/') := by
  rw [isLineComment, hc, ht, Bool.true_and]
  exact (Bool.and_true _).trans (Bool.beq_comm ..)

theorem Placed.Sound.line (h : a.Sound) (hl : isLineComment a) : '\n' ∉ a.text ∧ ∃ r, a.text = '/' :: '/' :: r := by
  have hcomment : isComment a := (Bool.and_eq_true_iff.1 hl).1
  cases h.look with
  | line r hc ht hr =>
    refine ⟨?_, r, ht⟩
    rw [ht]
    simpa using hr
  | block r hc ht =>
    rw [isLineComment_of_text hc ht] at hl
    exact absurd hl (by decide)
  | interpreter r hc hk ht hr => rw [hc] at hcomment; cases hcomment
  | firm hc hk ht => rw [hc] at hcomment; cases hcomment

theorem Placed.Sound.block (h : a.Sound) (hc : isComment a) (hl : isLineComment a = false) :
    ∃ r, a.text = '/' :: '*' :: (r ++ ['*', '/']) := by
  cases h.look with
  | line r hc ht hr =>
    rw [isLineComment_of_text hc ht] at hl
    exact absurd hl (by decide)
  | block r hc ht => exact ⟨r, ht⟩
  | interpreter r hc' hk ht hr => rw [hc] at hc'; cases hc'
  | firm hc' hk ht => rw [hc] at hc'; cases hc'

theorem Akin.isLineComment_eq (h : Akin a a') (ha : a.Sound) (ha' : a'.Sound) : isLineComment a = isLineComment a' := by
  have hseen {x : Char} (hx : isInk x) (r : List Char) : inked ('/' :: x :: r) = '/' :: x :: inked r := by
    rw [inked, filter_cons_of_pos (by decide), filter_cons_of_pos hx]
    rfl
  have hink := h.inked_eq
  cases hc : isComment a with
  | false => rw [isLineComment, isLineComment, ← h.isComment_eq, hc]; rfl
  | true =>
    have hc' : isComment a' := by rw [← h.isComment_eq, hc]
    cases hl : isLineComment a with
    | true =>
      obtain ⟨-, r, hr⟩ := ha.line hl
      cases hl' : isLineComment a' with
      | true => rfl
      | false =>
        obtain ⟨r', hr'⟩ := ha'.block hc' hl'
        rw [hr, hr', hseen (by decide), hseen (by decide)] at hink
        simp at hink
    | false =>
      obtain ⟨r, hr⟩ := ha.block hc hl
      cases hl' : isLineComment a' with
      | false => rfl
      | true =>
        obtain ⟨-, r', hr'⟩ := ha'.line hl'
        rw [hr, hr', hseen (by decide), hseen (by decide)] at hink
        simp at hink

/-- What is left of a token before its joint. -/
def Owns (a : Placed) (d : Nat) (own rest : List Char) : Prop :=
  (own = shown a d ∧ isLineComment a = false) ∨ (own = trimRight (shown a d) ∧ ∃ r, rest = '\n' :: r)

theorem Owns.eq_shown (h : Owns a d own rest) (ha : ∃ r b, shown a d = r ++ [b] ∧ isInk b) : own = shown a d := by
  obtain ⟨r, b, hr, hb⟩ := ha
  rcases h with ⟨h, -⟩ | ⟨h, -⟩
  · exact h
  · rw [h, hr, trimRight_concat (isSpace_of_isInk hb)]

theorem trimRight_eq_of_sameLines {c : Char} {b : List Char} (hc : isSpace c = false) (ha : '\n' ∉ c :: r)
    (hb : '\n' ∉ b) (hb' : ∃ r', b = c :: r') (h : SameLines (c :: r) b) : trimRight (c :: r) = trimRight b := by
  obtain ⟨r', rfl⟩ := hb'
  unfold SameLines at h
  rw [splitOn_of_not_mem ha, splitOn_of_not_mem hb, map_singleton, map_singleton, trim_cons hc, trim_cons hc] at h
  exact (cons.inj h).1

theorem Akin.text_eq_own (h : Akin a a') (ha : a.Sound) (ha' : a'.Sound) (hown : Owns a d own rest)
    (heq : own ++ rest = a'.text ++ rest') : a'.text = own := by
  have hc' := h.isComment_eq
  have hl' := h.isLineComment_eq ha ha'
  -- A line is bounded by the line end behind it, all else by the ink it ends with.
  cases ha.look with
  | line r hc ht hr =>
    have hl : isLineComment a := isLineComment_of_text hc ht
    obtain ⟨hno, -⟩ := ha.line hl
    obtain ⟨hno', r', hr'⟩ := ha'.line (hl' ▸ hl)
    rcases hown with ⟨-, hl''⟩ | ⟨hown, rest, rfl⟩
    · rw [hl] at hl''
      cases hl''
    · have htrim : own = trimRight a'.text := by
        rw [hown, shown, if_pos hc, commentText_of_not_mem hno, ht]
        exact trimRight_eq_of_sameLines (by decide) (ht ▸ hno) hno' ⟨_, hr'⟩ (ht ▸ h.sameLines hc)
      rw [htrim] at heq ⊢
      exact eq_of_line hno' heq
  | block r hc ht =>
    have hl : isLineComment a = false := isLineComment_of_text hc ht
    obtain ⟨r', hr'⟩ := ha'.block (hc' ▸ hc) (hl' ▸ hl)
    obtain ⟨w, hw⟩ := commentText_concat d ('/' :: '*' :: (r ++ ['*']))
    have hshown : ∃ r b, shown a d = r ++ [b] ∧ isInk b := ⟨w, '/', by rw [shown, if_pos hc, ht, ← hw]; simp, by decide⟩
    rw [hown.eq_shown hshown] at heq ⊢
    refine eq_of_inked heq hshown ⟨'/' :: '*' :: (r' ++ ['*']), '/', by rw [hr']; simp, by decide⟩ ?_
    rw [shown, if_pos hc, ← inked_of_sameLines (sameLines_commentText a.text d), h.inked_eq]
  | interpreter r hc hk ht hr =>
    have htext := h.text_eq hk
    have hshown := shown_of_not_isComment hc d
    rcases hown with ⟨hown, -⟩ | ⟨hown, rest, rfl⟩
    · rw [hown, hshown, htext]
    · have hno : '\n' ∉ a'.text := by
        rw [← htext, ht]
        simpa using hr
      rw [hown, hshown, htext] at heq ⊢
      exact eq_of_line hno heq
  | firm hc hk ht =>
    have hshown := shown_of_not_isComment hc d
    have hfirm' : Firm a'.text := by
      cases ha'.look with
      | line r' hc'' => rw [← hc', hc] at hc''; cases hc''
      | block r' hc'' => rw [← hc', hc] at hc''; cases hc''
      | interpreter r' hc'' hk' => exact absurd (h.kind_eq.trans hk') hk
      | firm hc'' hk' ht' => exact ht'
    rw [hown.eq_shown (hshown ▸ ht.2), hshown] at heq ⊢
    exact eq_of_inked heq ht.2 hfirm'.2 h.inked_eq

theorem Placed.Sound.text_cons (h : a.Sound) : ∃ c r, a.text = c :: r ∧ isInk c := by
  cases h.look with
  | line r hc ht hr => exact ⟨'/', _, ht, by decide⟩
  | block r hc ht => exact ⟨'/', _, ht, by decide⟩
  | interpreter r hc hk ht hr => exact ⟨'#', _, ht, by decide⟩
  | firm hc hk ht => exact ht.1

theorem Owns.cons (h : Owns a d own rest) (ha : a.Sound) : ∃ c r, own = c :: r ∧ isInk c := by
  obtain ⟨c, r, hr, hc⟩ := ha.shown_cons d
  rcases h with ⟨rfl, -⟩ | ⟨rfl, -⟩
  · exact ⟨c, r, hr, hc⟩
  · exact ⟨c, trimRight r, by rw [hr, trimRight_cons (isSpace_of_isInk hc)], hc⟩

/-! ## Rows of the printed text -/

def Joint.rows : Joint → Nat
  | append => 0
  | inline _ => 0
  | newline empty => if empty then 2 else 1

theorem Joint.count_gap (j : Joint) (d : Nat) : (j.gap d).count '\n' = j.rows := by
  have hpad : (indentation d).count '\n' = 0 := count_eq_zero.2 fun hm => by
    have := (mem_replicate.1 hm).2
    exact absurd this (by decide)
  cases j with
  | append => rfl
  | inline blank => cases blank <;> rfl
  | newline empty => cases empty <;> simp [gap, rows, hpad]

/-- The second tokens stand as the first ones are printed: each has the text that is printed for the other, and begins
where the other's joint puts it. -/
def Reprinted (d : Nat) (pending : Bool) (a a' : Placed) : List (Placed × Placed) → Prop
  | [] => a'.text = trimRight (shown a d)
  | (b, b') :: ps =>
    a'.text = (joint pending a b).settle (shown a d) ∧
      b'.tree.startRow = a'.tree.stopRow + (joint pending a b).rows ∧
      Reprinted ((joint pending a b).depth d b) (pendingAfter pending a b) b b' ps

def EndsRow (a b : Placed) : Prop := isLineComment a = true → a.tree.stopRow < b.tree.startRow

instance : DecidableRel EndsRow := fun a b =>
  inferInstanceAs (Decidable (isLineComment a = true → a.tree.stopRow < b.tree.startRow))

theorem pendingAfter_of_isLineComment (pending : Bool) (a : Placed) (h : isLineComment b) :
    pendingAfter pending a b := by
  obtain ⟨hc, hopen⟩ := Bool.and_eq_true_iff.1 h
  rw [pendingAfter, hc, hopen]
  simp

theorem owns_settle (d : Nat) (hpending : isLineComment a → pending) (hrow : EndsRow a b) (d' : Nat)
    (rest : List Char) :
    Owns a d ((joint pending a b).settle (shown a d)) ((joint pending a b).gap d' ++ rest) := by
  have hnewline : isLineComment a → ∃ empty, joint pending a b = .newline empty := by
    intro hl
    have htrails : trails a b = false := by
      rw [trails, beq_eq_false_iff_ne.2 (Nat.ne_of_lt (hrow hl)), Bool.and_false]
    rw [joint, htrails, hpending hl]
    exact ⟨_, rfl⟩
  cases hj : joint pending a b with
  | newline empty => exact .inr ⟨rfl, _, rfl⟩
  | append =>
    refine .inl ⟨rfl, eq_false_of_ne_true fun hl => ?_⟩
    obtain ⟨empty, he⟩ := hnewline hl
    rw [hj] at he
    cases he
  | inline blank =>
    refine .inl ⟨rfl, eq_false_of_ne_true fun hl => ?_⟩
    obtain ⟨empty, he⟩ := hnewline hl
    rw [hj] at he
    cases he

theorem Akin.reprinted (h : Akin a a') (ha : a.Sound) (ha' : a'.Sound) {c c' e : Cursor}
    (hgap : c.BlankTo c') (hpass : c'.Passes a'.text e) (hspan : a'.tree.span = ⟨c'.pos, e.pos⟩)
    (hc : c.rest = gap ++ (own ++ rest)) (hblank : ∀ x ∈ gap, isBlank x) (hown : Owns a d own rest) :
    a'.tree.startRow = c.pos.row + gap.count '\n' ∧ a'.text = own ∧ e.rest = rest := by
  obtain ⟨gap', hgap, hblank'⟩ := hgap
  rw [hgap.1, hpass.1] at hc
  have hink : ∃ x r, own ++ rest = x :: r ∧ isInk x := by
    obtain ⟨x, r, hr, hx⟩ := hown.cons ha
    exact ⟨x, r ++ rest, by rw [hr]; rfl, hx⟩
  have hink' : ∃ x r, a'.text ++ e.rest = x :: r ∧ isInk x := by
    obtain ⟨x, r, hr, hx⟩ := ha'.text_cons
    exact ⟨x, r ++ e.rest, by rw [hr]; rfl, hx⟩
  obtain ⟨hgaps, htext⟩ := append_blank_inj hc.symm hblank hblank' hink hink'
  have heq := h.text_eq_own ha ha' hown htext
  refine ⟨?_, heq, ?_⟩
  · rw [Tree.startRow, hspan, hgaps, ← passes_row hgap]
  · rw [heq] at htext
    exact (append_cancel_left htext).symm

/-- **Reading the printed tokens again**: each stands as it was printed. -/
theorem reprinted_of_laid : ∀ (ps : List (Placed × Placed)) {a a' : Placed} {c e : Cursor} {d : Nat} {pending : Bool}
    {gap : List Char}, Laid (a' :: ps.map Prod.snd) c e →
    c.rest = gap ++ spell (shown a d) (steps d pending a (ps.map Prod.fst)) → (∀ x ∈ gap, isBlank x) →
    (∀ p ∈ (a, a') :: ps, Akin p.1 p.2 ∧ p.1.Sound ∧ p.2.Sound) → (isLineComment a → pending) →
    (a :: ps.map Prod.fst).IsChain EndsRow → a'.tree.startRow = c.pos.row + gap.count '\n' ∧ Reprinted d pending a a' ps
  | [], a, a', c, e, d, pending, gap, ⟨c', e', hgap, hpass, hspan, hrest⟩, hc, hblank, hall, hpending, _ => by
    obtain ⟨hakin, ha, ha'⟩ := hall _ mem_cons_self
    obtain ⟨hrow, htext, -⟩ := hakin.reprinted ha ha' hgap hpass hspan hc hblank (.inr ⟨rfl, [], rfl⟩)
    exact ⟨hrow, htext⟩
  | (b, b') :: ps, a, a', c, e, d, pending, gap, ⟨c', e', hgap, hpass, hspan, hrest⟩, hc, hblank, hall, hpending,
      hline => by
    obtain ⟨hakin, ha, ha'⟩ := hall _ mem_cons_self
    obtain ⟨hbelow, hline⟩ := isChain_cons_cons.1 hline
    obtain ⟨hrow, htext, hrest'⟩ := hakin.reprinted ha ha' hgap hpass hspan hc hblank
      (owns_settle d hpending hbelow _ _)
    obtain ⟨hrow', hps⟩ := reprinted_of_laid ps hrest hrest' (fun _ hx => Joint.isBlank_of_mem_gap hx)
      (fun p hp => hall p (mem_cons_of_mem _ hp)) (pendingAfter_of_isLineComment pending a) hline
    refine ⟨hrow, htext, ?_, hps⟩
    rw [hrow', Joint.count_gap, Tree.stopRow, hspan]

/-! ## From any token on -/

theorem pendingAfter_of_not_isComment (pending : Bool) (a : Placed) (h : isComment b = false) :
    pendingAfter pending a b = false := by
  rw [pendingAfter, trails, h]
  rfl

theorem Reprinted.drop : ∀ (front : List (Placed × Placed)) {d : Nat} {pending : Bool} {a a' p p' : Placed}
    {ps : List (Placed × Placed)}, Reprinted d pending a a' (front ++ (p, p') :: ps) →
    ∃ d' pending', (isComment p = false → pending' = false) ∧ Reprinted d' pending' p p' ps
  | [], _, pending, a, _, _, _, _, h => ⟨_, _, pendingAfter_of_not_isComment pending a, h.2.2⟩
  | (_, _) :: front, _, _, _, _, _, _, _, h => Reprinted.drop front h.2.2

theorem Joint.settle_cases (j : Joint) (text : List Char) : j.settle text = text ∨ j.settle text = trimRight text := by
  cases j with
  | newline empty => exact .inr rfl
  | append => exact .inl rfl
  | inline blank => exact .inl rfl

theorem Reprinted.text_cases (h : Reprinted d pending a a' ps) :
    a'.text = shown a d ∨ a'.text = trimRight (shown a d) := by
  cases ps with
  | nil => exact .inr h
  | cons p ps =>
    rw [h.1]
    exact Joint.settle_cases _ _

theorem Reprinted.text_eq
    (h : Reprinted d pending a a' ps) (hakin : Akin a a') (ha : a.Sound) (hc : isComment a = false) :
    a.text = a'.text := by
  have hshown := shown_of_not_isComment hc d
  rcases h.text_cases with htext | htext
  · rw [htext, hshown]
  · rcases ha.settle_cases d with heq | ⟨-, -, hkind⟩
    · rw [htext, heq, hshown]
    · rcases hkind with hc' | hk
      · rw [hc] at hc'
        cases hc'
      · exact hakin.text_eq hk

section
variable {R S : Pos → Pos → Prop} {source source' : List Char} {t t' : Tree} (w : Reread R S source source' t t')
include w

theorem Reread.length_eq : (tokens source t).length = (tokens source' t').length := by
  have hitems := w.items
  obtain ⟨items, -, e, rfl, -⟩ := parse_covers w.read
  obtain ⟨items', -, e', rfl, -⟩ := parse_covers w.read'
  rw [tokens_eq, tokens_eq]
  exact alikeAll_length_placed source source' hitems _ _

theorem Reread.map_fst : (pairs source source' [] [] t t').map Prod.fst = tokens source t :=
  map_fst_zip (Nat.le_of_eq w.length_eq)

theorem Reread.map_snd : (pairs source source' [] [] t t').map Prod.snd = tokens source' t' :=
  map_snd_zip (Nat.le_of_eq w.length_eq.symm)

variable {p : Placed × Placed}

theorem Reread.sound (hp : p ∈ pairs source source' [] [] t t') : p.1.Sound ∧ p.2.Sound :=
  ⟨parse_sound w.read _ (of_mem_zip hp).1, parse_sound w.read' _ (of_mem_zip hp).2⟩

theorem Reread.stopRow_eq (hp : p ∈ pairs source source' [] [] t t') :
    p.1.tree.stopRow = p.1.tree.startRow + p.1.text.count '\n' ∧
      p.2.tree.stopRow = p.2.tree.startRow + p.2.text.count '\n' := by
  obtain ⟨d, hlaid, -⟩ := parse_laid w.read
  obtain ⟨d', hlaid', -⟩ := parse_laid w.read'
  exact ⟨((laid_rows hlaid).2 _ (of_mem_zip hp).1).2.1, ((laid_rows hlaid').2 _ (of_mem_zip hp).2).2.1⟩

end

/-- Two sources that read the same, the second printed from the first, in which line comments end their rows. -/
structure Restored (R S : Pos → Pos → Prop) (source : List Char) (t t' : Tree) : Prop
    extends Reread R S source (format source) t t' where
  lines : (tokens source t).IsChain EndsRow

section
variable {R S : Pos → Pos → Prop} {source : List Char} {t t' : Tree} (w : Restored R S source t t')
include w

variable {ps : List (Placed × Placed)}

theorem Restored.reprinted (h : pairs source (format source) [] [] t t' = (a, a') :: ps) :
    Reprinted a.depth (isComment a) a a' ps := by
  have hfst := w.map_fst
  have hsnd := w.map_snd
  rw [h, map_cons] at hfst hsnd
  obtain ⟨e, hlaid, -⟩ := parse_laid w.read'
  rw [← hsnd] at hlaid
  have hrest : (Cursor.ofSource (format source)).rest =
      indentation a.depth ++ spell (shown a a.depth) (steps a.depth (isComment a) a (ps.map Prod.fst)) := by
    show format source = _
    rw [format_eq w.read, ← hfst]
    rfl
  refine (reprinted_of_laid ps hlaid hrest (fun _ hx => isBlank_of_mem_indentation hx) (fun p hp => ?_)
    (fun hl => (Bool.and_eq_true_iff.1 hl).1) (hfst ▸ w.lines)).2
  rw [← h] at hp
  exact ⟨w.akin p hp, w.sound hp⟩

theorem Restored.reprinted_stretch {p p' : Placed} (h : (p, p') :: ps <:+: pairs source (format source) [] [] t t') :
    ∃ d pending back, (isComment p = false → pending = false) ∧ Reprinted d pending p p' (ps ++ back) := by
  obtain ⟨front, back, hpairs⟩ := h
  rw [append_assoc, cons_append] at hpairs
  cases front with
  | nil => exact ⟨_, _, back, id, w.reprinted hpairs.symm⟩
  | cons q front =>
    obtain ⟨d, pending, hpending, hps⟩ := Reprinted.drop front (w.reprinted hpairs.symm)
    exact ⟨d, pending, back, hpending, hps⟩

theorem Restored.twin (hp : p ∈ pairs source (format source) [] [] t t') : Twin R S t t' p.1 p.2 := by
  obtain ⟨halike, hmeets⟩ := w.mem_pairs p hp
  refine ⟨halike, hmeets, fun hc => ?_⟩
  obtain ⟨front, back, hpairs⟩ := append_of_mem hp
  have hstretch : [(p.1, p.2)] <:+: pairs source (format source) [] [] t t' := ⟨front, back, by rw [hpairs]; simp⟩
  obtain ⟨d, pending, back, -, hps⟩ := w.reprinted_stretch hstretch
  exact hps.text_eq (w.akin p hp) (w.sound hp).1 hc

theorem Restored.count_eq (hp : p ∈ pairs source (format source) [] [] t t') :
    p.1.text.count '\n' = p.2.text.count '\n' := by
  cases hc : isComment p.1 with
  | true => exact ((w.akin p hp).sameLines hc).count_eq
  | false => rw [(w.twin hp).text_eq hc]

end

end SourceBench.Layout
