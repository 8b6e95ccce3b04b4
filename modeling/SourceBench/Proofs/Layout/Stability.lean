import SourceBench.Proofs.Layout.Braces

/-!
# Printing what was printed

Printing decides by the rows of the source where lines are broken, and prints rows of its own.  When the printed text
reads as the source did, all decisions come out again as they were (`Restored.joint_eq`), so that the second text is the
first (`format_stable`).
-/
namespace SourceBench.Layout

open Syntax Text Cursor List Option

/-! ## Empty braces -/

theorem Meets.mem_children {R S : Pos → Pos → Prop} {t t' x x' y : Tree} {A A' : List Tree}
    (h : Meets R S t t' x (y :: A) x' A') : x ∈ y.children := by
  cases h with
  | child h hx hc hc' hpre halike =>
    rw [hc]
    exact mem_append_right _ mem_cons_self

theorem isToken_of_ne {c : Tree} {text text' : String} (h : c.isToken text) (hne : text ≠ text') :
    c.isToken text' = false := by
  obtain ⟨r, s, rfl⟩ := eq_leaf_of_isToken h
  simpa [Tree.isToken, String.toList_inj] using hne

section
variable {R S : Pos → Pos → Prop} {source : List Char} {t t' : Tree} (w : Restored R S source t t')
include w

theorem Restored.pairwise : (tokens source t).Pairwise fun p q => p.tree.start < q.tree.start := by
  obtain ⟨d, hlaid, -⟩ := parse_laid w.read
  refine laid_pairwise hlaid fun p hp => ?_
  obtain ⟨c, r, hr, -⟩ := (parse_sound w.read p hp).text_cons
  rw [hr]
  exact cons_ne_nil c r

variable {p q : Placed × Placed} {pending : Bool}

theorem Restored.opensFor_of_hollow (h : [p, q] <:+: pairs source (format source) [] [] t t') {x : Tree}
    (hhead : q.1.around.head? = some x) (hhollow : Hollow x) (hclose : q.1.isToken "\x7d") : opensFor p.1 q.1 := by
  have hmeets := (w.mem_pairs q (h.subset (mem_cons_of_mem p mem_cons_self))).2
  rcases hmeets.parent with ⟨hA, -⟩ | ⟨y, y', B, B', hA, -, hy⟩
  · rw [hA] at hhead
    cases hhead
  · rw [hA] at hhead hmeets
    obtain rfl : y = x := some.inj hhead
    obtain ⟨o, o', z, z', mid, mid', b⟩ := hy.braces w.toReread hhollow.1
    obtain ⟨-, c, d, hcd, -⟩ := id hhollow
    have hmid : mid = [] := by
      have := congrArg length (b.children.symm.trans hcd)
      simpa using this
    have hmid' : mid' = [] := forall₂_nil_left_iff.1 (hmid ▸ b.middle)
    have hstretch := hy.stretch w.toReread
    rw [b.pairs_eq w.toReread hy hhollow.1, hmid, hmid'] at hstretch
    have hz : q.1.tree = z := by
      have hmem := hmeets.mem_children
      rw [b.children, hmid, nil_append, mem_cons, mem_singleton] at hmem
      refine hmem.resolve_left fun heq => ?_
      rw [Placed.isToken, heq, isToken_of_ne b.opens (by decide)] at hclose
      cases hclose
    -- Both are the token before the closing brace, and tokens begin at different places.
    have hbefore : p.1 = leafIn y B o "\x7b" :=
      before_unique w.pairwise (w.infix_fst h) (w.infix_fst hstretch) (by rw [hz]; rfl)
    rw [opensFor, hbefore, Placed.parentKind, Placed.parentKind, Placed.parentSpan, Placed.parentSpan, hA]
    simp [leafIn, Placed.isToken, b.opens]

/-! ## Joints -/

omit w in
theorem pendingAfter_eq (pending : Bool) (a b : Placed) :
    pendingAfter pending a b = if trails a b then pending || isLineComment b else isComment b := by
  rw [pendingAfter]
  split
  · rename_i h
    rw [isLineComment, (Bool.and_eq_true_iff.1 h).1, Bool.true_and]
  · rfl

theorem Restored.trails_eq (hq : q ∈ pairs source (format source) [] [] t t')
    (hrow : q.2.tree.startRow = p.2.tree.stopRow + (joint pending p.1 q.1).rows) : trails p.2 q.2 = trails p.1 q.1 := by
  have hcomment := (w.twin hq).isComment_eq
  cases ht : trails p.1 q.1 with
  | true =>
    rw [joint, ht, if_pos rfl] at hrow
    rw [trails, ← hcomment, (Bool.and_eq_true_iff.1 ht).1, hrow]
    exact beq_self_eq_true _
  | false =>
    cases hc : isComment q.1 with
    | false => rw [trails, ← hcomment, hc, Bool.false_and]
    | true =>
      rw [joint, ht, hc, Bool.or_true, if_neg Bool.false_ne_true, if_pos rfl, Joint.rows] at hrow
      have hne : p.2.tree.stopRow ≠ q.2.tree.startRow := by
        split at hrow <;> omega
      rw [trails, beq_eq_false_iff_ne.2 hne, Bool.and_false]

omit w in
theorem empty_eq {x y : Bool} {a a' b b' : Placed} (hrow : b'.tree.startRow = a'.tree.stopRow +
      (Joint.newline (x && (y && decide (a.tree.stopRow + 2 ≤ b.tree.startRow)))).rows) :
    (x && (y && decide (a'.tree.stopRow + 2 ≤ b'.tree.startRow))) =
      (x && (y && decide (a.tree.stopRow + 2 ≤ b.tree.startRow))) := by
  cases hempty : x && (y && decide (a.tree.stopRow + 2 ≤ b.tree.startRow)) with
  | true =>
    rw [hempty] at hrow
    simp only [Bool.and_eq_true] at hempty
    rw [hempty.1, hempty.2.1, hrow]
    simp [Joint.rows]
  | false =>
    rw [hempty] at hrow
    rw [hrow]
    simp [Joint.rows]

theorem Restored.joint_eq (h : [p, q] <:+: pairs source (format source) [] [] t t')
    (hrow : q.2.tree.startRow = p.2.tree.stopRow + (joint pending p.1 q.1).rows) :
    joint pending p.2 q.2 = joint pending p.1 q.1 := by
  have hp := w.twin (h.subset mem_cons_self)
  have hq := w.twin (h.subset (mem_cons_of_mem p mem_cons_self))
  have htrails := w.trails_eq (h.subset (mem_cons_of_mem p mem_cons_self)) hrow
  have hcloses := hp.closesBlock_eq w.toReread w.agrees hq fun x => w.opensFor_of_hollow h
  have hstarts := hq.startsStatement_eq w.toReread w.agrees
  unfold joint at hrow ⊢
  rw [htrails, ← hcloses, ← hstarts, ← hq.isComment_eq, ← hp.isToken_eq]
  by_cases ht : trails p.1 q.1
  · rw [if_pos ht, if_pos ht]
  · rw [if_neg ht] at hrow
    rw [if_neg ht, if_neg ht]
    by_cases hbreak : (pending || q.1.startsStatement || closesBlock (some p.1) q.1 || isComment q.1)
    · rw [if_pos hbreak] at hrow
      rw [if_pos hbreak, if_pos hbreak, empty_eq hrow]
    · have hcomment : isComment q.1 = false := by
        simp only [Bool.or_eq_true, not_or, Bool.not_eq_true] at hbreak
        exact hbreak.2
      rw [if_neg hbreak, if_neg hbreak, hp.spaceBetween_eq w.toReread hq hcomment]

theorem Restored.pendingAfter_eq {p q : Placed × Placed} (hq : q ∈ pairs source (format source) [] [] t t')
    {pending : Bool} (hrow : q.2.tree.startRow = p.2.tree.stopRow + (joint pending p.1 q.1).rows) :
    pendingAfter pending p.2 q.2 = pendingAfter pending p.1 q.1 := by
  rw [Layout.pendingAfter_eq, Layout.pendingAfter_eq, w.trails_eq hq hrow,
    ← (w.akin q hq).isLineComment_eq (w.sound hq).1 (w.sound hq).2, ← (w.twin hq).isComment_eq]

/-! ## Texts -/

omit w in
theorem Reprinted.shown_eq {d : Nat} {a a' : Placed} {ps : List (Placed × Placed)} (h : Reprinted d pending a a' ps)
    (ha : a.Sound) (hc : isComment a = isComment a') : shown a' d = a'.text := by
  cases hcomment : isComment a with
  | false => exact shown_of_not_isComment (hc ▸ hcomment) d
  | true =>
    rw [shown, if_pos (hc ▸ hcomment)]
    have hagain : commentText (shown a d) d = shown a d := by
      rw [shown, if_pos hcomment, commentText_commentText]
    rcases h.text_cases with htext | htext
    · rw [htext, hagain]
    · rcases ha.settle_cases d with heq | ⟨heq, hno, -⟩
      · rw [htext, heq, hagain]
      · rw [htext, ← heq]
        exact commentText_of_not_mem (fun hm => hno ((trimRight_isPrefix _).subset hm)) d

omit w in
theorem Joint.settle_settle (j : Joint) (text : List Char) : j.settle (j.settle text) = j.settle text := by
  cases j with
  | newline empty => exact trimRight_trimRight text
  | append => rfl
  | inline blank => rfl

theorem Restored.spell_eq : ∀ (ps : List (Placed × Placed)) {d : Nat} {pending : Bool} {a a' : Placed},
    Reprinted d pending a a' ps → (a, a') :: ps <:+: pairs source (format source) [] [] t t' →
    spell (shown a' d) (steps d pending a' (ps.map Prod.snd)) = spell (shown a d) (steps d pending a (ps.map Prod.fst))
  | [], d, pending, a, a', h, hin => by
    have ha := hin.subset mem_cons_self
    rw [h.shown_eq (w.sound ha).1 (w.twin ha).isComment_eq, show a'.text = _ from h]
    show trimRight _ ++ _ = trimRight _ ++ _
    rw [trimRight_trimRight]
  | (b, b') :: ps, d, pending, a, a', h, hin => by
    have ha := hin.subset mem_cons_self
    have hb := hin.subset (mem_cons_of_mem _ mem_cons_self)
    obtain ⟨htext, hrow, hps⟩ := id h
    have hjoint : joint pending a' b' = joint pending a b :=
      w.joint_eq (p := (a, a')) (List.IsInfix.trans ⟨[], ps, rfl⟩ hin) hrow
    have hpending : pendingAfter pending a' b' = pendingAfter pending a b := w.pendingAfter_eq (p := (a, a')) hb hrow
    have hdepth : (joint pending a b).depth d b' = (joint pending a b).depth d b := by
      cases joint pending a b with
      | newline empty => exact ((w.twin hb).depth_eq w.toReread w.agrees).symm
      | append => rfl
      | inline blank => rfl
    have ih := Restored.spell_eq ps hps ((suffix_cons _ _).isInfix.trans hin)
    simp only [map_cons, steps, spell, Step.text]
    rw [hjoint, hpending, hdepth, ih, h.shown_eq (w.sound ha).1 (w.twin ha).isComment_eq, htext, Joint.settle_settle]

end

/-! ## The printed text -/

theorem reread_of_same {source source' : List Char} {t t' : Tree} (h : parse .typescript source = some t)
    (h' : parse .typescript source' = some t') (hsame : Same t t') :
    Reread (BesideOf Span.start t.children t'.children) (BesideOf Span.stop t.children t'.children)
      source source' t t' := by
  obtain ⟨items, d, e, ht, hitems, -⟩ := parse_covers h
  obtain ⟨items', d', e', ht', hitems', -⟩ := parse_covers h'
  have hall : sameAll items items' := by
    rw [ht, ht'] at hsame
    exact hsame.2.2
  have hcs : t.children = items := by rw [ht]; rfl
  have hcs' : t'.children = items' := by rw [ht']; rfl
  rw [hcs, hcs']
  refine ⟨beside_biunique (rising_starts hitems) (rising_starts hitems'),
    beside_biunique (rising_stops hitems) (rising_stops hitems'), h, h', ?_⟩
  rw [hcs, hcs']
  exact alikeAll_of_sameAll hall hitems hitems'

/-- **Printing is stable**: when the printed text of a source reads as the source does, up to the white space at the
line ends of comments, and line comments end their rows in the source, printing it again changes nothing. -/
theorem format_stable {source : List Char} {t t' : Tree} (h : parse .typescript source = some t)
    (h' : parse .typescript (format source) = some t') (hsame : Same t t')
    (hlines : (tokens source t).IsChain EndsRow) :
    format (format source) = format source := by
  have w : Restored _ _ source t t' := ⟨reread_of_same h h' hsame, hlines⟩
  rw [format_eq h', ← w.map_snd]
  refine Eq.trans ?_ (format_eq h).symm
  rw [← w.map_fst]
  cases hpairs : pairs source (format source) [] [] t t' with
  | nil => rfl
  | cons p ps =>
    have hp : p ∈ pairs source (format source) [] [] t t' := by
      rw [hpairs]
      exact mem_cons_self
    have hspell := w.spell_eq ps (w.reprinted hpairs) (hpairs ▸ infix_rfl)
    have hdepth := (w.twin hp).depth_eq w.toReread w.agrees
    have hcomment := (w.twin hp).isComment_eq
    rw [map_cons, map_cons, spellAll, spellAll, ← hdepth, ← hcomment, hspell]

theorem format_stable_mixed : ∃ source t t',
    source = "f(\x7ba:1 , b\x7d) // c  \n\n\nlet x=\x7b\n\x7d ;if(y)\x7b/* d\n     e */g(\x7b\nh\x7d)\x7d\n".toList ∧
      parse .typescript source = some t ∧ parse .typescript (format source) = some t' ∧ Same t t' ∧
      (tokens source t).IsChain EndsRow ∧ format (format source) = format source := by
  have hread : ∀ source,
      source = "f(\x7ba:1 , b\x7d) // c  \n\n\nlet x=\x7b\n\x7d ;if(y)\x7b/* d\n     e */g(\x7b\nh\x7d)\x7d\n".toList →
      ((parse .typescript source).any fun t => (parse .typescript (format source)).any fun t' =>
        decide (Same t t' ∧ (tokens source t).IsChain EndsRow)) = true := by
    intro source hsource
    rw [hsource.trans String.toList_ofList]
    decide +kernel
  obtain ⟨t, ht, hread⟩ := (any_eq_true _ _).1 (hread _ rfl)
  obtain ⟨t', ht', hread⟩ := (any_eq_true _ _).1 hread
  obtain ⟨hsame, hlines⟩ := of_decide_eq_true hread
  exact ⟨_, t, t', rfl, ht, ht', hsame, hlines, format_stable ht ht' hsame hlines⟩

/-- Without the blank before its dot, a number takes the dot and the digits behind it, and what was a call of a method
is the call of a number: printing it again does not give the same text. -/
theorem format_twice_joins_number_and_dot :
    (parse .typescript "1 .e5(x);".toList).isSome = true ∧ format "1 .e5(x);".toList = "1.e5(x);\n".toList ∧
      format (format "1 .e5(x);".toList) = "1.e5 (x);\n".toList := by
  decide +kernel

end SourceBench.Layout
