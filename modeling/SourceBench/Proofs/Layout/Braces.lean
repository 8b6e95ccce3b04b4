import SourceBench.Proofs.Layout.Reprint

/-!
# Braces printed again

Braces that may stay on one line are a block by the rows of the source.  Printed again they are what they were: braces
on one row hold no statement and stay on one row (`Restored.one_row`), and a block in braces is closed on a row of its
own (`Restored.more_rows`), unless the braces are empty and the block makes no difference.
-/
namespace SourceBench.Layout

open Syntax Text Cursor List

variable {row : Nat} {cs : List Tree}

/-! ## Braces -/

variable {R S : Pos → Pos → Prop} {source source' : List Char} {c t t' x x' o o' z z' : Tree}
  {A A' mid mid' : List Tree} {text : String} {d : Cursor}

theorem eq_leaf_of_isToken (h : c.isToken text) : ∃ r s, c = .leaf r .token s text.toList := by
  cases c with
  | leaf r k s u =>
    cases k with
    | token => exact ⟨r, s, by rw [show u = text.toList from beq_iff_eq.1 h]⟩
    | _ => cases h
  | node r k s cs => cases h

theorem alikeAll_append_left : ∀ {xs ys zs : List Tree}, alikeAll R S (xs ++ ys) zs →
    ∃ xs' ys', zs = xs' ++ ys' ∧ alikeAll R S xs xs' ∧ alikeAll R S ys ys'
  | [], _, zs, h => ⟨[], zs, rfl, .nil, h⟩
  | _ :: _, _, z :: zs, .cons h hs => by
    obtain ⟨xs', ys', rfl, hxs, hys⟩ := alikeAll_append_left hs
    exact ⟨z :: xs', ys', rfl, .cons h hxs, hys⟩

/-- The parts of two trees in braces at the same place. -/
structure Braces (R S : Pos → Pos → Prop) (x x' o o' z z' : Tree) (mid mid' : List Tree) : Prop where
  children : x.children = o :: (mid ++ [z])
  children' : x'.children = o' :: (mid' ++ [z'])
  opens : o.isToken "\x7b" = true
  closes : z.isToken "\x7d" = true
  inside : ∀ m ∈ mid, m.isToken "\x7b" = false
  first : Alike R S o o'
  middle : alikeAll R S mid mid'
  last : Alike R S z z'

def leafIn (x : Tree) (A : List Tree) (c : Tree) (text : String) : Placed := ⟨c, x :: A, text.toList⟩

theorem placed_leafIn (h : c.isToken text) (source : List Char) (x : Tree) (A : List Tree) :
    placed source (x :: A) c = [leafIn x A c text] := by
  obtain ⟨r, s, rfl⟩ := eq_leaf_of_isToken h
  rfl

theorem placedOf_leafIn (h : c.isToken text) (source : List Char) (x : Tree) (A : List Tree) :
    placedOf source (x :: A) [c] = [leafIn x A c text] := by
  rw [placedOf, placed_leafIn h]
  rfl

theorem isComment_leafIn (h : c.isToken text) (x : Tree) (A : List Tree) : isComment (leafIn x A c text) = false := by
  obtain ⟨r, s, rfl⟩ := eq_leaf_of_isToken h
  rfl

theorem isAtomic_of_isFlexKind {k : Kind} (h : isFlexKind k) : isAtomic k = false := by
  unfold isFlexKind at h
  split at h
  · rfl
  · rfl
  · rfl
  · rfl
  · rfl
  · cases h

def inner (source source' : List Char) (A A' : List Tree) (x x' : Tree)
    (mid mid' : List Tree) : List (Placed × Placed) :=
  (placedOf source (x :: A) mid).zip (placedOf source' (x' :: A') mid')

section
variable (w : Reread R S source source' t t')
include w

theorem Meets.mem_nodesOf (h : Meets R S t t' x A x' A') (hflex : isFlexKind x.kind) :
    x ∈ Tree.nodesOf t.children ∧ x' ∈ Tree.nodesOf t'.children := by
  rcases h.mem with ⟨rfl, -⟩ | hmem
  · rw [w.kind_eq.1] at hflex
    cases hflex
  · exact hmem

theorem Meets.braces (h : Meets R S t t' x A x' A') (hflex : isFlexKind x.kind) :
    ∃ o o' z z' mid mid', Braces R S x x' o o' z z' mid mid' := by
  obtain ⟨-, hmade, -⟩ := parse_nodes w.read x (h.mem_nodesOf w hflex).1
  have hbraced : Braced x.children := by
    have hx := hmade x (self_mem_nodes x)
    cases x with
    | leaf r k s text => exact absurd (hflex.symm.trans hx) (by decide)
    | node r k s cs => exact hx.2.1 hflex
  obtain ⟨o, mid, z, hcs, ho, hz, hmid⟩ := hbraced
  have hall := h.children w
  rw [hcs] at hall
  generalize hcs' : x'.children = cs' at hall
  obtain _ | ⟨hfirst, hrest⟩ := hall
  obtain ⟨mid', zs, rfl, hmid', hzs⟩ := alikeAll_append_left hrest
  obtain _ | ⟨hlast, ⟨⟩⟩ := hzs
  exact ⟨o, _, z, _, mid, mid', hcs, hcs', ho, hz, hmid, hfirst, hmid', hlast⟩

theorem Braces.pairs_eq (b : Braces R S x x' o o' z z' mid mid') (h : Meets R S t t' x A x' A')
    (hflex : isFlexKind x.kind) : pairs source source' A A' x x' = (leafIn x A o "\x7b", leafIn x' A' o' "\x7b") ::
        (inner source source' A A' x x' mid mid' ++ [(leafIn x A z "\x7d", leafIn x' A' z' "\x7d")]) := by
  have ho' : o'.isToken "\x7b" := by rw [← b.first.isToken_eq, b.opens]
  have hz' : z'.isToken "\x7d" := by rw [← b.last.isToken_eq, b.closes]
  rw [h.pairs_eq w (isAtomic_of_isFlexKind hflex) (by simp [b.children]) (by simp [b.children']), b.children,
    b.children', placedOf, placedOf, placed_leafIn b.opens, placed_leafIn ho', singleton_append, singleton_append,
    zip_cons_cons, placedOf_append, placedOf_append, zip_append (alikeAll_length_placed source source' b.middle _ _),
    placedOf_leafIn b.closes, placedOf_leafIn hz']
  rfl

omit w in
theorem covers_ends {c d : Cursor} (hx : x.Covers c d) (hcs : x.children = o :: (mid ++ [z])) :
    o.startRow = x.startRow ∧ z.stopRow = x.stopRow := by
  cases x with
  | leaf r k s text => cases hcs
  | node r k s cs =>
    obtain rfl : cs = o :: (mid ++ [z]) := hcs
    have hall := hx.children (u := o) mem_cons_self
    have hlast := coversAll_getLast hall (u := z) (getLast?_concat (l := o :: mid))
    obtain ⟨-, e, ho, -⟩ := id hx
    refine ⟨by rw [(covers_rows ho).1, (covers_rows hx).1], ?_⟩
    rw [(covers_rows hx).2, Tree.stopRow, hlast]

theorem Braces.rows (b : Braces R S x x' o o' z z' mid mid') (h : Meets R S t t' x A x' A')
    (hflex : isFlexKind x.kind) :
    (o.startRow = x.startRow ∧ z.stopRow = x.stopRow) ∧ o'.startRow = x'.startRow ∧ z'.stopRow = x'.stopRow := by
  obtain ⟨⟨c, d, hx, -⟩, -⟩ := parse_nodes w.read x (h.mem_nodesOf w hflex).1
  obtain ⟨⟨c', d', hx', -⟩, -⟩ := parse_nodes w.read' x' (h.mem_nodesOf w hflex).2
  exact ⟨covers_ends hx b.children, covers_ends hx' b.children'⟩

end

/-! ## Braces on one row stay on one row -/

/-- On a row, nothing begins or ends with the token. -/
structure Still (row : Nat) (q : Placed) : Prop where
  starts : q.startsStatement = false
  closes : ∀ a, closesBlock (some a) q = false
  startRow : q.tree.startRow = row
  stopRow : q.tree.stopRow = row

theorem covers_rest {c : Cursor} (hx : x.Covers c d) (hcs : x.children = o :: cs) :
    ∃ e, o.Covers c e ∧ coversAll cs e d := by
  cases x with
  | leaf r k s text => cases hcs
  | node r k s cs' =>
    obtain rfl : cs' = o :: cs := hcs
    exact hx.2

theorem still_of_isBlock_eq_false {c : Cursor} (hx : x.Covers c d) (hc : Within source c)
    (hmade : AllMade x) (hflex : isFlexKind x.kind) (hblock : isBlock x = false)
    (hcs : x.children = o :: cs) : ∀ q ∈ placedOf source (x :: A) cs, Still x.startRow q := by
  intro q hq
  obtain ⟨hquiet, hbelow⟩ := quiet_of_isBlock_eq_false hx hmade hflex hblock
  obtain ⟨-, hrow, -⟩ := isBlock_eq_false hflex hblock
  obtain ⟨around, haround, -, hin⟩ := placedOf_around hq
  have hquiet' : ∀ y ∈ around, Quiet y := fun y hy => by
    refine hbelow y ?_ (hin y hy).2
    rw [hcs, Tree.nodesOf]
    exact mem_append_right _ (hin y hy).1
  obtain ⟨e, ho, hrest⟩ := covers_rest hx hcs
  obtain ⟨text, -, hpass⟩ := ho.passes
  have hlaid := placedOf_laid source (x :: A) hrest (hc.passes hpass)
  have hstart := laid_start_le hlaid q hq
  have hrows := (laid_rows hlaid).2 q hq
  have hlt := ho.byte_lt
  have hle := passes_row_le hpass
  rw [(covers_rows hx).1, (covers_rows hx).2] at hrow
  refine ⟨?_, fun a => ?_, ?_, ?_⟩
  · rw [Placed.startsStatement, haround, startsAt_quiet hquiet (by rw [hx.start_eq]; omega) A around _ hquiet',
      Bool.and_false]
  · have hhead : (q.around.head?.any isBlock) = false := by
      rw [haround]
      cases around with
      | nil => exact hquiet.isBlock_eq
      | cons y around => exact (hquiet' y mem_cons_self).isBlock_eq
    rw [closesBlock_some, hhead, Bool.and_false, Bool.false_and]
  · rw [(covers_rows hx).1]
    omega
  · rw [(covers_rows hx).1]
    omega

theorem Still.joint_eq {a b : Placed} (hb : Still row b) (ha : a.tree.stopRow = row)
    (hl : isLineComment b = false) : (joint false a b).rows = 0 ∧ pendingAfter false a b = false := by
  have hrow : (a.tree.stopRow == b.tree.startRow) := by rw [ha, hb.startRow, beq_self_eq_true]
  have htrails : trails a b = isComment b := by rw [trails, hrow, Bool.and_true]
  rw [joint, pendingAfter, htrails, hb.starts, hb.closes a]
  cases hc : isComment b with
  | true =>
    rw [isLineComment, hc, Bool.true_and] at hl
    rw [hl]
    exact ⟨rfl, rfl⟩
  | false => simp [Joint.rows]

theorem Reprinted.stopRow_eq : ∀ (ps back : List (Placed × Placed)) {d : Nat} {a a' : Placed},
    Reprinted d false a a' (ps ++ back) → a.tree.stopRow = row →
    (∀ p ∈ ps, Still row p.1 ∧ isLineComment p.1 = false ∧ p.2.tree.stopRow = p.2.tree.startRow) →
    ∀ p ∈ ps, p.2.tree.stopRow = a'.tree.stopRow
  | [], _, _, _, _, _, _, _, _, hp => by cases hp
  | (b, b') :: ps, back, d, a, a', ⟨_, hrow, hps⟩, ha, hall, p, hp => by
    obtain ⟨hstill, hl, hone⟩ := hall _ mem_cons_self
    obtain ⟨hrows, hpending⟩ := hstill.joint_eq ha hl
    rw [hrows] at hrow
    rw [hpending] at hps
    have hb' : b'.tree.stopRow = a'.tree.stopRow := hone.trans hrow
    rcases mem_cons.1 hp with rfl | hp
    · exact hb'
    · rw [← hb']
      exact Reprinted.stopRow_eq ps back hps hstill.stopRow (fun q hq => hall q (mem_cons_of_mem _ hq)) p hp

theorem exists_next {α : Type} {l : List α} {p : α} (h : p ∈ l) (z : α) : ∃ r ∈ l ++ [z], [p, r] <:+: l ++ [z] := by
  obtain ⟨front, back, rfl⟩ := append_of_mem h
  cases back with
  | nil => exact ⟨z, by simp, front, [], by simp⟩
  | cons r back => exact ⟨r, by simp, front, back ++ [z], by simp⟩

section
variable (w : Restored R S source t t')
include w

variable {l : List (Placed × Placed)}

theorem Restored.infix_fst (h : l <:+: pairs source (format source) [] [] t t') :
    l.map Prod.fst <:+: tokens source t := by
  rw [← w.map_fst]
  exact h.map Prod.fst

theorem Restored.isLineComment_eq {p z : Placed × Placed}
    (h : l ++ [z] <:+: pairs source (format source) [] [] t t') (hstill : ∀ q ∈ l ++ [z], Still row q.1)
    (hz : isComment z.1 = false) (hp : p ∈ l ++ [z]) : isLineComment p.1 = false := by
  rcases mem_append.1 hp with hp' | hp'
  · obtain ⟨r, hr, hnext⟩ := exists_next hp' z
    refine eq_false_of_ne_true fun hl => ?_
    have hchain := List.IsChain.infix w.lines (w.infix_fst (hnext.trans h))
    have hlt := (isChain_cons_cons.1 hchain).1 hl
    rw [(hstill p hp).stopRow, (hstill r hr).startRow] at hlt
    exact absurd hlt (Nat.lt_irrefl _)
  · rw [mem_singleton.1 hp', isLineComment, hz, Bool.false_and]

theorem Restored.one_row (h : Meets R S t t' x A x' A') (hflex : isFlexKind x.kind) (hblock : isBlock x = false) :
    x'.startRow = x'.stopRow := by
  obtain ⟨o, o', z, z', mid, mid', b⟩ := h.braces w.toReread hflex
  obtain ⟨⟨c, e, hx, hc⟩, hmade, -⟩ := parse_nodes w.read x (h.mem_nodesOf w.toReread hflex).1
  obtain ⟨⟨hfirst, hlast⟩, hfirst', hlast'⟩ := b.rows w.toReread h hflex
  have hstretch := h.stretch w.toReread
  rw [b.pairs_eq w.toReread h hflex] at hstretch
  generalize hps : inner source (format source) A A' x x' mid mid' = ps at hstretch
  have hmem := fun p hp => hstretch.subset (a := p) hp
  have hstill : ∀ p ∈ ps ++ [(leafIn x A z "\x7d", leafIn x' A' z' "\x7d")], Still x.startRow p.1 := by
    intro p hp
    refine still_of_isBlock_eq_false (A := A) hx hc hmade hflex hblock b.children p.1 ?_
    rw [placedOf_append, placedOf_leafIn b.closes]
    rcases mem_append.1 hp with hp | hp
    · rw [← hps] at hp
      exact mem_append_left _ (of_mem_zip hp).1
    · rw [mem_singleton.1 hp]
      exact mem_append_right _ (mem_singleton.2 rfl)
  -- Printing keeps the line ends of a token, so that a token on one row is printed on one.
  have hone : ∀ p ∈ ps ++ [(leafIn x A z "\x7d", leafIn x' A' z' "\x7d")], p.2.tree.stopRow = p.2.tree.startRow := by
    intro p hp
    have hrow := w.stopRow_eq (hmem p (mem_cons_of_mem _ hp))
    have hcount := w.count_eq (hmem p (mem_cons_of_mem _ hp))
    have := (hstill p hp).startRow
    have := (hstill p hp).stopRow
    omega
  have hopen : (leafIn x A o "\x7b").tree.stopRow = o.startRow ∧ (leafIn x' A' o' "\x7b").tree.stopRow = o'.startRow :=
    w.stopRow_eq (hmem _ mem_cons_self)
  obtain ⟨d, pending, back, hpending, hprinted⟩ := w.reprinted_stretch hstretch
  rw [hpending (isComment_leafIn b.opens x A)] at hprinted
  have hline : ∀ p ∈ ps ++ [(leafIn x A z "\x7d", leafIn x' A' z' "\x7d")], isLineComment p.1 = false := fun p hp =>
    w.isLineComment_eq ((suffix_cons _ _).isInfix.trans hstretch) hstill (isComment_leafIn b.closes x A) hp
  have hclose : z'.stopRow = _ := hprinted.stopRow_eq _ back (hopen.1.trans hfirst)
    (fun p hp => ⟨hstill p hp, hline p hp, hone p hp⟩) _ (mem_append_right ps mem_cons_self)
  rw [← hfirst', ← hlast', hclose, hopen.2]

end

/-! ## Braces on more rows stay on more rows -/

theorem opensFor_inside {c : Cursor} (hx : x.Covers c d)
    (hcs : x.children = o :: (mid ++ [z])) (hmid : ∀ m ∈ mid, m.isToken "\x7b" = false) {q : Placed}
    (hq : q ∈ placedOf source (x :: A) mid) (text : String) : opensFor q (leafIn x A z text) = false := by
  obtain ⟨around, haround, htree, hin⟩ := placedOf_around hq
  cases around with
  | nil =>
    rw [opensFor, show q.isToken "\x7b" = false from hmid _ (htree rfl)]
    rfl
  | cons y around =>
    -- The innermost tree around the token begins behind the opening brace, so it is not the tree in braces.
    obtain ⟨e, ho, hrest⟩ := covers_rest hx hcs
    obtain ⟨m, hm, hym⟩ := mem_nodesOf.1 (hin y mem_cons_self).1
    have hstart := (nodesOf_lie hrest y (mem_nodesOf.2 ⟨m, mem_append_left _ hm, hym⟩)).start_le
    have hlt := ho.byte_lt
    have hspan : y.span ≠ x.span := fun heq => by
      have : y.start = x.start := by rw [Tree.start, heq, Tree.start]
      rw [hx.start_eq] at this
      omega
    have hparent : q.parentSpan ≠ (leafIn x A z text).parentSpan := by
      rw [Placed.parentSpan, Placed.parentSpan, haround]
      simpa [leafIn] using hspan
    rw [opensFor, beq_eq_false_iff_ne.2 hparent, Bool.and_false]

theorem Braces.inner_ne_nil {c : Cursor} (b : Braces R S x x' o o' z z' mid mid')
    (hx : x.Covers c d) (hmid : mid ≠ []) (source source' : List Char)
    (A A' : List Tree) : inner source source' A A' x x' mid mid' ≠ [] := by
  have hlength := alikeAll_length_placed source source' b.middle (x :: A) (x' :: A')
  obtain ⟨m, ms, rfl⟩ := exists_cons_of_ne_nil hmid
  obtain ⟨e, -, hrest⟩ := covers_rest hx b.children
  obtain ⟨c', d', hm, -⟩ := coversAll_mem hrest m (mem_append_left _ mem_cons_self)
  have hne : placedOf source (x :: A) (m :: ms) ≠ [] := by
    rw [placedOf]
    exact append_ne_nil_of_left_ne_nil (placed_ne_nil source _ hm) _
  intro hnil
  rcases zip_eq_nil_iff.1 hnil with hnil | hnil
  · exact hne hnil
  · rw [hnil] at hlength
    exact hne (length_eq_zero_iff.1 hlength)

theorem rows_of_closesBlock (pending : Bool) {a b : Placed} (hc : isComment b = false)
    (hcloses : closesBlock (some a) b) : 1 ≤ (joint pending a b).rows := by
  have hcond : (pending || b.startsStatement || closesBlock (some a) b || isComment b) := by
    rw [hcloses, Bool.or_true, Bool.true_or]
  rw [joint, trails, hc, Bool.false_and, if_neg Bool.false_ne_true, ← hc, if_pos hcond]
  cases (b.startsStatement || isComment b) && (!a.isToken "\x7b" && decide (a.tree.stopRow + 2 ≤ b.tree.startRow)) with
  | true => exact Nat.le_succ 1
  | false => exact Nat.le_refl 1

theorem Hollow.of_alikeAll (h : Hollow x) (hkind : x.kind = x'.kind)
    (hall : alikeAll R S x.children x'.children) : Hollow x' := by
  obtain ⟨hflex, a, b, hab, ha, hb⟩ := h
  rw [hab] at hall
  generalize hcs : x'.children = cs at hall
  obtain _ | ⟨hfirst, _ | ⟨hsecond, ⟨⟩⟩⟩ := hall
  exact ⟨hkind ▸ hflex, _, _, hcs, hfirst.isToken_eq _ ▸ ha, hsecond.isToken_eq _ ▸ hb⟩

section
variable (w : Restored R S source t t')
include w

/-- **A block in braces is printed on more than one row**, unless the braces are empty. -/
theorem Restored.more_rows (h : Meets R S t t' x A x' A') (hflex : isFlexKind x.kind) (hblock : isBlock x)
    (hhollow : ¬ Hollow x) : x'.startRow ≠ x'.stopRow := by
  obtain ⟨o, o', z, z', mid, mid', b⟩ := h.braces w.toReread hflex
  obtain ⟨⟨c, e, hx, hc⟩, -, -⟩ := parse_nodes w.read x (h.mem_nodesOf w.toReread hflex).1
  obtain ⟨⟨c', e', hx', hc'⟩, -, -⟩ := parse_nodes w.read' x' (h.mem_nodesOf w.toReread hflex).2
  obtain ⟨-, -, hlast'⟩ := b.rows w.toReread h hflex
  have hmid : mid ≠ [] := fun hnil => hhollow ⟨hflex, o, z, by rw [b.children, hnil]; rfl, b.opens, b.closes⟩
  have hne := b.inner_ne_nil hx hmid source (format source) A A'
  obtain hnil | ⟨ps, ⟨y, y'⟩, hps⟩ := eq_nil_or_concat' (inner source (format source) A A' x x' mid mid')
  · exact absurd hnil hne
  · have hpairs := b.pairs_eq w.toReread h hflex
    have hy : (y, y') ∈ inner source (format source) A A' x x' mid mid' := by rw [hps]; simp
    have hy' : (y, y') ∈ pairs source (format source) A A' x x' := by rw [hpairs]; simp [hy]
    have hz : (leafIn x A z "\x7d", leafIn x' A' z' "\x7d") ∈ pairs source (format source) A A' x x' := by
      rw [hpairs]
      simp
    have hstretch : [(y, y'), (leafIn x A z "\x7d", leafIn x' A' z' "\x7d")] <:+:
        pairs source (format source) A A' x x' := by
      rw [hpairs, hps]
      exact ⟨(leafIn x A o "\x7b", leafIn x' A' o' "\x7b") :: ps, [], by simp⟩
    obtain ⟨d, pending, back, -, hprinted⟩ := w.reprinted_stretch (hstretch.trans (h.stretch w.toReread))
    -- The token before the closing brace stands in the braces and does not open them: the brace gets a row of its own.
    have hcloses : closesBlock (some y) (leafIn x A z "\x7d") := by
      rw [closesBlock_some, opensFor_inside hx b.children b.inside (of_mem_zip hy).1]
      simp [leafIn, Placed.isToken, b.closes, hblock]
    have hrows := rows_of_closesBlock pending (isComment_leafIn b.closes x A) hcloses
    have hrow : z'.startRow = y'.tree.stopRow + _ := hprinted.2.1
    have hinside := (laid_rows (placed_laid _ A' hx' hc')).2 y' (of_mem_zip hy').2
    have hzrow : z'.stopRow = z'.startRow + _ := (w.stopRow_eq ((h.stretch w.toReread).subset hz)).2
    rw [← hlast', (covers_rows hx').1]
    omega

theorem Restored.agrees (h : Meets R S t t' x A x' A') : Agrees x x' := by
  have hkind := h.kind_eq w.toReread
  have hhas := alikeAll_any_hasBlock (h.children w.toReread)
  cases hflex : isFlexKind x.kind with
  | false =>
    refine .inl ?_
    rw [isBlock, isBlock, ← hkind, hflex, Bool.false_and, Bool.false_and]
  | true =>
    by_cases hhollow : Hollow x
    · exact .inr ⟨hhollow, hhollow.of_alikeAll hkind (h.children w.toReread)⟩
    · refine .inl ?_
      cases hblock : isBlock x with
      | false =>
        obtain ⟨hno, -, hhas'⟩ := isBlock_eq_false hflex hblock
        have hnone : x'.children.any hasBlock = false := by
          rw [← hhas]
          exact any_eq_false.2 fun u hu => by simp [hhas' u hu]
        exact (isBlock_of_row_eq (hkind ▸ hno) (w.one_row h hflex hblock)
          fun u hu => by simpa using any_eq_false.1 hnone u hu).symm
      | true =>
        rw [isBlock, ← hkind, hflex, bne_iff_ne.2 (w.more_rows h hflex hblock hhollow)]
        simp

end

end SourceBench.Layout
