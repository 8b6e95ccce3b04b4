import SourceBench.Proofs.Layout.Decisions

/-!
# Tokens side by side

The tokens of two sources whose trees read the same pair up one by one (`Reread.mem_pairs`), and the tokens of a node
are a stretch of all tokens (`Meets.stretch`).  Here too is what rows say about a tree: tokens and trees lie on the rows
of what holds them, so braces on one row that are no block hold no block and no case at all (`Quiet`).
-/
namespace SourceBench.Layout

open Syntax Text Cursor List Tree

variable {t z : Tree} {source b : List Char} {start : Nat}

/-! ## Rows -/

theorem afterAll_row : ∀ (text : List Char) (p : Pos), (p.afterAll text).row = p.row + text.count '\n'
  | [], _ => rfl
  | a :: text, p => by
    show ((p.after a).afterAll text).row = _
    rw [afterAll_row text, count_cons]
    unfold Pos.after
    by_cases h : a = '\n'
    · simp only [h, if_true, beq_self_eq_true]
      omega
    · simp only [h, if_false, beq_iff_eq]
      omega

variable {c d : Cursor} {text : List Char} {y x : Tree}

theorem passes_row (h : c.Passes text d) : d.pos.row = c.pos.row + text.count '\n' := by
  rw [h.2, afterAll_row]

theorem passes_row_le (h : c.Passes text d) : c.pos.row ≤ d.pos.row := by
  rw [passes_row h]
  exact Nat.le_add_right _ _

theorem passes_byte_le (h : c.Passes text d) : c.pos.byte ≤ d.pos.byte := by
  rw [h.byte_eq]
  exact Nat.le_add_right _ _

theorem covers_rows (h : t.Covers c d) : t.startRow = c.pos.row ∧ t.stopRow = d.pos.row := by
  rw [startRow, stopRow, h.span_eq]
  exact ⟨rfl, rfl⟩

def Lies (y : Tree) (c d : Cursor) : Prop := ∃ u c' d' v, c.Passes u c' ∧ y.Covers c' d' ∧ d'.Passes v d

theorem Lies.of_passes {b e : Cursor} {u v : List Char} (h : Lies y c d) (hu : b.Passes u c) (hv : d.Passes v e) :
    Lies y b e := by
  obtain ⟨u', c', d', v', hu', hy, hv'⟩ := h
  exact ⟨u ++ u', c', d', v' ++ v, hu.trans hu', hy, hv'.trans hv⟩

theorem Lies.rows (h : Lies y c d) : c.pos.row ≤ y.startRow ∧ y.startRow ≤ y.stopRow ∧ y.stopRow ≤ d.pos.row := by
  obtain ⟨u, c', d', v, hu, hy, hv⟩ := h
  obtain ⟨text, -, htext⟩ := hy.passes
  rw [(covers_rows hy).1, (covers_rows hy).2]
  exact ⟨passes_row_le hu, passes_row_le htext, passes_row_le hv⟩

theorem Lies.start_le (h : Lies y c d) : c.pos.byte ≤ y.start := by
  obtain ⟨u, c', d', v, hu, hy, -⟩ := h
  rw [hy.start_eq]
  exact passes_byte_le hu

mutual
theorem nodes_lie : ∀ {t : Tree} {c d : Cursor}, t.Covers c d → ∀ y ∈ t.nodes, Lies y c d
  | .leaf _ _ _ _, c, d, h, y, hy => by
    rw [nodes, mem_singleton] at hy
    exact ⟨[], c, d, [], passes_nil c, hy ▸ h, passes_nil d⟩
  | .node _ _ _ [], _, _, h, _, _ => h.elim
  | .node r k s (t :: ts), c, d, h, y, hy => by
    rcases mem_nodes_node.1 hy with rfl | ⟨u, hu, hyu⟩
    · exact ⟨[], c, d, [], passes_nil c, h, passes_nil d⟩
    · exact nodesOf_lie (h.children (u := t) mem_cons_self) y (mem_nodesOf.2 ⟨u, hu, hyu⟩)
theorem nodesOf_lie : ∀ {ts : List Tree} {c d : Cursor}, coversAll ts c d → ∀ y ∈ nodesOf ts, Lies y c d
  | [], _, _, _, _, hy => by cases hy
  | t :: ts, c, d, ⟨c', e, ⟨gap, hgap, _⟩, ht, hts⟩, y, hy => by
    obtain ⟨text, -, hpass⟩ := ht.passes
    obtain ⟨text', hpass'⟩ := coversAll_passes hts
    rw [nodesOf] at hy
    rcases mem_append.1 hy with hy | hy
    · exact (nodes_lie ht y hy).of_passes hgap hpass'
    · exact (nodesOf_lie hts y hy).of_passes (hgap.trans hpass) (passes_nil d)
end

/-- Tokens lie on the rows that they were read from, and after a token as many rows begin as its text has line ends. -/
theorem laid_rows : ∀ {ps : List Placed} {c d : Cursor}, Laid ps c d → c.pos.row ≤ d.pos.row ∧ ∀ p ∈ ps,
    c.pos.row ≤ p.tree.startRow ∧ p.tree.stopRow = p.tree.startRow + p.text.count '\n' ∧ p.tree.stopRow ≤ d.pos.row
  | [], _, _, h => ⟨by rw [show _ = _ from h], fun _ hp => by cases hp⟩
  | p :: ps, c, d, ⟨c', e, hgap, hpass, hspan, hps⟩ => by
    obtain ⟨hle, hin⟩ := laid_rows hps
    have hrow := passes_row hpass
    obtain ⟨gap, hgap, -⟩ := hgap
    have hle' := passes_row_le hgap
    refine ⟨by omega, fun q hq => ?_⟩
    rcases mem_cons.1 hq with rfl | hq
    · rw [startRow, stopRow, hspan]
      exact ⟨hle', hrow, hle⟩
    · have := hin q hq
      omega

theorem laid_start_le : ∀ {ps : List Placed} {c d : Cursor}, Laid ps c d → ∀ p ∈ ps, c.pos.byte ≤ p.tree.start
  | [], _, _, _, _, hp => by cases hp
  | p :: ps, c, d, ⟨c', e, hgap, hpass, hspan, hps⟩, q, hq => by
    have hle := hgap.byte_le
    have hle' := passes_byte_le hpass
    rcases mem_cons.1 hq with rfl | hq
    · rw [start, hspan]
      exact hle
    · have := laid_start_le hps q hq
      omega

theorem laid_pairwise : ∀ {ps : List Placed} {c d : Cursor}, Laid ps c d → (∀ p ∈ ps, p.text ≠ []) →
    ps.Pairwise (fun p q => p.tree.start < q.tree.start)
  | [], _, _, _, _ => .nil
  | p :: ps, c, d, ⟨c', e, hgap, hpass, hspan, hps⟩, hne => by
    refine pairwise_cons.2 ⟨fun q hq => ?_, laid_pairwise hps fun q hq => hne q (mem_cons_of_mem p hq)⟩
    have hle := laid_start_le hps q hq
    have hbyte := hpass.byte_eq
    have hpos := Utf8.byteSize_pos (hne p mem_cons_self)
    rw [start, hspan]
    exact Nat.lt_of_lt_of_le (show c'.pos.byte < e.pos.byte by omega) hle

theorem before_unique {l : List Placed} (h : l.Pairwise (fun p q => p.tree.start < q.tree.start)) {a b o b' : Placed}
    (hab : [a, b] <:+: l) (hob : [o, b'] <:+: l) (hstart : b.tree.start = b'.tree.start) : a = o := by
  obtain ⟨front, back, hl⟩ := hab
  obtain ⟨front', back', hl'⟩ := hob
  have hb : l[front.length + 1]? = some b := by rw [← hl]; simp
  have ha : l[front.length]? = some a := by rw [← hl]; simp
  have hb' : l[front'.length + 1]? = some b' := by rw [← hl']; simp
  have ho : l[front'.length]? = some o := by rw [← hl']; simp
  obtain ⟨hi, hbi⟩ := List.getElem?_eq_some_iff.1 hb
  obtain ⟨hj, hbj⟩ := List.getElem?_eq_some_iff.1 hb'
  have hindex : front.length + 1 = front'.length + 1 := by
    rcases Nat.lt_trichotomy (front.length + 1) (front'.length + 1) with hlt | heq | hlt
    · have := List.pairwise_iff_getElem.1 h _ _ hi hj hlt
      rw [hbi, hbj] at this
      omega
    · exact heq
    · have := List.pairwise_iff_getElem.1 h _ _ hj hi hlt
      rw [hbi, hbj] at this
      omega
  rw [show front.length = front'.length by omega, ho] at ha
  exact (Option.some.inj ha).symm

/-! ## Tokens and the trees around them -/

/-- The token is a leaf with its text, or a node printed as it stands. -/
def Written (source : List Char) (q : Placed) : Prop :=
  (∃ r k s, q.tree = .leaf r k s q.text) ∨
    ∃ r k s cs, q.tree = .node r k s cs ∧ isAtomic k = true ∧ q.text = slice source s

theorem placed_written (source : List Char) : ∀ (x : Tree) (A : List Tree), ∀ q ∈ placed source A x, Written source q
  | .leaf r k s text, _, q, hq => by
    rw [placed, mem_singleton] at hq
    exact .inl ⟨r, k, s, by rw [hq]⟩
  | .node r k s cs, A, q, hq => by
    rw [placed] at hq
    split at hq
    · rename_i hatomic
      rw [mem_singleton.1 hq]
      exact .inr ⟨r, k, s, cs, rfl, hatomic, rfl⟩
    · obtain ⟨c, hc, hq⟩ := mem_placedOf.1 hq
      exact placed_written source c _ q hq

theorem placed_around (source : List Char) : ∀ (x : Tree) (A : List Tree), ∀ q ∈ placed source A x,
    ∃ inner, q.around = inner ++ A ∧ (inner = [] → q.tree = x) ∧ ∀ y ∈ inner, y ∈ x.nodes ∧ y.children ≠ []
  | .leaf r k s text, A, q, hq => by
    rw [placed, mem_singleton] at hq
    rw [hq]
    exact ⟨[], rfl, fun _ => rfl, nofun⟩
  | .node r k s cs, A, q, hq => by
    rw [placed] at hq
    split at hq
    · rw [mem_singleton.1 hq]
      exact ⟨[], rfl, fun _ => rfl, nofun⟩
    · obtain ⟨c, hc, hq⟩ := mem_placedOf.1 hq
      obtain ⟨inner, haround, -, hinner⟩ := placed_around source c _ q hq
      refine ⟨inner ++ [.node r k s cs], by rw [haround, append_assoc]; rfl, fun h => by simp at h, ?_⟩
      simp only [forall_mem_append, forall_mem_singleton]
      exact ⟨fun y hy => ⟨mem_nodes_node.2 (.inr ⟨c, hc, (hinner y hy).1⟩), (hinner y hy).2⟩, self_mem_nodes _,
        ne_nil_of_mem hc⟩

theorem placedOf_around {cs A : List Tree} {q : Placed} (hq : q ∈ placedOf source A cs) :
    ∃ inner, q.around = inner ++ A ∧ (inner = [] → q.tree ∈ cs) ∧ ∀ y ∈ inner, y ∈ nodesOf cs ∧ y.children ≠ [] := by
  obtain ⟨c, hc, hq⟩ := mem_placedOf.1 hq
  obtain ⟨inner, haround, htree, hinner⟩ := placed_around source c A q hq
  exact ⟨inner, haround, fun h => htree h ▸ hc, fun y hy => ⟨mem_nodesOf.2 ⟨c, hc, (hinner y hy).1⟩, (hinner y hy).2⟩⟩

theorem placed_eq (hx : isAtomic x.kind = false) (hne : x.children ≠ []) (source : List Char) (A : List Tree) :
    placed source A x = placedOf source (x :: A) x.children := by
  cases x with
  | leaf r k s text => exact absurd rfl hne
  | node r k s cs => rw [placed, if_neg (by rw [show isAtomic k = false from hx]; exact Bool.false_ne_true)]; rfl

theorem placedOf_append (source : List Char) (A : List Tree) : ∀ cs ds : List Tree,
    placedOf source A (cs ++ ds) = placedOf source A cs ++ placedOf source A ds
  | [], _ => rfl
  | c :: cs, ds => by rw [cons_append, placedOf, placedOf, placedOf_append source A cs, append_assoc]

theorem mem_nodes_iff : z ∈ x.nodes ↔ z = x ∨ z ∈ nodesOf x.children := by
  cases x with
  | leaf r k s text => simp [nodes, nodesOf, children]
  | node r k s cs => exact mem_cons

theorem WellMade.fits (h : WellMade z) (hy : y ∈ z.children) : Fits (.of z.kind) y := by
  cases z with
  | leaf r k s text => cases hy
  | node r k s cs => exact h.1 y hy

theorem exists_parent : ∀ {x y : Tree}, y ∈ nodesOf x.children → ∃ z ∈ x.nodes, y ∈ z.children
  | .leaf _ _ _ _, _, hy => by cases hy
  | .node r k s cs, y, hy => by
    obtain ⟨c, hc, hyc⟩ := mem_nodesOf.1 (show y ∈ nodesOf cs from hy)
    by_cases heq : y = c
    · exact ⟨_, self_mem_nodes _, heq ▸ hc⟩
    · obtain ⟨z, hz, hyz⟩ := exists_parent ((mem_nodes_iff.1 hyc).resolve_left heq)
      exact ⟨z, mem_nodes_node.2 (.inr ⟨c, hc, hz⟩), hyz⟩

/-- **What holds of every tree of a source**: it was read from it, it is well made and fits where it stands. -/
theorem parse_nodes (h : parse .typescript source = some t) :
    ∀ y ∈ nodesOf t.children, (∃ c d, y.Covers c d ∧ Within source c) ∧ AllMade y ∧ ∃ p, Fits p y := by
  intro y hy
  obtain ⟨-, hmade⟩ := parse_wellMade h
  obtain ⟨items, d, e, rfl, hitems, -⟩ := parse_covers h
  obtain ⟨u, c', d', -, hu, hcovers, -⟩ := nodesOf_lie hitems y hy
  obtain ⟨c, hc, hyc⟩ := mem_nodesOf.1 hy
  refine ⟨⟨c', d', hcovers, u, hu⟩, fun z hz => (hmade c hc).2 z (nodes_trans hyc hz), ?_⟩
  obtain ⟨z, hz, hyz⟩ := exists_parent hy
  rcases mem_nodes_node.1 hz with rfl | ⟨c, hc, hzc⟩
  · exact ⟨.strict, (hmade y hyz).1⟩
  · exact ⟨_, ((hmade c hc).2 z hzc).fits hyz⟩

/-! ## Trees without statements -/

/-- No statement begins in the tree as such. -/
structure Quiet (y : Tree) : Prop where
  kind_ne : y.kind ≠ .program
  isBlock_eq : isBlock y = false
  isCase_eq : isCase y.kind = false

theorem startsAt_of_ne (h : x.start ≠ start) (A : List Tree) : Placed.startsAt start x A = false := by
  cases A with
  | nil => rfl
  | cons y A => rw [Placed.startsAt, beq_eq_false_iff_ne.2 h, Bool.false_and]

theorem Quiet.startsAt_cons (h : Quiet y) (start : Nat) (child : Tree) (A : List Tree) :
    Placed.startsAt start child (y :: A) = (child.start == start && Placed.startsAt start y A) := by
  rw [Placed.startsAt, beq_eq_false_iff_ne.2 h.kind_ne, h.isBlock_eq, isCaseBody_of_not_isCase h.isCase_eq]
  simp

theorem startsAt_quiet {x : Tree} (hx : Quiet x) (hstart : x.start ≠ start) (A : List Tree) :
    ∀ (inner : List Tree) (child : Tree), (∀ y ∈ inner, Quiet y) → Placed.startsAt start child (inner ++ x :: A) = false
  | [], child, _ => by rw [nil_append, hx.startsAt_cons, startsAt_of_ne hstart, Bool.and_false]
  | y :: inner, child, h => by
    rw [cons_append, (h y mem_cons_self).startsAt_cons,
      startsAt_quiet hx hstart A inner y fun z hz => h z (mem_cons_of_mem y hz), Bool.and_false]

theorem isBlock_eq_false (hflex : isFlexKind x.kind) (h : isBlock x = false) :
    isBlockKind x.kind = false ∧ x.startRow = x.stopRow ∧ ∀ c ∈ x.children, hasBlock c = false := by
  simpa [isBlock, hflex] using h

theorem isBlock_of_row_eq (hkind : isBlockKind y.kind = false) (hrow : y.startRow = y.stopRow)
    (hhas : ∀ u ∈ y.children, hasBlock u = false) : isBlock y = false := by
  have hany : y.children.any hasBlock = false := any_eq_false.2 fun u hu => by simp [hhas u hu]
  rw [isBlock, hkind, hrow, hany]
  simp

/-- **Braces on one row hold no statements**: when they are no block, no tree in them is one. -/
theorem quiet_of_isBlock_eq_false (hx : x.Covers c d) (hmade : AllMade x) (hflex : isFlexKind x.kind)
    (hblock : isBlock x = false) : Quiet x ∧ ∀ y ∈ nodesOf x.children, y.children ≠ [] → Quiet y := by
  obtain ⟨hkind, hrow, hhas⟩ := isBlock_eq_false hflex hblock
  rw [(covers_rows hx).1, (covers_rows hx).2] at hrow
  have hbelow : ∀ z ∈ x.nodes, isBlockKind z.kind = false := by
    intro z hz
    rcases mem_nodes_iff.1 hz with rfl | hz
    · exact hkind
    · obtain ⟨u, hu, hzu⟩ := mem_nodesOf.1 hz
      simpa using any_eq_false.1 (hhas u hu) z hzu
  refine ⟨⟨fun hk => ?_, hblock, not_isCase_of_isFlexKind hflex⟩, fun y hy hne => ?_⟩
  · rw [hk] at hflex
    cases hflex
  · have hyx : y ∈ x.nodes := mem_nodes_iff.2 (.inr hy)
    have hhas' : ∀ u ∈ y.children, hasBlock u = false := fun u hu =>
      any_eq_false.2 fun v hv => by
        simp [hbelow v (nodes_trans hyx (nodes_trans (mem_nodes_of_child hu) hv))]
    obtain ⟨z, hz, hyz⟩ := exists_parent hy
    have hfits := (hmade z hz).fits hyz
    have hrows := (nodes_lie hx y hyx).rows
    refine ⟨?_, isBlock_of_row_eq (hbelow y hyx) (by omega) hhas', ?_⟩
    · cases y with
      | leaf r k s text => exact absurd rfl hne
      | node r k s cs => exact hfits.2.1
    · -- A case stands in the body of a `switch`, which is a block.
      cases y with
      | leaf r k s text => exact absurd rfl hne
      | node r k s cs =>
        cases hcase : isCase k with
        | false => exact hcase
        | true =>
          have hswitch : z.kind = .switchBody := by simpa [Place.of] using hfits.2.2 hcase
          have hzkind := hbelow z hz
          rw [hswitch] at hzkind
          cases hzkind

/-! ## Tokens side by side -/

def pairs (source source' : List Char) (A A' : List Tree) (x x' : Tree) : List (Placed × Placed) :=
  (placed source A x).zip (placed source' A' x')

variable {R S : Pos → Pos → Prop} {source source' : List Char} {t t' x' : Tree} {A A' : List Tree}
  (w : Reread R S source source' t t')

mutual
theorem Alike.length_placed (source source' : List Char) : ∀ {x x' : Tree}, Alike R S x x' →
    ∀ A A' : List Tree, (placed source A x).length = (placed source' A' x').length
  | .leaf _ _ _ _, .leaf _ _ _ _, _, _, _ => rfl
  | .node _ k _ _, .node _ _ _ _, h, _, _ => by
    obtain ⟨-, rfl, -, hcs⟩ := h
    rw [placed, placed]
    split
    · rfl
    · exact alikeAll_length_placed source source' (mirrorAll_iff.1 hcs) _ _
  | .leaf _ _ _ _, .node _ _ _ _, h, _, _ => h.elim
  | .node _ _ _ _, .leaf _ _ _ _, h, _, _ => h.elim
theorem alikeAll_length_placed (source source' : List Char) : ∀ {cs cs' : List Tree},
    alikeAll R S cs cs' → ∀ A A' : List Tree, (placedOf source A cs).length = (placedOf source' A' cs').length
  | [], [], _, _, _ => rfl
  | c :: cs, c' :: cs', .cons h hs, A, A' => by
    rw [placedOf, placedOf, length_append, length_append, h.length_placed source source' A A',
      alikeAll_length_placed source source' hs A A']
end

mutual
theorem placed_meets (source source' : List Char) :
    ∀ {x x' : Tree} {A A' : List Tree}, Meets R S t t' x A x' A' → Alike R S x x' →
      ∀ p ∈ pairs source source' A A' x x',
        Alike R S p.1.tree p.2.tree ∧ Meets R S t t' p.1.tree p.1.around p.2.tree p.2.around
  | .leaf _ _ _ _, .leaf _ _ _ _, _, _, hm, h, p, hp => by
    rw [pairs, placed, placed, zip_cons_cons, zip_nil_left, mem_singleton] at hp
    rw [hp]
    exact ⟨h, hm⟩
  | .node r k s cs, .node r' k' s' cs', A, A', hm, h, p, hp => by
    obtain rfl : k = k' := h.2.1
    rw [pairs, placed, placed] at hp
    split at hp
    · rw [zip_cons_cons, zip_nil_left, mem_singleton] at hp
      rw [hp]
      exact ⟨h, hm⟩
    · rename_i hatomic
      exact placedOf_meets source source' cs cs' [] [] hm (eq_false_of_ne_true hatomic) rfl rfl .nil h.children p hp
  | .leaf _ _ _ _, .node _ _ _ _, _, _, _, h, _, _ => h.elim
  | .node _ _ _ _, .leaf _ _ _ _, _, _, _, h, _, _ => h.elim
theorem placedOf_meets (source source' : List Char) :
    ∀ (cs cs' pre pre' : List Tree) {x x' : Tree} {A A' : List Tree}, Meets R S t t' x A x' A' →
      isAtomic x.kind = false → x.children = pre ++ cs → x'.children = pre' ++ cs' → alikeAll R S pre pre' →
      alikeAll R S cs cs' → ∀ p ∈ (placedOf source (x :: A) cs).zip (placedOf source' (x' :: A') cs'),
        Alike R S p.1.tree p.2.tree ∧ Meets R S t t' p.1.tree p.1.around p.2.tree p.2.around
  | [], [], _, _, _, _, _, _, _, _, _, _, _, _, _, hp => by cases hp
  | c :: cs, c' :: cs', pre, pre', x, x', A, A', hm, hx, hc, hc', hpre, .cons h hs, p, hp => by
    rw [placedOf, placedOf, zip_append (h.length_placed source source' _ _)] at hp
    rcases mem_append.1 hp with hp | hp
    · exact placed_meets source source' (.child hm hx hc hc' hpre h) h p hp
    · exact placedOf_meets source source' cs cs' (pre ++ [c]) (pre' ++ [c']) hm hx (by rw [hc]; simp)
        (by rw [hc']; simp) (rel_append hpre (.cons h .nil)) hs p hp
end

section
include w

theorem Meets.pairs_eq (h : Meets R S t t' x A x' A') (hx : isAtomic x.kind = false) (hne : x.children ≠ [])
    (hne' : x'.children ≠ []) : pairs source source' A A' x x' =
      (placedOf source (x :: A) x.children).zip (placedOf source' (x' :: A') x'.children) := by
  rw [pairs, placed_eq hx hne, placed_eq (by rw [← h.kind_eq w]; exact hx) hne']

theorem Meets.stretch (h : Meets R S t t' x A x' A') :
    pairs source source' A A' x x' <:+: pairs source source' [] [] t t' := by
  induction h with
  | root => exact infix_rfl
  | @child x x' c c' A A' pre pre' post post' h hx hc hc' hpre halike ih =>
    refine List.IsInfix.trans ?_ ih
    rw [h.pairs_eq w hx (by simp [hc]) (by simp [hc']), hc, hc', placedOf_append, placedOf_append,
      zip_append (alikeAll_length_placed source source' hpre _ _), placedOf, placedOf,
      zip_append (halike.length_placed source source' _ _), ← append_assoc]
    exact infix_append _ _ _

theorem Reread.mem_pairs : ∀ p ∈ pairs source source' [] [] t t',
    Alike R S p.1.tree p.2.tree ∧ Meets R S t t' p.1.tree p.1.around p.2.tree p.2.around := by
  intro p hp
  have hitems := w.items
  obtain ⟨items, -, e, rfl, -⟩ := parse_covers w.read
  obtain ⟨items', -, e', rfl, -⟩ := parse_covers w.read'
  rw [show pairs source source' [] [] _ _ = (tokens _ _).zip (tokens _ _) from rfl, tokens_eq, tokens_eq] at hp
  exact placedOf_meets source source' items items' [] [] .root rfl rfl rfl .nil hitems p hp

omit w in
theorem Meets.mem (h : Meets R S t t' x A x' A') :
    (x = t ∧ x' = t') ∨ (x ∈ nodesOf t.children ∧ x' ∈ nodesOf t'.children) := by
  have hbelow {t x c : Tree} (hc : c ∈ x.children) (hx : x = t ∨ x ∈ nodesOf t.children) :
      c ∈ nodesOf t.children := by
    rcases hx with rfl | hx
    · exact mem_nodesOf.2 ⟨c, hc, self_mem_nodes c⟩
    · obtain ⟨u, hu, hxu⟩ := mem_nodesOf.1 hx
      exact mem_nodesOf.2 ⟨u, hu, nodes_trans hxu (mem_nodes_of_child hc)⟩
  induction h with
  | root => exact .inl ⟨rfl, rfl⟩
  | child h hx hc hc' hpre halike ih =>
    exact .inr ⟨hbelow (by simp [hc]) (ih.imp And.left And.left), hbelow (by simp [hc']) (ih.imp And.right And.right)⟩

end

/-! ## Texts side by side -/

def inked (text : List Char) : List Char := text.filter isInk

theorem inked_append (a b : List Char) : inked (a ++ b) = inked a ++ inked b := filter_append ..

theorem inked_of_isBlank {gap : List Char} (h : ∀ x ∈ gap, isBlank x) : inked gap = [] :=
  filter_eq_nil_iff.2 fun x hx => by simp [isInk, h x hx]

theorem inked_of_sameLines {a : List Char} (h : SameLines a b) : inked a = inked b := by
  have hseen (text : List Char) : inked text = (seen text).filter (! isBlank ·) := (filter_filter ..).symm
  rw [hseen, hseen, h.seen_eq]

theorem inked_of_sameText {k : Kind} {a : List Char} (h : SameText k a b) : inked a = inked b := by
  unfold SameText at h
  split at h
  · exact inked_of_sameLines h
  · rw [h]

mutual
theorem Alike.inked_eq : ∀ {x x' : Tree} {c d c' d' : Cursor} {text text' : List Char},
    Alike R S x x' → x.Covers c d → x'.Covers c' d' → c.Passes text d → c'.Passes text' d' → inked text = inked text'
  | .leaf _ _ _ _, .leaf _ _ _ _, _, _, _, _, _, _, h, hx, hx', hpass, hpass' => by
    rw [passes_unique hpass hx.2.1, passes_unique hpass' hx'.2.1]
    exact inked_of_sameText h.2.2.text
  | .node _ _ _ [], _, _, _, _, _, _, _, _, hx, _, _, _ => hx.elim
  | _, .node _ _ _ [], _, _, _, _, _, _, _, _, hx', _, _ => hx'.elim
  | .node _ _ _ (t :: _), .node _ _ _ (u :: _), _, _, _, _, _, _, h, hx, hx', hpass, hpass' =>
    alikeAll_inked_eq h.children (hx.children (u := t) mem_cons_self) (hx'.children (u := u) mem_cons_self) hpass
      hpass'
  | .leaf _ _ _ _, .node _ _ _ _, _, _, _, _, _, _, h, _, _, _, _ => h.elim
  | .node _ _ _ _, .leaf _ _ _ _, _, _, _, _, _, _, h, _, _, _, _ => h.elim
theorem alikeAll_inked_eq : ∀ {xs xs' : List Tree} {c d c' d' : Cursor} {text text' : List Char},
    alikeAll R S xs xs' → coversAll xs c d → coversAll xs' c' d' → c.Passes text d → c'.Passes text' d' →
    inked text = inked text'
  | [], [], c, d, c', d', _, _, _, hd, hd', hpass, hpass' => by
    obtain rfl : c = d := hd
    obtain rfl : c' = d' := hd'
    rw [passes_unique hpass (passes_nil c), passes_unique hpass' (passes_nil c')]
  | _ :: _, _ :: _, _, _, _, _, _, _, .cons h hs, ⟨_, _, ⟨gap, hgap, hblank⟩, hx, hxs⟩,
      ⟨_, _, ⟨gap', hgap', hblank'⟩, hx', hxs'⟩, hpass, hpass' => by
    obtain ⟨a, -, ha⟩ := hx.passes
    obtain ⟨a', -, ha'⟩ := hx'.passes
    obtain ⟨b, hb⟩ := coversAll_passes hxs
    obtain ⟨b', hb'⟩ := coversAll_passes hxs'
    rw [passes_unique hpass (hgap.trans (ha.trans hb)), passes_unique hpass' (hgap'.trans (ha'.trans hb')),
      inked_append, inked_append, inked_append, inked_append, inked_of_isBlank hblank, inked_of_isBlank hblank',
      h.inked_eq hx hx' ha ha', alikeAll_inked_eq hs hxs hxs' hb hb']
end

/-- Tokens of two sources whose texts differ at most in what cannot be seen, and as their kinds allow it. -/
structure Akin (a a' : Placed) : Prop where
  kind_eq : a.tree.kind = a'.tree.kind
  inked_eq : inked a.text = inked a'.text
  sameLines : isComment a = true → SameLines a.text a'.text
  text_eq : a.tree.kind = .hashBangLine → a.text = a'.text

section

theorem akin_of_leaves {a a' : Placed} {r r' : Role} {k k' : Kind} {s s' : Span} (ha : a.tree = .leaf r k s a.text)
    (ha' : a'.tree = .leaf r' k' s' a'.text) (h : Alike R S a.tree a'.tree) : Akin a a' := by
  have hk : a.tree.kind = k := by rw [ha]; rfl
  have htext : SameText k a.text a'.text := by
    rw [ha, ha'] at h
    exact h.2.2.text
  refine ⟨h.kind_eq, ?_, fun hc => ?_, fun hb => ?_⟩
  · exact inked_of_sameText htext
  · rwa [SameText, if_pos (hk ▸ beq_iff_eq.1 hc)] at htext
  · rwa [SameText, if_neg (fun hc => by rw [hk, hc] at hb; cases hb)] at htext

include w

theorem Meets.akin_of_nodes {a a' : Placed} {r r' : Role} {k k' : Kind} {s s' : Span} {cs cs' : List Tree}
    (hm : Meets R S t t' a.tree a.around a'.tree a'.around) (ha : a.tree = .node r k s cs)
    (ha' : a'.tree = .node r' k' s' cs')
    (hatomic : isAtomic k) (htext : a.text = slice source s) (htext' : a'.text = slice source' s')
    (h : Alike R S a.tree a'.tree) : Akin a a' := by
  have hk : a.tree.kind = k := by rw [ha]; rfl
  rcases hm.mem with ⟨heq, -⟩ | ⟨hmem, hmem'⟩
  · rw [← hk, heq, w.kind_eq.1] at hatomic
    cases hatomic
  · obtain ⟨⟨c, d, hcovers, hc⟩, -, p, hfits⟩ := parse_nodes w.read _ hmem
    obtain ⟨⟨c', d', hcovers', hc'⟩, -, -⟩ := parse_nodes w.read' _ hmem'
    obtain ⟨text, -, hpass⟩ := hcovers.passes
    obtain ⟨text', -, hpass'⟩ := hcovers'.passes
    have hs : s = ⟨c.pos, d.pos⟩ := by rw [← hcovers.span_eq, ha]; rfl
    have hs' : s' = ⟨c'.pos, d'.pos⟩ := by rw [← hcovers'.span_eq, ha']; rfl
    refine ⟨h.kind_eq, ?_, fun hcomment => ?_, fun hb => ?_⟩
    · rw [htext, htext', hs, hs', slice_of_passes hc hpass, slice_of_passes hc' hpass']
      exact h.inked_eq hcovers hcovers' hpass hpass'
    · rw [ha] at hfits
      exact absurd (hk ▸ beq_iff_eq.1 hcomment) hfits.1
    · exact absurd (hk ▸ hb) (ne_hashBangLine_of_isAtomic hatomic)

theorem Reread.akin : ∀ p ∈ pairs source source' [] [] t t', Akin p.1 p.2 := by
  intro p hp
  obtain ⟨halike, hmeets⟩ := w.mem_pairs p hp
  rcases placed_written source t [] p.1 (of_mem_zip hp).1 with ⟨r, k, s, ha⟩ | ⟨r, k, s, cs, ha, hatomic, htext⟩
  · rcases placed_written source' t' [] p.2 (of_mem_zip hp).2 with ⟨r', k', s', ha'⟩ | ⟨r', k', s', cs', ha', -⟩
    · exact akin_of_leaves ha ha' halike
    · rw [ha, ha'] at halike
      exact halike.elim
  · rcases placed_written source' t' [] p.2 (of_mem_zip hp).2 with ⟨r', k', s', ha'⟩ | ⟨r', k', s', cs', ha', -, htext'⟩
    · rw [ha, ha'] at halike
      exact halike.elim
    · exact hmeets.akin_of_nodes w ha ha' hatomic htext htext' halike

end

end SourceBench.Layout
