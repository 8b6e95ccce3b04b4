import SourceBench.Proofs.Layout.Alike

/-!
# Decisions of printing

Where a token starts a statement, how deep its line is indented, whether a blank stands before it and whether it closes
a block: each of these is decided alike for two sources whose trees read the same, once their trees agree on which
braces hold one member to a line (`Agrees`).
-/
namespace SourceBench.Layout

open Syntax Text List Placed Option

/-- Two sources whose trees read the same. -/
structure Reread (R S : Pos → Pos → Prop) (source source' : List Char) (t t' : Tree) : Prop where
  starts : Biunique R
  stops : Biunique S
  read : parse .typescript source = some t
  read' : parse .typescript source' = some t'
  items : alikeAll R S t.children t'.children

/-- Trees at the same place of two trees, with the trees around them, innermost first. -/
inductive Meets (R S : Pos → Pos → Prop) (t t' : Tree) : Tree → List Tree → Tree → List Tree → Prop
  | root : Meets R S t t' t [] t' []
  | child {x x' c c' : Tree} {A A' pre pre' post post' : List Tree} (h : Meets R S t t' x A x' A')
    (hx : isAtomic x.kind = false) (hc : x.children = pre ++ c :: post) (hc' : x'.children = pre' ++ c' :: post')
    (hpre : alikeAll R S pre pre') (halike : Alike R S c c') : Meets R S t t' c (x :: A) c' (x' :: A')

variable {R S : Pos → Pos → Prop} {source source' : List Char} {t t' x x' c : Tree} {A A' : List Tree}
  {a a' b b' : Placed} (w : Reread R S source source' t t')

section
include w

theorem Reread.kind_eq : t.kind = .program ∧ t'.kind = .program :=
  ⟨(parse_wellMade w.read).1, (parse_wellMade w.read').1⟩

theorem Meets.kind_eq (h : Meets R S t t' x A x' A') : x.kind = x'.kind := by
  cases h with
  | root => rw [w.kind_eq.1, w.kind_eq.2]
  | child h hx hc hc' hpre halike => exact halike.kind_eq

theorem Meets.children (h : Meets R S t t' x A x' A') : alikeAll R S x.children x'.children := by
  cases h with
  | root => exact w.items
  | child h hx hc hc' hpre halike => exact halike.children

theorem Meets.alike (h : Meets R S t t' x A x' A') (hk : x.kind ≠ .program) : Alike R S x x' := by
  cases h with
  | root => exact absurd w.kind_eq.1 hk
  | child h hx hc hc' hpre halike => exact halike

theorem Meets.isCaseBody_eq {c' : Tree} (h : Meets R S t t' x A x' A')
    (hc : Alike R S c c') : isCaseBody x c = isCaseBody x' c' := by
  have hvalue : Rel (Alike R S) (x.child? .value) (x'.child? .value) :=
    forall₂_find? (fun _ _ hab => by rw [hab.role_eq]) (h.children w)
  unfold isCaseBody
  rw [h.kind_eq w, hc.isNamed_eq]
  generalize x.child? .value = v, x'.child? .value = v' at hvalue ⊢
  cases hvalue with
  | none => rfl
  | some hv => simp only [bne, hv.start_eq_iff w.starts hc, hv.stop_eq_iff w.stops hc, BEq.beq]

end

/-! ## Blocks -/

def Hollow (x : Tree) : Prop :=
  isFlexKind x.kind = true ∧ ∃ a b, x.children = [a, b] ∧ a.isToken "\x7b" = true ∧ b.isToken "\x7d" = true

theorem Hollow.isBrace (h : Hollow x) (hc : c ∈ x.children) : isBrace c := by
  obtain ⟨-, a, b, hab, ha, hb⟩ := h
  rw [hab] at hc
  rcases mem_cons.1 hc with rfl | hc
  · rw [Layout.isBrace, ha]
    rfl
  · rw [mem_singleton.1 hc, Layout.isBrace, hb, Bool.or_true]

/-- The trees hold their members alike, unless they have none. -/
def Agrees (x x' : Tree) : Prop := isBlock x = isBlock x' ∨ (Hollow x ∧ Hollow x')

theorem isCaseBody_of_not_isCase (h : isCase x.kind = false) (c : Tree) : isCaseBody x c = false := by
  have hcase : x.kind ≠ .switchCase := fun hk => by
    rw [hk] at h
    cases h
  have hdefault : x.kind ≠ .switchDefault := fun hk => by
    rw [hk] at h
    cases h
  simp [isCaseBody, hcase, hdefault]

theorem not_isCase_of_isFlexKind {k : Kind} (h : isFlexKind k) : isCase k = false := by
  cases hk : isCase k with
  | false => rfl
  | true =>
    unfold isCase at hk
    split at hk
    · cases h
    · cases h
    · cases hk

theorem Agrees.brace_or_eq (h : Agrees x x') {c : Tree} (hc : c ∈ x.children) :
    isBrace c ∧ isCase x.kind = false ∨ isBlock x = isBlock x' := by
  rcases h with h | ⟨h, -⟩
  · exact .inr h
  · exact .inl ⟨h.isBrace hc, not_isCase_of_isFlexKind h.1⟩

variable (hagree : ∀ {x x' : Tree} {A A' : List Tree}, Meets R S t t' x A x' A' → Agrees x x')

section
include w hagree

theorem Meets.startsAt_eq (h : Meets R S t t' x A x' A') {start start' : Nat}
    (hstart : ∀ {y y' : Tree}, Alike R S y y' → (y.start = start ↔ y'.start = start')) :
    startsAt start x A = startsAt start' x' A' := by
  induction h with
  | root => rfl
  | @child x x' c c' A A' pre pre' post post' h hx hc hc' hpre halike ih =>
    have hmem : c ∈ x.children := by
      rw [hc]
      exact mem_append_right pre mem_cons_self
    have hfirst : (c.start == start) = (c'.start == start') := by
      rw [Bool.eq_iff_iff, beq_iff_eq, beq_iff_eq]
      exact hstart halike
    have hblock : (!isBrace c && isBlock x) = (!isBrace c' && isBlock x') := by
      rcases (hagree h).brace_or_eq hmem with ⟨hbrace, -⟩ | heq
      · rw [← halike.isBrace_eq, hbrace]
        rfl
      · rw [← halike.isBrace_eq, heq]
    rw [startsAt, startsAt, hfirst, h.kind_eq w, hblock, h.isCaseBody_eq w halike, ih]

theorem Meets.openAround_eq (h : Meets R S t t' x A x' A') : openAround x A = openAround x' A' := by
  induction h with
  | root => rfl
  | @child x x' c c' A A' pre pre' post post' h hx hc hc' hpre halike ih =>
    have hmem : c ∈ x.children := by
      rw [hc]
      exact mem_append_right pre mem_cons_self
    rw [openAround, openAround, ih]
    congr 1
    rcases (hagree h).brace_or_eq hmem with ⟨hbrace, hcase⟩ | heq
    · have hcase' : isCase x'.kind = false := by rwa [← h.kind_eq w]
      rw [isCaseBody_of_not_isCase hcase, isCaseBody_of_not_isCase hcase', ← halike.isBrace_eq, hbrace]
      simp
    · rw [heq, ← halike.isBrace_eq, h.isCaseBody_eq w halike]

end

/-! ## Tokens -/

/-- Tokens at the same place of two trees, with the same text unless they are comments. -/
structure Twin (R S : Pos → Pos → Prop) (t t' : Tree) (a a' : Placed) : Prop where
  alike : Alike R S a.tree a'.tree
  meets : Meets R S t t' a.tree a.around a'.tree a'.around
  text_eq : isComment a = false → a.text = a'.text

theorem Meets.parent (h : Meets R S t t' x A x' A') : (A = [] ∧ A' = []) ∨
    ∃ y y' B B', A = y :: B ∧ A' = y' :: B' ∧ Meets R S t t' y B y' B' := by
  cases h with
  | root => exact .inl ⟨rfl, rfl⟩
  | child h hx hc hc' hpre halike => exact .inr ⟨_, _, _, _, rfl, rfl, h⟩

namespace Twin

variable (h : Twin R S t t' a a')

section
include h

theorem kind_eq : a.tree.kind = a'.tree.kind := h.alike.kind_eq

theorem isComment_eq : isComment a = isComment a' := by
  rw [isComment, isComment, h.kind_eq]

theorem isToken_eq (s : String) : a.isToken s = a'.isToken s := h.alike.isToken_eq s

theorem isAny_eq (ss : List String) : a.isAny ss = a'.isAny ss := by
  unfold isAny
  congr 1
  funext s
  exact h.isToken_eq s

theorem isCallee_eq : isCallee a = isCallee a' := by
  unfold isCallee
  rw [h.kind_eq, h.isAny_eq]

include w

theorem parentKind_eq : a.parentKind = a'.parentKind := by
  unfold parentKind
  rcases h.meets.parent with ⟨hA, hA'⟩ | ⟨y, y', B, B', hA, hA', hy⟩
  · rw [hA, hA']
  · rw [hA, hA', head?_cons, head?_cons, map_some, map_some, hy.kind_eq w]

theorem inGeneric_eq : inGeneric a = inGeneric a' := by
  rw [inGeneric, inGeneric, h.parentKind_eq w]

theorem atEdge_eq {k : Kind} (hk : k ≠ .program) (f : Span → Pos)
    (hf : ∀ {x x' y y' : Tree}, Alike R S x x' → Alike R S y y' →
      ((f x.span).byte = (f y.span).byte ↔ (f x'.span).byte = (f y'.span).byte)) :
    (a.parentKind == some k && a.parentSpan.map (fun s => (f s).byte) == some (f a.tree.span).byte) =
      (a'.parentKind == some k && a'.parentSpan.map (fun s => (f s).byte) == some (f a'.tree.span).byte) := by
  rw [← h.parentKind_eq w, parentSpan, parentSpan]
  rcases h.meets.parent with ⟨hA, hA'⟩ | ⟨y, y', B, B', hA, hA', hy⟩
  · rw [hA, hA']
    rfl
  · by_cases hkind : y.kind = k
    · have halike := hy.alike w (by rw [hkind]; exact hk)
      rw [Bool.eq_iff_iff, hA, hA']
      simp only [head?_cons, map_some, Bool.and_eq_true, beq_iff_eq, some.injEq]
      exact and_congr_right fun _ => hf halike h.alike
    · have hno : (a.parentKind == some k) = false := by
        rw [parentKind, hA]
        simpa using hkind
      rw [hno, Bool.false_and, Bool.false_and]

end

include w

theorem spaceBetween_eq (ha : Twin R S t t' a a') (hb : Twin R S t t' b b') (hcomment : isComment b = false) :
    spaceBetween a b = spaceBetween a' b' := by
  have hstop : (b.parentKind == some .updateExpression && b.parentSpan.map (·.stop.byte) == some b.tree.stop) =
      (b'.parentKind == some .updateExpression && b'.parentSpan.map (·.stop.byte) == some b'.tree.stop) :=
    hb.atEdge_eq w (by decide) Span.stop fun hx hy => hx.stop_eq_iff w.stops hy
  have hstart : (a.parentKind == some .updateExpression && a.parentSpan.map (·.start.byte) == some a.tree.start) =
      (a'.parentKind == some .updateExpression && a'.parentSpan.map (·.start.byte) == some a'.tree.start) :=
    ha.atEdge_eq w (by decide) Span.start fun hx hy => hx.start_eq_iff w.starts hy
  have htext : (a.isAny ["-", "+"] && a.text.isPrefixOf b.text)
      = (a'.isAny ["-", "+"] && a'.text.isPrefixOf b'.text) := by
    rw [← ha.isAny_eq, ← hb.text_eq hcomment]
    cases hc : isComment a with
    | false => rw [ha.text_eq hc]
    | true =>
      have hkind : a.tree.kind ≠ .token := by
        rw [beq_iff_eq.1 hc]
        decide
      have hno : a.isAny ["-", "+"] = false := any_eq_false.2 fun s _ => by
        simp [isToken, isToken_of_kind_ne hkind s]
      rw [hno, Bool.false_and, Bool.false_and]
  unfold spaceBetween
  simp only [Bool.and_assoc, hstop, hstart, htext]
  simp only [ha.isAny_eq, hb.isAny_eq, ha.isToken_eq, hb.isToken_eq, ha.parentKind_eq w, hb.parentKind_eq w,
    ha.isCallee_eq, ha.inGeneric_eq w, hb.inGeneric_eq w, hb.kind_eq]

end Twin

/-- The token `a` opens the braces that `b` is right in. -/
def opensFor (a b : Placed) : Bool :=
  a.isToken "\x7b" && a.parentKind == b.parentKind && a.parentSpan == b.parentSpan

theorem closesBlock_some (a b : Placed) :
    closesBlock (some a) b = (b.isToken "\x7d" && b.around.head?.any isBlock && !opensFor a b) := rfl

theorem isBlock_program (h : x.kind = .program) : isBlock x = false := by
  rw [isBlock, h]
  rfl

section
include w

theorem Twin.opensFor_eq (ha : Twin R S t t' a a') (hb : Twin R S t t' b b') (hk : b.parentKind ≠ some .program) :
    opensFor a b = opensFor a' b' := by
  unfold opensFor
  rw [ha.isToken_eq, ha.parentKind_eq w, hb.parentKind_eq w]
  by_cases heq : a'.parentKind = b'.parentKind
  · have hspan : (a.parentSpan == b.parentSpan) = (a'.parentSpan == b'.parentSpan) := by
      rw [Bool.eq_iff_iff, beq_iff_eq, beq_iff_eq, parentSpan, parentSpan, parentSpan,
        parentSpan]
      have hka := ha.parentKind_eq w
      have hkb := hb.parentKind_eq w
      rcases ha.meets.parent with ⟨hA, hA'⟩ | ⟨x, x', A, A', hA, hA', hx⟩
      · rcases hb.meets.parent with ⟨hB, hB'⟩ | ⟨y, y', B, B', hB, hB', hy⟩
        · rw [hA, hA', hB, hB']
        · rw [hA, hA', hB, hB']
          simp
      · rcases hb.meets.parent with ⟨hB, hB'⟩ | ⟨y, y', B, B', hB, hB', hy⟩
        · rw [hA, hA', hB, hB']
          simp
        · have hyk : y.kind ≠ .program := fun hp => hk (by rw [parentKind, hB, ← hp]; rfl)
          have hxk : x.kind ≠ .program := fun hp => hk (by
            rw [hkb, ← heq, ← hka, parentKind, hA, ← hp]
            rfl)
          rw [hA, hA', hB, hB']
          simp only [head?_cons, map_some, some.injEq]
          exact (hx.alike w hxk).span_eq_iff w.starts w.stops (hy.alike w hyk)
    rw [hspan]
  · have hno : (a'.parentKind == b'.parentKind) = false := beq_eq_false_iff_ne.2 heq
    rw [hno, Bool.and_false, Bool.false_and, Bool.false_and]

include hagree

theorem Twin.startsStatement_eq (h : Twin R S t t' a a') : a.startsStatement = a'.startsStatement := by
  rw [startsStatement, startsStatement, h.isAny_eq,
    h.meets.startsAt_eq w hagree fun hy => hy.start_eq_iff w.starts h.alike]

theorem Twin.depth_eq (h : Twin R S t t' a a') : a.depth = a'.depth := h.meets.openAround_eq w hagree

/-- **A token closes a block alike**, when braces with nothing in them are opened by the token before. -/
theorem Twin.closesBlock_eq (ha : Twin R S t t' a a') (hb : Twin R S t t' b b')
    (hhollow : ∀ x, b.around.head? = some x → Hollow x → b.isToken "\x7d" → opensFor a b) :
    closesBlock (some a) b = closesBlock (some a') b' := by
  rw [closesBlock_some, closesBlock_some, ← hb.isToken_eq]
  cases htoken : b.isToken "\x7d" with
  | false => rfl
  | true =>
    rcases hb.meets.parent with ⟨hB, hB'⟩ | ⟨y, y', B, B', hB, hB', hy⟩
    · rw [hB, hB']
      rfl
    · have hhead : b.around.head? = some y := by
        rw [hB]
        rfl
      have hopens (hyk : y.kind ≠ .program) : opensFor a b = opensFor a' b' :=
        ha.opensFor_eq w hb (by rw [parentKind, hB]; simpa using hyk)
      rw [hB, hB']
      simp only [head?_cons, any_some, Bool.true_and]
      rcases hagree hy with heq | ⟨hy, -⟩
      · by_cases hyk : y.kind = .program
        · rw [← heq, isBlock_program hyk, Bool.false_and, Bool.false_and]
        · rw [heq, hopens hyk]
      · have hyk : y.kind ≠ .program := fun hp => by
          have := hy.1
          rw [hp] at this
          cases this
        rw [← hopens hyk, hhollow y hhead hy htoken, Bool.not_true, Bool.and_false, Bool.and_false]

end

end SourceBench.Layout
