import SourceBench.Proofs.Layout.Spelling
import SourceBench.Proofs.Syntax.Mirror

/-!
# Trees that read the same

Two trees read the same (`Same`) when they differ only in where they stand and in the white space at the line ends of
comments.  All that printing asks of a tree but its rows has the same answer for both: places are only compared with
each other, and leaves that were read one after another are ordered alike in both trees (`alike_of_same`).
-/
namespace SourceBench.Layout

open Syntax Text List Tree Span

variable {f : Span → Pos} {us : List Tree}

/-! ## Reading the same -/

/-- The texts of two leaves of a kind are the same, comments up to the white space at their line ends. -/
def SameText (k : Kind) (a b : List Char) : Prop := if k = .comment then SameLines a b else a = b

instance (k : Kind) (a b : List Char) : Decidable (SameText k a b) := by
  unfold SameText
  infer_instance

mutual
/-- The trees have the same kinds and roles, and the texts of their leaves are the same. -/
def Same : Tree → Tree → Prop
  | .leaf r k _ a, .leaf r' k' _ b => r = r' ∧ k = k' ∧ SameText k a b
  | .node r k _ ts, .node r' k' _ us => r = r' ∧ k = k' ∧ sameAll ts us
  | .leaf _ _ _ _, .node _ _ _ _ => False
  | .node _ _ _ _, .leaf _ _ _ _ => False
def sameAll : List Tree → List Tree → Prop
  | [], [] => True
  | t :: ts, u :: us => Same t u ∧ sameAll ts us
  | [], _ :: _ => False
  | _ :: _, [] => False
end

mutual
def decideSame : ∀ t u : Tree, Decidable (Same t u)
  | .leaf r k _ a, .leaf r' k' _ b => inferInstanceAs (Decidable (r = r' ∧ k = k' ∧ SameText k a b))
  | .node r k _ ts, .node r' k' _ us =>
    have := decideSameAll ts us
    inferInstanceAs (Decidable (r = r' ∧ k = k' ∧ sameAll ts us))
  | .leaf _ _ _ _, .node _ _ _ _ => isFalse id
  | .node _ _ _ _, .leaf _ _ _ _ => isFalse id
def decideSameAll : ∀ ts us : List Tree, Decidable (sameAll ts us)
  | [], [] => isTrue trivial
  | t :: ts, u :: us =>
    have := decideSame t u
    have := decideSameAll ts us
    inferInstanceAs (Decidable (Same t u ∧ sameAll ts us))
  | [], _ :: _ => isFalse id
  | _ :: _, [] => isFalse id
end

instance (t u : Tree) : Decidable (Same t u) := decideSame t u

/-! ## Places of leaves -/

def edges (f : Span → Pos) (ts : List Tree) : List Pos := (leavesOf ts).map fun t => f t.span

/-- Ends of leaves in the order of the source, none twice. -/
def Rising (l : List Pos) : Prop := l.Pairwise fun p q => p.byte < q.byte

/-- Places of two texts that belong together: each is where its other is. -/
def Biunique (R : Pos → Pos → Prop) : Prop :=
  ∀ p p' q q', R p p' → R q q' → ((p.byte = q.byte ↔ p'.byte = q'.byte) ∧ (p = q ↔ p' = q'))

def Beside (l l' : List Pos) (p p' : Pos) : Prop := (p, p') ∈ l.zip l'

theorem Rising.index_eq {l : List Pos} (h : Rising l) {i j : Nat} (hi : i < l.length) (hj : j < l.length)
    (heq : l[i].byte = l[j].byte) : i = j := by
  rcases Nat.lt_trichotomy i j with hlt | heq' | hlt
  · have := pairwise_iff_getElem.1 h i j hi hj hlt
    omega
  · exact heq'
  · have := pairwise_iff_getElem.1 h j i hj hi hlt
    omega

theorem beside_biunique {l l' : List Pos} (h : Rising l) (h' : Rising l') : Biunique (Beside l l') := by
  intro p p' q q' hp hq
  obtain ⟨i, hi, hpi⟩ := mem_iff_getElem.1 hp
  obtain ⟨j, hj, hqj⟩ := mem_iff_getElem.1 hq
  rw [length_zip] at hi hj
  rw [getElem_zip, Prod.mk.injEq] at hpi hqj
  obtain ⟨rfl, rfl⟩ := hpi
  obtain ⟨rfl, rfl⟩ := hqj
  -- In a rising list a place has one index, so that places are equal in both lists or in neither.
  have key : l[i].byte = l[j].byte → i = j := h.index_eq (by omega) (by omega)
  have key' : l'[i].byte = l'[j].byte → i = j := h'.index_eq (by omega) (by omega)
  refine ⟨⟨fun heq => ?_, fun heq => ?_⟩, fun heq => ?_, fun heq => ?_⟩
  · obtain rfl := key heq
    rfl
  · obtain rfl := key' heq
    rfl
  · obtain rfl := key (congrArg Pos.byte heq)
    rfl
  · obtain rfl := key' (congrArg Pos.byte heq)
    rfl

theorem edges_cons (f : Span → Pos) (t : Tree) (ts : List Tree) : edges f (t :: ts) = edges f [t] ++ edges f ts := by
  simp [edges, leavesOf]

theorem edges_node (f : Span → Pos) (r : Role) (k : Kind) (s : Span) (cs : List Tree) :
    edges f [.node r k s cs] = edges f cs := by
  simp [edges, leavesOf, leaves]

theorem edges_leaf (f : Span → Pos) (r : Role) (k : Kind) (s : Span) (text : List Char) :
    edges f [.leaf r k s text] = [f s] := rfl

mutual
theorem Same.length_edges (f : Span → Pos) : ∀ {t u : Tree}, Same t u → (edges f [t]).length = (edges f [u]).length
  | .leaf _ _ _ _, .leaf _ _ _ _, _ => rfl
  | .node _ _ _ _, .node _ _ _ _, h => by
    rw [edges_node, edges_node]
    exact sameAll_length_edges f h.2.2
  | .leaf _ _ _ _, .node _ _ _ _, h => h.elim
  | .node _ _ _ _, .leaf _ _ _ _, h => h.elim
theorem sameAll_length_edges (f : Span → Pos) :
    ∀ {ts us : List Tree}, sameAll ts us → (edges f ts).length = (edges f us).length
  | [], [], _ => rfl
  | t :: ts, u :: us, h => by
    rw [edges_cons, edges_cons f u, length_append, length_append, h.1.length_edges f, sameAll_length_edges f h.2]
  | [], _ :: _, h => h.elim
  | _ :: _, [], h => h.elim
end

mutual
theorem leaves_ordered : ∀ {t : Tree} {c d : Cursor}, t.Covers c d → t.leaves.Pairwise (fun a b => a.stop ≤ b.start) ∧
      ∀ a ∈ t.leaves, c.pos.byte ≤ a.start ∧ a.start < a.stop ∧ a.stop ≤ d.pos.byte
  | .leaf r k s text, c, d, h => by
    rw [leaves]
    refine ⟨pairwise_singleton _ _, fun a ha => ?_⟩
    rw [mem_singleton.1 ha, h.start_eq, h.stop_eq]
    exact ⟨Nat.le_refl _, h.byte_lt, Nat.le_refl _⟩
  | .node _ _ _ [], _, _, h => h.elim
  | .node r k s (t :: ts), c, d, h => by
    rw [leaves]
    exact leavesOf_ordered (h.children (u := t) mem_cons_self)
theorem leavesOf_ordered : ∀ {ts : List Tree} {c d : Cursor}, coversAll ts c d →
    (leavesOf ts).Pairwise (fun a b => a.stop ≤ b.start) ∧
      ∀ a ∈ leavesOf ts, c.pos.byte ≤ a.start ∧ a.start < a.stop ∧ a.stop ≤ d.pos.byte
  | [], _, _, _ => ⟨.nil, fun _ ha => by cases ha⟩
  | t :: ts, c, d, ⟨c', e, hgap, ht, hts⟩ => by
    obtain ⟨hfirst, hin⟩ := leaves_ordered ht
    obtain ⟨hrest, hin'⟩ := leavesOf_ordered hts
    have hle := hgap.byte_le
    have hle' := coversAll_byte_le hts
    have hlt := ht.byte_lt
    rw [leavesOf]
    refine ⟨pairwise_append.2 ⟨hfirst, hrest, fun a ha b hb => ?_⟩, fun a ha => ?_⟩
    · have := (hin a ha).2.2
      have := (hin' b hb).1
      omega
    · rcases mem_append.1 ha with ha | ha
      · have := hin a ha
        omega
      · have := hin' a ha
        omega
end

variable {ts : List Tree} {c d : Cursor} {t u : Tree}

theorem rising_starts (h : coversAll ts c d) : Rising (edges start ts) := by
  obtain ⟨hordered, hin⟩ := leavesOf_ordered h
  rw [Rising, edges, pairwise_map]
  refine hordered.imp_of_mem fun {a b} ha _ hab => ?_
  exact Nat.lt_of_lt_of_le (hin a ha).2.1 hab

theorem rising_stops (h : coversAll ts c d) : Rising (edges stop ts) := by
  obtain ⟨hordered, hin⟩ := leavesOf_ordered h
  rw [Rising, edges, pairwise_map]
  refine hordered.imp_of_mem fun {a b} _ hb hab => ?_
  exact Nat.lt_of_le_of_lt hab (hin b hb).2.1

mutual
theorem edges_start : ∀ {t : Tree} {c d : Cursor}, t.Covers c d → ∃ r, edges start [t] = c.pos :: r
  | .leaf r k s text, c, d, h => ⟨[], by rw [edges_leaf, h.2.2]⟩
  | .node _ _ _ [], _, _, h => h.elim
  | .node r k s (t :: ts), c, d, ⟨_, e, ht, _⟩ => by
    obtain ⟨r', hr'⟩ := edges_start ht
    rw [edges_node, edges_cons, hr']
    exact ⟨r' ++ edges start ts, rfl⟩
end

mutual
theorem edges_stop : ∀ {t : Tree} {c d : Cursor}, t.Covers c d → ∃ r, edges stop [t] = r ++ [d.pos]
  | .leaf r k s text, c, d, h => ⟨[], by rw [edges_leaf, h.2.2]; rfl⟩
  | .node _ _ _ [], _, _, h => h.elim
  | .node r k s (t :: ts), c, d, h => by
    rw [edges_node]
    exact edgesOf_stop (h.children (u := t) mem_cons_self) (cons_ne_nil t ts)
theorem edgesOf_stop : ∀ {ts : List Tree} {c d : Cursor}, coversAll ts c d → ts ≠ [] → ∃ r, edges stop ts = r ++ [d.pos]
  | [], _, _, _, hne => absurd rfl hne
  | [t], _, _, ⟨_, e, _, ht, hd⟩, _ => by
    rw [show e = _ from hd] at ht
    exact edges_stop ht
  | t :: u :: ts, _, _, ⟨_, e, _, ht, hts⟩, _ => by
    obtain ⟨r, hr⟩ := edgesOf_stop hts (cons_ne_nil u ts)
    rw [edges_cons, hr]
    exact ⟨edges stop [t] ++ r, (append_assoc _ _ _).symm⟩
end

/-! ## Alike trees -/

def SameLeaf : Tree → Tree → Prop
  | .leaf _ k _ a, .leaf _ _ _ b => SameText k a b
  | _, _ => True

/-- What trees at the same place share beside their kind and role. -/
structure Tied (R S : Pos → Pos → Prop) (t u : Tree) : Prop where
  text : SameLeaf t u
  start : R t.span.start u.span.start
  stop : S t.span.stop u.span.stop

/-- The trees read the same, and the places where they begin and end belong together. -/
abbrev Alike (R S : Pos → Pos → Prop) : Tree → Tree → Prop := Mirror (Tied R S)

abbrev alikeAll (R S : Pos → Pos → Prop) : List Tree → List Tree → Prop := Forall₂ (Alike R S)

variable {R S : Pos → Pos → Prop}

theorem Alike.mono {R' S' : Pos → Pos → Prop} (hR : ∀ p q, R p q → R' p q) (hS : ∀ p q, S p q → S' p q)
    (h : Alike R S t u) : Alike R' S' t u :=
  h.imp fun _ _ htied => ⟨htied.text, hR _ _ htied.start, hS _ _ htied.stop⟩

def BesideOf (f : Span → Pos) (ts us : List Tree) : Pos → Pos → Prop := Beside (edges f ts) (edges f us)

theorem besideOf_cons (h : Same t u) (p q : Pos) : BesideOf f (t :: ts) (u :: us) p q ↔
    BesideOf f [t] [u] p q ∨ BesideOf f ts us p q := by
  unfold BesideOf Beside
  rw [edges_cons, edges_cons f u, zip_append (h.length_edges f), mem_append]

theorem besideOf_start {c' d' : Cursor} (ht : t.Covers c d) (hu : u.Covers c' d') :
    BesideOf start [t] [u] t.span.start u.span.start := by
  obtain ⟨r, hr⟩ := edges_start ht
  obtain ⟨r', hr'⟩ := edges_start hu
  rw [BesideOf, Beside, hr, hr', ht.span_eq, hu.span_eq]
  exact mem_cons_self

theorem besideOf_stop {c' d' : Cursor} (h : Same t u) (ht : t.Covers c d) (hu : u.Covers c' d') :
    BesideOf stop [t] [u] t.span.stop u.span.stop := by
  obtain ⟨r, hr⟩ := edges_stop ht
  obtain ⟨r', hr'⟩ := edges_stop hu
  have hlen := h.length_edges stop
  rw [hr, hr', length_append, length_append, length_singleton, length_singleton,
    Nat.add_right_cancel_iff] at hlen
  rw [BesideOf, Beside, hr, hr', ht.span_eq, hu.span_eq, zip_append hlen]
  exact mem_append_right _ mem_cons_self

mutual
/-- **Trees that read the same are alike**: their places belong together as their leaves do. -/
theorem alike_of_same : ∀ {t u : Tree} {c d c' d' : Cursor}, Same t u → t.Covers c d → u.Covers c' d' →
    Alike (BesideOf start [t] [u]) (BesideOf stop [t] [u]) t u
  | .leaf _ _ _ _, .leaf _ _ _ _, _, _, _, _, h, ht, hu =>
    ⟨h.1, h.2.1, h.2.2, besideOf_start ht hu, besideOf_stop h ht hu⟩
  | .node _ _ _ [], _, _, _, _, _, _, ht, _ => ht.elim
  | _, .node _ _ _ [], _, _, _, _, _, _, hu => hu.elim
  | .node _ _ _ (t :: _), .node _ _ _ (u :: _), _, _, _, _, h, ht, hu => by
    have hall := alikeAll_of_sameAll h.2.2 (ht.children (u := t) mem_cons_self)
      (hu.children (u := u) mem_cons_self)
    refine ⟨h.1, h.2.1, ⟨trivial, besideOf_start ht hu, besideOf_stop h ht hu⟩, mirrorAll_iff.2 ?_⟩
    rw [BesideOf, BesideOf, edges_node, edges_node, edges_node, edges_node]
    exact hall
  | .leaf _ _ _ _, .node _ _ _ _, _, _, _, _, h, _, _ => h.elim
  | .node _ _ _ _, .leaf _ _ _ _, _, _, _, _, h, _, _ => h.elim
theorem alikeAll_of_sameAll : ∀ {ts us : List Tree} {c d c' d' : Cursor}, sameAll ts us → coversAll ts c d →
    coversAll us c' d' → alikeAll (BesideOf start ts us) (BesideOf stop ts us) ts us
  | [], [], _, _, _, _, _, _, _ => .nil
  | _ :: _, _ :: _, _, _, _, _, h, ⟨_, _, _, ht, hts⟩, ⟨_, _, _, hu, hus⟩ =>
    have hin {f : Span → Pos} := @besideOf_cons f _ _ _ _ h.1
    .cons ((alike_of_same h.1 ht hu).mono (fun p q hp => (hin p q).2 (.inl hp)) fun p q hp => (hin p q).2 (.inl hp))
      ((alikeAll_of_sameAll h.2 hts hus).imp fun _ _ hab =>
        hab.mono (fun p q hp => (hin p q).2 (.inr hp)) fun p q hp => (hin p q).2 (.inr hp))
  | [], _ :: _, _, _, _, _, h, _, _ => h.elim
  | _ :: _, [], _, _, _, _, h, _, _ => h.elim
end

/-! ## What alike trees share -/

namespace Alike

theorem isToken_eq (text : String) : ∀ {t u : Tree}, Alike R S t u → t.isToken text = u.isToken text
  | .leaf _ k _ a, .leaf _ _ _ b, ⟨_, hk, htied⟩ => by
    obtain rfl := hk
    cases k with
    | token =>
      have hab : a = b := htied.text
      rw [hab]
      rfl
    | _ => rfl
  | .node _ _ _ _, .node _ _ _ _, _ => rfl
  | .leaf _ _ _ _, .node _ _ _ _, h => h.elim
  | .node _ _ _ _, .leaf _ _ _ _, h => h.elim

variable {x y : Tree} (h : Alike R S t u)

include h

theorem isNamed_eq : t.isNamed = u.isNamed := by
  rw [isNamed, isNamed, h.kind_eq]

theorem isBrace_eq : isBrace t = isBrace u := by
  rw [isBrace, isBrace, h.isToken_eq, h.isToken_eq]

theorem start_eq_iff (hR : Biunique R) (h' : Alike R S x y) : t.start = x.start ↔ u.start = y.start :=
  (hR _ _ _ _ h.related.start h'.related.start).1

theorem stop_eq_iff (hS : Biunique S) (h' : Alike R S x y) : t.stop = x.stop ↔ u.stop = y.stop :=
  (hS _ _ _ _ h.related.stop h'.related.stop).1

theorem span_eq_iff (hR : Biunique R) (hS : Biunique S) (h' : Alike R S x y) : t.span = x.span ↔ u.span = y.span := by
  have hext (a b : Span) : a = b ↔ a.start = b.start ∧ a.stop = b.stop := by
    cases a
    cases b
    simp
  rw [hext, hext, (hR _ _ _ _ h.related.start h'.related.start).2, (hS _ _ _ _ h.related.stop h'.related.stop).2]

theorem kinds_eq : t.nodes.map kind = u.nodes.map kind :=
  map_eq_of_forall₂ (fun _ _ hab => hab.kind_eq) h.nodes

theorem hasBlock_eq : hasBlock t = hasBlock u := by
  have hany (x : Tree) : hasBlock x = (x.nodes.map kind).any isBlockKind := by
    rw [hasBlock, any_map]
    rfl
  rw [hany, hany, h.kinds_eq]

end Alike

theorem alikeAll_any_hasBlock (h : alikeAll R S ts us) : ts.any hasBlock = us.any hasBlock :=
  any_eq_of_forall₂ (fun _ _ hab => hab.hasBlock_eq) h

end SourceBench.Layout
