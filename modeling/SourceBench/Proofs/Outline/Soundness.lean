import SourceBench.Proofs.Outline.Nesting
import SourceBench.Proofs.Syntax.Names
import SourceBench.Syntax.Recovery

/-!
# Sound trees

What edits rely on in the tree of a source is that it is sound: its ranges are coherent, its names are where they may
be, and no statement is without width.  A source that follows the grammar has a sound tree (`sound_of_parse`).  Of one
that breaks it, this is assumed where it is needed, by a `SoundRecovery`; leaves without width, for what is missing, may
be in its tree.
-/
namespace SourceBench.Syntax

open List

variable {source : List Char} {root t u : Tree}

structure Tree.Sound (source : List Char) (root : Tree) : Prop where
  coherent : ∀ t ∈ root.nodes, t.Coherent source
  named : WellNamed root
  /-- What is in brackets or quotes is less than the whole. -/
  bracketed : ∀ t ∈ root.nodes, isBracketed t.kind = true → ∀ u : Tree, u.Below t → isName u.kind = true →
    t.start < u.start ∨ u.stop < t.stop
  solid : ∀ t ∈ root.children, t.start < t.stop

/-- A choice of sound trees for the sources that break the grammar. -/
class SoundRecovery extends Recovery where
  sound : ∀ source, parse .typescript source = none → (tree .typescript source).Sound source

/-! ## Sources that follow the grammar -/

theorem placed_of_parse (h : parse .typescript source = some root) (ht : t ∈ root.nodes) (hk : t.kind ≠ .program) :
    t.Placed := by
  obtain ⟨items, d, e, rfl, hitems, -⟩ := parse_covers h
  rcases Layout.mem_nodes_node.1 ht with rfl | hbelow
  · exact absurd rfl hk
  · obtain ⟨-, c', d', -, -, hcovers, -⟩ := Layout.nodesOf_lie hitems t (Layout.mem_nodesOf.2 hbelow)
    exact ⟨c', d', hcovers⟩

/-- The brackets and quotes around names are closed. -/
def Tree.Closed (root : Tree) : Prop :=
  ∀ t ∈ root.nodes, isBracketed t.kind = true → ∀ u : Tree, u.Below t → isName u.kind = true → u.stop < t.stop

theorem closed_of_parse (h : parse .typescript source = some root) : root.Closed := by
  intro t ht hk u hu hk'
  have hplaced := placed_of_parse h ht (by rintro heq; rw [heq] at hk; cases hk)
  cases t with
  | leaf r k s w => exact absurd hu (by rintro ⟨c, hc, -⟩; cases hc)
  | node r k s cs =>
    obtain ⟨front, f, span, w, rfl⟩ := (parse_wellNamed h r k s cs ht).bracket hk
    obtain ⟨c, hc, huc⟩ := hu
    have hcoherent := parse_coherent h
    have hlast := hplaced.child (mem_append_right front (mem_singleton_self (Tree.leaf f .token span w)))
    have hlt := hlast.1.start_lt_stop
    have hin := Tree.inside_of_mem_nodes (fun v hv => hcoherent v
      (Layout.nodes_trans ht (Layout.nodes_trans (Layout.mem_nodes_of_child hc) hv))) huc
    rcases mem_append.1 hc with hfront | hc'
    · have hbefore := (pairwise_append.1 (hcoherent _ ht).ordered).2.2 c hfront _ (mem_singleton_self _)
      have := hin.2.1
      omega
    · -- The last child is punctuation, with no name in it.
      rw [mem_singleton.1 hc', Tree.nodes, mem_singleton] at huc
      rw [huc] at hk'
      cases hk'

theorem sound_of_parse (h : parse .typescript source = some root) : root.Sound source :=
  ⟨parse_coherent h, parse_wellNamed h, fun t ht hk u hu hk' => .inr (closed_of_parse h t ht hk u hu hk'),
    fun t ht => ((parse_placed h).2 t ht).1.start_lt_stop⟩

/-! ## All sources -/

theorem treeOf_sound [SoundRecovery] (source : List Char) : (treeOf .typescript source).Sound source := by
  unfold treeOf
  cases h : parse .typescript source with
  | some root => exact sound_of_parse h
  | none => exact SoundRecovery.sound source h

@[reducible]
def SoundRecovery.bare : SoundRecovery where
  toRecovery := Recovery.bare
  sound source _ := by
    have hnode : ∀ t ∈ (Recovery.bare.tree .typescript source).nodes,
        t = .node .plain .program ⟨.origin, .origin⟩ [] := fun t ht => mem_singleton.1 ht
    have htext : Reading.textOf source (.node .plain .program ⟨.origin, .origin⟩ []) = [] := by
      show takeBytes 0 (dropBytes 0 source) = []
      generalize dropBytes 0 source = r
      cases r <;> rfl
    refine ⟨fun t ht => ?_, fun r k s cs ht => ?_, fun t ht hk => ?_, forall_mem_nil _⟩
    · rw [hnode t ht]
      exact ⟨forall_mem_nil _, .nil, [], source, by rw [htext]; rfl, rfl, by rw [htext]; rfl⟩
    · cases hnode _ ht
      exact names_program []
    · rw [hnode t ht] at hk
      cases hk

end SourceBench.Syntax
