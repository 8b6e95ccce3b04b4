import Mathlib.Data.List.Pairwise
import SourceBench.Proofs.Outline.Ranges

/-!
# Trees below one another

Of two trees in one with coherent ranges, either one is below the other or one ends before the other begins (`related`).
In the list of all trees, a tree comes before those below it and before those behind it (`nodes_pairwise`).
-/
namespace SourceBench.Syntax

open List

def Tree.Below (u t : Tree) : Prop := ∃ c ∈ t.children, u ∈ c.nodes

variable {source : List Char} {t u w : Tree}

theorem Tree.places_of_mem (h : ∀ v ∈ t.nodes, v.Coherent source) (hu : u ∈ t.nodes) :
    t.start ≤ u.start ∧ u.start ≤ u.stop ∧ u.stop ≤ t.stop :=
  have hin := Tree.inside_of_mem_nodes h hu
  ⟨hin.1, (h u hu).start_le_stop, hin.2.1⟩

mutual
/-- **In the list of its trees, a tree comes before those below it and before those behind it.** -/
theorem nodes_pairwise : ∀ {t : Tree}, (∀ v ∈ t.nodes, v.Coherent source) →
    t.nodes.Pairwise fun u w => w.Below u ∨ u.stop ≤ w.start
  | .leaf _ _ _ _, _ => pairwise_singleton _ _
  | .node _ _ _ _, h =>
    pairwise_cons.2 ⟨fun _ hw => .inl (Layout.mem_nodesOf.1 hw),
      nodesOf_pairwise (fun v hv => h v (mem_cons_of_mem _ hv)) (h _ (Layout.self_mem_nodes _)).ordered⟩
theorem nodesOf_pairwise : ∀ {ts : List Tree}, (∀ v ∈ Tree.nodesOf ts, v.Coherent source) →
    ts.Pairwise (fun u w => u.stop ≤ w.start) → (Tree.nodesOf ts).Pairwise fun u w => w.Below u ∨ u.stop ≤ w.start
  | [], _, _ => .nil
  | t :: ts, h, hpair => by
    obtain ⟨hhead, htail⟩ := pairwise_cons.1 hpair
    have ht : ∀ v ∈ t.nodes, v.Coherent source := fun v hv => h v (mem_append_left _ hv)
    have hts : ∀ v ∈ Tree.nodesOf ts, v.Coherent source := fun v hv => h v (mem_append_right _ hv)
    refine pairwise_append.2 ⟨nodes_pairwise ht, nodesOf_pairwise hts htail, fun u hu w hw => .inr ?_⟩
    obtain ⟨c, hc, hw⟩ := Layout.mem_nodesOf.1 hw
    have hu' := (Tree.inside_of_mem_nodes ht hu).2.1
    have hw' := (Tree.inside_of_mem_nodes (fun v hv => hts v (Layout.mem_nodesOf.2 ⟨c, hc, hv⟩)) hw).1
    exact hu'.trans ((hhead c hc).trans hw')
end

/-- One of the trees is below the other, or they lie apart. -/
def Tree.Related (u w : Tree) : Prop := u = w ∨ w.Below u ∨ u.Below w ∨ u.stop ≤ w.start ∨ w.stop ≤ u.start

instance : Std.Symm Tree.Related where
  symm u w h := by
    rcases h with h | h | h | h | h
    · exact .inl h.symm
    · exact .inr (.inr (.inl h))
    · exact .inr (.inl h)
    · exact .inr (.inr (.inr (.inr h)))
    · exact .inr (.inr (.inr (.inl h)))

theorem Tree.related (h : ∀ v ∈ t.nodes, v.Coherent source) (hu : u ∈ t.nodes) (hw : w ∈ t.nodes) : u.Related w := by
  have hpair : t.nodes.Pairwise Tree.Related := (nodes_pairwise h).imp fun {_ _} huw =>
    huw.elim (fun hbelow => .inr (.inl hbelow)) fun hle => .inr (.inr (.inr (.inl hle)))
  exact hpair.forall_of_forall (fun _ _ => .inl rfl) hu hw

theorem apart_of_pairwise {α : Type} {l : List α} {start stop : α → Nat} (h : l.Pairwise fun a b => stop a ≤ start b)
    {a b : α} (ha : a ∈ l) (hb : b ∈ l) (hne : a ≠ b) : stop a ≤ start b ∨ stop b ≤ start a := by
  have : Std.Symm fun a b : α => stop a ≤ start b ∨ stop b ≤ start a := ⟨fun _ _ => Or.symm⟩
  have hpair : l.Pairwise fun a b => stop a ≤ start b ∨ stop b ≤ start a := h.imp fun {_ _} hle => .inl hle
  exact hpair.forall ha hb hne

theorem Tree.Coherent.siblings (h : t.Coherent source) (hu : u ∈ t.children) (hw : w ∈ t.children) :
    u = w ∨ u.stop ≤ w.start ∨ w.stop ≤ u.start := by
  by_cases heq : u = w
  · exact .inl heq
  · exact .inr (apart_of_pairwise h.ordered hu hw heq)

end SourceBench.Syntax
