import Mathlib.Algebra.GroupWithZero.Nat
import SourceBench.Outline

/-!
# Traversal with a stack

Trees that are handed out from a stack come in the order of the recursion (`unstack_eq`), so the traversal passes every
place of a tree once, each before those below it and those to its right (`unstack_addresses`).  Decisions are counted
along the way, and those of a tree are its own and those of its children (`complexity_children`).
-/
namespace SourceBench

open List Syntax Tree

namespace Syntax.Tree

theorem nodes_eq (t : Tree) : t.nodes = t :: nodesOf t.children := by cases t <;> rfl

theorem unstack_eq (stack : List Tree) : unstack stack = nodesOf stack := by
  fun_induction unstack stack with
  | case1 => rfl
  | case2 t stack ih =>
    rw [ih, nodesOf_append, nodesOf, nodes_eq]
    rfl

theorem unstack_singleton (t : Tree) : unstack [t] = t.nodes := by
  rw [unstack_eq, nodesOf, nodesOf, append_nil]

theorem nodesOf_eq_flatMap (ts : List Tree) : nodesOf ts = ts.flatMap nodes := by
  induction ts with
  | nil => rfl
  | cons t ts ih => rw [nodesOf, ih, flatMap_cons]

/-! ## Addresses -/

def at? : Tree → List Nat → Option Tree
  | t, [] => some t
  | t, i :: p => t.children[i]?.bind (at? · p)

mutual
def addresses : Tree → List (List Nat)
  | leaf _ _ _ _ => [[]]
  | node _ _ _ cs => [] :: addressesFrom 0 cs
def addressesFrom (n : Nat) : List Tree → List (List Nat)
  | [] => []
  | c :: cs => (addresses c).map (n :: ·) ++ addressesFrom (n + 1) cs
end

mutual
theorem mem_addresses : ∀ (t : Tree) (p : List Nat), p ∈ addresses t ↔ (t.at? p).isSome
  | t, [] => by cases t <;> simp [addresses, at?]
  | leaf _ _ _ _, i :: p => by simp [addresses, at?, children]
  | node _ _ _ cs, i :: p => by simpa [addresses, at?, children] using mem_addressesFrom 0 cs i p
theorem mem_addressesFrom (n : Nat) : ∀ (cs : List Tree) (i : Nat) (p : List Nat),
    i :: p ∈ addressesFrom n cs ↔ n ≤ i ∧ (cs[i - n]?.bind (at? · p)).isSome
  | [], i, p => by simp [addressesFrom]
  | c :: cs, i, p => by
    have hc := mem_addresses c p
    have hcs := mem_addressesFrom (n + 1) cs i p
    rw [addressesFrom, mem_append, hcs]
    rcases Nat.lt_trichotomy i n with hlt | rfl | hlt
    · simp [show ¬ n ≤ i by omega, show ¬ n + 1 ≤ i by omega, show n ≠ i by omega]
    · simp [hc, show ¬ i + 1 ≤ i by omega]
    · obtain ⟨k, rfl⟩ := Nat.exists_eq_add_of_lt hlt
      simp [show n + k + 1 - n = k + 1 by omega, show n + k + 1 - (n + 1) = k by omega, show n ≤ n + k + 1 by omega,
        show n ≠ n + k + 1 by omega]
end

theorem exists_of_mem_addressesFrom {p : List Nat} : ∀ {n : Nat} {cs : List Tree}, p ∈ addressesFrom n cs →
    ∃ i q, p = i :: q ∧ n ≤ i
  | _, c :: cs, h => by
    rcases mem_append.1 h with h | h
    · obtain ⟨q, -, rfl⟩ := mem_map.1 h
      exact ⟨_, q, rfl, Nat.le_refl _⟩
    · obtain ⟨i, q, rfl, hi⟩ := exists_of_mem_addressesFrom h
      exact ⟨i, q, rfl, Nat.le_of_succ_le hi⟩

mutual
theorem map_addresses : ∀ t : Tree, (addresses t).map t.at? = t.nodes.map some
  | leaf _ _ _ _ => rfl
  | node r k s cs => by
    rw [addresses, nodes, map_cons, map_cons, map_addressesFrom (node r k s cs) 0 cs rfl]
    rfl
theorem map_addressesFrom (t : Tree) (n : Nat) : ∀ cs : List Tree, t.children.drop n = cs →
    (addressesFrom n cs).map t.at? = (nodesOf cs).map some
  | [], _ => rfl
  | c :: cs, h => by
    have hc : t.children[n]? = some c := by rw [← Nat.add_zero n, ← getElem?_drop, h]; rfl
    have hcs : t.children.drop (n + 1) = cs := by rw [← drop_drop, h]; rfl
    rw [addressesFrom, nodesOf, map_append, map_append, map_addressesFrom t (n + 1) cs hcs, ← map_addresses c, map_map]
    exact congrArg (· ++ _) (map_congr_left fun p _ => by simp [at?, hc])
end

mutual
theorem pairwise_addresses : ∀ t : Tree, (addresses t).Pairwise (· < ·)
  | leaf _ _ _ _ => pairwise_singleton _ _
  | node _ _ _ cs => pairwise_cons.2 ⟨fun p hp => by
      obtain ⟨i, q, rfl, -⟩ := exists_of_mem_addressesFrom hp
      exact nil_lt_cons i q, pairwise_addressesFrom 0 cs⟩
theorem pairwise_addressesFrom (n : Nat) : ∀ cs : List Tree, (addressesFrom n cs).Pairwise (· < ·)
  | [] => .nil
  | c :: cs => by
    refine pairwise_append.2 ⟨pairwise_map.2 ((pairwise_addresses c).imp fun h => cons_lt_cons_iff.2 (.inr ⟨rfl, h⟩)),
      pairwise_addressesFrom (n + 1) cs, fun p hp q hq => ?_⟩
    obtain ⟨p, -, rfl⟩ := mem_map.1 hp
    obtain ⟨i, q, rfl, hi⟩ := exists_of_mem_addressesFrom hq
    exact cons_lt_cons_iff.2 (.inl hi)
end

end Syntax.Tree

/-! ## Decisions -/

namespace Reading

theorem complexity_eq (t : Tree) : complexity t = 1 + (t.nodes.filter isDecision).length := by
  rw [complexity, unstack_singleton]

theorem decisions_nodesOf (cs : List Tree) :
    ((nodesOf cs).filter isDecision).length = (cs.map (complexity · - 1)).sum := by
  induction cs with
  | nil => rfl
  | cons c cs ih =>
    rw [nodesOf, filter_append, length_append, ih, map_cons, sum_cons, complexity_eq, Nat.add_sub_cancel_left]

theorem complexity_children (t : Tree) :
    complexity t = 1 + (if isDecision t then 1 else 0) + (t.children.map (complexity · - 1)).sum := by
  rw [complexity_eq, nodes_eq, filter_cons, ← decisions_nodesOf]
  split
  · rw [length_cons]; omega
  · rfl

/-- **A traversal with a stack is the recursion, and complexity adds up**: the trees handed out are those at all
addresses, in their order, the complexity of a tree is one more than its decisions and adds up over its children, and
that of a source over its statements, in whatever order they are taken. -/
theorem complexity_additive [Recovery] (t : Tree) :
    unstack [t] = t :: t.children.flatMap (unstack [·]) ∧
    (∃ ps : List (List Nat), ps.Pairwise (· < ·) ∧ (∀ p, p ∈ ps ↔ (t.at? p).isSome) ∧
      ps.map t.at? = (unstack [t]).map some) ∧
    complexity t = 1 + (unstack [t]).countP isDecision ∧
    complexity t = 1 + (if isDecision t then 1 else 0) + (t.children.map (complexity · - 1)).sum ∧
    ∀ (dialect : Dialect) (source : List Char) (path : String), parse dialect source = some t →
      ∀ statements : List Tree, statements.Perm t.children →
      (Outline.ofSource dialect path source).metrics.complexity = 1 + (statements.map (complexity · - 1)).sum := by
  refine ⟨?_, ⟨addresses t, pairwise_addresses t, mem_addresses t, ?_⟩, ?_, complexity_children t, ?_⟩
  · rw [unstack_singleton, nodes_eq, nodesOf_eq_flatMap]
    simp only [unstack_singleton]
  · rw [unstack_singleton, map_addresses]
  · rw [complexity, countP_eq_length_filter]
  · intro dialect source path h statements hperm
    have hdecision : isDecision t = false := by
      unfold parse at h
      split at h
      · cases h
      · cases h
        rfl
    show complexity (treeOf dialect source) = _
    rw [treeOf_of_parse h, complexity_children, hdecision, (hperm.map _).sum_nat]
    rfl

end Reading
end SourceBench
