import Mathlib.Data.List.Count
import Mathlib.Data.List.Flatten
import Mathlib.Logic.Relation
import SourceBench.Proofs.Declaration.Links

/-!
# Walks through an arena

Whatever calls have made of an arena, a walk from its roots comes to an end: a refused declaration may have members, and
one may even be its own member, but no root leads there.  The declarations that reach a root through accepted calls come
once each, in the order of the recursive traversal, behind all their ancestors and within the lines of each
(`walk_forest`).
-/
namespace SourceBench.DeclarationTree

open List Option

variable {j i : Nat}

/-- A declaration reaches a root through accepted calls. -/
inductive ReachesRoot (log : Log) : Nat → Prop where
  | root {i : Nat} (h : (i, none) ∈ log) : ReachesRoot log i
  | member {i j : Nat} (h : (i, some j) ∈ log) (hj : ReachesRoot log j) : ReachesRoot log i

/-- The recursive traversal from given ids: each declaration, then the traversal of its members, then that of the
rest. -/
inductive Traversal (t : DeclarationTree) : List Nat → List Declaration → Prop where
  | nil : Traversal t [] []
  | cons {i : Nat} {is : List Nat} {d : Declaration} {ds es : List Declaration} (hd : t.nodes[i]? = some d)
      (hmembers : Traversal t d.members ds) (hrest : Traversal t is es) : Traversal t (i :: is) (d :: (ds ++ es))

/-- The walk with a stack.  In each turn the id on top gives way to the members of its declaration.  There is no result
if the turns run out before the stack is empty. -/
def stackWalk? (t : DeclarationTree) : Nat → List Nat → Option (List Declaration)
  | _, [] => some []
  | 0, _ :: _ => none
  | n + 1, i :: stack => t.nodes[i]?.bind fun d => (t.stackWalk? n (d.members ++ stack)).map (d :: ·)

/-! ## Traversals -/

namespace Traversal

variable {t : DeclarationTree} {ids : List Nat} {ds : List Declaration}

theorem stackWalk?_append (h : Traversal t ids ds) : ∀ (n : Nat) (stack : List Nat),
    t.stackWalk? (ds.length + n) (ids ++ stack) = (t.stackWalk? n stack).map (ds ++ ·) := by
  induction h with
  | nil =>
    intro n stack
    simp
  | @cons i is d ds es hd _ _ ihmembers ihrest =>
    intro n stack
    have hturns : (d :: (ds ++ es)).length + n = ds.length + (es.length + n) + 1 := by
      simp only [length_cons, length_append]
      omega
    rw [hturns, cons_append, stackWalk?, hd, Option.bind_some, ihmembers, ihrest, Option.map_map, Option.map_map]
    simp [Function.comp_def]

theorem stackWalk?_eq (h : Traversal t ids ds) {n : Nat} (hn : ds.length ≤ n) : t.stackWalk? n ids = some ds := by
  obtain ⟨k, rfl⟩ := Nat.exists_eq_add_of_le hn
  have hwalk := h.stackWalk?_append k []
  rw [append_nil] at hwalk
  rw [hwalk]
  cases k <;> simp [stackWalk?]

theorem count_ids (h : Traversal t ids ds) (hids : ∀ (i : Nat) (d : Declaration), t.nodes[i]? = some d → d.id = i)
    (x : Nat) :
    (ds.map (·.id)).count x = ids.count x + (ds.flatMap (·.members)).count x := by
  induction h with
  | nil => simp
  | @cons i is d ds es hd _ _ ihmembers ihrest =>
    simp only [map_cons, map_append, flatMap_cons, flatMap_append, count_cons, count_append,
      ihmembers, ihrest, hids i d hd]
    omega

theorem mem_nodes (h : Traversal t ids ds) : ∀ d ∈ ds, d ∈ t.nodes := by
  induction h with
  | nil => simp
  | @cons i is d ds es hd _ _ ihmembers ihrest =>
    intro a ha
    rcases mem_cons.1 ha with rfl | ha
    · exact mem_of_getElem? hd
    · rcases mem_append.1 ha with ha | ha
      · exact ihmembers a ha
      · exact ihrest a ha

/-- What comes in a traversal is one of those that it began with, or has come behind one whose member it is. -/
theorem split (h : Traversal t ids ds) (hids : ∀ (i : Nat) (d : Declaration), t.nodes[i]? = some d → d.id = i) :
    ∀ {before after : List Declaration} {d : Declaration}, ds = before ++ d :: after →
      d.id ∈ ids ∨ ∃ a ∈ before, d.id ∈ a.members := by
  induction h with
  | nil =>
    intro before after d hsplit
    simp at hsplit
  | @cons i is c ds es hc _ _ ihmembers ihrest =>
    intro before after d hsplit
    cases before with
    | nil =>
      rw [nil_append, cons.injEq] at hsplit
      rw [← hsplit.1, hids i c hc]
      exact .inl mem_cons_self
    | cons b before =>
      rw [cons_append, cons.injEq] at hsplit
      obtain ⟨rfl, hsplit⟩ := hsplit
      rcases append_eq_append_iff.1 hsplit with ⟨mid, hbefore, hes⟩ | ⟨mid, hds, hafter⟩
      · -- It comes in the rest.
        rcases ihrest hes with hmem | ⟨a, ha, hmem⟩
        · exact .inl (mem_cons_of_mem i hmem)
        · exact .inr ⟨a, by rw [hbefore]; simp [ha], hmem⟩
      · cases mid with
        | nil =>
          rw [nil_append] at hafter
          rcases @ihrest [] _ _ hafter.symm with hmem | ⟨a, ha, -⟩
          · exact .inl (mem_cons_of_mem i hmem)
          · exact absurd ha not_mem_nil
        | cons e mid =>
          -- It comes below the first.
          rw [cons_append, cons.injEq] at hafter
          rw [← hafter.1] at hds
          rcases ihmembers hds with hmem | ⟨a, ha, hmem⟩
          · exact .inr ⟨c, mem_cons_self, hmem⟩
          · exact .inr ⟨a, mem_cons_of_mem c ha, hmem⟩

end Traversal

theorem walkFrom_cons {t : DeclarationTree} (n : Nat) {d : Declaration} (hd : t.nodes[i]? = some d) (is : List Nat) :
    t.walkFrom (n + 1) (i :: is) = d :: (t.walkFrom n d.members ++ t.walkFrom (n + 1) is) := by
  simp [walkFrom, pick, hd]

/-! ## Ways to a root -/

namespace Linked

variable {t : DeclarationTree} {infos : List DeclarationInfo} {log : Log} (h : Linked t infos log)
include h

theorem id_eq (i : Nat) (d : Declaration) (hd : t.nodes[i]? = some d) : d.id = i := by
  rw [h.nodes, getElem?_linkUp, map_eq_some_iff] at hd
  obtain ⟨info, -, rfl⟩ := hd
  rfl

variable {i : Nat} {d : Declaration}

theorem members_eq (hd : t.nodes[i]? = some d) : d.members = below log (some i) := by
  rw [h.nodes, getElem?_linkUp, map_eq_some_iff] at hd
  obtain ⟨info, -, rfl⟩ := hd
  rfl

theorem getElem?_of_mem (hd : d ∈ t.nodes) : t.nodes[d.id]? = some d := by
  obtain ⟨i, hi⟩ := mem_iff_getElem?.1 hd
  rwa [h.id_eq i d hi]

theorem mem_members (hd : d ∈ t.nodes) : i ∈ d.members ↔ (i, some d.id) ∈ log := by
  rw [h.members_eq (h.getElem?_of_mem hd), mem_below]

theorem exists_node (hi : i < infos.length) : ∃ d, t.nodes[i]? = some d := by
  rw [h.nodes, getElem?_linkUp, getElem?_eq_getElem hi]
  exact ⟨_, rfl⟩

theorem owner_unique {o o' : Option Nat} (ho : (i, o) ∈ log) (ho' : (i, o') ∈ log) : o = o' :=
  congrArg Prod.snd (inj_on_of_nodup_map h.once ho ho' rfl)

theorem lt_of_reachesRoot (hi : ReachesRoot log i) : i < infos.length := by
  cases hi with
  | root hl => exact h.known _ hl
  | member hl _ => exact h.known _ hl

theorem not_own_member (hi : ReachesRoot log i) : (i, some i) ∉ log := by
  induction hi with
  | root hl =>
    intro hself
    exact absurd (h.owner_unique hl hself) (by simp)
  | @member i j hl _ ih =>
    intro hself
    have hij := h.owner_unique hl hself
    rw [some.injEq] at hij
    rw [hij] at ih
    exact ih hself

theorem owner_lt_of_reachesRoot (hi : ReachesRoot log i) (hl : (i, some j) ∈ log) : j < i := by
  rcases Nat.lt_or_eq_of_le (h.back hl) with hlt | rfl
  · exact hlt
  · exact absurd hl (h.not_own_member hi)

theorem links_nodup : (t.roots ++ t.nodes.flatMap (·.members)).Nodup := by
  rw [nodup_append]
  refine ⟨?_, ?_, ?_⟩
  · rw [h.roots]
    exact h.once.sublist (below_sublist log none)
  · rw [nodup_flatMap]
    constructor
    · intro d hd
      rw [h.members_eq (h.getElem?_of_mem hd)]
      exact h.once.sublist (below_sublist log _)
    · rw [pairwise_iff_getElem]
      intro i j hi hj hij x hx hx'
      have howner := h.owner_unique ((h.mem_members (getElem_mem hi)).1 hx) ((h.mem_members (getElem_mem hj)).1 hx')
      rw [h.id_eq i _ (getElem?_eq_getElem hi), h.id_eq j _ (getElem?_eq_getElem hj), some.injEq] at howner
      omega
  · intro x hx y hy hxy
    subst hxy
    obtain ⟨d, hd, hmem⟩ := mem_flatMap.1 hy
    rw [h.roots, mem_below] at hx
    exact absurd (h.owner_unique hx ((h.mem_members hd).1 hmem)) (by simp)

/-! ## The walk -/

theorem traversal_walkFrom : ∀ (n : Nat) (ids : List Nat),
    (∀ i ∈ ids, ReachesRoot log i ∧ infos.length ≤ n + i) → Traversal t ids (t.walkFrom n ids)
  | 0, [], _ => .nil
  | 0, i :: is, hids => by
    obtain ⟨hreach, hle⟩ := hids i mem_cons_self
    have := h.lt_of_reachesRoot hreach
    omega
  | n + 1, [], _ => .nil
  | n + 1, i :: is, hids => by
    rw [forall_mem_cons] at hids
    obtain ⟨hreach, hle⟩ := hids.1
    obtain ⟨d, hd⟩ := h.exists_node (h.lt_of_reachesRoot hreach)
    rw [walkFrom_cons n hd]
    refine .cons hd (traversal_walkFrom n d.members fun m hm => ?_) (traversal_walkFrom (n + 1) is hids.2)
    rw [h.members_eq hd, mem_below] at hm
    have hmreach := ReachesRoot.member hm hreach
    have := h.owner_lt_of_reachesRoot hmreach hm
    exact ⟨hmreach, by omega⟩

theorem traversal_walk : Traversal t t.roots t.walk := by
  apply h.traversal_walkFrom
  intro i hi
  rw [h.roots, mem_below] at hi
  exact ⟨.root hi, by rw [h.length_nodes]; omega⟩

theorem reachesRoot_of_traversal {ids : List Nat} {ds : List Declaration} (hds : Traversal t ids ds)
    (hids : ∀ i ∈ ids, ReachesRoot log i) : ∀ d ∈ ds, ReachesRoot log d.id := by
  induction hds with
  | nil => simp
  | @cons i is d ds es hd _ _ ihmembers ihrest =>
    rw [forall_mem_cons] at hids ⊢
    rw [h.id_eq i d hd, forall_mem_append]
    refine ⟨hids.1, ihmembers fun m hm => ?_, ihrest hids.2⟩
    rw [h.members_eq hd, mem_below] at hm
    exact .member hm hids.1

theorem reachesRoot_of_mem_walk : ∀ d ∈ t.walk, ReachesRoot log d.id := by
  refine h.reachesRoot_of_traversal h.traversal_walk fun i hi => ?_
  rw [h.roots, mem_below] at hi
  exact .root hi

theorem count_walk (x : Nat) : (t.walk.map (·.id)).count x = t.roots.count x + (t.walk.flatMap (·.members)).count x :=
  h.traversal_walk.count_ids h.id_eq x

theorem mem_walk_of_reachesRoot (hi : ReachesRoot log i) : i ∈ t.walk.map (·.id) := by
  induction hi with
  | @root i hl =>
    have hroot : 0 < t.roots.count i := by rw [count_pos_iff, h.roots, mem_below]; exact hl
    have hcount := h.count_walk i
    exact count_pos_iff.1 (by omega)
  | @member i j hl _ ih =>
    obtain ⟨d, hd, rfl⟩ := mem_map.1 ih
    have hmem : i ∈ d.members := (h.mem_members (h.traversal_walk.mem_nodes d hd)).2 hl
    have hmembers : 0 < (t.walk.flatMap (·.members)).count i := count_pos_iff.2 (mem_flatMap.2 ⟨d, hd, hmem⟩)
    have hcount := h.count_walk i
    exact count_pos_iff.1 (by omega)

theorem mem_walk : d ∈ t.walk ↔ d ∈ t.nodes ∧ ReachesRoot log d.id := by
  constructor
  · intro hd
    exact ⟨h.traversal_walk.mem_nodes d hd, h.reachesRoot_of_mem_walk d hd⟩
  · rintro ⟨hd, hreach⟩
    obtain ⟨d', hd', hid⟩ := mem_map.1 (h.mem_walk_of_reachesRoot hreach)
    have hnode := h.getElem?_of_mem (h.traversal_walk.mem_nodes d' hd')
    rw [hid, h.getElem?_of_mem hd, some.injEq] at hnode
    rwa [hnode]

theorem count_members_le (hl : (i, some j) ∈ log) : ∀ (ds : List Declaration), (∀ d ∈ ds, d ∈ t.nodes) →
    (ds.flatMap (·.members)).count i ≤ (ds.map (·.id)).count j
  | [], _ => by simp
  | d :: ds, hds => by
    rw [forall_mem_cons] at hds
    have ih := count_members_le hl ds hds.2
    rw [flatMap_cons, count_append, map_cons, count_cons]
    have hmembers : d.members.Nodup := by
      rw [h.members_eq (h.getElem?_of_mem hds.1)]
      exact h.once.sublist (below_sublist log _)
    by_cases hi : i ∈ d.members
    · have howner := h.owner_unique ((h.mem_members hds.1).1 hi) hl
      rw [some.injEq] at howner
      have hone := nodup_iff_count_le_one.1 hmembers i
      simp only [howner, beq_self_eq_true, if_true]
      omega
    · rw [count_eq_zero_of_not_mem hi]
      omega

theorem walk_nodup : (t.walk.map (·.id)).Nodup := by
  rw [nodup_iff_count_le_one]
  intro x
  -- By the id: the owner of what comes in a walk has a smaller one.
  induction x using Nat.strongRecOn with
  | _ x ih =>
    by_cases hx : x ∈ t.walk.map (·.id)
    · obtain ⟨d, hd, rfl⟩ := mem_map.1 hx
      have hreach := h.reachesRoot_of_mem_walk d hd
      have hlinks := nodup_append.1 h.links_nodup
      have hroots := nodup_iff_count_le_one.1 hlinks.1 d.id
      rw [h.count_walk]
      cases hreach with
      | root hl =>
        have hnone : (t.walk.flatMap (·.members)).count d.id = 0 := by
          refine count_eq_zero_of_not_mem fun hmem => ?_
          obtain ⟨a, ha, hmem⟩ := mem_flatMap.1 hmem
          have howner := (h.mem_members (h.traversal_walk.mem_nodes a ha)).1 hmem
          exact absurd (h.owner_unique hl howner) (by simp)
        omega
      | @member _ j hl hj =>
        have hnone : t.roots.count d.id = 0 := by
          refine count_eq_zero_of_not_mem fun hmem => ?_
          rw [h.roots, mem_below] at hmem
          exact absurd (h.owner_unique hl hmem) (by simp)
        have hle := h.count_members_le hl t.walk h.traversal_walk.mem_nodes
        have hone := ih j (h.owner_lt_of_reachesRoot (.member hl hj) hl)
        omega
    · rw [count_eq_zero_of_not_mem hx]
      omega

/-! ## Ancestors -/

theorem within_ancestor (hij : Relation.TransGen (fun i j => (i, some j) ∈ log) i j) {a : Declaration}
    (hd : t.nodes[i]? = some d) (ha : t.nodes[j]? = some a) : a.startLine ≤ d.startLine ∧ d.stopLine ≤ a.stopLine := by
  have hlines : ∀ {i j : Nat} {d a : Declaration}, (i, some j) ∈ log → t.nodes[i]? = some d → t.nodes[j]? = some a →
      a.startLine ≤ d.startLine ∧ d.stopLine ≤ a.stopLine := by
    intro i j d a hl hd ha
    rw [h.nodes, getElem?_linkUp, map_eq_some_iff] at hd ha
    obtain ⟨dinfo, hd, rfl⟩ := hd
    obtain ⟨ainfo, ha, rfl⟩ := ha
    exact h.inside hl dinfo ainfo hd ha
  induction hij generalizing a with
  | single hl => exact hlines hl hd ha
  | @tail j k _ hl ih =>
    obtain ⟨b, hb⟩ := h.exists_node (h.known _ hl)
    have hlower := ih hb
    have hupper := hlines hl hb ha
    exact ⟨hupper.1.trans hlower.1, hlower.2.trans hupper.2⟩

theorem ancestor_before (hij : Relation.TransGen (fun i j => (i, some j) ∈ log) i j) :
    ∀ {before after : List Declaration} {d : Declaration}, t.walk = before ++ d :: after → d.id = i →
      j ∈ before.map (·.id) := by
  have hstep : ∀ {i j : Nat} {before after : List Declaration} {d : Declaration}, (i, some j) ∈ log →
      t.walk = before ++ d :: after → d.id = i → ∃ a ∈ before, a.id = j := by
    intro i j before after d hl hsplit hid
    rcases h.traversal_walk.split h.id_eq hsplit with hroot | ⟨a, ha, hmem⟩
    · rw [h.roots, mem_below, hid] at hroot
      exact absurd (h.owner_unique hl hroot) (by simp)
    · have hnode : a ∈ t.nodes := h.traversal_walk.mem_nodes a (by rw [hsplit]; simp [ha])
      have howner := h.owner_unique ((h.mem_members hnode).1 hmem) (hid.symm ▸ hl)
      rw [some.injEq] at howner
      exact ⟨a, ha, howner⟩
  induction hij using Relation.TransGen.head_induction_on with
  | single hl =>
    intro before after d hsplit hid
    obtain ⟨a, ha, rfl⟩ := hstep hl hsplit hid
    exact mem_map_of_mem ha
  | @head i k hl _ ih =>
    intro before after d hsplit hid
    obtain ⟨a, ha, hak⟩ := hstep hl hsplit hid
    -- The owner stands further in front, and its ancestors in front of it.
    obtain ⟨front, back, rfl⟩ := append_of_mem ha
    rw [append_assoc, cons_append] at hsplit
    have hmem := ih hsplit hak
    rw [map_append]
    exact mem_append_left _ hmem

end Linked

/-- **Every run of calls keeps a tree.**  Ids are places, and none is linked twice.  The walk with a stack comes to an
end, and gives the recursive traversal of the roots.  In it come, once each, just the declarations that reach a root
through accepted calls.  Every ancestor of such a declaration comes before it and has its lines around those of the
declaration. -/
theorem walk_forest (calls : List Call) :
    let t := empty.afterCalls calls
    let log := accepted empty calls
    (∀ (i : Nat) (d : Declaration), t.nodes[i]? = some d → d.id = i) ∧
    (t.roots ++ t.nodes.flatMap (·.members)).Nodup ∧
    (∀ n, t.walk.length ≤ n → t.stackWalk? n t.roots = some t.walk) ∧
    Traversal t t.roots t.walk ∧
    (t.walk.map (·.id)).Nodup ∧
    (∀ d, d ∈ t.walk ↔ d ∈ t.nodes ∧ ReachesRoot log d.id) ∧
    ∀ before d after, t.walk = before ++ d :: after → ∀ j, Relation.TransGen (fun i j => (i, some j) ∈ log) d.id j →
      ∃ a ∈ before, a.id = j ∧ a.startLine ≤ d.startLine ∧ d.stopLine ≤ a.stopLine := by
  intro t log
  obtain ⟨infos, h⟩ := linked_afterCalls calls
  have hwalk := h.traversal_walk
  refine ⟨h.id_eq, h.links_nodup, fun n hn => hwalk.stackWalk?_eq hn, hwalk, h.walk_nodup, fun d => h.mem_walk, ?_⟩
  intro before d after hsplit j hj
  obtain ⟨a, ha, rfl⟩ := mem_map.1 (h.ancestor_before hj hsplit rfl)
  have hnode : ∀ b ∈ before ++ d :: after, t.nodes[b.id]? = some b := fun b hb =>
    h.getElem?_of_mem (hwalk.mem_nodes b (by rw [hsplit]; exact hb))
  exact ⟨a, ha, rfl, h.within_ancestor hj (hnode d (by simp)) (hnode a (by simp [ha]))⟩

end SourceBench.DeclarationTree
