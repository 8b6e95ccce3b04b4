import Mathlib.Data.List.Perm.Subperm
import SourceBench.Declaration

/-!
# What a walk comes to

A walk through an arena goes no deeper than there are declarations.  That takes nothing away, whatever the links of the
arena are: what its roots lead to they lead to on a way that comes to no place twice (`exists_way`), and such a way is
no longer than there are declarations.  So a walk comes to just what the roots lead to (`mem_walk_iff`).
-/
namespace SourceBench.DeclarationTree

open List

variable {t : DeclarationTree} {d o : Declaration}

/-- The roots of an arena lead to a declaration: it is one of them, or a member of one that they lead to. -/
inductive Reached (t : DeclarationTree) : Declaration → Prop where
  | root {d : Declaration} (h : d ∈ t.rootDecls) : Reached t d
  | member {d o : Declaration} (ho : Reached t o) (h : d ∈ t.membersOf o) : Reached t d

/-- Places on the way from a declaration back to a root, each that of a member of the next. -/
inductive Way (t : DeclarationTree) : List Nat → Prop where
  | root {i : Nat} (h : i ∈ t.roots) : Way t [i]
  | member {i j : Nat} {is : List Nat} {o : Declaration} (ho : t.nodes[j]? = some o) (h : i ∈ o.members)
      (hway : Way t (j :: is)) : Way t (i :: j :: is)

theorem mem_pick {ids : List Nat} : d ∈ t.pick ids ↔ ∃ i ∈ ids, t.nodes[i]? = some d := mem_filterMap

theorem Way.of_append : ∀ {xs ys : List Nat}, Way t (xs ++ ys) → ys ≠ [] → Way t ys
  | [], _, h, _ => h
  | x :: xs, ys, h, hne => by
    rw [cons_append] at h
    generalize hrest : xs ++ ys = rest at h
    cases h with
    | root => exact absurd (append_eq_nil_iff.1 hrest).2 hne
    | member _ _ hway =>
      rw [← hrest] at hway
      exact hway.of_append hne

theorem exists_way (h : Reached t d) : ∃ i is, t.nodes[i]? = some d ∧ Way t (i :: is) ∧ (i :: is).Nodup ∧
    ∀ x ∈ i :: is, x < t.nodes.length := by
  induction h with
  | root h =>
    obtain ⟨i, hi, hd⟩ := mem_pick.1 h
    exact ⟨i, [], hd, .root hi, by simp, by simpa using (List.getElem?_eq_some_iff.1 hd).1⟩
  | @member d o _ h ih =>
    obtain ⟨j, is, ho, hway, hnodup, hlt⟩ := ih
    obtain ⟨i, hi, hd⟩ := mem_pick.1 h
    by_cases hmem : i ∈ j :: is
    · -- The way has been there before: the part from there on will do.
      obtain ⟨xs, ys, hsplit⟩ := List.append_of_mem hmem
      rw [hsplit] at hway hnodup hlt
      exact ⟨i, ys, hd, hway.of_append (List.cons_ne_nil i ys), (List.nodup_append.1 hnodup).2.1,
        fun x hx => hlt x (List.mem_append_right xs hx)⟩
    · exact ⟨i, j :: is, hd, .member ho hi hway, List.nodup_cons.2 ⟨hmem, hnodup⟩,
        List.forall_mem_cons.2 ⟨(List.getElem?_eq_some_iff.1 hd).1, hlt⟩⟩

theorem mem_walkFrom_of_mem_pick {ids : List Nat} (h : d ∈ t.pick ids) (n : Nat) : d ∈ t.walkFrom (n + 1) ids := by
  rw [walkFrom, mem_flatMap]
  exact ⟨d, h, mem_cons_self⟩

theorem mem_walkFrom_succ : ∀ {n : Nat} {ids : List Nat}, o ∈ t.walkFrom n ids → d ∈ t.membersOf o →
    d ∈ t.walkFrom (n + 1) ids
  | 0, _, h, _ => absurd h not_mem_nil
  | n + 1, ids, h, hd => by
    rw [walkFrom, mem_flatMap] at h
    obtain ⟨e, he, ho⟩ := h
    rw [walkFrom, mem_flatMap]
    refine ⟨e, he, mem_cons_of_mem e ?_⟩
    rcases mem_cons.1 ho with rfl | ho
    · exact mem_walkFrom_of_mem_pick hd n
    · exact mem_walkFrom_succ ho hd

theorem Way.mem_walkFrom {is : List Nat} (h : Way t is) : ∀ {i n : Nat} {d : Declaration}, is.head? = some i →
    is.length ≤ n → t.nodes[i]? = some d → d ∈ t.walkFrom n t.roots := by
  -- The way ends where the walk begins, so each of its places asks for one step more than the next.
  induction h with
  | root h =>
    rintro i n d hhead hn hd
    cases hhead
    obtain ⟨n, rfl⟩ := Nat.exists_eq_add_of_le' hn
    exact mem_walkFrom_of_mem_pick (mem_pick.2 ⟨_, h, hd⟩) n
  | @member _ j is o ho h _ ih =>
    rintro i n d hhead hn hd
    cases hhead
    obtain ⟨n, rfl⟩ := Nat.exists_eq_add_of_le' (Nat.le_of_add_left_le hn)
    exact mem_walkFrom_succ (ih rfl (Nat.le_of_succ_le_succ hn) ho) (mem_pick.2 ⟨_, h, hd⟩)

theorem reached_of_mem_walkFrom : ∀ {n : Nat} {ids : List Nat}, (∀ d ∈ t.pick ids, Reached t d) → d ∈ t.walkFrom n ids →
    Reached t d
  | 0, _, _, h => absurd h not_mem_nil
  | n + 1, ids, hids, h => by
    rw [walkFrom, mem_flatMap] at h
    obtain ⟨e, he, hd⟩ := h
    rcases mem_cons.1 hd with rfl | hd
    · exact hids d he
    · exact reached_of_mem_walkFrom (fun m hm => .member (hids e he) hm) hd

/-- **A walk comes to what the roots lead to,** and to nothing else. -/
theorem mem_walk_iff : d ∈ t.walk ↔ Reached t d := by
  constructor
  · exact reached_of_mem_walkFrom fun _ hd => .root hd
  · intro h
    obtain ⟨i, is, hd, hway, hnodup, hlt⟩ := exists_way h
    have hlength : (i :: is).length ≤ (range t.nodes.length).length :=
      (hnodup.subperm fun x hx => mem_range.2 (hlt x hx)).length_le
    rw [length_range] at hlength
    exact hway.mem_walkFrom rfl hlength hd

end SourceBench.DeclarationTree
