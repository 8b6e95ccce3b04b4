import Mathlib.Data.List.Sort
import SourceBench.Proofs.Text.Order
import SourceBench.Workspace.Backup

/-!
# Newest first

Records with a text for a stamp are put in order one after another, each behind those that are not older.  What is
picked out of the records in order is what is picked out beforehand and then put in order (`filter_arranged`).
-/
namespace SourceBench.Backup

open List Option

abbrev Item := Value × Fields

def stampText (x : Item) : List Char :=
  match x.1 with
  | .str t => t.toList
  | _ => []

def IsStamped (x : Item) : Prop := ∃ t, x.1 = .str t

def Newer (x y : Item) : Prop := stampText y < stampText x

instance : DecidableRel Newer := fun x y => inferInstanceAs (Decidable (stampText y < stampText x))

def arranged (xs : List Item) : List Item := xs.foldl (fun acc x => acc.orderedInsert Newer x) []

variable {x y : Item} {xs ys zs : List Item}

theorem valueBefore_eq (hx : IsStamped x) (hy : IsStamped y) : valueBefore y.1 x.1 = some (decide (Newer x y)) := by
  obtain ⟨s, hs⟩ := hx
  obtain ⟨t, ht⟩ := hy
  rw [hs, ht, valueBefore, some.injEq, Bool.eq_iff_iff, Text.before_iff_lt, decide_eq_true_eq, Newer, stampText,
    stampText, hs, ht]

theorem insertNewest_eq (hx : IsStamped x) (hys : ∀ y ∈ ys, IsStamped y) :
    insertNewest x ys = some (ys.orderedInsert Newer x) := by
  induction ys with
  | nil => rfl
  | cons y ys ih =>
    rw [forall_mem_cons] at hys
    rw [insertNewest, valueBefore_eq hx hys.1, orderedInsert]
    by_cases hnewer : Newer x y
    · simp [hnewer]
    · simp [hnewer, ih hys.2]

theorem foldlM_insertNewest (hxs : ∀ x ∈ xs, IsStamped x) : ∀ {acc : List Item}, (∀ y ∈ acc, IsStamped y) →
    xs.foldlM (fun acc x => insertNewest x acc) acc = some (xs.foldl (fun acc x => acc.orderedInsert Newer x) acc) := by
  induction xs with
  | nil => exact fun _ => rfl
  | cons x xs ih =>
    intro acc hacc
    rw [forall_mem_cons] at hxs
    rw [foldlM_cons, insertNewest_eq hxs.1 hacc, foldl_cons]
    refine ih hxs.2 fun y hy => ?_
    rcases mem_cons.1 ((perm_orderedInsert Newer x acc).mem_iff.1 hy) with rfl | hy
    · exact hxs.1
    · exact hacc y hy

theorem newestFirst_eq (hxs : ∀ x ∈ xs, IsStamped x) : newestFirst xs = .ok ((arranged xs).map (·.2)) := by
  rw [newestFirst, foldlM_insertNewest hxs (fun _ h => absurd h not_mem_nil)]
  rfl

theorem mem_insertNewest : ∀ {ys zs : List Item}, insertNewest x ys = some zs → ∀ y, y = x ∨ y ∈ ys → y ∈ zs
  | [], _, h, y, hy => by
    rw [← some.inj h, mem_singleton]
    exact hy.resolve_right not_mem_nil
  | z :: ys, _, h, y, hy => by
    unfold insertNewest at h
    split at h
    · rw [← some.inj h]
      exact mem_cons.2 hy
    · obtain ⟨zs, hzs, rfl⟩ := Option.map_eq_some_iff.1 h
      rw [mem_cons, or_left_comm] at hy
      exact mem_cons.2 (hy.imp_right (mem_insertNewest hzs y))
    · cases h

theorem mem_foldlM_insertNewest : ∀ {xs acc zs : List Item}, xs.foldlM (fun acc x => insertNewest x acc) acc = some zs →
    ∀ y, y ∈ xs ∨ y ∈ acc → y ∈ zs
  | [], _, _, h, y, hy => some.inj h ▸ hy.resolve_left not_mem_nil
  | x :: xs, acc, zs, h, y, hy => by
    rw [foldlM_cons] at h
    obtain ⟨acc', hacc', h⟩ := Option.bind_eq_some_iff.1 h
    refine mem_foldlM_insertNewest h y ?_
    rw [mem_cons, or_right_comm] at hy
    exact hy.symm.imp_right (mem_insertNewest hacc' y)

theorem mem_of_newestFirst {es : List Fields} (h : newestFirst xs = .ok es) (hx : x ∈ xs) : x.2 ∈ es := by
  unfold newestFirst at h
  split at h
  · next ys hys =>
    rw [← Except.ok.inj h]
    exact mem_map_of_mem (mem_foldlM_insertNewest hys x (.inl hx))
  · cases h

/-! ## The order -/

abbrev InOrder (xs : List Item) : Prop := xs.Pairwise fun x y => ¬ Newer y x

theorem inOrder_orderedInsert (x : Item) : ∀ {ys : List Item}, InOrder ys → InOrder (ys.orderedInsert Newer x)
  | [], _ => pairwise_singleton ..
  | y :: ys, h => by
    rw [InOrder, pairwise_cons] at h
    rw [orderedInsert]
    split
    · next hnewer =>
      refine pairwise_cons.2 ⟨fun z hz hzx => ?_, pairwise_cons.2 h⟩
      rcases mem_cons.1 hz with rfl | hz
      · exact lt_asymm hnewer hzx
      · exact h.1 z hz (lt_trans hnewer hzx)
    · next hnewer =>
      refine pairwise_cons.2 ⟨fun z hz => ?_, inOrder_orderedInsert x h.2⟩
      rcases mem_cons.1 ((perm_orderedInsert Newer x ys).mem_iff.1 hz) with rfl | hz
      · exact hnewer
      · exact h.1 z hz

theorem orderedInsert_front (h : ∀ y ∈ ys, Newer x y) : ys.orderedInsert Newer x = x :: ys := by
  cases ys with
  | nil => rfl
  | cons y ys => rw [orderedInsert, if_pos (h y mem_cons_self)]

theorem filter_orderedInsert (p : Item → Bool) (x : Item) : ∀ {ys : List Item}, InOrder ys →
    (ys.orderedInsert Newer x).filter p = if p x then (ys.filter p).orderedInsert Newer x else ys.filter p
  | [], _ => by cases hx : p x <;> simp [hx]
  | y :: ys, h => by
    rw [InOrder, pairwise_cons] at h
    rw [orderedInsert]
    by_cases hnewer : Newer x y
    · -- What is newer than the first is newer than all that are picked out.
      have hfront : ∀ z ∈ (y :: ys).filter p, Newer x z := by
        intro z hz
        rcases mem_cons.1 (mem_of_mem_filter hz) with rfl | hz
        · exact hnewer
        · exact lt_of_le_of_lt (not_lt.1 (h.1 z hz)) hnewer
      rw [if_pos hnewer, filter_cons, orderedInsert_front hfront]
    · rw [if_neg hnewer, filter_cons, filter_orderedInsert p x h.2, filter_cons]
      by_cases hy : p y <;> by_cases hx : p x <;> simp [hx, hy, hnewer]

theorem inOrder_foldl : ∀ (xs : List Item) {acc : List Item}, InOrder acc →
    InOrder (xs.foldl (fun acc x => acc.orderedInsert Newer x) acc)
  | [], _, h => h
  | x :: xs, _, h => inOrder_foldl xs (inOrder_orderedInsert x h)

theorem inOrder_arranged (xs : List Item) : InOrder (arranged xs) := inOrder_foldl xs List.Pairwise.nil

theorem perm_foldl : ∀ (xs acc : List Item), (xs.foldl (fun acc x => acc.orderedInsert Newer x) acc).Perm (acc ++ xs)
  | [], acc => by rw [append_nil]; rfl
  | x :: xs, acc =>
    (perm_foldl xs _).trans (((perm_orderedInsert Newer x acc).append_right xs).trans perm_middle.symm)

theorem mem_arranged : x ∈ arranged xs ↔ x ∈ xs := (perm_foldl xs []).mem_iff

theorem filter_foldl (p : Item → Bool) : ∀ (xs : List Item) {acc : List Item}, InOrder acc →
    (xs.foldl (fun acc x => acc.orderedInsert Newer x) acc).filter p =
      (xs.filter p).foldl (fun acc x => acc.orderedInsert Newer x) (acc.filter p)
  | [], _, _ => rfl
  | x :: xs, acc, h => by
    rw [foldl_cons, filter_foldl p xs (inOrder_orderedInsert x h), filter_orderedInsert p x h, filter_cons]
    by_cases hx : p x <;> simp [hx]

/-- **Picking out and putting in order commute.** -/
theorem filter_arranged (p : Item → Bool) (xs : List Item) : (arranged xs).filter p = arranged (xs.filter p) :=
  filter_foldl p xs List.Pairwise.nil

theorem filter_arranged_append {p : Item → Bool} (hxs : ∀ x ∈ xs, p x = false) (hys : ∀ y ∈ ys, p y) :
    (arranged (xs ++ ys)).filter p = arranged ys ∧ (arranged (xs ++ ys)).filter (fun x => !p x) = arranged xs := by
  rw [filter_arranged, filter_arranged, filter_append, filter_append]
  constructor
  · rw [filter_eq_nil_iff.2 fun x hx => Bool.eq_false_iff.1 (hxs x hx), filter_eq_self.2 hys, nil_append]
  · rw [filter_eq_self.2 fun x hx => by rw [hxs x hx]; rfl, filter_eq_nil_iff.2 fun y hy => by simp [hys y hy],
      append_nil]

theorem foldl_of_newer : ∀ {xs acc : List Item}, xs.Pairwise (fun x y => Newer y x) → (∀ x ∈ xs, ∀ a ∈ acc, Newer x a) →
    xs.foldl (fun acc x => acc.orderedInsert Newer x) acc = xs.reverse ++ acc
  | [], _, _, _ => rfl
  | x :: xs, acc, hxs, hacc => by
    rw [pairwise_cons] at hxs
    rw [foldl_cons, orderedInsert_front (hacc x mem_cons_self), foldl_of_newer hxs.2, reverse_cons,
      append_assoc]
    · rfl
    · intro y hy a ha
      rcases mem_cons.1 ha with rfl | ha
      · exact hxs.1 y hy
      · exact hacc y (mem_cons_of_mem x hy) a ha

theorem arranged_of_newer (h : xs.Pairwise fun x y => Newer y x) : arranged xs = xs.reverse := by
  rw [arranged, foldl_of_newer h (fun _ _ _ ha => absurd ha not_mem_nil), append_nil]

end SourceBench.Backup
