import Mathlib.Data.List.Basic
import SourceBench.Patch.Alignment

/-!
# Common runs

The run that is found stands in both texts, before it is grown and after (`longestRun_fits`), so the chunks of an
alignment put together are the old text on one side and the new one on the other (`align_old`, `align_new`).  A text
aligned with itself is one chunk (`align_self`): the first of the longest runs stands at the same place on both sides,
since a run that does not has one of its length on the diagonal, in a line at or before its own.
-/
namespace SourceBench.Patch

open List Option

variable {l : Line} {r : Run}

/-! ## Lines that two texts share -/

/-- From `a` in the old and from `b` in the new lines on, `n` lines are the same. -/
def Common (old new : List Line) (a b n : Nat) : Prop :=
  ∀ d < n, ∃ l, old[a + d]? = some l ∧ new[b + d]? = some l

variable {old new : List Line} {a b n i : Nat} {before lengths : List Nat} {line : Line} {best : Run}

theorem common_zero : Common old new a b 0 := fun _ hd => absurd hd (Nat.not_lt_zero _)

theorem Common.append {m : Nat} (h : Common old new a b m) (h' : Common old new (a + m) (b + m) n) :
    Common old new a b (m + n) := by
  intro d hd
  rcases Nat.lt_or_ge d m with hlt | hge
  · exact h d hlt
  · obtain ⟨l, hold, hnew⟩ := h' (d - m) (by omega)
    rw [show a + m + (d - m) = a + d by omega] at hold
    rw [show b + m + (d - m) = b + d by omega] at hnew
    exact ⟨l, hold, hnew⟩

theorem Common.extend (h : Common old new a b n) (hold : old[a + n]? = some l) (hnew : new[b + n]? = some l) :
    Common old new a b (n + 1) := by
  refine h.append fun d hd => ⟨l, ?_⟩
  obtain rfl : d = 0 := by omega
  exact ⟨hold, hnew⟩

theorem Common.bounds (h : Common old new a b n) (hn : 0 < n) : a + n ≤ old.length ∧ b + n ≤ new.length := by
  obtain ⟨l, hold, hnew⟩ := h (n - 1) (by omega)
  obtain ⟨hold, -⟩ := List.getElem?_eq_some_iff.1 hold
  obtain ⟨hnew, -⟩ := List.getElem?_eq_some_iff.1 hnew
  omega

theorem Common.slices (h : Common old new a b n) : (old.drop a).take n = (new.drop b).take n := by
  refine ext_getElem? fun d => ?_
  rw [getElem?_take, getElem?_take, getElem?_drop, getElem?_drop]
  split
  · next hd =>
    obtain ⟨l, hold, hnew⟩ := h d hd
    rw [hold, hnew]
  · rfl

structure Run.Fits (old new : List Line) (r : Run) : Prop where
  old_le : r.old ≤ old.length
  new_le : r.new ≤ new.length
  common : Common old new r.old r.new r.size

/-! ## The run that is found -/

/-- What a row of lengths says: the run of that length which ends in the old line before `i` and in the new line. -/
def EndsAt (old new : List Line) (i : Nat) (lengths : List Nat) : Prop :=
  ∀ j k, lengths[j]? = some k → k ≤ i ∧ k ≤ j + 1 ∧ Common old new (i - k) (j + 1 - k) k

theorem runLengths_get {new : List (Line × Bool)} {j k : Nat} (h : (runLengths before line new)[j]? = some k) :
    ∃ m l anchor, (0 :: before)[j]? = some m ∧ new[j]? = some (l, anchor) ∧
      k = if anchor && l == line then m + 1 else 0 := by
  rw [runLengths, getElem?_zipWith] at h
  cases hm : (0 :: before)[j]? with
  | none => simp [hm] at h
  | some m =>
    cases hn : new[j]? with
    | none => simp [hm, hn] at h
    | some p =>
      obtain ⟨l, anchor⟩ := p
      rw [hm, hn] at h
      exact ⟨m, l, anchor, rfl, rfl, (some.inj h).symm⟩

theorem length_runLengths {new : List (Line × Bool)} (h : before.length = new.length) :
    (runLengths before line new).length = new.length := by
  rw [runLengths, length_zipWith, length_cons, h]
  omega

theorem runLengths_endsAt {new : List (Line × Bool)} (h : EndsAt old (new.map (·.1)) i before)
    (hline : old[i]? = some line) :
    EndsAt old (new.map (·.1)) (i + 1) (runLengths before line new) := by
  intro j k hk
  obtain ⟨m, l, anchor, hm, hl, rfl⟩ := runLengths_get hk
  split
  · next hmatch =>
    rw [Bool.and_eq_true, beq_iff_eq] at hmatch
    obtain ⟨-, rfl⟩ := hmatch
    have hnew : (new.map (·.1))[j]? = some l := by rw [getElem?_map, hl]; rfl
    have hbefore : m ≤ i ∧ m ≤ j ∧ Common old (new.map (·.1)) (i - m) (j - m) m := by
      cases j with
      | zero =>
        obtain rfl : 0 = m := by simpa using hm
        exact ⟨by omega, by omega, common_zero⟩
      | succ j => exact h j m (by simpa using hm)
    obtain ⟨hi, hj, hcommon⟩ := hbefore
    refine ⟨by omega, by omega, ?_⟩
    rw [show i + 1 - (m + 1) = i - m by omega, show j + 1 - (m + 1) = j - m by omega]
    refine hcommon.extend (l := l) ?_ ?_
    · rwa [show i - m + m = i by omega]
    · rwa [show j - m + m = j by omega]
  · exact ⟨by omega, by omega, common_zero⟩

theorem improve_induction {P : Nat → Run → Prop} (start : P 0 best)
    (step : ∀ j k b, lengths[j]? = some k → P j b → P (j + 1) (if b.size < k then ⟨i + 1 - k, j + 1 - k, k⟩ else b)) :
    P lengths.length (improve i best lengths) := by
  suffices ∀ (rest : List Nat) (m : Nat) (b : Run), (∀ d, rest[d]? = lengths[m + d]?) → P m b →
      P (m + rest.length) ((rest.zipIdx m).foldl
        (fun b e => if b.size < e.1 then ⟨i + 1 - e.1, e.2 + 1 - e.1, e.1⟩ else b) b) by
    simpa [improve] using this lengths 0 best (fun d => by rw [Nat.zero_add]) start
  intro rest
  induction rest with
  | nil => exact fun m b _ hb => hb
  | cons k rest ih =>
    intro m b hrest hb
    have hk : lengths[m]? = some k := by simpa using (hrest 0).symm
    have := ih (m + 1) _ (fun d => by simpa [Nat.add_assoc, Nat.add_comm 1 d] using hrest (d + 1)) (step m k b hk hb)
    rwa [length_cons, zipIdx_cons, foldl_cons, Nat.add_comm rest.length, ← Nat.add_assoc]

theorem improve_fits (hbest : best.Fits old new) (h : EndsAt old new (i + 1) lengths) :
    (improve i best lengths).Fits old new := by
  refine improve_induction (P := fun _ b => b.Fits old new) hbest fun j k b hk hb => ?_
  split
  · next hlt =>
    obtain ⟨-, -, hcommon⟩ := h j k hk
    have := hcommon.bounds (by omega)
    exact ⟨by simp only; omega, by simp only; omega, hcommon⟩
  · exact hb

theorem bestFrom_fits {old : List Line} {new : List (Line × Bool)} : ∀ (rest : List Line) (i : Nat) (lengths : List Nat)
    (best : Run), (∀ d, rest[d]? = old[i + d]?) → EndsAt old (new.map (·.1)) i lengths →
      best.Fits old (new.map (·.1)) → (bestFrom new i lengths best rest).Fits old (new.map (·.1))
  | [], _, _, _, _, _, hbest => hbest
  | line :: rest, i, lengths, best, hrest, hlengths, hbest => by
    have hline : old[i]? = some line := by simpa using (hrest 0).symm
    have hrow := runLengths_endsAt hlengths hline
    exact bestFrom_fits rest (i + 1) _ _ (fun d => by simpa [Nat.add_assoc, Nat.add_comm 1 d] using hrest (d + 1)) hrow
      (improve_fits hbest hrow)

/-! ## The run that is grown -/

theorem sharedFront_common : ∀ (xs ys : List Line), Common xs ys 0 0 (sharedFront xs ys)
  | [], _ => common_zero
  | _ :: _, [] => common_zero
  | x :: xs, y :: ys => by
    rw [sharedFront]
    split
    · next hxy =>
      rw [beq_iff_eq] at hxy
      subst hxy
      have ih := sharedFront_common xs ys
      rintro (_ | d) hd
      · exact ⟨x, rfl, rfl⟩
      · obtain ⟨l, hl⟩ := ih d (by omega)
        exact ⟨l, by simpa [Nat.add_comm 1 d] using hl⟩
    · exact common_zero

theorem sharedFront_self : ∀ xs : List Line, sharedFront xs xs = xs.length
  | [] => rfl
  | x :: xs => by rw [sharedFront, if_pos (beq_self_eq_true x), sharedFront_self xs, length_cons]

theorem sharedFront_le (xs ys : List Line) : sharedFront xs ys ≤ xs.length ∧ sharedFront xs ys ≤ ys.length := by
  rcases Nat.eq_zero_or_pos (sharedFront xs ys) with h | h
  · omega
  · have := (sharedFront_common xs ys).bounds h
    omega

theorem common_of_reversed {xs ys : List Line} (h : Common xs.reverse ys.reverse 0 0 n) (hx : n ≤ xs.length)
    (hy : n ≤ ys.length) : Common xs ys (xs.length - n) (ys.length - n) n := by
  intro d hd
  obtain ⟨l, hxs, hys⟩ := h (n - 1 - d) (by omega)
  rw [getElem?_reverse (by omega)] at hxs hys
  rw [show xs.length - 1 - (0 + (n - 1 - d)) = xs.length - n + d by omega] at hxs
  rw [show ys.length - 1 - (0 + (n - 1 - d)) = ys.length - n + d by omega] at hys
  exact ⟨l, hxs, hys⟩

theorem grow_fits (h : r.Fits old new) : (grow old new r).Fits old new := by
  obtain ⟨hold, hnew, hcommon⟩ := h
  have hback := sharedFront_common (old.take r.old).reverse (new.take r.new).reverse
  have hbackLe := sharedFront_le (old.take r.old).reverse (new.take r.new).reverse
  have hfront := sharedFront_common (old.drop (r.old + r.size)) (new.drop (r.new + r.size))
  unfold grow
  generalize sharedFront (old.take r.old).reverse (new.take r.new).reverse = back at hback hbackLe ⊢
  generalize sharedFront (old.drop (r.old + r.size)) (new.drop (r.new + r.size)) = front at hfront ⊢
  rw [length_reverse, length_reverse, length_take, length_take] at hbackLe
  have hback' := common_of_reversed hback (by rw [length_take]; omega) (by rw [length_take]; omega)
  rw [length_take, length_take, Nat.min_eq_left hold, Nat.min_eq_left hnew] at hback'
  refine ⟨by simp only; omega, by simp only; omega, Common.append (Common.append ?_ ?_) ?_⟩
  · intro d hd
    obtain ⟨l, ho, hn⟩ := hback' d hd
    rw [getElem?_take_of_lt (by omega)] at ho hn
    exact ⟨l, ho, hn⟩
  · rwa [show r.old - back + back = r.old by omega, show r.new - back + back = r.new by omega]
  · intro d hd
    obtain ⟨l, ho, hn⟩ := hfront d hd
    rw [getElem?_drop] at ho hn
    refine ⟨l, ?_, ?_⟩
    · rwa [show r.old - back + (back + r.size) + d = r.old + r.size + (0 + d) by omega]
    · rwa [show r.new - back + (back + r.size) + d = r.new + r.size + (0 + d) by omega]

theorem best_fits (old : List Line) (new : List (Line × Bool)) :
    (bestFrom new 0 (replicate new.length 0) ⟨0, 0, 0⟩ old).Fits old (new.map (·.1)) := by
  refine bestFrom_fits old 0 _ _ (fun d => by rw [Nat.zero_add]) ?_ ⟨by simp, by simp, common_zero⟩
  intro j k hk
  obtain rfl := eq_of_mem_replicate (mem_of_getElem? hk)
  exact ⟨by omega, by omega, common_zero⟩

theorem longestRun_fits (old : List Line) (new : List (Line × Bool)) : (longestRun old new).Fits old (new.map (·.1)) :=
  grow_fits (best_fits old new)

/-! ## The sides of an alignment -/

theorem flatMap_old_changeOf (old new : List Line) : (changeOf old new).flatMap (·.old) = old := by
  unfold changeOf
  split
  · next h => simp_all
  · simp [Chunk.old]

theorem flatMap_new_changeOf (old new : List Line) : (changeOf old new).flatMap (·.new) = new := by
  unfold changeOf
  split
  · next h => simp_all
  · simp [Chunk.new]

theorem take_append_slice (ls : List Line) (a n : Nat) : ls.take a ++ ((ls.drop a).take n ++ ls.drop (a + n)) = ls := by
  rw [← drop_drop, take_append_drop, take_append_drop]

theorem alignWith_old : ∀ (n : Nat) (old : List Line) (new : List (Line × Bool)),
    (alignWith n old new).flatMap (·.old) = old
  | 0, old, new => flatMap_old_changeOf ..
  | n + 1, old, new => by
    rw [alignWith]
    split
    · exact flatMap_old_changeOf ..
    · rw [flatMap_append, flatMap_cons, alignWith_old n, alignWith_old n]
      exact take_append_slice ..

theorem alignWith_new : ∀ (n : Nat) (old : List Line) (new : List (Line × Bool)),
    (alignWith n old new).flatMap (·.new) = new.map (·.1)
  | 0, old, new => flatMap_new_changeOf ..
  | n + 1, old, new => by
    rw [alignWith]
    split
    · exact flatMap_new_changeOf ..
    · rw [flatMap_append, flatMap_cons, alignWith_new n, alignWith_new n, Chunk.new,
        (longestRun_fits old new).common.slices, map_take, map_drop]
      exact take_append_slice ..

theorem anchors_lines (new : List Line) : (anchors new).map (·.1) = new := by
  unfold anchors
  split <;> simp [Function.comp_def]

theorem align_old (old new : List Line) : (align old new).flatMap (·.old) = old := alignWith_old ..

theorem align_new (old new : List Line) : (align old new).flatMap (·.new) = new := by
  rw [align, alignWith_new, anchors_lines]

/-! ## A text aligned with itself -/

/-- Whether a line is an anchor depends on what it says alone. -/
def Uniform (new : List (Line × Bool)) : Prop := ∀ p ∈ new, ∀ q ∈ new, p.1 = q.1 → p.2 = q.2

theorem anchors_uniform (new : List Line) : Uniform (anchors new) := by
  unfold anchors Uniform
  split
  · simp
  · simp +contextual

/-- How many anchors stand one after another before a place. -/
def streak (new : List (Line × Bool)) : Nat → Nat
  | 0 => 0
  | i + 1 => if new[i]?.any (·.2) then streak new i + 1 else 0

theorem streak_succ {new : List (Line × Bool)} {anchor : Bool} (h : new[i]? = some (l, anchor)) :
    streak new (i + 1) = if anchor then streak new i + 1 else 0 := by
  rw [streak, h]
  rfl

/-- What a row of lengths says when a text stands on both sides: no run that ends in the line before `i` is longer than
the one on the diagonal in that line, or in the other line that it ends in. -/
structure Diagonal (new : List (Line × Bool)) (i : Nat) (lengths : List Nat) : Prop where
  length : lengths.length = new.length
  row_le : ∀ {j k : Nat}, lengths[j]? = some k → k ≤ streak new i
  column_le : ∀ {j k : Nat}, lengths[j]? = some k → k ≤ streak new (j + 1)
  eq : ∀ {j k : Nat}, lengths[j]? = some k → j + 1 = i → k = streak new i

theorem runLengths_diagonal {new : List (Line × Bool)} (huniform : Uniform new) (h : Diagonal new i before)
    (hline : (new.map (·.1))[i]? = some line) : Diagonal new (i + 1) (runLengths before line new) := by
  rw [getElem?_map, map_eq_some_iff] at hline
  obtain ⟨⟨l, anchor⟩, hi, rfl⟩ := hline
  have hrow := streak_succ hi
  have hentry : ∀ {j k : Nat}, (runLengths before l new)[j]? = some k →
      k ≤ streak new (i + 1) ∧ k ≤ streak new (j + 1) ∧ (j = i → k = streak new (i + 1)) := by
    intro j k hk
    obtain ⟨m, l', anchor', hm, hj, rfl⟩ := runLengths_get hk
    have hcolumn := streak_succ hj
    have hbefore : m ≤ streak new i ∧ m ≤ streak new j ∧ (j = i → m = streak new i) := by
      cases j with
      | zero =>
        obtain rfl : 0 = m := by simpa using hm
        exact ⟨Nat.zero_le _, Nat.zero_le _, by rintro rfl; rfl⟩
      | succ j =>
        have hm : before[j]? = some m := by simpa using hm
        exact ⟨h.row_le hm, h.column_le hm, h.eq hm⟩
    obtain ⟨hmi, hmj, hdiagonal⟩ := hbefore
    by_cases hmatch : (anchor' && l' == l)
    · rw [if_pos hmatch]
      rw [Bool.and_eq_true, beq_iff_eq] at hmatch
      obtain ⟨rfl, rfl⟩ := hmatch
      obtain rfl : true = anchor := huniform _ (mem_of_getElem? hj) _ (mem_of_getElem? hi) rfl
      rw [if_pos rfl] at hrow hcolumn
      refine ⟨by omega, by omega, fun hji => ?_⟩
      rw [hdiagonal hji, hrow]
    · rw [if_neg hmatch]
      refine ⟨Nat.zero_le _, Nat.zero_le _, ?_⟩
      rintro rfl
      rw [hi, some.injEq, Prod.mk.injEq] at hj
      obtain ⟨rfl, rfl⟩ := hj
      rw [beq_self_eq_true, Bool.and_true] at hmatch
      rw [hrow, if_neg hmatch]
  exact ⟨length_runLengths h.length, fun hk => (hentry hk).1, fun hk => (hentry hk).2.1,
    fun hk hj => (hentry hk).2.2 (Nat.succ.inj hj)⟩

theorem improve_diagonal {new : List (Line × Bool)} (h : Diagonal new (i + 1) lengths) (hi : i < new.length)
    (hbest : best.old = best.new) (hlong : ∀ j < i, streak new (j + 1) ≤ best.size) :
    (improve i best lengths).old = (improve i best lengths).new ∧
      ∀ j < i + 1, streak new (j + 1) ≤ (improve i best lengths).size := by
  -- Left of the diagonal the column has a run as long already; right of it, the diagonal itself has.
  suffices (improve i best lengths).old = (improve i best lengths).new ∧
      ∀ j, j < i ∨ (j = i ∧ i < lengths.length) → streak new (j + 1) ≤ (improve i best lengths).size by
    exact ⟨this.1, fun j hj => this.2 j (by have := h.length; omega)⟩
  refine improve_induction (P := fun m b => b.old = b.new ∧ ∀ j, j < i ∨ (j = i ∧ i < m) → streak new (j + 1) ≤ b.size)
    ⟨hbest, fun j hj => hlong j (by omega)⟩ ?_
  · rintro j k b hk ⟨hsame, hcover⟩
    have hrowLe := h.row_le hk
    have hcolumnLe := h.column_le hk
    rcases Nat.lt_trichotomy j i with hlt | rfl | hgt
    · rw [if_neg (by have := hcover j (.inl hlt); omega)]
      exact ⟨hsame, fun j' hj' => hcover j' (by omega)⟩
    · obtain rfl := h.eq hk rfl
      split
      · next hlt =>
        refine ⟨rfl, fun j' hj' => ?_⟩
        rcases hj' with hj' | ⟨rfl, -⟩
        · exact Nat.le_trans (hcover j' (.inl hj')) (Nat.le_of_lt hlt)
        · exact Nat.le_refl _
      · next hge =>
        refine ⟨hsame, fun j' hj' => ?_⟩
        rcases hj' with hj' | ⟨rfl, -⟩
        · exact hcover j' (.inl hj')
        · omega
    · rw [if_neg (by have := hcover i (.inr ⟨rfl, hgt⟩); omega)]
      exact ⟨hsame, fun j' hj' => hcover j' (by omega)⟩

theorem bestFrom_diagonal {new : List (Line × Bool)} (huniform : Uniform new) : ∀ (rest : List Line) (i : Nat)
    (lengths : List Nat) (best : Run), (∀ d, rest[d]? = (new.map (·.1))[i + d]?) → Diagonal new i lengths →
      best.old = best.new → (∀ j < i, streak new (j + 1) ≤ best.size) →
        (bestFrom new i lengths best rest).old = (bestFrom new i lengths best rest).new
  | [], _, _, _, _, _, hbest, _ => hbest
  | line :: rest, i, lengths, best, hrest, hlengths, hbest, hlong => by
    have hline : (new.map (·.1))[i]? = some line := by simpa using (hrest 0).symm
    obtain ⟨hi, -⟩ := List.getElem?_eq_some_iff.1 hline
    have hrow := runLengths_diagonal huniform hlengths hline
    obtain ⟨hbest', hlong'⟩ := improve_diagonal hrow (by simpa using hi) hbest hlong
    exact bestFrom_diagonal huniform rest (i + 1) _ _
      (fun d => by simpa [Nat.add_assoc, Nat.add_comm 1 d] using hrest (d + 1)) hrow hbest' hlong'

theorem grow_self {ls : List Line} (hfits : r.Fits ls ls) (h : r.old = r.new) : grow ls ls r = ⟨0, 0, ls.length⟩ := by
  obtain ⟨a, b, n⟩ := r
  obtain rfl : a = b := h
  have hle : a + n ≤ ls.length := by
    rcases Nat.eq_zero_or_pos n with rfl | hn
    · exact hfits.old_le
    · exact (hfits.common.bounds hn).1
  simp only [grow, sharedFront_self, length_reverse, length_take, length_drop, Run.mk.injEq]
  omega

theorem longestRun_self {new : List (Line × Bool)} (huniform : Uniform new) :
    longestRun (new.map (·.1)) new = ⟨0, 0, new.length⟩ := by
  have hzero : ∀ {j k : Nat}, (replicate new.length 0)[j]? = some k → k = 0 := fun hk =>
    eq_of_mem_replicate (mem_of_getElem? hk)
  have hdiagonal := bestFrom_diagonal huniform (new.map (·.1)) 0 (replicate new.length 0) ⟨0, 0, 0⟩
    (fun d => by rw [Nat.zero_add])
    ⟨length_replicate, fun hk => by rw [hzero hk]; omega, fun hk => by rw [hzero hk]; omega, by omega⟩ rfl (by omega)
  rw [longestRun, grow_self (best_fits _ new) hdiagonal, length_map]

theorem align_self (ls : List Line) : align ls ls = if ls = [] then [] else [.same ls] := by
  have hrun := longestRun_self (anchors_uniform ls)
  have hlength := congrArg length (anchors_lines ls)
  rw [length_map] at hlength
  rw [anchors_lines, hlength] at hrun
  cases ls with
  | nil => rfl
  | cons l ls =>
    rw [align, length_cons, alignWith, hrun, if_neg (cons_ne_nil l ls)]
    simp only [length_cons, Nat.add_eq_zero_iff, Nat.succ_ne_self, and_false, if_false, take_zero]
    have hnil : ∀ n, alignWith n [] [] = [] := by
      intro n
      cases n <;> rfl
    have hdrop : (anchors (l :: ls)).drop (0 + (ls.length + 1)) = [] := drop_eq_nil_of_le (by rw [hlength]; simp)
    rw [hnil, hdrop, drop_zero, show (l :: ls).drop (0 + (ls.length + 1)) = [] from drop_eq_nil_of_le (by simp),
      hnil, take_of_length_le (by simp)]
    rfl

end SourceBench.Patch
