import SourceBench.Patch.Unified
import SourceBench.Proofs.Patch.Runs

/-!
# Where hunks stand

`Tiles` says how hunks lie on two texts: before, between and behind them stand lines that both texts have.  The hunks of
chunks tile the two sides of the chunks (`hunks_tile`).
-/
namespace SourceBench.Patch

open List

variable {ls gap : List Line} {i : Nat}

/-- The hunks stand on what is left of two texts behind `i` old and `j` new lines.  At least `gap` lines that both have
stand before the first, and at least one before each of the others. -/
inductive Tiles : Nat → Nat → Nat → List Line → List Line → List Hunk → Prop where
  | done {gap i j : Nat} (ls : List Line) : Tiles gap i j ls ls []
  | hunk {gap i j : Nat} {h : Hunk} {hs : List Hunk} {xs ys : List Line} (ls : List Line) (hgap : gap ≤ ls.length)
      (hold : h.oldStart = i + ls.length) (hnew : h.newStart = j + ls.length)
      (rest : Tiles 1 (h.oldStart + h.old.length) (h.newStart + h.new.length) xs ys hs) :
      Tiles gap i j (ls ++ (h.old ++ xs)) (ls ++ (h.new ++ ys)) (h :: hs)

namespace Tiles

variable {gap i j : Nat} {xs ys : List Line} {hs : List Hunk}

theorem eq_of_nil (h : Tiles gap i j xs ys []) : xs = ys := by
  cases h
  rfl

theorem skip (h : Tiles 0 (i + ls.length) (j + ls.length) xs ys hs) (hgap : gap ≤ ls.length) :
    Tiles gap i j (ls ++ xs) (ls ++ ys) hs := by
  cases h with
  | done => exact .done _
  | hunk ms _ hold hnew rest =>
    rw [← append_assoc, ← append_assoc ls]
    refine .hunk (ls ++ ms) ?_ ?_ ?_ rest
    · rw [length_append]
      omega
    · rw [hold, length_append, Nat.add_assoc]
    · rw [hnew, length_append, Nat.add_assoc]

end Tiles

/-! ## The hunks of chunks -/

theorem flatMap_old_eq_new {cs : List Chunk} (h : cs.any (·.isChange) = false) :
    cs.flatMap (·.old) = cs.flatMap (·.new) := by
  refine flatMap_congr fun c hc => ?_
  have := any_eq_false.1 h c hc
  cases c with
  | same ls => rfl
  | change old new => exact absurd rfl this

/-- A hunk may be put before hunks that leave a line of room; one that shows no difference is left out. -/
theorem hunkOf_tiles {j : Nat} {group : List Chunk} {xs ys : List Line} {hs : List Hunk}
    (h : Tiles 1 (i + (group.flatMap (·.old)).length) (j + (group.flatMap (·.new)).length) xs ys hs) :
    Tiles 0 i j (group.flatMap (·.old) ++ xs) (group.flatMap (·.new) ++ ys) (hunkOf i j group ++ hs) := by
  unfold hunkOf
  split
  · exact Tiles.hunk (h := ⟨i, j, group⟩) [] (Nat.zero_le _) rfl rfl h
  · next hnone =>
    rw [← flatMap_old_eq_new (by simpa using hnone)] at h ⊢
    cases h with
    | done => exact .done _
    | hunk ls _ hold hnew rest => exact Tiles.skip (.hunk ls (Nat.zero_le _) hold hnew rest) (Nat.zero_le _)

theorem take_append_lastLines (n : Nat) (ls : List Line) : ls.take (ls.length - n) ++ lastLines n ls = ls :=
  take_append_drop ..

theorem take_append_gap {n : Nat} (h : 2 * n < ls.length) :
    ∃ gap, ls = ls.take n ++ (gap ++ lastLines n ls) ∧ gap.length = ls.length - 2 * n := by
  refine ⟨(ls.take (ls.length - n)).drop n, ?_, ?_⟩
  · conv_lhs => rw [← take_append_lastLines n ls, ← take_append_drop n (ls.take (ls.length - n))]
    rw [take_take, Nat.min_eq_left (by omega), append_assoc]
  · rw [length_drop, length_take]
    omega

section

variable (side : Chunk → List Line) (hside : ∀ ls, side (.same ls) = ls)
include hside

theorem flatMap_split (group rest : List Chunk) (hls : ls = ls.take context ++ (gap ++ lastLines context ls)) :
    (group ++ Chunk.same ls :: rest).flatMap side = (group ++ [Chunk.same (ls.take context)]).flatMap side ++
      (gap ++ ([Chunk.same (lastLines context ls)] ++ rest).flatMap side) := by
  simp only [flatMap_append, flatMap_cons, flatMap_nil, hside, append_nil]
  conv_lhs => rw [hls]
  simp only [append_assoc]

theorem start_eq (group : List Chunk) (hlong : 2 * context < ls.length) (hgap : gap.length = ls.length - 2 * context) :
    i + ((group ++ [Chunk.same ls]).flatMap side).length - context =
      i + ((group ++ [Chunk.same (ls.take context)]).flatMap side).length + gap.length := by
  simp only [flatMap_append, flatMap_singleton, hside, length_append, length_take]
  omega

end

theorem hunksFrom_tiles (i j : Nat) (group rest : List Chunk) :
    Tiles 0 i j ((group ++ rest).flatMap (·.old)) ((group ++ rest).flatMap (·.new)) (hunksFrom i j group rest) := by
  fun_induction hunksFrom i j group rest with
  | case1 i j group =>
    have : Tiles 1 (i + (group.flatMap (·.old)).length) (j + (group.flatMap (·.new)).length) [] [] [] := .done []
    simpa using hunkOf_tiles this
  | case2 i j group ls =>
    -- Behind the last difference: the rest of the equal lines is not shown.
    let shown := group ++ [.same (ls.take context)]
    have : Tiles 1 (i + (shown.flatMap (·.old)).length) (j + (shown.flatMap (·.new)).length) (ls.drop context)
        (ls.drop context) [] := .done _
    simpa [shown, Chunk.old, Chunk.new] using hunkOf_tiles this
  | case3 i j group ls rest _ hlong whole i' j' ih =>
    obtain ⟨gap, hls, hgap⟩ := take_append_gap hlong
    have hold := flatMap_split Chunk.old (fun _ => rfl) group rest hls
    have hnew := flatMap_split Chunk.new (fun _ => rfl) group rest hls
    have hi : i' = i + ((group ++ [Chunk.same (ls.take context)]).flatMap (·.old)).length + gap.length :=
      start_eq Chunk.old (fun _ => rfl) group hlong hgap
    have hj : j' = j + ((group ++ [Chunk.same (ls.take context)]).flatMap (·.new)).length + gap.length :=
      start_eq Chunk.new (fun _ => rfl) group hlong hgap
    rw [hi, hj] at ih ⊢
    rw [hold, hnew]
    exact hunkOf_tiles (ih.skip (by omega))
  | case4 i j group ls rest _ _ ih => simpa using ih
  | case5 i j group c rest _ _ ih => simpa using ih

theorem hunks_tile (cs : List Chunk) : Tiles 0 0 0 (cs.flatMap (·.old)) (cs.flatMap (·.new)) (hunks cs) := by
  unfold hunks
  split
  · next ls rest =>
    have htake : ls.length - context = 0 + (ls.take (ls.length - context)).length := by
      rw [length_take]
      omega
    have hrest := hunksFrom_tiles (ls.length - context) (ls.length - context) [.same (lastLines context ls)] rest
    nth_rewrite 1 2 [htake] at hrest
    have hskip : Tiles 0 0 0 _ _ _ := hrest.skip (Nat.zero_le _)
    simp only [singleton_append, flatMap_cons, Chunk.old, Chunk.new, ← append_assoc,
      take_append_lastLines] at hskip
    exact hskip
  · exact hunksFrom_tiles 0 0 [] cs

/-- **There are no hunks exactly if the texts have the same lines.** -/
theorem hunks_align_eq_nil {old new : List Line} : hunks (align old new) = [] ↔ old = new := by
  constructor
  · intro h
    have htiles := hunks_tile (align old new)
    rw [h, align_old, align_new] at htiles
    exact htiles.eq_of_nil
  · rintro rfl
    rw [align_self]
    split <;> rfl

end SourceBench.Patch
