import Mathlib.Data.List.DropRight
import SourceBench.Text.Lines

/-!
# Trimmed text and lines

Laws of trimming and of taking text apart at line ends, and `SameLines`: two texts whose lines differ only in the white
space at their ends.
-/
namespace SourceBench.Text

open List

/-! ## Trimming -/

theorem trimRight_eq_rdropWhile (cs : List Char) : trimRight cs = cs.rdropWhile isSpace := rfl

theorem trimRight_isPrefix (cs : List Char) : trimRight cs <+: cs := rdropWhile_prefix isSpace cs

theorem trimRight_trimRight (cs : List Char) : trimRight (trimRight cs) = trimRight cs :=
  rdropWhile_idempotent isSpace cs

variable {b a : List Char} {c mark : Char}

theorem trimRight_append (h : ∃ c ∈ b, isSpace c = false) (a : List Char) : trimRight (a ++ b) = a ++ trimRight b := by
  obtain ⟨c, hc, hspace⟩ := h
  have hne : b.reverse.dropWhile isSpace ≠ [] := fun hnil => by
    have := dropWhile_eq_nil_iff.1 hnil c (mem_reverse.2 hc)
    rw [hspace] at this
    cases this
  unfold trimRight
  rw [reverse_append, dropWhile_append, if_neg (by simpa using hne), reverse_append,
    reverse_reverse]

theorem trimRight_concat (h : isSpace c = false) (cs : List Char) : trimRight (cs ++ [c]) = cs ++ [c] := by
  rw [trimRight_eq_rdropWhile, rdropWhile_concat_neg _ _ _ (by simp [h])]

theorem trimRight_cons (h : isSpace c = false) (cs : List Char) : trimRight (c :: cs) = c :: trimRight cs := by
  unfold trimRight
  rw [reverse_cons, dropWhile_append]
  split
  · next hnil => simp [isEmpty_iff.1 hnil, h]
  · simp

theorem trimLeft_cons (h : isSpace c = false) (cs : List Char) : trimLeft (c :: cs) = c :: cs :=
  dropWhile_cons_of_neg (by simp [h])

theorem trimLeft_append (h : ∀ c ∈ a, isSpace c) (b : List Char) : trimLeft (a ++ b) = trimLeft b :=
  dropWhile_append_of_pos h

theorem trimLeft_cases (cs : List Char) : trimLeft cs = [] ∨ ∃ c r, trimLeft cs = c :: r ∧ isSpace c = false := by
  cases h : trimLeft cs with
  | nil => exact .inl rfl
  | cons c r =>
    refine .inr ⟨c, r, rfl, ?_⟩
    have := head_dropWhile_not isSpace (l := cs) (by rw [show cs.dropWhile isSpace = c :: r from h]; simp)
    simpa [show cs.dropWhile isSpace = c :: r from h] using this

theorem trim_cons (h : isSpace c = false) (cs : List Char) : trim (c :: cs) = trimRight (c :: cs) := by
  rw [trim, trimLeft_cons h]

theorem trim_append_space (h : ∀ c ∈ a, isSpace c) (b : List Char) : trim (a ++ b) = trim b := by
  rw [trim, trimLeft_append h]
  rfl

theorem trim_cases (cs : List Char) : trim cs = [] ∨ ∃ c r, trim cs = c :: r ∧ isSpace c = false := by
  rcases trimLeft_cases cs with h | ⟨c, r, h, hc⟩
  · rw [trim, h]
    exact .inl rfl
  · rw [trim, h, trimRight_cons hc]
    exact .inr ⟨c, _, rfl, hc⟩

theorem trim_trim (cs : List Char) : trim (trim cs) = trim cs := by
  rcases trim_cases cs with h | ⟨c, r, h, hc⟩
  · rw [h]
    rfl
  · rw [h, trim_cons hc, ← h, trim, trimRight_trimRight]

theorem trim_trimRight (cs : List Char) : trim (trimRight cs) = trim cs := by
  have hsplit : cs = cs.takeWhile isSpace ++ trimLeft cs := takeWhile_append_dropWhile.symm
  have hspace : ∀ c ∈ cs.takeWhile isSpace, isSpace c := fun c hc => mem_takeWhile_imp hc
  rcases trimLeft_cases cs with h | ⟨c, r, h, hc⟩
  · rw [h, append_nil] at hsplit
    have hall : ∀ c ∈ cs, isSpace c := fun c hc => hspace c (hsplit ▸ hc)
    have hnil : trimRight cs = [] := rdropWhile_eq_nil_iff.2 hall
    rw [hnil, trim, trim, h]
    rfl
  · rw [h] at hsplit
    have hr' := trimRight_cons hc r
    conv_lhs => rw [hsplit]
    rw [trimRight_append ⟨c, mem_cons_self, hc⟩, trim_append_space hspace, trim, trim, h, hr', trimLeft_cons hc, ← hr',
      trimRight_trimRight]

theorem trim_append_blank (h : ∀ c ∈ b, isSpace c) (a : List Char) : trim (a ++ b) = trim a := by
  have hright : trimRight (a ++ b) = trimRight a := by
    rw [trimRight, reverse_append, dropWhile_append_of_pos fun x hx => h x (mem_reverse.1 hx)]
    rfl
  rw [← trim_trimRight, hright, trim_trimRight]

/-! ## What trimming leaves -/

def seen (cs : List Char) : List Char := cs.filter (! isSpace ·)

@[simp] theorem seen_append (a b : List Char) : seen (a ++ b) = seen a ++ seen b := filter_append ..

theorem seen_eq_nil {cs : List Char} : seen cs = [] ↔ ∀ c ∈ cs, isSpace c := by
  simp [seen, filter_eq_nil_iff]

theorem seen_trimLeft (cs : List Char) : seen (trimLeft cs) = seen cs := by
  have hspace : seen (cs.takeWhile isSpace) = [] := seen_eq_nil.2 fun c hc => mem_takeWhile_imp hc
  conv_rhs => rw [← takeWhile_append_dropWhile (p := isSpace) (l := cs), seen_append, hspace]
  rfl

theorem seen_trimRight (cs : List Char) : seen (trimRight cs) = seen cs := by
  have hrev := seen_trimLeft cs.reverse
  simp only [seen, trimLeft, trimRight, filter_reverse] at hrev ⊢
  rw [hrev, reverse_reverse]

theorem seen_trim (cs : List Char) : seen (trim cs) = seen cs := by rw [trim, seen_trimRight, seen_trimLeft]

theorem trim_eq_nil : trim a = [] ↔ ∀ c ∈ a, isSpace c := by
  constructor
  · intro h
    rw [← seen_eq_nil, ← seen_trim, h]
    rfl
  · intro h
    have hnil := trim_append_space h []
    rwa [append_nil] at hnil

/-! ## Taking apart and putting together -/

theorem splitOnFrom_append {mark : Char} : ∀ {xs : List Char}, mark ∉ xs → ∀ (field rest : List Char),
    splitOnFrom mark field (xs ++ rest) = splitOnFrom mark (xs.reverse ++ field) rest
  | [], _, _, _ => rfl
  | x :: xs, h, field, rest => by
    rw [mem_cons, not_or] at h
    rw [cons_append, splitOnFrom, if_neg (by simpa using Ne.symm h.1), splitOnFrom_append h.2]
    simp

theorem splitOn_of_not_mem {xs : List Char} (h : mark ∉ xs) : splitOn mark xs = [xs] := by
  have := splitOnFrom_append h [] []
  rw [append_nil] at this
  rw [splitOn, this]
  simp [splitOnFrom]

theorem splitOn_append_mark {xs : List Char} (h : mark ∉ xs) (rest : List Char) :
    splitOn mark (xs ++ mark :: rest) = xs :: splitOn mark rest := by
  rw [splitOn, splitOnFrom_append h, splitOnFrom, if_pos (beq_self_eq_true mark)]
  simp [splitOn]

theorem join_cons (mark x : List Char) : ∀ ys : List (List Char), join mark (x :: ys) = x ++ ys.flatMap (mark ++ ·)
  | [] => by simp [join]
  | y :: ys => by rw [join, join_cons mark y ys, flatMap_cons, append_assoc, append_assoc]

theorem join_concat (mark a b : List Char) (ls : List (List Char)) :
    join mark (ls ++ [a ++ b]) = join mark (ls ++ [a]) ++ b := by
  cases ls with
  | nil => rfl
  | cons l ls => simp [join_cons]

theorem splitOn_join {mark : Char} : ∀ {ls : List (List Char)}, ls ≠ [] → (∀ l ∈ ls, mark ∉ l) →
    splitOn mark (join [mark] ls) = ls
  | [], hne, _ => absurd rfl hne
  | [l], _, h => splitOn_of_not_mem (h l mem_cons_self)
  | l :: m :: ls, _, h => by
    rw [join, append_assoc, singleton_append, splitOn_append_mark (h l mem_cons_self),
      splitOn_join (cons_ne_nil m ls) fun l' hl' => h l' (mem_cons_of_mem l hl')]

theorem splitOn_cases (mark : Char) (cs : List Char) : (mark ∉ cs ∧ splitOn mark cs = [cs]) ∨
    ∃ xs rest, cs = xs ++ mark :: rest ∧ mark ∉ xs ∧ splitOn mark cs = xs :: splitOn mark rest := by
  by_cases h : mark ∈ cs
  · obtain ⟨xs, rest, rfl, hxs⟩ := eq_append_cons_of_mem h
    exact .inr ⟨xs, rest, rfl, hxs, splitOn_append_mark hxs rest⟩
  · exact .inl ⟨h, splitOn_of_not_mem h⟩

theorem splitOn_induction (mark : Char) {P : List Char → Prop} (last : ∀ xs, mark ∉ xs → P xs)
    (field : ∀ xs rest, mark ∉ xs → P rest → P (xs ++ mark :: rest)) (cs : List Char) : P cs := by
  induction hn : cs.length using Nat.strongRecOn generalizing cs with
  | ind n ih =>
    subst hn
    rcases splitOn_cases mark cs with ⟨h, -⟩ | ⟨xs, rest, rfl, hxs, -⟩
    · exact last cs h
    · refine field xs rest hxs (ih rest.length ?_ rest rfl)
      rw [length_append, length_cons]
      omega

theorem splitOn_ne_nil (mark : Char) (cs : List Char) : splitOn mark cs ≠ [] := by
  rcases splitOn_cases mark cs with ⟨-, h⟩ | ⟨xs, rest, -, -, h⟩
  · rw [h]
    exact cons_ne_nil _ _
  · rw [h]
    exact cons_ne_nil _ _

theorem infix_of_mem_splitOn (cs : List Char) : ∀ l ∈ splitOn mark cs, l <:+: cs := by
  induction cs using splitOn_induction mark with
  | last xs h =>
    rw [splitOn_of_not_mem h]
    intro l hl
    exact mem_singleton.1 hl ▸ infix_rfl
  | field xs rest h ih =>
    rw [splitOn_append_mark h]
    intro l hl
    rcases mem_cons.1 hl with rfl | hl
    · exact (prefix_append _ _).isInfix
    · exact (ih l hl).trans ⟨xs ++ [mark], [], by simp⟩

theorem not_mem_of_mem_splitOn (cs : List Char) : ∀ l ∈ splitOn mark cs, mark ∉ l := by
  induction cs using splitOn_induction mark with
  | last xs h =>
    rw [splitOn_of_not_mem h]
    intro l hl
    rwa [mem_singleton.1 hl]
  | field xs rest h ih =>
    rw [splitOn_append_mark h]
    intro l hl
    rcases mem_cons.1 hl with rfl | hl
    · exact h
    · exact ih l hl

theorem not_mem_splitLinesFrom (line cs : List Char) (hline : '\n' ∉ line) :
    ∀ l ∈ splitLinesFrom line cs, '\n' ∉ l := by
  fun_induction splitLinesFrom line cs with
  | case1 line hempty => simp
  | case2 line hempty => simpa using hline
  | case3 line rest ih =>
    rw [forall_mem_cons]
    exact ⟨by simpa using hline, ih not_mem_nil⟩
  | case4 line c rest _ hbreak ih =>
    rw [forall_mem_cons]
    exact ⟨by simpa using hline, ih not_mem_nil⟩
  | case5 line c rest _ hbreak ih =>
    refine ih fun hmem => ?_
    rcases mem_cons.1 hmem with rfl | hmem
    · exact hbreak (by decide)
    · exact hline hmem

theorem not_mem_of_mem_splitLines (cs : List Char) : ∀ l ∈ splitLines cs, '\n' ∉ l :=
  not_mem_splitLinesFrom [] cs not_mem_nil

theorem length_splitOn (mark : Char) (cs : List Char) : (splitOn mark cs).length = cs.count mark + 1 := by
  induction cs using splitOn_induction mark with
  | last xs h => rw [splitOn_of_not_mem h, count_eq_zero_of_not_mem h, length_singleton]
  | field xs rest h ih =>
    rw [splitOn_append_mark h, length_cons, ih, count_append, count_eq_zero_of_not_mem h,
      count_cons_self, Nat.zero_add]

/-! ## The same lines -/

def SameLines (a b : List Char) : Prop := (splitOn '\n' a).map trim = (splitOn '\n' b).map trim

instance (a b : List Char) : Decidable (SameLines a b) := inferInstanceAs (Decidable (_ = _))

theorem seen_eq_flatMap (cs : List Char) : seen cs = ((splitOn '\n' cs).map trim).flatMap seen := by
  induction cs using splitOn_induction '\n' with
  | last xs h => rw [splitOn_of_not_mem h, map_singleton, flatMap_singleton, seen_trim]
  | field xs rest h ih =>
    rw [splitOn_append_mark h, map_cons, flatMap_cons, seen_trim, ← ih, seen_append]
    rfl

theorem SameLines.seen_eq (h : SameLines a b) : seen a = seen b := by
  rw [seen_eq_flatMap a, seen_eq_flatMap b, show (splitOn '\n' a).map trim = _ from h]

theorem SameLines.count_eq (h : SameLines a b) : a.count '\n' = b.count '\n' := by
  have := congrArg length h
  simp only [length_map, length_splitOn] at this
  omega

end SourceBench.Text
