import Mathlib.Data.List.Nodup
import Mathlib.Data.List.Perm.Basic
import SourceBench.Comparison

/-!
# Comparing two ways

In the table of a version every name stands once, with the length of its first declaration (`lengthOf_spans`).  What two
such tables differ by is said by `mem_added`, `mem_removed` and `mem_modified`; so the comparison the other way has the
same names with added and removed exchanged, and a name in none of its lists is in both versions, about as long
(`ofSources_swap`).
-/
namespace SourceBench.Comparison

open List Option

/-! ## Tables -/

variable {table : List (String × Int)} {key : String}

theorem lengthOf_eq_none : lengthOf table key = none ↔ key ∉ table.map (·.1) := by
  unfold lengthOf
  rw [map_eq_none_iff, find?_eq_none, List.mem_map, not_exists]
  simp only [beq_iff_eq, not_and]

theorem lengthOf_concat (table : List (String × Int)) (k : String) (n : Int) (key : String) :
    lengthOf (table ++ [(k, n)]) key = (lengthOf table key).or (if k = key then some n else none) := by
  unfold lengthOf
  rw [find?_append, map_or, find?_singleton]
  by_cases hk : k = key
  · simp [hk]
  · simp [hk]

theorem lengthOf_of_mem (h : (table.map (·.1)).Nodup) {n : Int} (hmem : (key, n) ∈ table) :
    lengthOf table key = some n := by
  unfold lengthOf
  cases hfind : table.find? (·.1 == key) with
  | none => simpa using find?_eq_none.1 hfind _ hmem
  | some x =>
    have hx := find?_some hfind
    rw [beq_iff_eq] at hx
    rw [inj_on_of_nodup_map h (mem_of_find?_eq_some hfind) hmem hx]
    rfl

theorem mem_of_lengthOf {n : Int} (h : lengthOf table key = some n) : (key, n) ∈ table := by
  obtain ⟨x, hfind, rfl⟩ := map_eq_some_iff.1 h
  have hx := find?_some hfind
  rw [beq_iff_eq] at hx
  subst hx
  exact mem_of_find?_eq_some hfind

def enter (table : List (String × Int)) (d : Declaration) : List (String × Int) :=
  if table.any (·.1 == d.identifier) then table else table ++ [(d.identifier, d.lineSpan)]

theorem spans_eq (o : Outline) : spans o = o.tree.rootDecls.foldl enter [] := rfl

theorem any_eq_isSome (table : List (String × Int)) (key : String) :
    table.any (·.1 == key) = (lengthOf table key).isSome := by
  rw [Bool.eq_iff_iff]
  simp [lengthOf]

theorem lengthOf_enter (table : List (String × Int)) (d : Declaration) (key : String) :
    lengthOf (enter table d) key = (lengthOf table key).or (if d.identifier = key then some d.lineSpan else none) := by
  unfold enter
  rw [any_eq_isSome]
  by_cases hthere : (lengthOf table d.identifier).isSome
  · rw [if_pos hthere]
    by_cases hkey : d.identifier = key
    · -- The first declaration of the name stays.
      rw [hkey] at hthere
      obtain ⟨n, hn⟩ := isSome_iff_exists.1 hthere
      rw [hn]
      rfl
    · rw [if_neg hkey, or_none]
  · rw [if_neg hthere, lengthOf_concat]

theorem lengthOf_foldl (key : String) : ∀ (ds : List Declaration) (table : List (String × Int)),
    lengthOf (ds.foldl enter table) key = (lengthOf table key).or ((ds.find? (·.identifier == key)).map (·.lineSpan))
  | [], table => by simp
  | d :: ds, table => by
    rw [foldl_cons, lengthOf_foldl key ds, lengthOf_enter, Option.or_assoc]
    by_cases hkey : d.identifier = key
    · rw [if_pos hkey, find?_cons_of_pos (by simpa using hkey)]
      rfl
    · rw [if_neg hkey, find?_cons_of_neg (by simpa using hkey), none_or]

theorem lengthOf_spans (o : Outline) (key : String) :
    lengthOf (spans o) key = (o.tree.rootDecls.find? (·.identifier == key)).map (·.lineSpan) := by
  rw [spans_eq, lengthOf_foldl]
  rfl

theorem nodup_enter (h : (table.map (·.1)).Nodup) (d : Declaration) : ((enter table d).map (·.1)).Nodup := by
  unfold enter
  split
  · exact h
  · next hnew =>
    rw [any_eq_isSome, not_isSome_iff_eq_none, lengthOf_eq_none] at hnew
    rw [map_append, map_singleton, ← concat_eq_append, nodup_concat]
    exact ⟨hnew, h⟩

theorem nodup_foldl : ∀ (ds : List Declaration) {table : List (String × Int)}, (table.map (·.1)).Nodup →
    ((ds.foldl enter table).map (·.1)).Nodup
  | [], _, h => h
  | d :: ds, _, h => nodup_foldl ds (nodup_enter h d)

theorem nodup_spans (o : Outline) : ((spans o).map (·.1)).Nodup := nodup_foldl _ .nil

/-! ## Two tables -/

theorem differs_comm (tolerance a b : Int) : differs tolerance a b = differs tolerance b a := by
  unfold differs
  rw [← Int.natAbs_neg, Int.neg_sub]

theorem not_differs_self {tolerance : Int} (h : 0 ≤ tolerance) (a : Int) : differs tolerance a a = false := by
  simp [differs, h]

section

variable (tolerance : Int) {old new : List (String × Int)} {key : String}

theorem mem_added : key ∈ (ofSpans tolerance old new).added ↔ key ∈ new.map (·.1) ∧ lengthOf old key = none := by
  simp only [ofSpans, mem_filter, isNone_iff_eq_none]

theorem mem_removed :
    key ∈ (ofSpans tolerance old new).removed ↔ key ∈ old.map (·.1) ∧ lengthOf new key = none := mem_added tolerance

variable (hold : (old.map (·.1)).Nodup)
include hold

theorem mem_modified : key ∈ (ofSpans tolerance old new).modified ↔
    ∃ m n, lengthOf old key = some m ∧ lengthOf new key = some n ∧ differs tolerance m n := by
  simp only [ofSpans, List.mem_map, mem_filter, any_eq_true_iff_get]
  constructor
  · rintro ⟨⟨k, m⟩, ⟨hmem, hsome, hdiffers⟩, rfl⟩
    exact ⟨m, _, lengthOf_of_mem hold hmem, (some_get hsome).symm, hdiffers⟩
  · rintro ⟨m, n, hm, hn, hdiffers⟩
    exact ⟨(key, m), ⟨mem_of_lengthOf hm, by simp [hn], by simpa [hn] using hdiffers⟩, rfl⟩

theorem nodup_removed : (ofSpans tolerance old new).removed.Nodup := hold.filter _

theorem nodup_modified : (ofSpans tolerance old new).modified.Nodup := hold.sublist (filter_sublist.map _)

theorem isEmpty_ofSpans_self (h : 0 ≤ tolerance) : (ofSpans tolerance old old).isEmpty := by
  have hnone : ∀ key ∈ old.map (·.1), lengthOf old key ≠ none := fun key hkey hnone => lengthOf_eq_none.1 hnone hkey
  have hadded : (ofSpans tolerance old old).added = [] := by
    rw [eq_nil_iff_forall_not_mem]
    intro key hkey
    obtain ⟨hkey, hlength⟩ := (mem_added tolerance).1 hkey
    exact hnone key hkey hlength
  have hmodified : (ofSpans tolerance old old).modified = [] := by
    rw [eq_nil_iff_forall_not_mem]
    intro key hkey
    obtain ⟨m, n, hm, hn, hdiffers⟩ := (mem_modified tolerance hold).1 hkey
    rw [hm, some.injEq] at hn
    rw [hn, not_differs_self h] at hdiffers
    cases hdiffers
  have hremoved : (ofSpans tolerance old old).removed = [] := hadded
  simp [isEmpty, hadded, hremoved, hmodified]

variable (hnew : (new.map (·.1)).Nodup)
include hnew

theorem modified_perm : (ofSpans tolerance new old).modified.Perm (ofSpans tolerance old new).modified := by
  rw [perm_ext_iff_of_nodup (nodup_modified tolerance hnew) (nodup_modified tolerance hold)]
  intro key
  rw [mem_modified tolerance hnew, mem_modified tolerance hold]
  constructor
  · rintro ⟨n, m, hn, hm, hdiffers⟩
    exact ⟨m, n, hm, hn, by rwa [differs_comm]⟩
  · rintro ⟨m, n, hm, hn, hdiffers⟩
    exact ⟨n, m, hn, hm, by rwa [differs_comm]⟩

end

theorem alike_of_not_mem (tolerance : Int) {old new : List (String × Int)} (hold : (old.map (·.1)).Nodup)
    (hkey : key ∈ old.map (·.1) ∨ key ∈ new.map (·.1)) (hadded : key ∉ (ofSpans tolerance old new).added)
    (hremoved : key ∉ (ofSpans tolerance old new).removed) (hmodified : key ∉ (ofSpans tolerance old new).modified) :
    ∃ m n, lengthOf old key = some m ∧ lengthOf new key = some n ∧ ((m - n).natAbs : Int) ≤ tolerance := by
  rw [mem_added, lengthOf_eq_none] at hadded
  rw [mem_removed, lengthOf_eq_none] at hremoved
  rw [mem_modified tolerance hold] at hmodified
  have hboth : key ∈ old.map (·.1) ∧ key ∈ new.map (·.1) := by tauto
  obtain ⟨⟨_, m⟩, hm, rfl⟩ := mem_map.1 hboth.1
  cases hn : lengthOf new _ with
  | none => exact absurd hboth.2 (lengthOf_eq_none.1 hn)
  | some n =>
    have hlength := lengthOf_of_mem hold hm
    refine ⟨m, n, hlength, rfl, ?_⟩
    by_contra hlt
    exact hmodified ⟨m, n, hlength, hn, by simpa [differs] using hlt⟩

/-! ## Two versions -/

variable [Syntax.Recovery]

def declared (source : List Char) : List Declaration := (Outline.ofSource .typescript "a.ts" source).tree.rootDecls

theorem spans_ofSource (path : String) (source : List Char) :
    spans (Outline.ofSource .typescript path source) = spans (Outline.ofSource .typescript "a.ts" source) := rfl

theorem ofSources_eq (t : Thresholds) (old new : List Char) : ofSources t old new =
    ofSpans t.diffTolerance (spans (Outline.ofSource .typescript "a.ts" old))
      (spans (Outline.ofSource .typescript "a.ts" new)) := by
  rw [ofSources, spans_ofSource "b.ts"]

theorem mem_spans {source : List Char} :
    key ∈ (spans (Outline.ofSource .typescript "a.ts" source)).map (·.1) ↔ ∃ d ∈ declared source,
      d.identifier = key := by
  rw [← not_iff_not, ← lengthOf_eq_none, lengthOf_spans]
  simp [declared]

/-- **Comparing the other way exchanges what is added and what is removed.**  The lists of a comparison are free of
repeats and have no name in common; a name in none of them is that of a declaration in both versions, and the first
declarations of that name are about as long.  A version does not differ from itself. -/
theorem ofSources_swap (t : Thresholds) (a b : List Char) :
    (ofSources t a b).added = (ofSources t b a).removed ∧
    (ofSources t a b).removed = (ofSources t b a).added ∧
    (ofSources t b a).modified.Perm (ofSources t a b).modified ∧
    ((ofSources t a b).added.Nodup ∧ (ofSources t a b).removed.Nodup ∧ (ofSources t a b).modified.Nodup) ∧
    ((ofSources t a b).added.Disjoint (ofSources t a b).removed ∧
      (ofSources t a b).added.Disjoint (ofSources t a b).modified ∧
      (ofSources t a b).removed.Disjoint (ofSources t a b).modified) ∧
    (∀ d, d ∈ declared a ∨ d ∈ declared b → d.identifier ∉ (ofSources t a b).added →
      d.identifier ∉ (ofSources t a b).removed → d.identifier ∉ (ofSources t a b).modified →
        ∃ c e, (declared a).find? (·.identifier == d.identifier) = some c ∧
          (declared b).find? (·.identifier == d.identifier) = some e ∧
            ((c.lineSpan - e.lineSpan).natAbs : Int) ≤ t.diffTolerance) ∧
    (0 ≤ t.diffTolerance → (ofSources t a a).isEmpty = true) := by
  have ha := nodup_spans (Outline.ofSource .typescript "a.ts" a)
  have hb := nodup_spans (Outline.ofSource .typescript "a.ts" b)
  rw [ofSources_eq t a b, ofSources_eq t b a, ofSources_eq t a a]
  refine ⟨rfl, rfl, modified_perm _ ha hb, ⟨nodup_removed t.diffTolerance hb, nodup_removed _ ha, nodup_modified _ ha⟩,
    ⟨?_, ?_, ?_⟩, ?_, isEmpty_ofSpans_self _ ha⟩
  · intro key hadded hremoved
    exact lengthOf_eq_none.1 ((mem_added _).1 hadded).2 ((mem_removed _).1 hremoved).1
  · intro key hadded hmodified
    obtain ⟨m, n, hm, -, -⟩ := (mem_modified _ ha).1 hmodified
    rw [((mem_added _).1 hadded).2] at hm
    cases hm
  · intro key hremoved hmodified
    obtain ⟨m, n, -, hn, -⟩ := (mem_modified _ ha).1 hmodified
    rw [((mem_removed _).1 hremoved).2] at hn
    cases hn
  · intro d hd hadded hremoved hmodified
    have hkey : d.identifier ∈ (spans (Outline.ofSource .typescript "a.ts" a)).map (·.1) ∨
        d.identifier ∈ (spans (Outline.ofSource .typescript "a.ts" b)).map (·.1) :=
      hd.imp (fun h => mem_spans.2 ⟨d, h, rfl⟩) (fun h => mem_spans.2 ⟨d, h, rfl⟩)
    obtain ⟨m, n, hm, hn, hle⟩ := alike_of_not_mem _ ha hkey hadded hremoved hmodified
    rw [lengthOf_spans] at hm hn
    obtain ⟨c, hc, rfl⟩ := Option.map_eq_some_iff.1 hm
    obtain ⟨e, he, rfl⟩ := Option.map_eq_some_iff.1 hn
    exact ⟨c, e, hc, he, hle⟩

end SourceBench.Comparison
