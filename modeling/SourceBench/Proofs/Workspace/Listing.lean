import Mathlib.Data.List.Sort
import Mathlib.Data.String.Basic
import SourceBench.Proofs.Text.Order
import SourceBench.Proofs.Workspace.Store
import SourceBench.Workspace.Listing

/-!
# Source files below a folder

The order of paths is the one of lists of names (`partsBefore_iff`), and putting paths in order is insertion sort
(`sortParts_eq`).  A path is listed if and only if it leads to a source file that is in no ignored folder (`mem_below`).
No two passes find the same file, as no name ends in two extensions (`extension_unique`).
-/
namespace SourceBench.Listing

open List

variable {s : Store} {p : Pathname} {place rest : List String} {e e' : String}

/-! ## The order of paths -/

theorem partsBefore_iff : ∀ a b : List String, partsBefore a b ↔ a < b
  | [], [] => by simp [partsBefore]
  | [], _ :: _ => by simp [partsBefore]
  | _ :: _, [] => by simp [partsBefore]
  | a :: r, b :: t => by
    rw [cons_lt_cons_iff, ← partsBefore_iff r t, String.lt_iff_toList_lt, ← Text.before_iff_lt]
    simp [partsBefore]

theorem insertParts_eq (p : List String) : ∀ qs : List (List String), insertParts p qs = qs.orderedInsert (· ≤ ·) p
  | [] => rfl
  | q :: qs => by
    rw [insertParts, orderedInsert, insertParts_eq p qs]
    by_cases h : q < p
    · rw [if_pos ((partsBefore_iff q p).2 h), if_neg (not_le.2 h)]
    · rw [if_neg (mt (partsBefore_iff q p).1 h), if_pos (not_lt.1 h)]

theorem sortParts_eq : ∀ ps : List (List String), sortParts ps = ps.insertionSort (· ≤ ·)
  | [] => rfl
  | p :: ps => by
    rw [insertionSort_cons, ← sortParts_eq ps, ← insertParts_eq]
    rfl

/-! ## What is listed -/

def EndsIn (e : String) (rest : List String) : Prop := e.toList <:+ (rest.getLast?.getD "").toList

instance (e : String) (rest : List String) : Decidable (EndsIn e rest) := inferInstanceAs (Decidable (_ <:+ _))

/-- The names lead to a source file: it ends as one, and no name on the way is that of an ignored folder. -/
def IsSource (rest : List String) : Prop := (∃ e ∈ extensions, EndsIn e rest) ∧ ∀ n ∈ rest, n ∉ ignoredNames

instance (rest : List String) : Decidable (IsSource rest) := inferInstanceAs (Decidable (_ ∧ _))

/-- **No name ends in two extensions**, as none of them ends in another. -/
theorem extension_unique (he : e ∈ extensions) (he' : e' ∈ extensions) (h : EndsIn e rest) (h' : EndsIn e' rest) :
    e = e' := by
  have hends : ∀ e ∈ extensions, ∀ e' ∈ extensions, e.toList <:+ e'.toList → e = e' := by decide
  rcases suffix_or_suffix_of_suffix h h' with hsuffix | hsuffix
  · exact hends e he e' he' hsuffix
  · exact (hends e' he' e he hsuffix).symm

theorem rest_eq_some {q : List String} : (if place.isPrefixOf q &&
    e.toList.isSuffixOf ((q.drop place.length).getLast?.getD "").toList &&
      !(q.drop place.length).any (ignoredNames.contains ·) then some (q.drop place.length) else none) = some rest ↔
      q = place ++ rest ∧ EndsIn e rest ∧ ∀ n ∈ rest, n ∉ ignoredNames := by
  simp only [Option.ite_none_right_eq_some, Option.some.injEq, Bool.and_eq_true, isPrefixOf_iff_prefix,
    Bool.not_eq_true', any_eq_false, contains_iff_mem, isSuffixOf_iff_suffix, EndsIn]
  constructor
  · rintro ⟨⟨⟨⟨r, rfl⟩, hext⟩, hnames⟩, rfl⟩
    rw [drop_left] at hext hnames ⊢
    exact ⟨rfl, hext, hnames⟩
  · rintro ⟨rfl, hext, hnames⟩
    rw [drop_left]
    exact ⟨⟨⟨prefix_append .., hext⟩, hnames⟩, rfl⟩

theorem mem_files (hs : s.WellFormed) {q : List String} {b : Bytes} :
    (q, b) ∈ s.files ↔ s.find? q = some (.file b) := by
  rw [Store.files, mem_filterMap]
  constructor
  · rintro ⟨⟨r, e⟩, hmem, h⟩
    cases e with
    | folder => cases h
    | file b' =>
      cases h
      exact hs.find?_of_mem hmem
  · intro h
    exact ⟨(q, .file b), Store.mem_of_find? (by rintro rfl; cases h) h, rfl⟩

theorem mem_pass (hs : s.WellFormed) : rest ∈ pass s place e ↔
    (∃ b, s.find? (place ++ rest) = some (.file b)) ∧ EndsIn e rest ∧ ∀ n ∈ rest, n ∉ ignoredNames := by
  simp only [pass, mem_filterMap, rest_eq_some, Prod.exists, mem_files hs]
  constructor
  · rintro ⟨_, b, h, rfl, hrest⟩
    exact ⟨⟨b, h⟩, hrest⟩
  · rintro ⟨⟨b, h⟩, hrest⟩
    exact ⟨_, b, h, rfl, hrest⟩

theorem mem_below (hs : s.WellFormed) :
    rest ∈ below s place ↔ (∃ b, s.find? (place ++ rest) = some (.file b)) ∧ IsSource rest := by
  simp only [below, mem_flatMap, mem_pass hs, IsSource]
  grind

theorem nodup_pass (hs : s.WellFormed) (place : List String) (e : String) : (pass s place e).Nodup := by
  have hfiles : s.files.Pairwise fun x y => x.1 ≠ y.1 := by
    refine (pairwise_map.1 hs.nodup).filterMap _ fun x y hxy => ?_
    obtain ⟨q, _ | _⟩ := x <;> obtain ⟨r, _ | _⟩ := y <;> simp_all
  refine hfiles.filterMap _ fun x y hxy r hr t ht hrt => hxy ?_
  rw [(rest_eq_some.1 hr).1, (rest_eq_some.1 ht).1, hrt]

theorem nodup_below (hs : s.WellFormed) (place : List String) : (below s place).Nodup := by
  have hdistinct : extensions.Nodup := by decide
  refine nodup_flatMap.2 ⟨fun e _ => nodup_pass hs place e, hdistinct.imp_of_mem fun he he' hne rest h h' => hne ?_⟩
  exact extension_unique he he' ((mem_pass hs).1 h).2.1 ((mem_pass hs).1 h').2.1

/-- **Listing finds exactly the source files below a folder**, each once, in the order of the names along their
paths. -/
theorem sources_exact (hs : s.WellFormed) (hplace : s.locate p = .ok place) (hfolder : s.find? place = some .folder) :
    (∀ x, x ∈ sources s p ↔ ∃ rest, x = ⟨p.root, p.parts ++ rest⟩ ∧
      (∃ b, s.find? (place ++ rest) = some (.file b)) ∧ IsSource rest) ∧
    (sources s p).Pairwise (·.parts < ·.parts) := by
  have hsources : sources s p = ((below s place).insertionSort (· ≤ ·)).map fun rest => ⟨p.root, p.parts ++ rest⟩ := by
    rw [sources, hplace]
    dsimp only
    rw [hfolder, sortParts_eq]
  rw [hsources]
  constructor
  · intro x
    simp only [mem_map, mem_insertionSort, mem_below hs]
    exact exists_congr fun rest => by rw [and_comm, eq_comm]
  · have hsorted := pairwise_insertionSort (· ≤ ·) (below s place)
    have hnodup := (perm_insertionSort (· ≤ ·) (below s place)).nodup_iff.2 (nodup_below hs place)
    refine pairwise_map.2 ((hsorted.and hnodup).imp fun h => ?_)
    exact Lex.append_left (· < ·) (lt_of_le_of_ne h.1 h.2) p.parts

/-- A folder with sources at two depths, one beside them that is none and one in an ignored folder. -/
def sampleStore : Store := ⟨[], [(["src"], .folder), (["src", "b.ts"], .file []), (["src", "a"], .folder),
  (["src", "a", "c.d.ts"], .file []), (["src", "x.js"], .file []), (["src", "dist"], .folder),
    (["src", "dist", "d.ts"], .file [])]⟩

theorem sources_exact_sample : sampleStore.WellFormed ∧
    (⟨.here, ["src", "b.ts"]⟩ ∈ sources sampleStore ⟨.here, ["src"]⟩) ∧
    sources sampleStore ⟨.here, ["src"]⟩ = [⟨.here, ["src", "a", "c.d.ts"]⟩, ⟨.here, ["src", "b.ts"]⟩] := by
  have hs : sampleStore.WellFormed := by decide
  have hplace : sampleStore.locate ⟨.here, ["src"]⟩ = .ok ["src"] := rfl
  exact ⟨hs, ((sources_exact hs hplace rfl).1 _).2 ⟨["b.ts"], rfl, ⟨[], rfl⟩, by decide⟩, by decide⟩

end SourceBench.Listing
