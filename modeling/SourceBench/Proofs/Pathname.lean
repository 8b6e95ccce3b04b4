import SourceBench.Pathname
import SourceBench.Proofs.Text.Lines

/-!
# Path names as text

A path name whose names are proper is read back from its text (`ofString_text`).
-/
namespace SourceBench

open List

variable {ps : List String} {c : Char} {cs : List Char}

/-- A name that leads to one thing in a folder. -/
def IsName (n : String) : Prop := n ≠ "" ∧ n ≠ "." ∧ n ≠ ".." ∧ '/' ∉ n.toList

instance (n : String) : Decidable (IsName n) := inferInstanceAs (Decidable (_ ∧ _))

namespace Pathname

theorem join_eq_intercalate (mark : List Char) : ∀ ls : List (List Char), Text.join mark ls = mark.intercalate ls
  | [] => rfl
  | [l] => by simp [Text.join]
  | l :: m :: ls => by
    rw [Text.join, join_eq_intercalate mark (m :: ls)]
    simp [append_assoc]

theorem partsOf_intercalate (hne : ps ≠ []) (hnames : ∀ p ∈ ps, IsName p) :
    partsOf ("/".intercalate ps).toList = ps := by
  have hsplit : Text.splitOn '/' ("/".intercalate ps).toList = ps.map String.toList := by
    rw [String.toList_intercalate, ← join_eq_intercalate]
    refine Text.splitOn_join (by simpa using hne) fun l hl => ?_
    obtain ⟨p, hp, rfl⟩ := mem_map.1 hl
    exact (hnames p hp).2.2.2
  have hkept : (ps.map String.toList).filter (fun p => !p.isEmpty && p != ['.']) = ps.map String.toList := by
    refine filter_eq_self.2 fun l hl => ?_
    obtain ⟨p, hp, rfl⟩ := mem_map.1 hl
    have hempty : p.toList ≠ [] := fun h => (hnames p hp).1 (String.toList_inj.1 h)
    have hdot : p.toList ≠ ['.'] := fun h => (hnames p hp).2.1 (String.toList_inj.1 h)
    simp [hempty, hdot]
  rw [partsOf, hsplit, hkept, map_map]
  exact (map_congr_left fun p _ => String.ofList_toList).trans (map_id ps)

theorem intercalate_head (hne : ps ≠ []) (hnames : ∀ p ∈ ps, IsName p) :
    ∃ c cs, ("/".intercalate ps).toList = c :: cs ∧ c ≠ '/' := by
  obtain ⟨p, ps, rfl⟩ := exists_cons_of_ne_nil hne
  have hp := hnames p mem_cons_self
  obtain ⟨c, cs, hcs⟩ := exists_cons_of_ne_nil (show p.toList ≠ [] from fun h => hp.1 (String.toList_inj.1 h))
  refine ⟨c, ?_⟩
  have hc : c ≠ '/' := fun h => hp.2.2.2 (by rw [hcs, h]; exact mem_cons_self)
  rw [String.toList_intercalate, ← join_eq_intercalate, map_cons, hcs]
  cases ps with
  | nil => exact ⟨cs, rfl, hc⟩
  | cons q ps => exact ⟨_, rfl, hc⟩

theorem rootOf_name (h : c ≠ '/') : rootOf (c :: cs) = .here := by
  unfold rootOf
  split
  · next heq => exact absurd (cons.inj heq).1 h
  · next heq => exact absurd (cons.inj heq).1 h
  · next heq => exact absurd (cons.inj heq).1 h
  · rfl

theorem rootOf_slash (h : c ≠ '/') : rootOf ('/' :: c :: cs) = .slash := by
  unfold rootOf
  split
  · rfl
  · next heq => exact absurd (cons.inj (cons.inj heq).2).1 h
  · rfl
  · next heq => exact absurd rfl (heq _)

theorem partsOf_slash (cs : List Char) : partsOf ('/' :: cs) = partsOf cs := by
  rw [partsOf, show Text.splitOn '/' ('/' :: cs) = [] :: Text.splitOn '/' cs from
    Text.splitOn_append_mark (not_mem_nil) cs]
  rfl

theorem text_toList {root : Root} (hne : ps ≠ []) :
    (text ⟨root, ps⟩).toList = root.text.toList ++ ("/".intercalate ps).toList := by
  obtain ⟨n, ps, rfl⟩ := exists_cons_of_ne_nil hne
  rw [← String.toList_append]
  cases root <;> rfl

theorem ofString_text {p : Pathname} (hroot : p.root ≠ .twoSlashes) (hne : p.parts ≠ [])
    (hnames : ∀ n ∈ p.parts, IsName n) :
    ofString p.text = p := by
  obtain ⟨root, ps⟩ := p
  dsimp only at hroot hne hnames
  obtain ⟨c, cs, hcs, hc⟩ := intercalate_head hne hnames
  have hparts := partsOf_intercalate hne hnames
  rw [hcs] at hparts
  rw [ofString, text_toList hne, hcs]
  cases root with
  | here => exact congrArg₂ mk (rootOf_name hc) hparts
  | slash => exact congrArg₂ mk (rootOf_slash hc) ((partsOf_slash _).trans hparts)
  | twoSlashes => exact absurd rfl hroot

theorem ofString_name {n : String} (h : IsName n) : ofString n = ⟨.here, [n]⟩ := by
  have := @ofString_text ⟨.here, [n]⟩ (fun h => by cases h) (cons_ne_nil n []) (by simpa using h)
  rwa [show text ⟨.here, [n]⟩ = n by simp [text, Root.text]] at this

end Pathname
end SourceBench
