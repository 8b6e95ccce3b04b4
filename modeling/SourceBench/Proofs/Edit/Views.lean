import SourceBench.Edit.Document
import SourceBench.Proofs.Edit.Splices
import SourceBench.Proofs.Outline.Soundness

/-!
# Views of texts

The tree of a view is sound.  So its trees are below one another or apart, and those that are called by a name can be
replaced (`within_replace`, `lies_replace`).  A tree that no splice touches keeps its text (`kept_text`).
-/
namespace SourceBench

open List View Utf8

open Syntax

variable {text : List Char} {t u : Tree}

theorem Syntax.Tree.Coherent.cut (h : t.Coherent text) : Cut text t.start ∧ Cut text t.stop := by
  obtain ⟨before, after, hsource, hstart, hstop⟩ := h.written
  exact ⟨⟨before, Reading.textOf text t ++ after, by rw [← append_assoc]; exact hsource, hstart⟩,
    ⟨before ++ Reading.textOf text t, after, hsource, hstop⟩⟩

theorem Syntax.Tree.Coherent.size (h : t.Coherent text) : t.start + byteSize (Reading.textOf text t) = t.stop := by
  obtain ⟨before, after, -, hstart, hstop⟩ := h.written
  rw [← hstart, ← hstop, byteSize_append]

theorem Syntax.Tree.Coherent.occurs (h : t.Coherent text) : Reading.textOf text t <:+: text := by
  obtain ⟨before, after, hsource, -⟩ := h.written
  exact ⟨before, after, hsource.symm⟩

theorem Syntax.Tree.Coherent.stop_le (h : t.Coherent text) : t.stop ≤ (encode text).length := by
  obtain ⟨before, after, rfl, hstop⟩ := h.cut.2
  rw [length_encode, byteSize_append]
  omega

namespace View

variable [SoundRecovery]

theorem ofText_sound (text : List Char) : (ofText text).tree.Sound text := treeOf_sound text

theorem ofText_coherent (text : List Char) : ∀ t ∈ (ofText text).tree.nodes, t.Coherent text :=
  (ofText_sound text).coherent

theorem ofText_wellNamed (text : List Char) : WellNamed (ofText text).tree := (ofText_sound text).named

theorem ofText_children (text : List Char) : (ofText text).tree.children.Pairwise (fun u w => u.stop ≤ w.start) ∧
    ∀ u ∈ (ofText text).tree.children, u.start < u.stop :=
  ⟨(ofText_coherent text _ (Layout.self_mem_nodes _)).ordered, (ofText_sound text).solid⟩

theorem coherent_below (ht : t ∈ (ofText text).tree.children) : ∀ u ∈ t.nodes, u.Coherent text :=
  fun u hu => ofText_coherent text u (Layout.nodes_trans (Layout.mem_nodes_of_child ht) hu)

theorem ofText_closed (h : parse .typescript text = none → (ofText text).tree.Closed) : (ofText text).tree.Closed := by
  cases hparse : parse .typescript text with
  | none => exact h hparse
  | some root =>
    rw [show (ofText text).tree = root from treeOf_of_parse hparse]
    exact closed_of_parse hparse

variable {text : List Char} {t : Tree} (ht : t ∈ (ofText text).tree.nodes)

include ht

theorem children_of_isName (hk : isName t.kind) : t.children = [] := by
  cases t with
  | leaf r k s w => rfl
  | node r k s cs =>
    have := (ofText_wellNamed text r k s cs ht).noName
    rw [show isName k = true from hk] at this
    cases this

theorem not_below_name (hk : isName t.kind) : ¬ u.Below t := by
  rintro ⟨c, hc, -⟩
  rw [children_of_isName ht hk] at hc
  exact absurd hc not_mem_nil

theorem names_apart (hu : u ∈ (ofText text).tree.nodes)
    (hk : isName t.kind) (hk' : isName u.kind) : t = u ∨ t.stop ≤ u.start ∨ u.stop ≤ t.start := by
  rcases Tree.related (ofText_coherent text) ht hu with h | h | h | h
  · exact .inl h
  · exact absurd h (not_below_name ht hk)
  · exact absurd h (not_below_name hu hk')
  · exact .inr h

theorem inside_of_mem (hu : u ∈ t.nodes) : t.start ≤ u.start ∧ u.stop ≤ t.stop :=
  have hin := Tree.inside_of_mem_nodes (fun v hv => ofText_coherent text v (Layout.nodes_trans ht hv)) hu
  ⟨hin.1, hin.2.1⟩

theorem inside_of_below (hu : u.Below t) : t.start ≤ u.start ∧ u.stop ≤ t.stop := by
  obtain ⟨c, hc, hu⟩ := hu
  exact inside_of_mem ht (Layout.nodes_trans (Layout.mem_nodes_of_child hc) hu)

theorem isBracketed_of_below (hk : t.kind ∈ memberNames) (hu : u.Below t) : isBracketed t.kind := by
  simp only [memberNames, mem_cons, not_mem_nil, or_false] at hk
  have hno := fun hname => not_below_name ht hname hu
  rcases hk with hk | hk | hk | hk | hk <;> rw [hk] at hno ⊢ <;> first | rfl | exact absurd rfl hno

/-- Some tree is called by the old name, which is not empty where the tree was made of a source that breaks the
grammar. -/
theorem ne_nil_of_text (hk : t.kind ≠ .program) {name : String} (htext : Reading.textOf text t = name.toList)
    (hname : parse .typescript text = none → name ≠ "") : name ≠ "" := by
  cases h : parse .typescript text with
  | none => exact hname h
  | some root =>
    rintro rfl
    have htree : (ofText text).tree = root := treeOf_of_parse h
    have hsize := (ofText_coherent text t ht).size
    have hlt := (placed_of_parse h (htree ▸ ht) hk).start_lt_stop
    rw [htext] at hsize
    exact absurd hsize (Nat.ne_of_lt hlt)

theorem stop_le_length : t.stop ≤ (encode text).length := (ofText_coherent text t ht).stop_le

theorem within_replace (new : List Char) : (Splice.replace t.start t.stop new).Within (encode text).length :=
  ⟨Int.natCast_nonneg _, Int.ofNat_le.2 (ofText_coherent text t ht).start_le_stop, Int.ofNat_le.2 (stop_le_length ht)⟩

theorem lies_replace {name : String} (htext : Reading.textOf text t = name.toList) (hname : name ≠ "")
    (new : List Char) :
    (Splice.replace t.start t.stop new).Lies (encode text).length := by
  have hsize := (ofText_coherent text t ht).size
  have hpos : 0 < byteSize (Reading.textOf text t) := by
    rw [htext]
    exact byteSize_pos (mt String.toList_eq_nil_iff.1 hname)
  exact ⟨Int.natCast_nonneg _, Int.ofNat_lt.2 (by omega), Int.ofNat_le.2 (stop_le_length ht)⟩

/-- **A tree that no splice touches keeps its text**, where the splices move it to. -/
theorem kept_text {ss : List Splice} (h : Splice.Tidy (encode text).length ss)
    (hout : ∀ s ∈ ss, s.stop ≤ t.start ∨ (t.stop : Int) ≤ s.start) :
    slicePart (Splice.applyAll ss (encode text)) (Splice.moved ss t.start) (Splice.moved ss t.stop)
      = encode (Reading.textOf text t) := by
  have hcoherent := ofText_coherent text t ht
  rw [Splice.applyAll_kept h hcoherent.start_le_stop (stop_le_length ht) hout, hcoherent.bytes]

end View
end SourceBench
