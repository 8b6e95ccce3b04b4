import SourceBench.Proofs.Edit.ImportSwap
import SourceBench.Proofs.Syntax.KnownText

/-!
# The place of an added import

An added import stands between two statements of the source, or joins one that imports already, and every other
statement is before it or behind it (`parted`).  It changes a stretch of bytes at its place and nothing else
(`after_seated`).
-/
namespace SourceBench

open List Utf8 Layout View Option Bool

open Syntax
open Utf8 (Cut cut_zero cut_length)

namespace Imports

variable {u : Tree} {v : View} {n a z : Nat} {g : Gap}

/-! ## The place of an import -/

def joined (v : View) (op : AddImport) : Option Tree := ((statements v).find? (·.2 == op.source)).map (·.1)

/-- The bytes of the statement that an import joins, or those that give way to a new one. -/
def seat (bytes : Bytes) (v : View) (op : AddImport) : Nat × Nat :=
  match joined v op with
  | some t => (t.start, t.stop)
  | none => (((tableOf bytes v).gap op.source).start, ((tableOf bytes v).gap op.source).stop)

def ahead (bytes : Bytes) (v : View) (op : AddImport) : List Tree :=
  v.tree.namedChildren.filter (·.stop ≤ (seat bytes v op).1)

def behind (bytes : Bytes) (v : View) (op : AddImport) : List Tree :=
  v.tree.namedChildren.filter ((seat bytes v op).2 ≤ ·.start)

def Queued (l : List Tree) : Prop := l.Pairwise (fun u w => u.stop ≤ w.start) ∧ ∀ u ∈ l, u.start < u.stop

theorem Queued.tail {l : List Tree} (h : Queued (u :: l)) : Queued l :=
  ⟨(pairwise_cons.1 h.1).2, fun w hw => h.2 w (mem_cons_of_mem _ hw)⟩

variable {l : List Tree} {t : Tree} {op : AddImport} {text : List Char}

theorem Queued.le_of_mem {w : Tree} (h : Queued (u :: l)) (hw : w ∈ l) : u.stop ≤ w.start :=
  (pairwise_cons.1 h.1).1 w hw

theorem Queued.filter_behind {m : Nat} (h : Queued (u :: l)) (hn : n < u.stop) (hm : m ≤ u.stop) :
    l.filter (fun w => decide (w.stop ≤ n)) = [] ∧ l.filter (fun w => decide (m ≤ w.start)) = l := by
  refine ⟨filter_eq_nil_iff.2 fun w hw => ?_, filter_eq_self.2 fun w hw => ?_⟩
  · have := h.le_of_mem hw
    have := h.tail.2 w hw
    simp only [decide_eq_true_eq]
    omega
  · have := h.le_of_mem hw
    simp only [decide_eq_true_eq]
    omega

theorem Queued.split_at : ∀ {l : List Tree}, Queued l → ∀ {n m : Nat}, n ≤ m → (∀ u ∈ l, u.stop ≤ n ∨ m ≤ u.start) →
    l = l.filter (fun u => decide (u.stop ≤ n)) ++ l.filter (fun u => decide (m ≤ u.start))
  | [], _, _, _, _, _ => rfl
  | u :: l, h, n, m, hnm, hcut => by
    have hu := h.2 u mem_cons_self
    rcases hcut u mem_cons_self with hle | hle
    · have hnot : ¬m ≤ u.start := by omega
      rw [filter_cons_of_pos (by simpa using hle), filter_cons_of_neg (by simpa using hnot), cons_append,
        ← h.tail.split_at hnm fun w hw => hcut w (mem_cons_of_mem _ hw)]
    · have hnot : ¬u.stop ≤ n := by omega
      obtain ⟨hnil, hself⟩ := h.filter_behind (n := n) (m := m) (by omega) (by omega)
      rw [filter_cons_of_neg (by simpa using hnot), filter_cons_of_pos (by simpa using hle), hnil, hself]
      rfl

theorem Queued.split_around : ∀ {l : List Tree}, Queued l → ∀ {t : Tree}, t ∈ l →
    l = l.filter (fun u => decide (u.stop ≤ t.start)) ++ t :: l.filter (fun u => decide (t.stop ≤ u.start))
  | [], _, _, ht => absurd ht not_mem_nil
  | u :: l, h, t, ht => by
    have hu := h.2 u mem_cons_self
    have ht' := h.2 t ht
    rcases mem_cons.1 ht with rfl | htl
    · obtain ⟨hnil, hself⟩ := h.filter_behind (n := t.start) (m := t.stop) hu (Nat.le_refl _)
      have hnot : ¬t.stop ≤ t.start := by omega
      rw [filter_cons_of_neg (by simpa using hnot), filter_cons_of_neg (by simpa using hnot), hnil, hself]
      rfl
    · have hle := h.le_of_mem htl
      have hnot : ¬t.stop ≤ u.start := by omega
      rw [filter_cons_of_pos (by simpa using hle), filter_cons_of_neg (by simpa using hnot), cons_append,
        ← h.tail.split_around htl]

theorem Queued.apart (h : Queued l) (ht : t ∈ l) (hu : u ∈ l) : u = t ∨ u.stop ≤ t.start ∨ t.stop ≤ u.start := by
  rw [h.split_around ht, mem_append, mem_cons] at hu
  rcases hu with hu | rfl | hu
  · exact .inr (.inl (by simpa using (mem_filter.1 hu).2))
  · exact .inl rfl
  · exact .inr (.inr (by simpa using (mem_filter.1 hu).2))

theorem queued_ofText [SoundRecovery] (text : List Char) : Queued (View.ofText text).tree.children :=
  View.ofText_children text

theorem Queued.named (h : Queued t.children) : Queued t.namedChildren :=
  ⟨h.1.filter _, fun u hu => h.2 u (mem_of_mem_filter hu)⟩

theorem mem_statements {m : String} (h : (t, m) ∈ statements v) :
    t ∈ v.tree.namedChildren ∧ t.kind = .importStatement := by
  obtain ⟨u, hu, hm⟩ := mem_filterMap.1 h
  obtain ⟨s, -, hs⟩ := map_eq_some_iff.1 hm
  cases hs
  obtain ⟨hmem, hkind⟩ := mem_filter.1 hu
  exact ⟨hmem, beq_iff_eq.1 hkind⟩

theorem mem_of_joined (h : joined v op = some t) : t ∈ v.tree.namedChildren ∧ t.kind = .importStatement := by
  obtain ⟨p, hp, rfl⟩ := map_eq_some_iff.1 h
  exact mem_statements (mem_of_find?_eq_some hp)

/-! ## Sources without statements -/

theorem of_isSpace_ofNat (hn : n < 256) (h : Bytes.isSpace (UInt8.ofNat n)) : 9 ≤ n ∧ n ≤ 13 ∨ n = 32 := by
  simp only [Bytes.isSpace, or_eq_true, and_eq_true, decide_eq_true_eq, beq_iff_eq, UInt8.le_iff_toNat_le,
    ← UInt8.toNat_inj, toNat_ofNat_lt hn] at h
  exact h

theorem toNat_of_isSpace {c : Char} (h : ∀ b ∈ encodeChar c, Bytes.isSpace b) :
    9 ≤ c.toNat ∧ c.toNat ≤ 13 ∨ c.toNat = 32 := by
  have hc : c.toNat < 0x110000 := by
    rcases c.valid with hv | hv
    · exact Nat.lt_trans hv (by decide)
    · exact hv.2
  unfold encodeChar at h
  generalize c.toNat = n at h hc
  dsimp only at h
  split at h
  · exact of_isSpace_ofNat (by omega) (h _ mem_cons_self)
  -- A first byte of more than one is no white space.
  split at h
  · have := of_isSpace_ofNat (by omega) (h _ mem_cons_self)
    omega
  split at h
  · have := of_isSpace_ofNat (by omega) (h _ mem_cons_self)
    omega
  · have := of_isSpace_ofNat (by omega) (h _ mem_cons_self)
    omega

theorem blank_of_all_isSpace (h : (encode text).all Bytes.isSpace) : ∀ c ∈ text, isBlank c ∧ Text.isSpace c := by
  intro c hc
  have hn := toNat_of_isSpace fun b hb => all_eq_true.1 h b (mem_flatMap.2 ⟨c, hc, hb⟩)
  simp only [isBlank, Text.isSpace, or_eq_true, and_eq_true, decide_eq_true_eq, beq_iff_eq]
  omega

theorem children_of_blank [Recovery] (h : (encode text).all Bytes.isSpace) : (ofText text).tree.children = [] := by
  obtain ⟨e, hparse⟩ := parse_blank .typescript fun c hc => (blank_of_all_isSpace h c hc).1
  show (treeOf .typescript text).children = []
  rw [treeOf_of_parse hparse]
  rfl

/-! ## Texts between cuts -/

theorem encode_between (ha : Cut text a) (hz : Cut text z) (haz : a ≤ z) (new : List Char) :
    ∃ result, (encode text).take a ++ encode new ++ (encode text).drop z = encode result := by
  obtain ⟨before, middle, after, rfl, rfl, rfl⟩ := ha.split hz haz
  refine ⟨before ++ new ++ after, ?_⟩
  rw [encode_append (before ++ middle), ← length_encode (before ++ middle), drop_left, encode_append before,
    append_assoc (encode before), ← length_encode before, take_left, encode_append, encode_append]

/-! ## The gap for a new import -/

/-- The place for a new import: before or behind one, or, where there are none, at the top, between two statements. -/
inductive Gap.Stands (v : View) : Gap → Prop
  | before {t : Tree} {m : String} {lead trail : List Char} (ht : (t, m) ∈ statements v) :
      Gap.Stands v ⟨t.start, t.start, lead, trail⟩
  | behind {t : Tree} {m : String} {lead trail : List Char} (ht : (statements v).getLast? = some (t, m)) :
      Gap.Stands v ⟨t.stop, t.stop, lead, trail⟩
  | top {g : Gap} (h : statements v = []) (hle : g.start ≤ g.stop) (hcut : Cut v.text g.start ∧ Cut v.text g.stop)
      (hg : ∀ u ∈ v.tree.children, u.stop ≤ g.start ∨ g.stop ≤ u.start) : Gap.Stands v g

theorem topOf_stands [SoundRecovery] (h : statements (ofText text) = []) :
    Gap.Stands (ofText text) (topOf (encode text) (ofText text)) := by
  unfold topOf
  split
  · rename_i t ht
    have htmem := (takeWhile_sublist _).subset (mem_of_getLast? ht)
    have hcut := (ofText_coherent text t (mem_nodes_of_child htmem)).cut.2
    refine .top h (Nat.le_refl _) ⟨hcut, hcut⟩ fun u hu => ?_
    have hlt := (queued_ofText text).2 u hu
    have hlt' := (queued_ofText text).2 t htmem
    rcases (queued_ofText text).apart htmem hu with rfl | h | h
    · exact .inl (Nat.le_refl _)
    · exact .inl (by dsimp only; omega)
    · exact .inr h
  · split
    · rename_i hblank
      refine .top h (Nat.zero_le _) ⟨cut_zero text, cut_length text⟩ fun u hu => ?_
      rw [children_of_blank hblank] at hu
      exact absurd hu not_mem_nil
    · exact .top h (Nat.le_refl _) ⟨cut_zero text, cut_zero text⟩ fun u _ => .inr (Nat.zero_le _)

theorem gap_stands [SoundRecovery] (text : List Char) (source : String) :
    Gap.Stands (ofText text) ((tableOf (encode text) (ofText text)).gap source) := by
  simp only [Table.gap, tableOf, find?_map, getLast?_map]
  cases hfind : (statements (ofText text)).find? _ with
  | some p => exact .before (mem_of_find?_eq_some hfind)
  | none =>
    cases hlast : (statements (ofText text)).getLast? with
    | some p =>
      have hmem := mem_children_of_mem_statements (m := p.2) (mem_of_getLast? hlast)
      have hlt := (queued_ofText text).2 p.1 hmem
      have hstop : (standingOf (ofText text) p.1 p.2).stop = p.1.stop := by
        show p.1.start + (p.1.stop - p.1.start) = p.1.stop
        omega
      simp only [map_none, map_some, Standing.behind, hstop]
      exact .behind hlast
    | none => exact topOf_stands (getLast?_eq_none_iff.1 hlast)

theorem Gap.Stands.apart (h : Gap.Stands v g) (hv : Queued v.tree.children) :
    g.start ≤ g.stop ∧ ∀ u ∈ v.tree.children, u.stop ≤ g.start ∨ g.stop ≤ u.start := by
  cases h with
  | before ht =>
    refine ⟨Nat.le_refl _, fun u hu => ?_⟩
    have := hv.2 u hu
    rcases hv.apart (mem_children_of_mem_statements ht) hu with rfl | h | h
    · exact .inr (Nat.le_refl _)
    · exact .inl h
    · have := hv.2 _ (mem_children_of_mem_statements ht)
      exact .inr (by dsimp only; omega)
  | behind ht =>
    refine ⟨Nat.le_refl _, fun u hu => ?_⟩
    have hmem := mem_children_of_mem_statements (mem_of_getLast? ht)
    have := hv.2 u hu
    rcases hv.apart hmem hu with rfl | h | h
    · exact .inl (Nat.le_refl _)
    · have := hv.2 _ hmem
      exact .inl (by dsimp only; omega)
    · exact .inr h
  | top _ hle _ hg => exact ⟨hle, hg⟩

theorem Gap.Stands.cut [SoundRecovery] {text : List Char} (h : Gap.Stands (ofText text) g) :
    Cut text g.start ∧ Cut text g.stop := by
  have hmem : ∀ {t : Tree} {m : String}, (t, m) ∈ statements (ofText text) → Cut text t.start ∧ Cut text t.stop :=
    fun ht => (ofText_coherent text _ (mem_nodes_of_child (mem_children_of_mem_statements ht))).cut
  cases h with
  | before ht => exact ⟨(hmem ht).1, (hmem ht).1⟩
  | behind ht => exact ⟨(hmem (mem_of_getLast? ht)).2, (hmem (mem_of_getLast? ht)).2⟩
  | top _ _ hcut _ => exact hcut

/-- **An import stands between two statements or in one**: the others are before it or behind it. -/
theorem parted [SoundRecovery] (text : List Char) (op : AddImport) :
    (ofText text).tree.namedChildren = ahead (encode text) (ofText text) op
      ++ (joined (ofText text) op).toList ++ behind (encode text) (ofText text) op := by
  have hqueued := (queued_ofText text).named
  unfold ahead behind seat
  cases hjoined : joined (ofText text) op with
  | some t =>
    simp only [toList_some, append_assoc, singleton_append]
    exact hqueued.split_around (mem_of_joined hjoined).1
  | none =>
    obtain ⟨hle, hapart⟩ := (gap_stands text op.source).apart (queued_ofText text)
    simp only [toList_none, append_nil]
    exact hqueued.split_at hle fun u hu => hapart u (mem_of_mem_filter hu)

/-! ## The bytes of the result -/

def Room.All (P : Nat → Prop) : Room → Prop
  | behindNames p => P p
  | emptyBraces a z => P a ∧ P z
  | behindDefault p => P p
  | nowhere => True

theorem extension_places {σ : Standing} {P : Nat → Prop} (hroom : σ.room.All P) (hzero : P 0) (hlength : P σ.length)
    (h : σ.extension op = .ok (some (a, z, text))) : P a ∧ P z := by
  have hspan := extension_span h
  cases hr : σ.room <;> rw [hr] at hspan hroom <;> cases hspan
  · exact ⟨hroom, hroom⟩
  · exact hroom
  · exact ⟨hroom, hroom⟩
  · exact ⟨hzero, hlength⟩

theorem roomOf_cut (ht : ∀ u ∈ t.nodes, u.Coherent text) : (roomOf t).All fun p => Cut text (t.start + p) := by
  have hstop : ∀ u ∈ t.nodes, Cut text (t.start + (u.stop - t.start)) := fun u hu => by
    have hin := Tree.places_of_mem ht hu
    rw [Nat.add_sub_cancel' (by omega)]
    exact (ht u hu).cut.2
  unfold roomOf
  simp only
  split
  · rename_i _ named hnamed
    have hmem := mem_nodes_of_clausePart hnamed
    split
    · rename_i last hlast
      exact hstop last (mem_nodes_of_specifier hnamed (mem_of_getLast? hlast))
    · refine ⟨?_, hstop named hmem⟩
      dsimp only
      rw [Nat.add_sub_cancel' (Tree.places_of_mem ht hmem).1]
      exact (ht named hmem).cut.1
  · rename_i default _ hdefault
    exact hstop default (mem_nodes_of_clausePart hdefault)
  · trivial

/-- The change lies in its seat, and its ends are cuts of the text. -/
structure Change.Seated (e : Change) (text : List Char) (seat : Nat × Nat) : Prop where
  start_le : seat.1 ≤ e.start
  ordered : e.start ≤ e.stop
  stop_le : e.stop ≤ seat.2
  start_cut : Cut text e.start
  stop_cut : Cut text e.stop

theorem find?_standing (bytes : Bytes) (v : View) (source : String) :
    (tableOf bytes v).standing.find? (·.source == source)
      = ((statements v).find? (·.2 == source)).map fun p => standingOf v p.1 p.2 := by
  rw [tableOf, find?_map]
  rfl

theorem ask_seated [SoundRecovery] {e : Change} (h : (tableOf (encode text) (ofText text)).ask op = .ok (some e)) :
    e.Seated text (seat (encode text) (ofText text) op) := by
  rw [Table.ask, find?_standing] at h
  unfold seat joined
  cases hfind : (statements (ofText text)).find? (·.2 == op.source) with
  | some p =>
    rw [hfind] at h
    obtain ⟨x, hx, hxe⟩ := exists_of_map_eq_ok h
    obtain ⟨⟨a, z, new⟩, rfl, rfl⟩ := map_eq_some_iff.1 hxe
    have hmem := mem_children_of_mem_statements (m := p.2) (mem_of_find?_eq_some hfind)
    have hlt := (queued_ofText text).2 p.1 hmem
    have hnodes := coherent_below hmem
    obtain ⟨hstart, hstop⟩ := (hnodes p.1 (self_mem_nodes _)).cut
    obtain ⟨haz, hz⟩ := extension_within (σ := standingOf (ofText text) p.1 p.2) (roomOf_within hnodes) hx
    have hz : z ≤ p.1.stop - p.1.start := hz
    obtain ⟨hcut, hcut'⟩ := extension_places (σ := standingOf (ofText text) p.1 p.2)
      (P := fun n => Cut text (p.1.start + n)) (roomOf_cut hnodes) hstart (by
        show Cut text (p.1.start + (p.1.stop - p.1.start))
        rwa [Nat.add_sub_cancel' hlt.le]) hx
    refine ⟨Nat.le_add_right _ _, ?_, ?_, hcut, hcut'⟩
    · show p.1.start + a ≤ p.1.start + z
      omega
    · show p.1.start + z ≤ p.1.stop
      omega
  | none =>
    rw [hfind] at h
    obtain ⟨statement, -, hfill⟩ := exists_of_map_eq_ok h
    cases hfill
    have hstands := gap_stands text op.source
    exact ⟨Nat.le_refl _, (hstands.apart (queued_ofText text)).1, Nat.le_refl _, hstands.cut.1, hstands.cut.2⟩

theorem seat_le [SoundRecovery] (text : List Char) (op : AddImport) :
    (seat (encode text) (ofText text) op).1 ≤ (seat (encode text) (ofText text) op).2 := by
  unfold seat
  cases h : joined (ofText text) op with
  | some t => exact ((queued_ofText text).2 t (mem_of_mem_filter (mem_of_joined h).1)).le
  | none => exact ((gap_stands text op.source).apart (queued_ofText text)).1

/-- **What an import does to bytes**: it changes a stretch in its seat, if anything. -/
theorem after_seated [SoundRecovery] {x : Option Change} (h : (tableOf (encode text) (ofText text)).ask op = .ok x) :
    ∃ a z new result, (seat (encode text) (ofText text) op).1 ≤ a ∧ a ≤ z ∧
      z ≤ (seat (encode text) (ofText text) op).2 ∧ after x (encode text) = encode result ∧
      encode result = (encode text).take a ++ encode new ++ (encode text).drop z := by
  cases x with
  | none =>
    refine ⟨_, _, [], text, Nat.le_refl _, Nat.le_refl _, seat_le text op, rfl, ?_⟩
    rw [show encode [] = [] from rfl, append_nil, take_append_drop]
  | some e =>
    have hseated := ask_seated h
    obtain ⟨result, hresult⟩ := encode_between hseated.start_cut hseated.stop_cut hseated.ordered e.text
    exact ⟨e.start, e.stop, e.text, result, hseated.start_le, hseated.ordered, hseated.stop_le, hresult, hresult.symm⟩

end Imports
end SourceBench
