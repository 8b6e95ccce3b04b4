import Mathlib.Algebra.BigOperators.Group.List.Basic
import Mathlib.Algebra.Ring.Int.Defs
import Mathlib.Data.List.Pairwise
import SourceBench.Edit.Splice
import SourceBench.Proofs.Text.Utf8

/-!
# Splices that lie apart

Splices are made from the back to the front.  Where they lie apart, the order in which they are given does not matter,
and the result can be told from them: a stretch that no splice touches is in the result, `moved` by the splices before
it (`applyAll_kept`), and where a splice was made there is its text (`applyAll_put`).  Splices between characters of a
text make a text (`applyAll_text`).
-/
namespace SourceBench.Splice

open List Utf8 Bool

variable {n a z : Int} {length : Nat} {s : Splice} {y bytes : Bytes}

/-! ## Places -/

/-- By how much a splice moves what stands behind it. -/
def shift (s : Splice) : Int := byteSize s.text - (s.stop - s.start)

def moved (ss : List Splice) (n : Int) : Int := n + ((ss.filter (·.stop ≤ n)).map shift).sum

def Within (length : Nat) (s : Splice) : Prop := 0 ≤ s.start ∧ s.start ≤ s.stop ∧ s.stop ≤ length

instance (length : Nat) (s : Splice) : Decidable (s.Within length) := inferInstanceAs (Decidable (_ ∧ _ ∧ _))

/-- It replaces some of them. -/
structure Lies (length : Nat) (s : Splice) : Prop where
  nonneg : 0 ≤ s.start
  lt : s.start < s.stop
  le : s.stop ≤ length

def Apart (s t : Splice) : Prop := s.stop ≤ t.start ∨ t.stop ≤ s.start

instance : Std.Symm Apart := ⟨fun _ _ => Or.symm⟩

/-- The splices lie in so many bytes, apart from one another. -/
structure Tidy (length : Nat) (ss : List Splice) : Prop where
  lies : ∀ s ∈ ss, s.Lies length
  apart : ss.Pairwise Apart

/-- The splices lie in so many bytes, none overlaps another, and no two are at the same place.  Those that only add may
stand at the edge of another. -/
structure Separate (length : Nat) (ss : List Splice) : Prop where
  lies : ∀ s ∈ ss, s.Within length
  apart : ss.Pairwise Apart
  distinct : (ss.map fun s => (s.start, s.stop)).Nodup

/-- The same, but splices at the same place may be many if they write the same text. -/
structure Settled (length : Nat) (ss : List Splice) : Prop where
  lies : ∀ s ∈ ss, s.Within length
  apart : ss.Pairwise Apart
  alike : ∀ s ∈ ss, ∀ t ∈ ss, s.start = t.start → s.stop = t.stop → s.text = t.text

def Outside (ss : List Splice) (n : Int) : Prop := ∀ s ∈ ss, s.stop ≤ n ∨ n ≤ s.start

def Descending (ss : List Splice) : Prop := ss.Pairwise fun s t => t.stop ≤ s.start

variable {ss : List Splice} {s : Splice} {x w : Bytes}

theorem moved_perm {ts : List Splice} (h : ss.Perm ts) (n : Int) : moved ss n = moved ts n := by
  rw [moved, moved, ((h.filter _).map _).sum_eq]

theorem moved_cons_of_lt (h : n < s.stop) : moved (s :: ss) n = moved ss n := by
  rw [moved, moved, filter_cons_of_neg (by simpa using h)]

theorem start_le_shifted (h : s.stop ≤ n) : s.start ≤ n + s.shift := by
  have : (0 : Int) ≤ byteSize s.text := Int.natCast_nonneg _
  rw [shift]
  omega

theorem moved_cons_of_le (hss : Descending (s :: ss)) (hlt : s.start < s.stop) (h : s.stop ≤ n) :
    moved (s :: ss) n = moved ss (n + s.shift) := by
  have hself := start_le_shifted h
  have hall : ∀ m, s.start ≤ m → ss.filter (fun t => decide (t.stop ≤ m)) = ss := fun m hm =>
    filter_eq_self.2 fun t ht => by
      have := (pairwise_cons.1 hss).1 t ht
      simp only [decide_eq_true_eq]
      omega
  rw [moved, moved, filter_cons_of_pos (by simpa using h), hall n (by omega), hall _ hself, map_cons, sum_cons,
    Int.add_assoc]

theorem moved_mono : ∀ {ss : List Splice} {a b : Int}, Descending ss → (∀ s ∈ ss, s.start < s.stop) → Outside ss a →
    Outside ss b → a ≤ b → moved ss a ≤ moved ss b
  | [], a, b, _, _, _, _, h => by simpa [moved] using h
  | s :: ss, a, b, hss, hlt, ha, hb, h => by
    have hs := hlt s mem_cons_self
    have htail : Descending ss := (pairwise_cons.1 hss).2
    have hlt' : ∀ t ∈ ss, t.start < t.stop := fun t ht => hlt t (mem_cons_of_mem _ ht)
    have hfront : ∀ {m : Int}, s.start ≤ m → Outside ss m := fun hm t ht =>
      .inl (Int.le_trans ((pairwise_cons.1 hss).1 t ht) hm)
    have hrest : ∀ {m : Int}, Outside (s :: ss) m → Outside ss m := fun hm t ht => hm t (mem_cons_of_mem _ ht)
    rcases ha s mem_cons_self with hsa | has
    · -- Both places are behind the last splice.
      have hsb : s.stop ≤ b := by omega
      rw [moved_cons_of_le hss hs hsa, moved_cons_of_le hss hs hsb]
      exact moved_mono htail hlt' (hfront (start_le_shifted hsa))
        (hfront (start_le_shifted hsb)) (by omega)
    · rw [moved_cons_of_lt (show a < s.stop by omega)]
      rcases hb s mem_cons_self with hsb | hbs
      · have hshift := start_le_shifted hsb
        rw [moved_cons_of_le hss hs hsb]
        exact moved_mono htail hlt' (hrest ha) (hfront hshift) (by omega)
      · rw [moved_cons_of_lt (show b < s.stop by omega)]
        exact moved_mono htail hlt' (hrest ha) (hrest hb) h

/-! ## The order of splices -/

theorem insert_perm (s : Splice) : ∀ ss : List Splice, (s.insert ss).Perm (s :: ss)
  | [] => .refl _
  | t :: ts => by
    rw [insert]
    split
    · exact .refl _
    · exact ((insert_perm s ts).cons t).trans (.swap s t ts)

theorem sort_perm : ∀ ss : List Splice, (sort ss).Perm ss
  | [] => .refl _
  | s :: ss => (insert_perm s (sort ss)).trans ((sort_perm ss).cons s)

theorem Tidy.separate (h : Tidy length ss) : Separate length ss := by
  refine ⟨fun s hs => ⟨(h.lies s hs).nonneg, Int.le_of_lt (h.lies s hs).lt, (h.lies s hs).le⟩, h.apart,
    pairwise_map.2 ?_⟩
  refine h.apart.imp_of_mem fun {s t} hs ht hapart heq => ?_
  have := (h.lies s hs).lt
  have := (h.lies t ht).lt
  simp only [Prod.mk.injEq] at heq
  unfold Apart at hapart
  omega

theorem insert_descending (hs : s.start ≤ s.stop) : ∀ {ss : List Splice}, Descending ss →
    (∀ t ∈ ss, t.start ≤ t.stop) → (∀ t ∈ ss, s.Apart t) → Descending (s.insert ss)
  | [], _, _, _ => pairwise_singleton _ _
  | t :: ts, hss, hle, hapart => by
    have ht := hle t mem_cons_self
    have hst : s.stop ≤ t.start ∨ t.stop ≤ s.start := hapart t mem_cons_self
    obtain ⟨hhead, htail⟩ := pairwise_cons.1 hss
    rw [insert]
    split
    · rename_i hbehind
      simp only [behind, or_eq_true, and_eq_true, decide_eq_true_eq, beq_iff_eq] at hbehind
      refine pairwise_cons.2 ⟨fun u hu => ?_, hss⟩
      rcases mem_cons.1 hu with rfl | hu
      · omega
      · have := hhead u hu
        omega
    · rename_i hbehind
      simp only [behind, or_eq_true, and_eq_true, decide_eq_true_eq, beq_iff_eq] at hbehind
      refine pairwise_cons.2 ⟨fun u hu => ?_, insert_descending hs htail (fun u hu => hle u (mem_cons_of_mem _ hu))
        fun u hu => hapart u (mem_cons_of_mem _ hu)⟩
      rcases mem_cons.1 ((insert_perm s ts).subset hu) with rfl | hu
      · omega
      · exact hhead u hu

theorem sort_descending_of_apart : ∀ {ss : List Splice}, (∀ s ∈ ss, s.Within length) → ss.Pairwise Apart →
    Descending (sort ss)
  | [], _, _ => .nil
  | s :: ss, h, hapart => by
    obtain ⟨hhead, htail⟩ := pairwise_cons.1 hapart
    have hrest : ∀ t ∈ ss, t.Within length := fun t ht => h t (mem_cons_of_mem _ ht)
    exact insert_descending (h s mem_cons_self).2.1 (sort_descending_of_apart hrest htail)
      (fun t ht => (hrest t ((sort_perm ss).subset ht)).2.1) fun t ht => hhead t ((sort_perm ss).subset ht)

theorem Separate.sort_descending (h : Separate length ss) : Descending (sort ss) :=
  sort_descending_of_apart h.lies h.apart

theorem sort_descending (h : Tidy length ss) : Descending (sort ss) := h.separate.sort_descending

/-! ## Making splices -/

theorem cutPoint_nat (length n : Nat) : cutPoint length (n : Int) = min n length := by
  rw [cutPoint, if_neg (by omega), Int.toNat_natCast]

theorem cutPoint_of_le {n : Nat} (h : n ≤ length) : cutPoint length (n : Int) = n := by
  rw [cutPoint_nat, Nat.min_eq_left h]

theorem apply_replace (a z : Nat) (text : List Char) (bytes : Bytes) :
    apply (.replace a z text) bytes = bytes.take a ++ encode text ++ bytes.drop z := by
  have hdrop : bytes.drop (min z bytes.length) = bytes.drop z := by
    rcases Nat.le_total z bytes.length with h | h
    · rw [Nat.min_eq_left h]
    · rw [Nat.min_eq_right h, drop_length, drop_eq_nil_of_le h]
  simp only [apply, replace, cutPoint_nat, ← take_eq_take_min, hdrop]

theorem apply_append (hstart : s.start = x.length) (hstop : s.stop = x.length + w.length) :
    s.apply (x ++ w ++ y) = x ++ encode s.text ++ y := by
  have hstart' : cutPoint (x ++ w ++ y).length s.start = x.length := by
    rw [hstart, cutPoint_of_le (by simp)]
  have hstop' : cutPoint (x ++ w ++ y).length s.stop = (x ++ w).length := by
    rw [hstop, ← Int.natCast_add, cutPoint_of_le (by simp), length_append]
  rw [apply, hstart', hstop', drop_left, append_assoc x w y, take_left]

theorem split_of_le (h0 : 0 ≤ s.start) (hle : s.start ≤ s.stop) (hlength : s.stop ≤ bytes.length) :
    ∃ x w y, bytes = x ++ w ++ y ∧ s.start = x.length ∧ s.stop = x.length + w.length := by
  refine ⟨bytes.take s.start.toNat, (bytes.drop s.start.toNat).take (s.stop.toNat - s.start.toNat),
    bytes.drop s.stop.toNat, ?_, ?_, ?_⟩
  · have hdrop : bytes.drop s.stop.toNat = (bytes.drop s.start.toNat).drop (s.stop.toNat - s.start.toNat) := by
      rw [drop_drop]
      congr 1
      omega
    rw [append_assoc, hdrop, take_append_drop, take_append_drop]
  · rw [length_take]
    omega
  · rw [length_take, length_take, length_drop]
    omega

theorem Lies.split (h : s.Lies bytes.length) :
    ∃ x w y, bytes = x ++ w ++ y ∧ s.start = x.length ∧ s.stop = x.length + w.length :=
  split_of_le h.nonneg (Int.le_of_lt h.lt) h.le

theorem shift_of_split (hstart : s.start = x.length) (hstop : s.stop = x.length + w.length) :
    (w.length : Int) + s.shift = (encode s.text).length := by
  rw [shift, hstart, hstop, length_encode]
  omega

theorem foldl_apply_kept : ∀ {ss : List Splice} {x w y : Bytes}, Descending ss →
    (∀ s ∈ ss, s.Lies (x ++ w ++ y).length) →
    (∀ s ∈ ss, s.stop ≤ x.length ∨ (x.length + w.length : Int) ≤ s.start) →
    ∃ x' y' : Bytes, ss.foldl (fun b s => s.apply b) (x ++ w ++ y) = x' ++ w ++ y' ∧
      (x'.length : Int) = moved ss x.length ∧
      (x'.length + w.length : Int) = moved ss (x.length + w.length)
  | [], x, w, y, _, _, _ => ⟨x, y, rfl, by simp [moved], by simp [moved]⟩
  | s :: ss, x, w, y, hss, hlies, hout => by
    have hs := hlies s mem_cons_self
    obtain ⟨hhead, htail⟩ := pairwise_cons.1 hss
    rw [foldl_cons]
    rcases hout s mem_cons_self with hle | hle
    · -- The splice is in front, and moves the stretch.
      obtain ⟨x₁, m, x₂, rfl, hstart, hstop⟩ : ∃ x₁ m x₂, x = x₁ ++ m ++ x₂ ∧ s.start = length x₁ ∧
          s.stop = length x₁ + length m := Lies.split ⟨hs.nonneg, hs.lt, hle⟩
      have hshift := shift_of_split hstart hstop
      have happly : s.apply (x₁ ++ m ++ x₂ ++ w ++ y) = (x₁ ++ encode s.text ++ x₂) ++ w ++ y := by
        have := apply_append (y := x₂ ++ w ++ y) hstart hstop
        simpa only [append_assoc] using this
      have hlength : ((x₁ ++ encode s.text ++ x₂).length : Int) = (x₁ ++ m ++ x₂).length + s.shift := by
        simp only [length_append, Int.natCast_add]
        omega
      have hbefore : ∀ t ∈ ss, t.stop ≤ (x₁ ++ encode s.text ++ x₂).length := fun t ht => by
        have := hhead t ht
        simp only [length_append, Int.natCast_add]
        omega
      obtain ⟨x', y', hfold, hx, hz⟩ := foldl_apply_kept (x := x₁ ++ encode s.text ++ x₂) (w := w) (y := y) htail
        (fun t ht => ⟨(hlies t (mem_cons_of_mem _ ht)).nonneg, (hlies t (mem_cons_of_mem _ ht)).lt, by
          have := hbefore t ht
          rw [append_assoc, length_append]
          omega⟩) fun t ht => .inl (hbefore t ht)
      refine ⟨x', y', by rw [happly, hfold], ?_, ?_⟩
      · rw [hx, hlength, moved_cons_of_le hss hs.lt hle]
      · rw [hz, hlength, moved_cons_of_le hss hs.lt (by omega)]
        congr 1
        omega
    · obtain ⟨y₁, m, y₂, rfl, hstart, hstop⟩ : ∃ y₁ m y₂, y = y₁ ++ m ++ y₂ ∧
          s.start = (x ++ w ++ y₁).length ∧ s.stop = (x ++ w ++ y₁).length + length m := by
        obtain ⟨p, m, q, hbytes, hstart, hstop⟩ := hs.split
        obtain ⟨y₁, rfl⟩ : ∃ y₁, p = x ++ w ++ y₁ := by
          have hprefix : x ++ w <+: p := prefix_of_prefix_length_le (prefix_append _ y)
            (by rw [hbytes, append_assoc]; exact prefix_append _ _) (by rw [length_append]; omega)
          exact hprefix.imp fun y₁ hy => hy.symm
        refine ⟨y₁, m, q, ?_, hstart, hstop⟩
        simpa only [append_assoc, append_cancel_left_eq] using hbytes
      have happly : s.apply (x ++ w ++ (y₁ ++ m ++ y₂)) = x ++ w ++ (y₁ ++ encode s.text ++ y₂) := by
        have := apply_append (y := y₂) hstart hstop
        simpa only [append_assoc] using this
      have hlt : (x.length + w.length : Int) < s.stop := by
        have := hs.lt
        omega
      obtain ⟨x', y', hfold, hx, hz⟩ := foldl_apply_kept (x := x) (w := w) (y := y₁ ++ encode s.text ++ y₂) htail
        (fun t ht => ⟨(hlies t (mem_cons_of_mem _ ht)).nonneg, (hlies t (mem_cons_of_mem _ ht)).lt, by
          have := hhead t ht
          simp only [length_append, Int.natCast_add] at hstart ⊢
          omega⟩) fun t ht => hout t (mem_cons_of_mem _ ht)
      refine ⟨x', y', by rw [happly, hfold], ?_, ?_⟩
      · rw [hx, moved_cons_of_lt (by omega)]
      · rw [hz, moved_cons_of_lt hlt]

theorem foldl_apply_put : ∀ {ss : List Splice} {bytes : Bytes}, Descending ss →
    (∀ t ∈ ss, t.Lies bytes.length) → s ∈ ss →
    ∃ x' y' : Bytes, ss.foldl (fun b t => t.apply b) bytes = x' ++ encode s.text ++ y' ∧
      (x'.length : Int) = moved ss s.start ∧ (x'.length + (encode s.text).length : Int) = moved ss s.stop
  | [], _, _, _, hmem => absurd hmem not_mem_nil
  | t :: ss, bytes, hss, hlies, hmem => by
    have ht := hlies t mem_cons_self
    obtain ⟨hhead, htail⟩ := pairwise_cons.1 hss
    obtain ⟨x, w, y, rfl, hstart, hstop⟩ := ht.split
    have hshift := shift_of_split hstart hstop
    rw [foldl_cons, apply_append hstart hstop]
    have hlies' : ∀ u ∈ ss, u.Lies (x ++ encode t.text ++ y).length := fun u hu =>
      ⟨(hlies u (mem_cons_of_mem _ hu)).nonneg, (hlies u (mem_cons_of_mem _ hu)).lt, by
        have := hhead u hu
        simp only [length_append, Int.natCast_add]
        omega⟩
    rcases mem_cons.1 hmem with rfl | hmem
    · obtain ⟨x', y', hfold, hx, hz⟩ := foldl_apply_kept htail hlies' fun u hu => .inl (by
        have := hhead u hu
        omega)
      refine ⟨x', y', hfold, ?_, ?_⟩
      · rw [moved_cons_of_lt ht.lt, hstart, hx]
      · rw [hz, moved_cons_of_le hss ht.lt (Int.le_refl _)]
        congr 1
        omega
    · have hstop := Int.lt_of_le_of_lt (hhead s hmem) ht.lt
      have hstart := Int.lt_trans (hlies s (mem_cons_of_mem _ hmem)).lt hstop
      obtain ⟨x', y', hfold, hx, hz⟩ := foldl_apply_put htail hlies' hmem
      exact ⟨x', y', hfold, by rw [hx, moved_cons_of_lt hstart], by rw [hz, moved_cons_of_lt hstop]⟩

/-! ## Stretches of the result -/

theorem slicePart_nat (bytes : Bytes) (a z : Nat) : slicePart bytes a z = (bytes.drop a).take (z - a) := by
  have hcut : ∀ n : Nat, cutPoint bytes.length (n : Int) = min n bytes.length := fun n => by
    rw [cutPoint, if_neg (by omega), Int.toNat_natCast]
  rw [slicePart, hcut, hcut]
  rcases Nat.le_total bytes.length a with h | h
  · rw [drop_eq_nil_of_le (by omega), drop_eq_nil_of_le h, take_nil, take_nil]
  · rw [Nat.min_eq_left h, take_eq_take_iff, length_drop]
    omega

theorem length_slicePart_le (bytes : Bytes) (ha : 0 ≤ a) (haz : a ≤ z) :
    ((slicePart bytes a z).length : Int) ≤ z - a := by
  obtain ⟨i, rfl⟩ := Int.eq_ofNat_of_zero_le ha
  obtain ⟨j, rfl⟩ := Int.eq_ofNat_of_zero_le (Int.le_trans ha haz)
  rw [slicePart_nat, length_take]
  omega

theorem slicePart_append (ha : (x.length : Int) = a) (hz : (x.length + w.length : Int) = z) :
    slicePart (x ++ w ++ y) a z = w := by
  rw [← ha, ← hz, ← Int.natCast_add, slicePart_nat, append_assoc, drop_left, Nat.add_sub_cancel_left, take_left]

theorem moved_sort (ss : List Splice) (n : Int) : moved (sort ss) n = moved ss n := moved_perm (sort_perm ss) n

section Result

variable {ss : List Splice} {bytes : Bytes} (h : Tidy bytes.length ss)

include h

theorem Tidy.lies_sort : ∀ s ∈ sort ss, s.Lies bytes.length := fun s hs => h.lies s ((sort_perm ss).subset hs)

theorem applyAll_kept {a z : Nat} (haz : a ≤ z) (hz : z ≤ bytes.length)
    (hout : ∀ s ∈ ss, s.stop ≤ a ∨ (z : Int) ≤ s.start) :
    slicePart (applyAll ss bytes) (moved ss a) (moved ss z) = (bytes.drop a).take (z - a) := by
  have hsplit : bytes = bytes.take a ++ (bytes.drop a).take (z - a) ++ bytes.drop z := by
    have hdrop : bytes.drop z = (bytes.drop a).drop (z - a) := by rw [drop_drop, Nat.add_sub_cancel' haz]
    rw [hdrop, append_assoc, take_append_drop, take_append_drop]
  have hlength : (bytes.take a).length = a := by rw [length_take]; omega
  have hlength' : ((bytes.drop a).take (z - a)).length = z - a := by rw [length_take, length_drop]; omega
  have hz' : ((bytes.take a).length + ((bytes.drop a).take (z - a)).length : Int) = z := by
    rw [hlength, hlength']; omega
  obtain ⟨x', y', hfold, hx, hend⟩ := @foldl_apply_kept (sort ss) (bytes.take a) ((bytes.drop a).take (z - a))
    (bytes.drop z) (sort_descending h) (hsplit ▸ h.lies_sort) fun s hs => by
      rw [hz', hlength]
      exact hout s ((sort_perm ss).subset hs)
  rw [← hsplit] at hfold
  rw [applyAll, hfold]
  refine slicePart_append ?_ ?_
  · rw [hx, hlength, moved_sort]
  · rw [hend, hz', moved_sort]

variable {s : Splice}

theorem applyAll_put (hs : s ∈ ss) : slicePart (applyAll ss bytes) (moved ss s.start)
    (moved ss s.stop) = encode s.text := by
  obtain ⟨x', y', hfold, hx, hz⟩ := foldl_apply_put (sort_descending h) h.lies_sort ((sort_perm ss).symm.subset hs)
  rw [applyAll, hfold]
  refine slicePart_append ?_ ?_
  · rw [hx, moved_sort]
  · rw [hz, moved_sort]

theorem Tidy.moved_le {b : Int} (ha : Outside ss a) (hb : Outside ss b) (hab : a ≤ b) : moved ss a ≤ moved ss b := by
  have hsort : ∀ {n : Int}, Outside ss n → Outside (sort ss) n := fun hn s hs => hn s ((sort_perm ss).subset hs)
  rw [← moved_sort ss a, ← moved_sort ss b]
  exact moved_mono (sort_descending h) (fun s hs => (h.lies_sort s hs).lt) (hsort ha) (hsort hb) hab

theorem Tidy.moved_nonneg (ha : Outside ss a) (h0 : 0 ≤ a) : 0 ≤ moved ss a := by
  have hzero : moved ss 0 = 0 := by
    rw [moved, filter_eq_nil_iff.2 fun s hs => by
      have := (h.lies s hs).nonneg
      have := (h.lies s hs).lt
      simp only [decide_eq_true_eq]
      omega]
    rfl
  rw [← hzero]
  exact h.moved_le (fun s hs => .inr (h.lies s hs).nonneg) ha h0

theorem Tidy.moved_inside (hs : s ∈ ss) (hstart : s.start ≤ n) (hstop : n < s.stop) :
    moved ss n = moved ss s.start + (n - s.start) := by
  have hsame : ss.filter (fun t => decide (t.stop ≤ n)) = ss.filter (fun t => decide (t.stop ≤ s.start)) := by
    refine filter_congr fun t ht => decide_eq_decide.2 ?_
    by_cases heq : t = s
    · subst heq
      omega
    · have := h.apart.forall ht hs heq
      have := (h.lies t ht).lt
      unfold Apart at *
      omega
  rw [moved, moved, hsame]
  omega

theorem Tidy.outside (hs : s ∈ ss) : Outside ss s.start ∧ Outside ss s.stop := by
  have hlt := (h.lies s hs).lt
  have hapart : ∀ t ∈ ss, t = s ∨ t.stop ≤ s.start ∨ s.stop ≤ t.start := fun t ht => by
    by_cases heq : t = s
    · exact .inl heq
    · exact .inr (h.apart.forall ht hs heq)
  refine ⟨fun t ht => ?_, fun t ht => ?_⟩
  · rcases hapart t ht with rfl | hle | hle
    · exact .inr (Int.le_refl _)
    · exact .inl hle
    · exact .inr (by omega)
  · rcases hapart t ht with rfl | hle | hle
    · exact .inl (Int.le_refl _)
    · exact .inl (by omega)
    · exact .inr hle

theorem applyAll_within (hs : s ∈ ss) {a z : Nat} (ha : a ≤ s.start) (hz : s.stop ≤ z) (houta : Outside ss a)
    (houtz : Outside ss z) : encode s.text <:+: slicePart (applyAll ss bytes) (moved ss a) (moved ss z) := by
  obtain ⟨x', y', hfold, hx, hend⟩ := foldl_apply_put (sort_descending h) h.lies_sort ((sort_perm ss).symm.subset hs)
  have hfront := h.moved_le houta (h.outside hs).1 ha
  have hback := h.moved_le (h.outside hs).2 houtz hz
  obtain ⟨i, hi⟩ := Int.eq_ofNat_of_zero_le (h.moved_nonneg houta (Int.natCast_nonneg a))
  obtain ⟨j, hj⟩ := Int.eq_ofNat_of_zero_le (h.moved_nonneg houtz (Int.natCast_nonneg z))
  rw [moved_sort] at hx hend
  rw [applyAll, hfold, hi, hj, slicePart_nat]
  have hdrop : (x' ++ encode s.text ++ y').drop i = x'.drop i ++ encode s.text ++ y' := by
    rw [append_assoc, drop_append_of_le_length (by omega), ← append_assoc]
  have hlength : (x'.drop i ++ encode s.text).length ≤ j - i := by
    rw [length_append, length_drop]
    omega
  rw [hdrop, take_append, take_of_length_le hlength]
  exact ⟨x'.drop i, _, rfl⟩

end Result

/-! ## Texts -/

theorem foldl_apply_text : ∀ {ss : List Splice} {text : List Char}, Descending ss →
    (∀ s ∈ ss, s.Within (encode text).length) → (∀ s ∈ ss, Cut text s.start.toNat ∧ Cut text s.stop.toNat) →
    ∃ result, ss.foldl (fun b s => s.apply b) (encode text) = encode result
  | [], text, _, _, _ => ⟨text, rfl⟩
  | s :: ss, text, hss, hlies, hcut => by
    obtain ⟨h0, hle, -⟩ := hlies s mem_cons_self
    obtain ⟨hhead, htail⟩ := pairwise_cons.1 hss
    obtain ⟨before, middle, after, rfl, hstart, hstop⟩ :=
      (hcut s mem_cons_self).1.split (hcut s mem_cons_self).2 (Int.toNat_le_toNat hle)
    rw [byteSize_append] at hstop
    have happly : s.apply (encode (before ++ middle ++ after)) = encode (before ++ s.text ++ after) := by
      rw [encode_append, encode_append, apply_append (by rw [length_encode]; omega)
        (by rw [length_encode, length_encode]; omega), encode_append, encode_append]
    rw [foldl_cons, happly]
    refine foldl_apply_text htail (fun t ht => ?_) fun t ht => ?_
    · have hle' := hhead t ht
      refine ⟨(hlies t (mem_cons_of_mem _ ht)).1, (hlies t (mem_cons_of_mem _ ht)).2.1, ?_⟩
      rw [length_encode, append_assoc, byteSize_append]
      omega
    · -- The cuts of the other splices are in front.
      have hle' := hhead t ht
      have ht' := (hlies t (mem_cons_of_mem _ ht)).2.1
      have hkept : ∀ {n : Nat}, Cut (before ++ middle ++ after) n → n ≤ byteSize before →
          Cut (before ++ s.text ++ after) n := fun hn hle => by
        rw [append_assoc] at hn ⊢
        exact (hn.of_append hle).append _
      exact ⟨hkept (hcut t (mem_cons_of_mem _ ht)).1 (by omega), hkept (hcut t (mem_cons_of_mem _ ht)).2 (by omega)⟩

theorem applyAll_text {text : List Char} (h : ∀ s ∈ ss, s.Within (encode text).length) (hapart : ss.Pairwise Apart)
    (hcut : ∀ s ∈ ss, Cut text s.start.toNat ∧ Cut text s.stop.toNat) :
    ∃ result, applyAll ss (encode text) = encode result :=
  foldl_apply_text (sort_descending_of_apart h hapart) (fun s hs => h s ((sort_perm ss).subset hs)) fun s hs =>
    hcut s ((sort_perm ss).subset hs)

end SourceBench.Splice
