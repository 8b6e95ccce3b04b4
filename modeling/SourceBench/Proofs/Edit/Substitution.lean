import Mathlib.Data.List.Nodup
import SourceBench.Edit.Document
import SourceBench.Proofs.Edit.Splices

/-!
# Splices as a substitution

Splices are made one after another, and each moves what stands behind it.  What comes of those that do not overlap can
be said without any order: the bytes are copied from the left to the right, and where a range begins its text is written
in its place (`substitute`).  This is what the splices make of the bytes, in whatever order they are given
(`splice_substitutes`).
-/
namespace SourceBench
namespace Splice

open List Bool

variable {length : Nat} {ts : List Splice}

/-! ## Substitution -/

/-- What is written at a place: the text that is only added there, and then that of the range which begins there. -/
def putAt (ss : List Splice) (i : Nat) : Bytes :=
  (ss.filter fun s : Splice => s.start == i && s.stop == i).flatMap (fun s => Utf8.encode s.text)
    ++ (ss.filter fun s : Splice => s.start == i && i < s.stop).flatMap fun s => Utf8.encode s.text

def covers (ss : List Splice) (i : Nat) : Bool := ss.any fun s : Splice => s.start ≤ i && i < s.stop

/-- Copies bytes, the first of which is at place `i`.  Bytes in a range that is replaced are left out. -/
def substituteFrom (ss : List Splice) : Nat → Bytes → Bytes
  | i, [] => putAt ss i
  | i, b :: bs => putAt ss i ++ (if covers ss i then [] else [b]) ++ substituteFrom ss (i + 1) bs

def substitute (ss : List Splice) (bytes : Bytes) : Bytes := substituteFrom ss 0 bytes

instance : DecidableRel Apart := fun s t => inferInstanceAs (Decidable (s.stop ≤ t.start ∨ t.stop ≤ s.start))

variable {ss : List Splice} {t : Splice} {i : Nat}

theorem putAt_eq_nil (h : ∀ s ∈ ss, s.start ≠ i) : putAt ss i = [] := by
  have hnone : ∀ p : Splice → Bool, ss.filter (fun s : Splice => s.start == i && p s) = [] := fun p =>
    filter_eq_nil_iff.2 fun s hs => by simp [h s hs]
  rw [putAt, hnone, hnone]
  rfl

theorem putAt_cons_of_ne (h : t.start ≠ i) : putAt (t :: ss) i = putAt ss i := by
  simp [putAt, h]

theorem covers_cons_of_mem (h : t.start ≤ i) (h' : i < t.stop) : covers (t :: ss) i := by
  simp [covers, h, h']

theorem covers_cons_of_lt (h : i < t.start) : covers (t :: ss) i = covers ss i := by
  simp [covers, Int.not_le.2 h]

theorem covers_eq_false (h : ∀ s ∈ ss, s.stop ≤ i) : covers ss i = false := by
  simp only [covers, any_eq_false, and_eq_true, decide_eq_true_eq]
  intro s hs
  have := h s hs
  omega

/-- What stands before the last splice: all that does not end behind its beginning, and writes the same if at its
place. -/
def Before (t u : Splice) : Prop :=
  u.stop ≤ t.start ∧ u.start ≤ u.stop ∧ (u.start = t.start → u.stop = t.stop → u.text = t.text)

theorem append_flatMap_comm {α β : Type} {f : α → List β} {c : List β} : ∀ {l : List α}, (∀ a ∈ l, f a = c) →
    c ++ l.flatMap f = l.flatMap f ++ c
  | [], _ => by simp
  | a :: l, h => by
    rw [flatMap_cons, h a mem_cons_self, append_assoc, ← append_flatMap_comm fun b hb => h b (mem_cons_of_mem _ hb)]

theorem putAt_last (hstart : t.start = i) (hle : t.start ≤ t.stop) (hss : ∀ u ∈ ss, t.Before u) :
    putAt (t :: ss) i = putAt ss i ++ Utf8.encode t.text := by
  have hranges : ss.filter (fun s : Splice => s.start == i && i < s.stop) = [] := filter_eq_nil_iff.2 fun u hu => by
    obtain ⟨hstop, -, -⟩ := hss u hu
    simp only [and_eq_true, beq_iff_eq, decide_eq_true_eq]
    omega
  by_cases hstop : t.stop = i
  · -- Whatever else is added at the place is the same text.
    have hadded := @append_flatMap_comm _ _ (fun s : Splice => Utf8.encode s.text) (Utf8.encode t.text)
      (ss.filter fun s : Splice => s.start == i && s.stop == i) fun u hu => by
        obtain ⟨hu, hplace⟩ := mem_filter.1 hu
        simp only [and_eq_true, beq_iff_eq] at hplace
        rw [(hss u hu).2.2 (hplace.1.trans hstart.symm) (hplace.2.trans hstop.symm)]
    simp [putAt, hranges, hadded, hstart, hstop]
  · have hlt : (i : Int) < t.stop := by omega
    simp [putAt, hranges, hstart, hstop, hlt]

theorem substituteFrom_behind : ∀ (bs : Bytes) {i : Nat}, (∀ s ∈ ss, s.start < i ∧ s.stop ≤ i) →
    substituteFrom ss i bs = bs
  | [], i, h => putAt_eq_nil fun s hs => by have := h s hs; omega
  | b :: bs, i, h => by
    rw [substituteFrom, putAt_eq_nil fun s hs => by have := h s hs; omega, covers_eq_false fun s hs => (h s hs).2,
      substituteFrom_behind bs fun s hs => by have := h s hs; omega]
    rfl

theorem substituteFrom_inside (y : Bytes) : ∀ (w : Bytes) {i : Nat}, t.start < i → t.stop = i + w.length →
    (∀ u ∈ ss, u.start < i ∧ u.stop ≤ i) → substituteFrom (t :: ss) i (w ++ y) = y
  | [], i, hstart, hstop, hss => substituteFrom_behind y (forall_mem_cons.2 ⟨⟨hstart, by rw [hstop]; simp⟩, hss⟩)
  | b :: w, i, hstart, hstop, hss => by
    rw [length_cons] at hstop
    have hput : putAt (t :: ss) i = [] := putAt_eq_nil (forall_mem_cons.2 ⟨by omega, fun u hu => by
      have := hss u hu; omega⟩)
    rw [cons_append, substituteFrom, hput, covers_cons_of_mem (by omega) (by omega),
      substituteFrom_inside y w (by omega) (by omega) fun u hu => by have := hss u hu; omega]
    rfl

/-- **The last splice can be made by itself**: what stands before it is as the others leave it, and what stands behind
it as it was. -/
theorem substituteFrom_last {w y : Bytes} : ∀ (x : Bytes) {i : Nat}, t.start = i + x.length →
    t.stop = t.start + w.length → (∀ u ∈ ss, t.Before u) →
    substituteFrom (t :: ss) i (x ++ w ++ y) = substituteFrom ss i x ++ Utf8.encode t.text ++ y
  | [], i, hstart, hstop, hss => by
    rw [length_nil, Int.natCast_zero, Int.add_zero] at hstart
    have hput := putAt_last hstart (by omega) hss
    have hplace : ∀ u ∈ ss, u.start ≤ i ∧ u.stop ≤ i := fun u hu => by
      obtain ⟨hle, hle', -⟩ := hss u hu
      omega
    have hbehind : ∀ u ∈ ss, u.start < i + 1 ∧ u.stop ≤ i + 1 := fun u hu => by
      have := hplace u hu
      omega
    rw [nil_append]
    cases w with
    | nil =>
      have hfree : covers (t :: ss) i = false := covers_eq_false
        (forall_mem_cons.2 ⟨by rw [hstop, hstart]; simp, fun u hu => (hplace u hu).2⟩)
      rw [length_nil, Int.natCast_zero, Int.add_zero] at hstop
      cases y with
      | nil => simp [substituteFrom, hput]
      | cons b y =>
        have hrest : substituteFrom (t :: ss) (i + 1) y = y :=
          substituteFrom_behind y (forall_mem_cons.2 ⟨⟨by omega, by omega⟩, fun u hu => by have := hbehind u hu; omega⟩)
        simp [substituteFrom, hput, hfree, hrest]
    | cons b w =>
      rw [length_cons] at hstop
      have hcovers : covers (t :: ss) i := covers_cons_of_mem (by omega) (by omega)
      have hrest : substituteFrom (t :: ss) (i + 1) (w ++ y) = y :=
        substituteFrom_inside y w (by omega) (by omega) fun u hu => by have := hbehind u hu; omega
      simp [substituteFrom, hput, hcovers, hrest]
  | b :: x, i, hstart, hstop, hss => by
    rw [length_cons] at hstart
    rw [cons_append, cons_append, substituteFrom, substituteFrom, putAt_cons_of_ne (by omega),
      covers_cons_of_lt (by omega), substituteFrom_last x (by omega) hstop hss]
    simp only [append_assoc]

/-! ## Splices from the back to the front -/

theorem foldl_apply_append : ∀ {ss : List Splice} {x : Bytes} (y : Bytes), Descending ss →
    (∀ s ∈ ss, 0 ≤ s.start ∧ s.start ≤ s.stop ∧ s.stop ≤ x.length) →
    ss.foldl (fun b s => s.apply b) (x ++ y) = ss.foldl (fun b s => s.apply b) x ++ y
  | [], _, _, _, _ => rfl
  | t :: ss, x, y, hss, hlies => by
    obtain ⟨hhead, htail⟩ := pairwise_cons.1 hss
    obtain ⟨h0, hle, hlength⟩ := hlies t mem_cons_self
    obtain ⟨x, w, z, rfl, hstart, hstop⟩ := split_of_le h0 hle hlength
    have happly : t.apply (x ++ w ++ z ++ y) = x ++ Utf8.encode t.text ++ z ++ y := by
      have := apply_append (y := z ++ y) hstart hstop
      simpa only [append_assoc] using this
    rw [foldl_cons, foldl_cons, happly, apply_append hstart hstop]
    refine foldl_apply_append y htail fun u hu => ?_
    have hu' := hlies u (mem_cons_of_mem _ hu)
    have := hhead u hu
    simp only [length_append, Int.natCast_add]
    omega

theorem foldl_apply_eq : ∀ {ss : List Splice} {x : Bytes}, Descending ss → Settled x.length ss →
    ss.foldl (fun b s => s.apply b) x = substitute ss x
  | [], x, _, _ => (substituteFrom_behind x fun s hs => absurd hs not_mem_nil).symm
  | t :: ss, x, hss, h => by
    obtain ⟨hhead, htail⟩ := pairwise_cons.1 hss
    obtain ⟨h0, hle, hlength⟩ := h.lies t mem_cons_self
    obtain ⟨x, w, z, rfl, hstart, hstop⟩ := split_of_le h0 hle hlength
    have hrest : Settled x.length ss := by
      refine ⟨fun u hu => ?_, (pairwise_cons.1 h.apart).2, fun u hu s hs =>
        h.alike u (mem_cons_of_mem _ hu) s (mem_cons_of_mem _ hs)⟩
      obtain ⟨h0', hle', -⟩ := h.lies u (mem_cons_of_mem _ hu)
      exact ⟨h0', hle', hstart ▸ hhead u hu⟩
    have hlast : substitute (t :: ss) (x ++ w ++ z) = substitute ss x ++ Utf8.encode t.text ++ z :=
      substituteFrom_last x (by simpa using hstart) (by omega) fun u hu =>
        ⟨hhead u hu, (hrest.lies u hu).2.1, h.alike u (mem_cons_of_mem _ hu) t mem_cons_self⟩
    rw [foldl_cons, apply_append hstart hstop, append_assoc, foldl_apply_append _ htail hrest.lies,
      foldl_apply_eq htail hrest, hlast, append_assoc]

/-! ## The order of splices -/

theorem Separate.perm (h : Separate length ss) (hp : ts.Perm ss) : Separate length ts :=
  ⟨fun s hs => h.lies s (hp.subset hs), hp.symm.pairwise h.apart fun hst => hst.symm, (hp.map _).nodup_iff.2 h.distinct⟩

theorem Separate.settled (h : Separate length ss) : Settled length ss :=
  ⟨h.lies, h.apart, fun s hs t ht hstart hstop => by
    rw [inj_on_of_nodup_map h.distinct hs ht (Prod.ext hstart hstop)]⟩

theorem Settled.perm (h : Settled length ss) (hp : ts.Perm ss) : Settled length ts :=
  ⟨fun s hs => h.lies s (hp.subset hs), hp.symm.pairwise h.apart fun hst => hst.symm, fun s hs t ht =>
    h.alike s (hp.subset hs) t (hp.subset ht)⟩

theorem flatMap_eq_of_perm {α β : Type} {f : α → List β} {l l' : List α} (hp : l.Perm l')
    (h : ∀ a ∈ l, ∀ b ∈ l, f a = f b) : l.flatMap f = l'.flatMap f := by
  induction hp with
  | nil => rfl
  | cons a _ ih =>
    rw [flatMap_cons, flatMap_cons, ih fun b hb c hc => h b (mem_cons_of_mem _ hb) c (mem_cons_of_mem _ hc)]
  | swap a b l => simp [h a (by simp) b (by simp)]
  | trans hp _ ih ih' =>
    rw [ih h, ih' fun a ha b hb => h a (hp.mem_iff.2 ha) b (hp.mem_iff.2 hb)]

theorem Settled.putAt_perm (h : Settled length ss) (hp : ts.Perm ss) (i : Nat) : putAt ts i = putAt ss i := by
  have hsame : ∀ p : Splice → Bool, (∀ s ∈ ss, ∀ t ∈ ss, p s → p t → s.text = t.text) →
      (ts.filter p).flatMap (fun s => Utf8.encode s.text) = (ss.filter p).flatMap fun s => Utf8.encode s.text :=
    fun p hp' => flatMap_eq_of_perm (hp.filter p) fun s hs t ht => by
      rw [hp' s (hp.subset (mem_of_mem_filter hs)) t (hp.subset (mem_of_mem_filter ht)) (mem_filter.1 hs).2
        (mem_filter.1 ht).2]
  rw [putAt, putAt, hsame, hsame]
  · intro s hs t ht hps hpt
    simp only [and_eq_true, beq_iff_eq, decide_eq_true_eq] at hps hpt
    by_contra hne
    -- Two ranges with some width that begin at the same place overlap.
    have hapart : s.stop ≤ t.start ∨ t.stop ≤ s.start := h.apart.forall hs ht fun heq => hne (heq ▸ rfl)
    omega
  · intro s hs t ht hps hpt
    simp only [and_eq_true, beq_iff_eq] at hps hpt
    exact h.alike s hs t ht (hps.1.trans hpt.1.symm) (hps.2.trans hpt.2.symm)

theorem Settled.substituteFrom_perm (h : Settled length ss) (hp : ts.Perm ss) :
    ∀ (bytes : Bytes) (i : Nat), substituteFrom ts i bytes = substituteFrom ss i bytes
  | [], i => h.putAt_perm hp i
  | b :: bs, i => by
    rw [substituteFrom, substituteFrom, h.putAt_perm hp i, h.substituteFrom_perm hp bs, covers, covers, hp.any_eq]

/-- **Making all splices is a substitution.** -/
theorem applyAll_eq {bytes : Bytes} (h : Settled bytes.length ss) : applyAll ss bytes = substitute ss bytes := by
  rw [applyAll, foldl_apply_eq (sort_descending_of_apart h.lies h.apart) (h.perm (sort_perm ss)), substitute,
    substitute, h.substituteFrom_perm (sort_perm ss)]

end Splice

namespace Document

open Splice

/-- **Splicing is a substitution.**  Splices that do not overlap, no two of them at the same place, make of the bytes of
a document what one gets by copying them from the left to the right and writing the text of each range in its place, a
text that is only added before that of a range which begins there.  The order in which they are given does not
matter. -/
theorem splice_substitutes (d : Document) {ss : List Splice} (h : Separate d.bytes.length ss) :
    (d.splice ss).bytes = substitute ss d.bytes ∧ ∀ ts : List Splice, ts.Perm ss → d.splice ts = d.splice ss := by
  refine ⟨applyAll_eq h.settled, fun ts hp => ?_⟩
  rw [splice, splice, applyAll_eq (h.perm hp).settled, applyAll_eq h.settled, substitute, substitute,
    h.settled.substituteFrom_perm hp]

/-- Texts that are added where a range begins, between two ranges and at the end, the later ones first. -/
def touching : List Splice := [⟨6, 6, ['.']⟩, ⟨4, 5, []⟩, ⟨2, 4, ['é']⟩, ⟨2, 2, ['-']⟩, ⟨4, 4, ['!']⟩]

theorem splice_substitutes_touching : Separate (ofText "abcdef".toList).bytes.length touching ∧
    ((ofText "abcdef".toList).splice touching).text? = some "ab-é!f.".toList ∧
      (ofText "abcdef".toList).splice touching.reverse = (ofText "abcdef".toList).splice touching := by
  have h : Separate (ofText "abcdef".toList).bytes.length touching := ⟨by decide, by decide, by decide⟩
  obtain ⟨hbytes, hperm⟩ := splice_substitutes (ofText "abcdef".toList) h
  refine ⟨h, ?_, hperm _ (List.reverse_perm _)⟩
  rw [text?, hbytes]
  decide +kernel

end Document
end SourceBench
