import SourceBench.Proofs.Edit.RenamedRanges

/-!
# Renaming back

Splices are taken back by others that put the old texts where the first have moved them (`applyAll_back`).  If the
result of a renaming in the file reads as the source does, with its trees moved, then renaming the new name to the old
one makes just those splices: so it succeeds and gives the source again (`rename_back`), where the new name was nowhere
before and no shorthand property took the old one.
-/
namespace SourceBench
namespace Splice

open List

/-! ## Splices taken back -/

/-- The splice that puts a text back where another was made, told by the places after all splices. -/
def back (ss : List Splice) (old : List Char) (s : Splice) : Splice := ⟨moved ss s.start, moved ss s.stop, old⟩

variable {ss ts : List Splice} {s t : Splice} {bytes : Bytes} {old : List Char}

theorem moved_of_behind {n : Int} (h : ∀ s ∈ ss, s.stop ≤ n) : moved ss n = n + (ss.map shift).sum := by
  rw [moved, filter_eq_self.2 fun s hs => by simpa using h s hs]

theorem length_apply (h : s.Lies bytes.length) : ((s.apply bytes).length : Int) = bytes.length + s.shift := by
  obtain ⟨x, w, y, rfl, hstart, hstop⟩ := h.split
  have := shift_of_split hstart hstop
  rw [apply_append hstart hstop]
  simp only [length_append, Int.natCast_add]
  omega

theorem length_foldl_apply : ∀ {ss : List Splice} {bytes : Bytes}, Descending ss → (∀ s ∈ ss, s.Lies bytes.length) →
    ((ss.foldl (fun b s => s.apply b) bytes).length : Int) = moved ss bytes.length
  | [], bytes, _, _ => by simp [moved]
  | t :: ss, bytes, hss, hlies => by
    have ht := hlies t mem_cons_self
    obtain ⟨hhead, htail⟩ := pairwise_cons.1 hss
    rw [foldl_cons, length_foldl_apply htail fun s hs => ?_, length_apply ht, moved_cons_of_le hss ht.lt ht.le]
    have hs' := hlies s (mem_cons_of_mem _ hs)
    refine ⟨hs'.nonneg, hs'.lt, ?_⟩
    rw [length_apply ht]
    exact Int.le_trans (hhead s hs) (start_le_shifted ht.le)

theorem tidy_of_descending {length : Nat} (hss : Descending ss) (hlies : ∀ s ∈ ss, s.Lies length) : Tidy length ss :=
  ⟨hlies, hss.imp fun hle => .inr hle⟩

theorem back_descending (hss : Descending ss) (h : Tidy bytes.length ss) : Descending (ss.map (back ss old)) :=
  pairwise_map.2 (hss.imp_of_mem fun hs ht hle => h.moved_le (h.outside ht).2 (h.outside hs).1 hle)

theorem back_lies (hss : Descending ss) (hlies : ∀ s ∈ ss, s.Lies bytes.length) : ∀ s ∈ ss.map (back ss old),
    0 ≤ s.start ∧ s.start ≤ s.stop ∧ s.stop ≤ (ss.foldl (fun b s => s.apply b) bytes).length := by
  have h := tidy_of_descending hss hlies
  intro u hu
  obtain ⟨s, hs, rfl⟩ := mem_map.1 hu
  refine ⟨h.moved_nonneg (h.outside hs).1 (hlies s hs).nonneg,
    h.moved_le (h.outside hs).1 (h.outside hs).2 (Int.le_of_lt (hlies s hs).lt), ?_⟩
  rw [length_foldl_apply hss hlies]
  exact h.moved_le (h.outside hs).2 (fun t ht => .inl (hlies t ht).le) (hlies s hs).le

theorem foldl_apply_back : ∀ {ss : List Splice} {bytes : Bytes}, Descending ss → (∀ s ∈ ss, s.Lies bytes.length) →
    (∀ s ∈ ss, slicePart bytes s.start s.stop = Utf8.encode old) →
    (ss.map (back ss old)).foldl (fun b s => s.apply b) (ss.foldl (fun b s => s.apply b) bytes) = bytes
  | [], _, _, _, _ => rfl
  | t :: ss, bytes, hss, hlies, hold => by
    have ht := hlies t mem_cons_self
    obtain ⟨hhead, htail⟩ := pairwise_cons.1 hss
    obtain ⟨x, w, y, rfl, hstart, hstop⟩ := ht.split
    have hshift := shift_of_split hstart hstop
    have hw : w = Utf8.encode old := by
      rw [← hold t mem_cons_self, slicePart_append hstart.symm hstop.symm]
    have hin : ∀ s ∈ ss, s.Lies x.length := fun s hs => by
      have hs' := hlies s (mem_cons_of_mem _ hs)
      exact ⟨hs'.nonneg, hs'.lt, hstart ▸ hhead s hs⟩
    have hold' : ∀ s ∈ ss, slicePart x s.start s.stop = Utf8.encode old := fun s hs => by
      obtain ⟨a, m, z, rfl, hs1, hs2⟩ := (hin s hs).split
      rw [← hold s (mem_cons_of_mem _ hs), slicePart_append hs1.symm hs2.symm, append_assoc _ z,
        append_assoc _ (z ++ w), slicePart_append hs1.symm hs2.symm]
    have hrest : ∀ s ∈ ss, back (t :: ss) old s = back ss old s := fun s hs => by
      have := hhead s hs
      have := ht.lt
      have := (hin s hs).lt
      rw [back, back, moved_cons_of_lt (by omega), moved_cons_of_lt (by omega)]
    have hfront := length_foldl_apply htail hin
    rw [← hstart] at hfront
    -- The last splice is taken back first, where the others have moved it to.
    have hback : (back (t :: ss) old t).apply (ss.foldl (fun b s => s.apply b) x ++ Utf8.encode t.text ++ y)
        = ss.foldl (fun b s => s.apply b) x ++ w ++ y := by
      rw [hw]
      refine apply_append ?_ ?_
      · show moved (t :: ss) t.start = _
        rw [hfront, moved_cons_of_lt ht.lt]
      · show moved (t :: ss) t.stop = _
        rw [hfront, moved_cons_of_le hss ht.lt (Int.le_refl _), moved_of_behind hhead, moved_of_behind fun s hs =>
          Int.le_trans (hhead s hs) (start_le_shifted (Int.le_refl _))]
        omega
    have hweak : ∀ s ∈ ss, 0 ≤ s.start ∧ s.start ≤ s.stop ∧ s.stop ≤ x.length := fun s hs =>
      ⟨(hin s hs).nonneg, Int.le_of_lt (hin s hs).lt, (hin s hs).le⟩
    rw [map_cons, foldl_cons, foldl_cons, apply_append hstart hstop, append_assoc, foldl_apply_append _ htail hweak,
      ← append_assoc, hback, map_congr_left hrest, append_assoc,
      foldl_apply_append _ (back_descending htail (tidy_of_descending htail hin)) (back_lies htail hin),
      foldl_apply_back htail hin hold', ← append_assoc]

theorem applyAll_of_descending (h : Tidy bytes.length ss) (hp : ts.Perm ss) (hts : Descending ts) :
    applyAll ss bytes = ts.foldl (fun b s => s.apply b) bytes := by
  have hsort : sort ss = ts := ((sort_perm ss).trans hp.symm).eq_of_pairwise (fun a b ha hb hab hba => by
    have := (h.lies_sort a ha).lt
    have := (h.lies b (hp.subset hb)).lt
    omega) (sort_descending h) hts
  rw [applyAll, hsort]

/-- **Splices are taken back by putting the old texts where they were moved to.** -/
theorem applyAll_back (h : Tidy bytes.length ss) (hold : ∀ s ∈ ss, slicePart bytes s.start s.stop = Utf8.encode old)
    (hback : Tidy (applyAll ss bytes).length (ss.map (back ss old))) :
    applyAll (ss.map (back ss old)) (applyAll ss bytes) = bytes := by
  have hsort : back (sort ss) old = back ss old := funext fun s => by rw [back, back, moved_sort, moved_sort]
  have hdescending : Descending ((sort ss).map (back (sort ss) old)) :=
    back_descending (sort_descending h) (tidy_of_descending (sort_descending h) h.lies_sort)
  rw [hsort] at hdescending
  rw [applyAll_of_descending hback ((sort_perm ss).map _) hdescending, ← hsort, applyAll]
  exact foldl_apply_back (sort_descending h) h.lies_sort fun s hs => hold s ((sort_perm ss).subset hs)

end Splice

namespace Renaming

open Syntax Reading Splice DeclarationTree List

def inverse (op : Rename) : Rename := { op with old := op.new, new := op.old }

def isRewritten : Kind → Bool
  | .identifier | .typeIdentifier | .shorthandPropertyIdentifier => true
  | _ => false

/-- No variable, type or shorthand property of the source has the new name, and no shorthand property the old one. -/
structure Fresh [Recovery] (source : List Char) (op : Rename) : Prop where
  new : ∀ u ∈ (View.ofText source).tree.leaves, isRewritten u.kind = true → textOf source u ≠ op.new.toList
  old : ∀ u ∈ (View.ofText source).tree.leaves, u.kind = .shorthandPropertyIdentifier → textOf source u ≠ op.old.toList

instance [Recovery] (source : List Char) (op : Rename) : Decidable (Fresh source op) :=
  decidable_of_iff _ ⟨fun h => ⟨h.1, h.2⟩, fun h => And.intro h.new h.old⟩

variable {source result : List Char} {op : Rename} {k : Kind}

theorem isOccurrence_of_isRewritten (h : isRewritten k) : isOccurrence k ∧ k ≠ .shorthandPropertyIdentifierPattern := by
  unfold isRewritten at h
  split at h <;> first | exact ⟨rfl, by decide⟩ | cases h

theorem written_of_isRewritten (op : Rename) (h : isRewritten k) (hk : k ≠ .shorthandPropertyIdentifier) :
    written op k = some op.new.toList := by
  unfold isRewritten at h
  split at h <;> first | rfl | exact absurd rfl hk | cases h

theorem written_eq_none (op : Rename) (h : isRewritten k = false) : written op k = none := by
  unfold written
  split <;> first | rfl | cases h

theorem mem_leaves_of_isName [SoundRecovery] {u : Tree} (hu : u ∈ (View.ofText source).tree.nodes)
    (hk : isName u.kind) :
    u ∈ (View.ofText source).tree.leaves := by
  have hleaves := Tree.filterMap_leaves (f := fun u => if isName u.kind then some u else none) fun r k s cs hmem => by
    rw [show isName (Syntax.Tree.node r k s cs).kind = false from (View.ofText_wellNamed source r k s cs hmem).noName]
    rfl
  have hmem : u ∈ (View.ofText source).tree.nodes.filterMap fun u => if isName u.kind then some u else none :=
    mem_filterMap.2 ⟨u, hu, if_pos hk⟩
  rw [← hleaves] at hmem
  obtain ⟨w, hw, heq⟩ := mem_filterMap.1 hmem
  rw [Option.ite_none_right_eq_some, Option.some.injEq] at heq
  exact heq.2 ▸ hw

theorem filterMap_eq_of_forall₂ {α β γ δ : Type} {R : α → β → Prop} {f : α → Option γ} {g : β → Option δ} {e : γ → δ}
    (hfg : ∀ a b, R a b → g b = (f a).map e) {l : List α} {l' : List β} (h : Forall₂ R l l') :
    l'.filterMap g = (l.filterMap f).map e := by
  induction h with
  | nil => rfl
  | @cons a b l l' hab _ ih =>
    rw [filterMap_cons, filterMap_cons, hfg a b hab]
    cases f a with
    | none => exact ih
    | some c => exact congrArg (e c :: ·) ih

section Result

variable [SoundRecovery] (hname : op.old ≠ "") (hfresh : Fresh source op)
  (hresult : applyAll (symbolSplices source op) (Utf8.encode source) = Utf8.encode result)

include hname hfresh hresult

theorem text_after_eq_new {u : Tree} (hu : u ∈ (View.ofText source).tree.nodes) (hk : isRewritten u.kind) {a z : Nat}
    (ha : (a : Int) = moved (symbolSplices source op) u.start) (hz : (z : Int) = moved (symbolSplices source op) u.stop)
    {text : List Char} (hbytes : ((Utf8.encode result).drop a).take (z - a) = Utf8.encode text) :
    text = op.new.toList ↔ textOf source u = op.old.toList := by
  obtain ⟨hoccurs, hpattern⟩ := isOccurrence_of_isRewritten hk
  have hleaf := mem_leaves_of_isName hu (isName_of_isOccurrence hoccurs)
  have hafter := nameAfter_eq hname hresult (mem_filter.2 ⟨hu, hoccurs⟩)
  rw [nameAfter, ← ha, ← hz, slicePart_nat, hbytes, Utf8.decode_encode, Option.map_some, Option.some.injEq,
    if_neg fun hkey => hfresh.old u hleaf hkey.1 hkey.2.1] at hafter
  have htext : text = if textOf source u = op.old.toList then op.new.toList else textOf source u :=
    hafter.trans (if_congr (and_iff_left fun hmissed => hpattern hmissed.1) rfl rfl)
  rw [htext]
  split
  · exact iff_of_true rfl ‹_›
  · exact iff_of_false (hfresh.new u hleaf hk) ‹_›

theorem spliceAt_after {u u' : Tree} (hu : u ∈ (View.ofText source).tree.nodes)
    (hu' : u' ∈ (View.ofText result).tree.nodes)
    (h : Mirror (MovedBy (symbolSplices source op)) u u') : spliceAt result (inverse op).old (inverse op).new u'
      = (spliceAt source op.old op.new u).map (back (symbolSplices source op) op.old.toList) := by
  rw [spliceAt_eq, spliceAt_eq, ← h.kind_eq]
  cases hk : isRewritten u.kind with
  | false => simp [written_eq_none _ hk]
  | true =>
    obtain ⟨hstart, hstop⟩ := h.related
    have htext : textOf result u' = (inverse op).old.toList ↔ textOf source u = op.old.toList :=
      text_after_eq_new hname hfresh hresult hu hk hstart hstop (View.ofText_coherent result u' hu').bytes
    by_cases hold : textOf source u = op.old.toList
    · have hleaf := mem_leaves_of_isName hu (isName_of_isOccurrence (isOccurrence_of_isRewritten hk).1)
      have hshort : u.kind ≠ .shorthandPropertyIdentifier := fun hs => hfresh.old u hleaf hs hold
      rw [if_pos (htext.2 hold), if_pos hold, written_of_isRewritten _ hk hshort, written_of_isRewritten _ hk hshort,
        Option.map_some, Option.map_some, Option.map_some, Splice.replace, hstart, hstop]
      rfl
    · rw [if_neg (mt htext.1 hold), if_neg hold]
      rfl

variable (hreads : Mirror (MovedBy (symbolSplices source op)) (View.ofText source).tree (View.ofText result).tree)

include hreads

theorem symbolSplices_back : symbolSplices result (inverse op)
    = (symbolSplices source op).map (back (symbolSplices source op) op.old.toList) :=
  filterMap_eq_of_forall₂ (fun _ _ hu => spliceAt_after hname hfresh hresult hu.1 hu.2.1 hu.2.2)
    (forall₂_mem hreads.nodes)

omit hreads in
theorem Pairs.name_iff {d d' : Declaration} (h : Pairs source result (symbolSplices source op) d d')
    (hparent : d.parent = none) (hk : d.kind ∈ renamable) : d'.name = op.new ↔ d.name = op.old := by
  obtain ⟨hd, hd', ⟨-, -, x, x', hx, hx', hstart, hstop⟩, -, -⟩ := h
  obtain ⟨g, hg, hkind, hread, hrange⟩ := head_of_mem_layOut hd hparent
  rw [hkind] at hk
  have hother : g.item.kind ≠ .variableDecl ∧ g.item.kind ≠ .enumeration := by
    constructor <;> intro heq <;> simp [heq, renamable] at hk
  obtain ⟨u, hu, hchild, hwanted, -⟩ := named_of_group (View.ofText_coherent source) (View.ofText_wellNamed source) hg
    hother.1 hother.2
  have hrewritten : isRewritten g.item.name.kind := by
    simp only [mem_cons, not_mem_nil, or_false] at hwanted
    rcases hwanted with hk | hk <;> rw [hk] <;> rfl
  rw [hrange, Option.some.injEq] at hx
  have hstart' : x.start = g.item.name.start := (congrArg Prod.fst hx).symm
  have hstop' : x.stop = g.item.name.stop := (congrArg Prod.snd hx).symm
  obtain ⟨⟨a, z, hrange', -, -, -, hbytes⟩, -⟩ := inPlace_of_mem_layOut (View.ofText_coherent result) hd'
  rw [hx', Option.some.injEq] at hrange'
  cases hrange'
  rw [← String.toList_inj, text_after_eq_new hname hfresh hresult (Layout.nodes_trans hu (mem_nodes_of_child? hchild))
    hrewritten
    (hstart' ▸ hstart) (hstop' ▸ hstop) hbytes, hread, ← String.toList_inj, stringOf, String.toList_ofList]

theorem find?_after {k : DeclKind} (hk : k ∈ renamable) : ((View.ofText result).outline.tree.find? k op.new).isSome
    = ((View.ofText source).outline.tree.find? k op.old).isSome := by
  have hkeys : ∀ d d', Pairs source result (symbolSplices source op) d d' →
      (topKey? d == some (k, op.old)) = (topKey? d' == some (k, op.new)) := by
    intro d d' h
    obtain ⟨hkind, hparent, -⟩ := h.2.2.1
    unfold topKey?
    rw [← hparent, ← hkind]
    cases hnone : d.parent with
    | some o => rfl
    | none =>
      by_cases hd : d.kind = k
      · have hiff := Pairs.name_iff hname hfresh hresult h hnone (hd ▸ hk)
        rw [Bool.eq_iff_iff]
        simp [hd, hiff]
      · simp [hd]
  have hfind : ∀ text name, (View.ofText text).outline.tree.find? k name
      = (arena text).find? (topKey? · == some (k, name)) := fun text name =>
    ofTree_find? (View.ofText_coherent text) "transform.ts" k name
  have hrel := forall₂_find? hkeys (arena_pairs hreads)
  rw [hfind, hfind]
  generalize (arena source).find? _ = o, (arena result).find? _ = o' at hrel
  cases hrel <;> rfl

theorem ofSymbol_inverse {p : Plan} (h : ofSymbol (View.ofText source) op = .ok p) :
    ofSymbol (View.ofText result) (inverse op) = .ok (.splices (symbolSplices result (inverse op))) := by
  unfold ofSymbol at h ⊢
  split at h
  · rename_i hfound
    obtain ⟨k, hk, hsome⟩ := any_eq_true.1 hfound
    rw [if_pos (any_eq_true.2 ⟨k, hk, (find?_after hname hfresh hresult hreads hk).trans hsome⟩)]
    rfl
  · cases h

end Result

theorem slicePart_symbolSplices [SoundRecovery] {s : Splice} (hs : s ∈ symbolSplices source op) :
    slicePart (Utf8.encode source) s.start s.stop = Utf8.encode op.old.toList := by
  obtain ⟨u, hu, htext, w, -, rfl⟩ := mem_symbolSplices hs
  rw [Splice.replace, slicePart_nat, (View.ofText_coherent source u (isName_of_mem hu).1).bytes, htext]

end Renaming

namespace Transformation

open Renaming Splice

/-- **Renaming back**: after a renaming in the file by a fresh name, if the result reads as the source does with its
trees moved, the renaming back succeeds on the result and gives the source, be it by itself or in one run with the
first. -/
theorem rename_back [Syntax.SoundRecovery] {source result : List Char} {op : Rename} {t : Transformation}
    (h : run source [.rename op] = .ok t) (hs : t.succeeded = true) (hfile : InFile op)
    (hresult : t.source? = some result) (hold : op.old ≠ "") (hnew : op.new ≠ "") (hfresh : Fresh source op)
    (hreads : ReadsAlike source result op) :
    (∃ u, run result [.rename (inverse op)] = .ok u ∧ u.succeeded = true ∧ u.source? = some source) ∧
      ∃ u, run source [.rename op, .rename (inverse op)] = .ok u ∧ u.succeeded = true ∧ u.source? = some source := by
  obtain ⟨p, hplan, hbytes⟩ := plan_of_succeeded h hs rfl
  have hsymbol : ofSymbol (View.ofText source) op = .ok p := by
    rw [← plan_of_inFile hfile]
    exact hplan
  obtain ⟨hedits, -⟩ := ofSymbol_eq_ok hsymbol
  have hencoded : applyAll (symbolSplices source op) (Utf8.encode source) = Utf8.encode result := by
    rw [← hedits, ← hbytes, Utf8.encode_of_decode hresult]
  have hsplices : splicesOf source op = symbolSplices source op := by
    rw [splicesOf, plan_of_inFile hfile, hsymbol]
    exact hedits
  rw [ReadsAlike, hsplices] at hreads
  have hback := symbolSplices_back hold hfresh hencoded hreads
  have htidy := symbolSplices_tidy result (show (inverse op).old ≠ "" from hnew)
  have hinverse : (Operation.rename (inverse op)).plan (Utf8.encode result) (View.ofText result)
      = .ok (.splices (symbolSplices result (inverse op))) := by
    show plan (View.ofText result) (inverse op) = _
    rw [plan_of_inFile (show InFile (inverse op) from hfile)]
    exact ofSymbol_inverse hold hfresh hencoded hreads hsymbol
  obtain ⟨u, hrun, hu, hbytes'⟩ := run_of_plan rfl hinverse
  have hsource : u.source? = some source := by
    have hagain : u.document.bytes = Utf8.encode source := by
      rw [hback, ← hencoded] at htidy
      rw [hbytes', Plan.edits, hback, ← hencoded]
      exact applyAll_back (symbolSplices_tidy source hold) (fun s hs => slicePart_symbolSplices hs) htidy
    rw [source?, Document.text?, hagain, Utf8.decode_encode]
  obtain ⟨s, hboth, hs', hend⟩ := run_append_of_succeeded h hs hresult hrun hu
  exact ⟨⟨u, hrun, hu, hsource⟩, s, hboth, hs', hend.trans hsource⟩

attribute [local instance] Syntax.SoundRecovery.bare

def boxToCrate : Rename := ⟨"Box", "Crate", .str "file", .null⟩

def boxes : List Char := "type Box = Box[]; // §\nlet b: Box;\n".toList

def crates : List Char := "type Crate = Crate[]; // §\nlet b: Crate;\n".toList

-- Lest the trees be read once more to see whether a proof of it is a function.
attribute [local irreducible] ReadsAlike

theorem rename_back_crates :
    (∃ t, run boxes [.rename boxToCrate] = .ok t ∧ t.succeeded = true ∧ t.source? = some crates) ∧
      Fresh boxes boxToCrate ∧ ReadsAlike boxes crates boxToCrate ∧
      (∃ u, run crates [.rename (inverse boxToCrate)] = .ok u ∧ u.succeeded = true ∧ u.source? = some boxes) ∧
      ∃ u, run boxes [.rename boxToCrate, .rename (inverse boxToCrate)] = .ok u ∧ u.succeeded = true ∧
        u.source? = some boxes := by
  obtain ⟨⟨t, hrun, hs, htext⟩, hfresh, hreads⟩ :
      (∃ t, run boxes [.rename boxToCrate] = .ok t ∧ t.succeeded = true ∧ t.source? = some crates) ∧
      Fresh boxes boxToCrate ∧ ReadsAlike boxes crates boxToCrate := by
    rw [show boxes = _ from String.toList_ofList, show crates = _ from String.toList_ofList]
    decide +kernel
  exact ⟨⟨t, hrun, hs, htext⟩, hfresh, hreads,
    rename_back hrun hs (.inr rfl) htext (by decide) (by decide) hfresh hreads⟩

end Transformation
end SourceBench
