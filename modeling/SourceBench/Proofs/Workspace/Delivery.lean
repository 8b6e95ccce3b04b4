import SourceBench.Proofs.Workspace.Footprint
import SourceBench.Proofs.Workspace.Restoring
import SourceBench.Workspace.Delivery

/-!
# What becomes of delivered files

Where paths do not lead back, a path names one place, whatever folders are there (`eq_placeOf`).  One file that is
delivered is written or skipped (`Stepped`); from that, file by file, `Delivered` says what is in the store after a list
of them.
-/
namespace SourceBench

open List Store

variable {s s' : Store} {p : Pathname} {q : List String} {f : GeneratedFile} {fs : List GeneratedFile}
  {overwrite due : Bool} {d d' : Delivery}

/-! ## Places -/

/-- The place that a path names, if it does not lead back. -/
def Store.placeOf (s : Store) (p : Pathname) : List String :=
  match p.root with
  | .here => p.parts
  | _ => p.parts.drop s.base.length

namespace Store

theorem locate_eq (hbase : s'.base = s.base) (h : s.locate p = .ok q) : s'.locate p = follow s' [] (s.placeOf p) := by
  obtain ⟨root, parts⟩ := p
  cases root with
  | here => rfl
  | slash | twoSlashes =>
    simp only [locate, placeOf, hbase] at h ⊢
    split at h
    · next hprefix => rw [if_pos hprefix]
    · cases h

theorem eq_placeOf (hp : ".." ∉ p.parts) (h : s.locate p = .ok q) : q = s.placeOf p := by
  have hnames : ".." ∉ s.placeOf p := by
    unfold placeOf
    split
    · exact hp
    · exact fun hmem => hp (mem_of_mem_drop hmem)
  have hfollow := h
  rw [locate_eq rfl h] at hfollow
  exact eq_of_follow (fun n hn => ne_of_mem_of_not_mem hn hnames) hfollow

theorem prefix_placeOf (hp : ".." ∉ p.parts) (h : s.LeadsBy p q) : q <+: s.placeOf p := by
  obtain ⟨k, hk⟩ := h
  rw [eq_placeOf (fun hmem => hp (mem_of_mem_take hmem)) hk]
  unfold placeOf
  dsimp only
  split
  · exact take_prefix k _
  · exact take_prefix k _ |>.drop _

theorem follow_of_locate (hp : ".." ∉ p.parts) (h : s.locate p = .ok q) : follow s [] q = .ok q := by
  have hfollow := locate_eq rfl h
  rw [← eq_placeOf hp h, h] at hfollow
  exact hfollow.symm

/-- All that is in the store can be reached. -/
def Reached (s : Store) : Prop := ∀ q e, s.find? q = some e → follow s [] q = .ok q

end Store

namespace Delivery

/-! ## Which files are written -/

def placeIn (s : Store) (f : GeneratedFile) : List String := s.placeOf (.ofString f.path)

/-- The file may replace what is there, or nothing was at its place and no file before it has the same. -/
def isDue (overwrite : Bool) (s : Store) (before : List GeneratedFile) (f : GeneratedFile) : Bool :=
  overwrite || (s.find? (placeIn s f)).isNone && before.all (placeIn s · != placeIn s f)

/-- The files behind `before` that are due, or those that are not. -/
def picked (overwrite : Bool) (s : Store) (due : Bool) : List GeneratedFile → List GeneratedFile → List GeneratedFile
  | _, [] => []
  | before, f :: fs =>
    let rest := picked overwrite s due (before ++ [f]) fs
    if isDue overwrite s before f == due then f :: rest else rest

theorem picked_sublist : ∀ {before : List GeneratedFile} (fs : List GeneratedFile),
    picked overwrite s due before fs <+ fs
  | _, [] => .refl _
  | _, f :: fs => by
    rw [picked]
    split
    · exact (picked_sublist fs).cons_cons f
    · exact (picked_sublist fs).cons f

theorem picked_all : ∀ {before : List GeneratedFile} (fs : List GeneratedFile),
    picked true s true before fs = fs ∧ picked true s false before fs = []
  | _, [] => ⟨rfl, rfl⟩
  | before, f :: fs => ⟨congrArg (f :: ·) (picked_all fs).1, (@picked_all (before ++ [f]) fs).2⟩

theorem picked_apart : ∀ (before fs : List GeneratedFile),
    (picked false s true before fs).Pairwise (placeIn s · ≠ placeIn s ·) ∧
      ∀ g ∈ picked false s true before fs, s.find? (placeIn s g) = none ∧ ∀ f ∈ before, placeIn s f ≠ placeIn s g
  | _, [] => ⟨.nil, nofun⟩
  | before, f :: fs => by
    obtain ⟨hpairs, hnew⟩ := picked_apart (before ++ [f]) fs
    simp only [forall_mem_append, forall_mem_singleton] at hnew
    have hrest : ∀ g ∈ picked false s true (before ++ [f]) fs, s.find? (placeIn s g) = none ∧
        ∀ f ∈ before, placeIn s f ≠ placeIn s g := fun g hg => ⟨(hnew g hg).1, (hnew g hg).2.1⟩
    rw [picked]
    split
    · next hdue =>
      have hf : s.find? (placeIn s f) = none ∧ ∀ g ∈ before, placeIn s g ≠ placeIn s f := by simpa [isDue] using hdue
      exact ⟨hpairs.cons fun g hg => (hnew g hg).2.2, forall_mem_cons.2 ⟨hf, hrest⟩⟩
    · exact ⟨hpairs, hrest⟩

theorem picked_behind (hplace : ∀ g, placeIn s' g = placeIn s g) : ∀ {before fs : List GeneratedFile},
    (∀ g ∈ fs, (s'.find? (placeIn s g)).isNone = ((s.find? (placeIn s g)).isNone && placeIn s f != placeIn s g)) →
      picked overwrite s due (f :: before) fs = picked overwrite s' due before fs
  | _, [], _ => rfl
  | before, g :: fs, h => by
    obtain ⟨hg, hfs⟩ := forall_mem_cons.1 h
    have hdue : isDue overwrite s (f :: before) g = isDue overwrite s' before g := by
      simp [isDue, hplace, hg, Bool.and_assoc]
    rw [picked, picked, hdue, ← picked_behind hplace hfs, cons_append]

/-! ## Step by step -/

def Straight (f : GeneratedFile) : Prop := ".." ∉ (Pathname.ofString f.path).parts

/-- After one file: it is there if it was due, its place is taken, and all else is as it was, but for new folders. -/
structure Stepped (overwrite : Bool) (s : Store) (f : GeneratedFile) (s' : Store) : Prop where
  base : s'.base = s.base
  folders : ∀ q, s.find? q = some .folder → s'.find? q = some .folder
  reached : s'.Reached
  there : isDue overwrite s [] f = true →
    s'.locate (.ofString f.path) = .ok (placeIn s f) ∧ s'.find? (placeIn s f) = some (.file (Utf8.encode f.content))
  taken : ∀ g, (placeIn s g <+: placeIn s f → placeIn s g = placeIn s f) →
    (s'.find? (placeIn s g)).isNone = ((s.find? (placeIn s g)).isNone && placeIn s f != placeIn s g)
  others : ∀ q, (isDue overwrite s [] f = true → placeIn s f ≠ q) →
    s'.find? q = s.find? q ∨ s.find? q = none ∧ s'.find? q = some .folder

theorem stepped_of_create (hs : s.Reached) (hf : Straight f)
    (h : s.create (.ofString f.path) f.content overwrite = (s', .ok true)) :
    isDue overwrite s [] f ∧ Stepped overwrite s f s' := by
  have hchanges := changes_create s (.ofString f.path) f.content overwrite
  rcases create_cases s (.ofString f.path) f.content overwrite with ⟨-, -, h'⟩ | ⟨hfree, ⟨e, h'⟩ | ⟨t, hwrite, h'⟩⟩
  · cases h.symm.trans h'
  · cases h.symm.trans h'
  · cases h.symm.trans h'
    rw [h] at hchanges
    have hsame : s'.placeOf (.ofString f.path) = placeIn s f := by
      rw [placeIn, Store.placeOf, Store.placeOf, hchanges.base]
    have hfolders : ∀ q, s.find? q = some .folder → s'.find? q = some .folder := fun q hq =>
      (grows_writeBytes hwrite).folders q ((extends_makeFolders s _).folders q hq)
    obtain ⟨q, hq, hfind⟩ := readBytes_eq_ok.1 (readBytes_of_writeBytes hwrite)
    obtain rfl := hsame ▸ eq_placeOf hf hq
    have hdue : isDue overwrite s [] f := by
      by_contra hdue
      obtain ⟨rfl, e, he⟩ : overwrite = false ∧ ∃ e, s.find? (placeIn s f) = some e := by
        simpa [isDue, Option.ne_none_iff_exists'] using hdue
      have hlocate : s.locate (.ofString f.path) = follow s [] (placeIn s f) := hsame ▸ locate_eq hchanges.base.symm hq
      exact hfree ⟨has_of_find? (hlocate.trans (hs _ e he)) he, rfl⟩
    have hothers : ∀ q, placeIn s f ≠ q → s'.find? q = s.find? q ∨
        q <+: placeIn s f ∧ s.find? q = none ∧ s'.find? q = some .folder := fun q hne => by
      rcases hchanges.find? q with hfind | hwritten | ⟨hopened, hnew⟩
      · exact .inl hfind
      · exact absurd (hsame ▸ eq_placeOf hf hwritten).symm hne
      · exact .inr ⟨hsame ▸ prefix_placeOf hf hopened.of_parent, hnew⟩
    refine ⟨hdue, hchanges.base, hfolders, fun q e he => ?_, fun _ => ⟨hq, hfind⟩, fun g hg => ?_,
      fun q hne => (hothers q (hne hdue)).imp_right And.right⟩
    · rcases hchanges.find? q with hfind | hwritten | ⟨hopened, -⟩
      · exact follow_mono hfolders (hs q e (hfind ▸ he))
      · exact follow_of_locate hf hwritten
      · obtain ⟨k, hk⟩ := hopened.of_parent
        exact follow_of_locate (fun hmem => hf (mem_of_mem_take hmem)) hk
    · by_cases hfg : placeIn s f = placeIn s g
      · simp [← hfg, hfind]
      · rcases hothers _ hfg with hsame | ⟨hbehind, -⟩
        · simp [hsame, hfg]
        · exact absurd (hg hbehind).symm hfg

theorem stepped_of_step (hs : s.Reached) (hf : Straight f) (h : step overwrite s d f = (s', .ok d')) :
    Stepped overwrite s f s' ∧ d' = if isDue overwrite s [] f then { d with written := d.written ++ [f.path] }
      else { d with skipped := d.skipped ++ [f.path] } := by
  unfold step at h
  rcases hcreate : s.create (.ofString f.path) f.content overwrite with ⟨t, e | _ | _⟩
  · rw [hcreate] at h
    cases h
  · rw [hcreate] at h
    cases h
    rcases create_cases s (.ofString f.path) f.content overwrite with ⟨hhas, rfl, h'⟩ | ⟨-, ⟨e, h'⟩ | ⟨t, -, h'⟩⟩
    · cases hcreate.symm.trans h'
      obtain ⟨q, e, hq, he⟩ := has_iff.1 hhas
      obtain rfl : q = placeIn s f := eq_placeOf hf hq
      have hdue : isDue false s [] f = false := by simp [isDue, he]
      refine ⟨⟨rfl, fun _ hq => hq, hs, fun h => ?_, fun g _ => ?_, fun _ _ => .inl rfl⟩, by rw [hdue]⟩
      · cases hdue.symm.trans h
      · by_cases hfg : placeIn s f = placeIn s g
        · simp [← hfg, he]
        · simp [hfg]
    · cases hcreate.symm.trans h'
    · cases hcreate.symm.trans h'
  · rw [hcreate] at h
    cases h
    obtain ⟨hdue, hstepped⟩ := stepped_of_create hs hf hcreate
    exact ⟨hstepped, by rw [hdue]⟩

/-- After all files: the last one that was due for a place is there, and all else is as it was, but for new folders. -/
structure Delivered (overwrite : Bool) (s : Store) (fs : List GeneratedFile) (s' : Store) : Prop where
  base : s'.base = s.base
  folders : ∀ q, s.find? q = some .folder → s'.find? q = some .folder
  last : ∀ before f after, picked overwrite s true [] fs = before ++ f :: after →
    (∀ g ∈ after, placeIn s g ≠ placeIn s f) → s'.readBytes (.ofString f.path) = .ok (Utf8.encode f.content)
  others : ∀ q, (∀ f ∈ picked overwrite s true [] fs, placeIn s f ≠ q) →
    s'.find? q = s.find? q ∨ s.find? q = none ∧ s'.find? q = some .folder

theorem run_delivered : ∀ {fs : List GeneratedFile} {s : Store} {d : Delivery}, s.Reached → (∀ f ∈ fs, Straight f) →
    fs.Pairwise (fun f g => placeIn s g <+: placeIn s f → placeIn s g = placeIn s f) →
    run overwrite s d fs = (s', d', none) → Delivered overwrite s fs s' ∧
      d' = ⟨d.written ++ (picked overwrite s true [] fs).map (·.path),
        d.skipped ++ (picked overwrite s false [] fs).map (·.path)⟩
  | [], s, d, _, _, _, h => by
    cases h
    exact ⟨⟨rfl, fun _ hq => hq, fun before f after h => by simp [picked] at h, fun _ _ => .inl rfl⟩, by simp [picked]⟩
  | f :: fs, s, d, hs, hstraight, hapart, h => by
    conv at h => lhs; whnf
    split at h
    · next s₁ d₁ hstep =>
      rw [forall_mem_cons] at hstraight
      rw [pairwise_cons] at hapart
      obtain ⟨hone, rfl⟩ := stepped_of_step hs hstraight.1 hstep
      have hplace : ∀ g, placeIn s₁ g = placeIn s g := fun g => by
        rw [placeIn, placeIn, Store.placeOf, Store.placeOf, hone.base]
      have hpicked : ∀ due, picked overwrite s due [] (f :: fs) =
          (if isDue overwrite s [] f == due then [f] else []) ++ picked overwrite s₁ due [] fs := fun due => by
        rw [picked, nil_append, picked_behind hplace fun g hg => hone.taken g (hapart.1 g hg)]
        split <;> rfl
      obtain ⟨hd, rfl⟩ := run_delivered hone.reached hstraight.2 (by simpa only [hplace] using hapart.2) h
      refine ⟨⟨hd.base.trans hone.base, fun q hq => hd.folders q (hone.folders q hq), ?_, fun q hq => ?_⟩, ?_⟩
      · have hrest := hd.last
        simp only [hplace] at hrest
        rw [hpicked]
        cases hdue : isDue overwrite s [] f with
        | false => exact hrest
        | true =>
          rintro (_ | ⟨f', before⟩) g after hg hafter
          · cases hg
            obtain ⟨hlocate, hfind⟩ := hone.there hdue
            rcases hd.others (placeIn s f) (fun g hg => hplace g ▸ hafter g hg) with hsame | ⟨hnone, -⟩
            · exact readBytes_of_find? (locate_mono hd.base hd.folders hlocate) (hsame.trans hfind)
            · cases hnone.symm.trans hfind
          · exact hrest before g after (cons_eq_cons.1 hg).2 hafter
      · rw [hpicked, forall_mem_append] at hq
        have hf := hone.others q fun hdue => hq.1 f (by simp [hdue])
        rcases hf, hd.others q (by simpa only [hplace] using hq.2) with
          ⟨hsame | ⟨hnone, hfolder⟩, hsame' | ⟨hnone', hfolder'⟩⟩
        · exact .inl (hsame'.trans hsame)
        · exact .inr ⟨hsame.symm.trans hnone', hfolder'⟩
        · exact .inr ⟨hnone, hsame'.trans hfolder⟩
        · cases hnone'.symm.trans hfolder
      · cases hdue : isDue overwrite s [] f <;> simp [hpicked, hdue]
    · cases h

/-- **Files are delivered without loss**, if no path leads back and none is that of a folder of another.  What was there
stays where it may not be replaced, and a file is written if it is the first one for its place and nothing was there;
the others are skipped.  Else all are written, and the last one for a place is there in the end.  No other file
changes. -/
theorem run_accounts (hs : s.WellFormed) (hstraight : ∀ f ∈ fs, Straight f)
    (hapart : ∀ f ∈ fs, ∀ g ∈ fs, placeIn s f <+: placeIn s g → placeIn s f = placeIn s g)
    (h : run overwrite s {} fs = (s', d, none)) :
    (overwrite = false → (∀ q b, s.find? q = some (.file b) → s'.find? q = some (.file b)) ∧
      d.written = (picked false s true [] fs).map (·.path) ∧ d.skipped = (picked false s false [] fs).map (·.path) ∧
      ∀ f ∈ picked false s true [] fs, s'.readBytes (.ofString f.path) = .ok (Utf8.encode f.content)) ∧
    (overwrite = true → d.skipped = [] ∧ d.written = fs.map (·.path) ∧ ∀ before f after, fs = before ++ f :: after →
      (∀ g ∈ after, placeIn s g ≠ placeIn s f) → s'.readBytes (.ofString f.path) = .ok (Utf8.encode f.content)) ∧
    ∀ q, (∀ f ∈ fs, placeIn s f ≠ q) → ∀ b, s'.find? q = some (.file b) ↔ s.find? q = some (.file b) := by
  have hreached : s.Reached := fun _ _ he => hs.follow_of_find? he
  have hpairs : fs.Pairwise fun f g => placeIn s g <+: placeIn s f → placeIn s g = placeIn s f :=
    pairwise_of_forall_mem_list fun f hf g hg => hapart g hg f hf
  obtain ⟨hd, rfl⟩ := run_delivered hreached hstraight hpairs h
  refine ⟨?_, ?_, fun q hq b => ?_⟩
  · rintro rfl
    obtain ⟨hplaces, hnew⟩ := @picked_apart s [] fs
    refine ⟨fun q b hq => ?_, nil_append _, nil_append _, fun f hf => ?_⟩
    · have hne : ∀ f ∈ picked false s true [] fs, placeIn s f ≠ q := fun f hf heq => by
        cases (hnew f hf).1.symm.trans (heq ▸ hq)
      rcases hd.others q hne with hsame | ⟨hnone, -⟩
      · rw [hsame, hq]
      · cases hnone.symm.trans hq
    · obtain ⟨before, after, hfs⟩ := append_of_mem hf
      rw [hfs, pairwise_append, pairwise_cons] at hplaces
      exact hd.last before f after hfs fun g hg => (hplaces.2.1.1 g hg).symm
  · rintro rfl
    obtain ⟨hall, hnil⟩ := @picked_all s [] fs
    exact ⟨by rw [hnil]; rfl, by rw [hall]; rfl, fun before f after hfs => hd.last before f after (hall.trans hfs)⟩
  · rcases hd.others q fun f hf => hq f ((picked_sublist fs).subset hf) with hsame | ⟨hnone, hfolder⟩
    · rw [hsame]
    · simp [hnone, hfolder]

def heldStore : Store := ⟨[], [(["b.ts"], .file (Utf8.encode "old".toList))]⟩

/-- Two files for one new place, and one for a place that is taken. -/
def offered : List GeneratedFile := [⟨"b.ts", "1".toList⟩, ⟨"a/c.ts", "2".toList⟩, ⟨"a/c.ts", "3".toList⟩]

theorem run_accounts_repeated : heldStore.WellFormed ∧ run false heldStore {} offered =
      ((run false heldStore {} offered).1, ⟨["a/c.ts"], ["b.ts", "a/c.ts"]⟩, none) ∧
    (run false heldStore {} offered).1.readBytes (.ofString "a/c.ts") = .ok (Utf8.encode "2".toList) := by
  have hs : heldStore.WellFormed := by decide +kernel
  have hrun : run false heldStore {} offered =
      ((run false heldStore {} offered).1, ⟨["a/c.ts"], ["b.ts", "a/c.ts"]⟩, none) := by decide +kernel
  have hstraight : ∀ f ∈ offered, ".." ∉ (Pathname.ofString f.path).parts := by decide +kernel
  obtain ⟨-, -, -, hread⟩ := (run_accounts hs hstraight (by decide +kernel) hrun).1 rfl
  exact ⟨hs, hrun, hread ⟨"a/c.ts", "2".toList⟩ (by decide +kernel)⟩

/-- A path that leads back through a folder that is not there yet names nothing, until the folder is made for it: the
file where it then leads is replaced. -/
theorem run_replaces_behind_new_folder : heldStore.WellFormed ∧
    (run false heldStore {} [⟨"x/../b.ts", "new".toList⟩]).2 = (⟨["x/../b.ts"], []⟩, none) ∧
    (run false heldStore {} [⟨"x/../b.ts", "new".toList⟩]).1.find? ["b.ts"]
      = some (.file (Utf8.encode "new".toList)) := by
  decide +kernel

end Delivery
end SourceBench
