import SourceBench.Proofs.Workspace.Store
import SourceBench.Workspace.Backup

/-!
# What becomes of files

Making folders only adds to a store (`Extends`), and writing may change the bytes of files but takes nothing away
(`Grows`).  This holds of any store and any path, so what led to a file still leads to one.  Hence giving a file a new
content after a backup gives it that content or leaves its bytes (`Backup.readBytes_replace`), even where the backup
itself is written over the file.
-/
namespace SourceBench

variable {target source : Pathname} {place : List String}

namespace Store

structure Extends (s s' : Store) : Prop where
  base : s'.base = s.base
  find? : ∀ q e, s.find? q = some e → s'.find? q = some e

/-- Folders stay folders and files stay files, though perhaps with other bytes. -/
structure Grows (s s' : Store) : Prop where
  base : s'.base = s.base
  folders : ∀ q, s.find? q = some .folder → s'.find? q = some .folder
  files : ∀ q b, s.find? q = some (.file b) → ∃ b', s'.find? q = some (.file b')

theorem Extends.refl (s : Store) : s.Extends s := ⟨rfl, fun _ _ h => h⟩

theorem Extends.trans {s s₁ s₂ : Store} (h : s.Extends s₁) (h' : s₁.Extends s₂) : s.Extends s₂ :=
  ⟨h'.base.trans h.base, fun q e hq => h'.find? q e (h.find? q e hq)⟩

/-! ## Reading -/

section

variable {s s' : Store} {p : Pathname} {b : Bytes}

theorem readBytes_eq_ok : s.readBytes p = .ok b ↔ ∃ place, s.locate p = .ok place ∧ s.find? place = some (.file b) := by
  constructor
  · intro h
    obtain ⟨e, hlook, h⟩ := bind_eq_ok_iff.1 h
    obtain ⟨place, hplace, hfind⟩ := bind_eq_ok_iff.1 hlook
    refine ⟨place, hplace, ?_⟩
    split at hfind
    · next hfound =>
      cases hfind
      cases e with
      | folder => cases h
      | file b' =>
        cases h
        exact hfound
    · cases hfind
  · rintro ⟨place, hplace, hfind⟩
    exact readBytes_of_find? hplace hfind

theorem Extends.readBytes (h : s.Extends s') (hb : s.readBytes p = .ok b) : s'.readBytes p = .ok b := by
  obtain ⟨place, hplace, hfind⟩ := readBytes_eq_ok.1 hb
  exact readBytes_of_find? (locate_mono h.base (fun q hq => h.find? q _ hq) hplace) (h.find? _ _ hfind)

theorem Grows.readBytes (h : s.Grows s') (hb : s.readBytes p = .ok b) : ∃ b', s'.readBytes p = .ok b' := by
  obtain ⟨place, hplace, hfind⟩ := readBytes_eq_ok.1 hb
  obtain ⟨b', hfind'⟩ := h.files _ _ hfind
  exact ⟨b', readBytes_of_find? (locate_mono h.base h.folders hplace) hfind'⟩

/-! ## Writing -/

theorem writeBytes_eq_ok : s.writeBytes p b = .ok s' ↔
    ∃ place, s.locate p = .ok place ∧ s.find? place ≠ some .folder ∧ s' = s.set place (.file b) := by
  constructor
  · intro h
    obtain ⟨place, hplace, h⟩ := bind_eq_ok_iff.1 h
    split at h
    · cases h
    · next hfolder =>
      cases h
      exact ⟨place, hplace, hfolder, rfl⟩
  · rintro ⟨place, hplace, hfolder, rfl⟩
    exact writeBytes_of_locate hplace hfolder b

theorem ne_nil_of_not_folder (h : s.find? place ≠ some .folder) : place ≠ [] := by
  rintro rfl
  exact h rfl

theorem grows_set (h : s.find? place ≠ some .folder) : s.Grows (s.set place (.file b)) := by
  have hne := ne_nil_of_not_folder h
  refine ⟨base_set .., fun q hq => ?_, fun q b' hq => ?_⟩
  · rw [find?_set_of_ne hne (fun hqp => h (hqp ▸ hq)), hq]
  · by_cases hqp : q = place
    · exact ⟨b, by rw [hqp, find?_set_self hne]⟩
    · exact ⟨b', by rw [find?_set_of_ne hne hqp, hq]⟩

theorem grows_writeBytes (h : s.writeBytes p b = .ok s') : s.Grows s' := by
  obtain ⟨place, -, hfolder, rfl⟩ := writeBytes_eq_ok.1 h
  exact grows_set hfolder

theorem writeBytes_of_readBytes {b' : Bytes} (h : s.readBytes p = .ok b') :
    ∃ s', s.writeBytes p b = .ok s' ∧ s'.readBytes p = .ok b := by
  obtain ⟨place, hplace, hfind⟩ := readBytes_eq_ok.1 h
  have hfolder : s.find? place ≠ some .folder := by simp [hfind]
  have hgrows : s.Grows (s.set place (.file b)) := grows_set hfolder
  exact ⟨_, writeBytes_of_locate hplace hfolder b, readBytes_of_find? (locate_mono hgrows.base hgrows.folders hplace)
    (find?_set_self (ne_nil_of_not_folder hfolder) _)⟩

/-- **What copying a file does**: the bytes of the file are put at a place of another file, or of none. -/
theorem copy_eq_ok (h : s.copy source target = .ok s') : ∃ b place,
    s.readBytes source = .ok b ∧ s.locate (if s.hasFolder target then target.child source.name else target)
      = .ok place ∧
      s.find? place ≠ some .folder ∧ s.locate source ≠ .ok place ∧ s' = s.set place (.file b) := by
  unfold copy at h
  dsimp only at h
  generalize (if s.hasFolder target then target.child source.name else target) = q at h ⊢
  by_cases hsame : s.sameThing source q
  · rw [if_pos hsame] at h
    cases h
  · rw [if_neg hsame] at h
    obtain ⟨b, hread, h⟩ := bind_eq_ok_iff.1 h
    obtain ⟨place, hplace, hfolder, rfl⟩ := writeBytes_eq_ok.1 h
    refine ⟨b, place, hread, hplace, hfolder, fun hsource => hsame ?_, rfl⟩
    obtain ⟨place', hsource', hfind⟩ := readBytes_eq_ok.1 hread
    obtain rfl : place = place' := Except.ok.inj (hsource.symm.trans hsource')
    simp [sameThing, hsource, hplace, hfind]

theorem readBytes_copy (h : s.copy source target = .ok s') (hb : s.readBytes source = .ok b) :
    s'.readBytes source = .ok b := by
  obtain ⟨b', place, -, -, hfolder, hne, rfl⟩ := copy_eq_ok h
  obtain ⟨place', hplace', hfind⟩ := readBytes_eq_ok.1 hb
  have hgrows : s.Grows (s.set place (.file b')) := grows_set hfolder
  refine readBytes_of_find? (locate_mono hgrows.base hgrows.folders hplace') ?_
  rw [find?_set_of_ne (ne_nil_of_not_folder hfolder) (fun heq => hne (heq ▸ hplace')), hfind]

/-! ## Making folders -/

/-- **What making a folder does**: it leaves all where the folder is there, and puts it where nothing is. -/
theorem makeFolder_eq_ok (h : s.makeFolder p = .ok s') : ∃ place, s.locate p = .ok place ∧
    (s' = s ∨ s.find? place = none ∧ place ≠ [] ∧ s' = s.set place .folder) := by
  obtain ⟨place, hplace, h⟩ := bind_eq_ok_iff.1 h
  refine ⟨place, hplace, ?_⟩
  split at h
  · cases h
    exact .inl rfl
  · cases h
  · next hnone =>
    cases h
    refine .inr ⟨hnone, ?_, rfl⟩
    rintro rfl
    cases hnone

theorem extends_makeFolder (h : s.makeFolder p = .ok s') : s.Extends s' := by
  obtain ⟨place, -, rfl | ⟨hnone, hne, rfl⟩⟩ := makeFolder_eq_ok h
  · exact Extends.refl s'
  · refine ⟨base_set .., fun q e hq => ?_⟩
    rw [find?_set_of_ne hne, hq]
    rintro rfl
    rw [hnone] at hq
    cases hq

theorem extends_after_makeFolder (s : Store) (p : Pathname) : s.Extends (s.after (s.makeFolder p)).1 := by
  cases hmade : s.makeFolder p with
  | ok s' => exact extends_makeFolder hmade
  | error e => exact Extends.refl s

theorem extends_makeFoldersWith : ∀ (n : Nat) (s : Store) (p : Pathname), s.Extends (makeFoldersWith n s p).1
  | 0, s, p => extends_after_makeFolder s p
  | n + 1, s, p => by
    rw [makeFoldersWith]
    split
    · next hone => exact extends_makeFolder hone
    · split
      · exact Extends.refl s
      · have habove := extends_makeFoldersWith n s p.parent
        split
        · next hmade =>
          rw [hmade] at habove
          exact habove.trans (extends_after_makeFolder _ p)
        · next hmade =>
          rw [hmade] at habove
          exact habove
    · exact Extends.refl s

theorem extends_makeFolders (s : Store) (p : Pathname) : s.Extends (s.makeFolders p).1 := extends_makeFoldersWith ..

end
end Store

/-! ## Backups -/

namespace Backup

open Store

variable {s s' : Store} {w : Workspace} {file : Pathname} {b : Bytes}

theorem saveCopy_eq_ok {files : List (Pathname × Pathname)}
    (h : saveCopy s file target = .ok (s', files)) : s' = s ∨ s.copy file target = .ok s' := by
  unfold saveCopy at h
  split at h
  · cases h
    exact .inl rfl
  · obtain ⟨place, -, h⟩ := bind_eq_ok_iff.1 h
    obtain ⟨s₁, hcopy, h⟩ := bind_eq_ok_iff.1 h
    cases h
    exact .inr hcopy

theorem fill_cases (s : Store) (dir file : Pathname) (description : Value) (m : Moment) : ∃ s₁ cs,
    (s₁ = s ∨ s.copy file (dir.child ("0_" ++ file.name)) = .ok s₁) ∧
      ((∃ e, fill s dir file description m = (s₁, some e)) ∨
        ∃ s₂, s₁.writeText (dir.child recordName) cs = .ok s₂ ∧ fill s dir file description m = (s₂, none)) := by
  unfold fill
  cases hcopy : saveCopy s file (dir.child ("0_" ++ file.name)) with
  | error e => exact ⟨s, [], .inl rfl, .inl ⟨e, rfl⟩⟩
  | ok copied =>
    obtain ⟨s₁, files⟩ := copied
    refine ⟨s₁, Json.write (.indented 2) 0 (recordOf description m files), saveCopy_eq_ok hcopy, ?_⟩
    cases hwrite : s₁.writeText (dir.child recordName) (Json.write (.indented 2) 0 (recordOf description m files)) with
    | error e => exact .inl ⟨e, by simp only [hwrite, after]⟩
    | ok s₂ => exact .inr ⟨s₂, rfl, by simp only [hwrite, after]⟩

theorem readBytes_create (description : Value) (h : w.store.readBytes file = .ok b) :
    match create w file description with
    | (w', .ok _) => ∃ b', w'.store.readBytes file = .ok b'
    | (w', .error _) => w'.store.readBytes file = .ok b := by
  unfold create
  dsimp only
  have hfolders := extends_makeFolders w.store (folder.child (idOf w.clock.now (w.serial + 1)))
  cases hmade : w.store.makeFolders (folder.child (idOf w.clock.now (w.serial + 1))) with
  | mk s failed =>
    have hs : s.readBytes file = .ok b := by
      rw [hmade] at hfolders
      exact hfolders.readBytes h
    cases failed with
    | some e => exact hs
    | none =>
      dsimp only
      obtain ⟨s₁, cs, hcopy, hfill⟩ := fill_cases s
        (folder.child (idOf w.clock.now (w.serial + 1))) file description w.clock.next.now
      have hs₁ : s₁.readBytes file = .ok b := by
        rcases hcopy with rfl | hcopy
        · exact hs
        · exact readBytes_copy hcopy hs
      rcases hfill with ⟨e, hfill⟩ | ⟨s₂, hwrite, hfill⟩
      · rw [hfill]
        exact hs₁
      · rw [hfill]
        exact (grows_writeBytes hwrite).readBytes hs₁

/-- **A file is given its new content, or keeps its bytes if that fails.** -/
theorem readBytes_replace (content : List Char) (description : Value) (h : w.store.readBytes file = .ok b) :
    match replace w file content description true with
    | (w', .ok _) => w'.store.readBytes file = .ok (Utf8.encode content)
    | (w', .error _) => w'.store.readBytes file = .ok b := by
  have hcreate := readBytes_create description h
  unfold replace
  rw [if_pos rfl]
  cases hmade : create w file description with
  | mk w' made =>
    rw [hmade] at hcreate
    cases made with
    | error e => exact hcreate
    | ok id =>
      obtain ⟨b', hb'⟩ := hcreate
      obtain ⟨s, hwrite, hread⟩ := writeBytes_of_readBytes (b := Utf8.encode content) hb'
      simp only [Store.writeText, hwrite]
      exact hread

end Backup
end SourceBench
