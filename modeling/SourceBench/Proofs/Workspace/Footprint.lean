import SourceBench.Proofs.Workspace.Copies
import SourceBench.Proofs.Workspace.Growth

/-!
# Where changes are made

`Changes` bounds what is different after a change of a store: only given places are written, and only at given places
are there new folders.  Making folders and writing a file leave their mark at the path of the file alone
(`changes_create`), and a backup in its own folder (`Backup.changes_replace`), whether they come to their end or not.
-/
namespace SourceBench

open List Bool

variable {q : List String} {s : Store} {n : String} {file : Pathname} {place : List String} {description : Value}

namespace Store

/-- Only places in `written` have another content, and the new folders are in `opened`, where nothing was. -/
structure Changes (s : Store) (written opened : List String → Prop) (s' : Store) : Prop where
  base : s'.base = s.base
  find? : ∀ q, s'.find? q = s.find? q ∨ written q ∨ (opened q ∧ s.find? q = none ∧ s'.find? q = some .folder)

section

variable {s s₁ s' : Store} {written opened : List String → Prop}

theorem Changes.refl (s : Store) (written opened : List String → Prop) : s.Changes written opened s :=
  ⟨rfl, fun _ => .inl rfl⟩

theorem Changes.trans (h : s.Changes written opened s₁) (h' : s₁.Changes written opened s') :
    s.Changes written opened s' := by
  refine ⟨h'.base.trans h.base, fun q => ?_⟩
  rcases h'.find? q with hsame | hwritten | ⟨hopened, hnone, hfolder⟩
  · rw [hsame]
    exact h.find? q
  · exact .inr (.inl hwritten)
  · rcases h.find? q with hsame | hwritten | ⟨-, -, hfolder₁⟩
    · exact .inr (.inr ⟨hopened, hsame ▸ hnone, hfolder⟩)
    · exact .inr (.inl hwritten)
    · cases hnone.symm.trans hfolder₁

theorem Changes.mono {written' opened' : List String → Prop} (h : s.Changes written opened s')
    (hwritten : ∀ q, written q → written' q) (hopened : ∀ q, opened q → opened' q) : s.Changes written' opened' s' :=
  ⟨h.base, fun q => (h.find? q).imp_right (Or.imp (hwritten q) (And.imp_left (hopened q)))⟩

theorem changes_set {e : Entry} (hne : place ≠ []) (h : written place) : s.Changes written opened (s.set place e) := by
  refine ⟨base_set .., fun q => ?_⟩
  by_cases hq : q = place
  · exact .inr (.inl (hq ▸ h))
  · exact .inl (find?_set_of_ne hne hq e)

end

/-! ## Paths -/

theorem follow_append : ∀ {parts place rest q : List String}, (∀ n ∈ parts, n ≠ "..") → rest ≠ [] →
    follow s place (parts ++ rest) = .ok q → follow s (place ++ parts) rest = .ok q
  | [], place, rest, q, _, _, h => by rwa [append_nil]
  | n :: parts, place, rest, q, hnames, hrest, h => by
    rw [forall_mem_cons] at hnames
    rw [cons_append, follow_cons hnames.1 (by simp [hrest])] at h
    split at h
    · rw [append_cons]
      exact follow_append hnames.2 hrest h
    · cases h
    · cases h

theorem follow_one (h : follow s place [n] = .ok q) : q = place ++ [n] ∨ q = place.dropLast := by
  by_cases hn : n = ".."
  · subst hn
    rw [follow] at h
    split at h
    · cases h
    · rw [follow, Except.ok.injEq] at h
      exact .inr h.symm
  · rw [follow_single hn, Except.ok.injEq] at h
    exact .inl h.symm

/-- A beginning of the path leads to the place. -/
def LeadsBy (s : Store) (p : Pathname) (q : List String) : Prop := ∃ k, s.locate ⟨p.root, p.parts.take k⟩ = .ok q

section

variable {s s' : Store} {p : Pathname} {b : Bytes}

theorem LeadsBy.mono (hbase : s'.base = s.base)
    (hfolders : ∀ q, s.find? q = some .folder → s'.find? q = some .folder) (h : s.LeadsBy p q) : s'.LeadsBy p q := by
  obtain ⟨k, hk⟩ := h
  exact ⟨k, locate_mono hbase hfolders hk⟩

theorem leadsBy_of_locate (h : s.locate p = .ok q) : s.LeadsBy p q :=
  ⟨p.parts.length, by rw [take_length]; exact h⟩

theorem LeadsBy.of_parent (h : s.LeadsBy p.parent q) : s.LeadsBy p q := by
  obtain ⟨k, hk⟩ := h
  refine ⟨min k (p.parts.length - 1), ?_⟩
  rwa [Pathname.parent, dropLast_eq_take, take_take] at hk

theorem Extends.folders (h : s.Extends s') : ∀ q, s.find? q = some .folder → s'.find? q = some .folder :=
  fun q hq => h.find? q _ hq

theorem changes_makeFolder (h : s.makeFolder p = .ok s') : s.Changes (fun _ => False) (s'.LeadsBy p) s' := by
  have hextends := extends_makeFolder h
  obtain ⟨place, hplace, rfl | ⟨hnone, hne, rfl⟩⟩ := makeFolder_eq_ok h
  · exact Changes.refl ..
  · have hleads := leadsBy_of_locate (locate_mono hextends.base hextends.folders hplace)
    refine ⟨base_set .., fun q => ?_⟩
    by_cases hq : q = place
    · subst hq
      exact .inr (.inr ⟨hleads, hnone, find?_set_self hne _⟩)
    · exact .inl (find?_set_of_ne hne hq _)

theorem changes_after_makeFolder (s : Store) (p : Pathname) :
    s.Changes (fun _ => False) ((s.after (s.makeFolder p)).1.LeadsBy p) (s.after (s.makeFolder p)).1 := by
  cases hmade : s.makeFolder p with
  | ok s' => exact changes_makeFolder hmade
  | error e => exact Changes.refl ..

/-- **Folders are made on the way to the last only,** also where making them ends early. -/
theorem changes_makeFoldersWith : ∀ (n : Nat) (s : Store) (p : Pathname),
    s.Changes (fun _ => False) ((makeFoldersWith n s p).1.LeadsBy p) (makeFoldersWith n s p).1
  | 0, s, p => changes_after_makeFolder s p
  | n + 1, s, p => by
    rw [makeFoldersWith]
    split
    · next hone => exact changes_makeFolder hone
    · split
      · exact Changes.refl ..
      · have habove := changes_makeFoldersWith n s p.parent
        split
        · next s₁ hmade =>
          rw [hmade] at habove
          have hextends := extends_after_makeFolder s₁ p
          refine (habove.mono (fun _ h => h) fun q hq => ?_).trans (changes_after_makeFolder s₁ p)
          exact hq.of_parent.mono hextends.base hextends.folders
        · next s₁ e hmade =>
          rw [hmade] at habove
          exact habove.mono (fun _ h => h) fun q hq => hq.of_parent
    · exact Changes.refl ..

theorem changes_makeFolders (s : Store) (p : Pathname) :
    s.Changes (fun _ => False) ((s.makeFolders p).1.LeadsBy p) (s.makeFolders p).1 := changes_makeFoldersWith ..

theorem changes_writeBytes (h : s.writeBytes p b = .ok s') :
    s.Changes (fun q => s'.locate p = .ok q) (fun _ => False) s' := by
  have hgrows := grows_writeBytes h
  obtain ⟨place, hplace, hfolder, rfl⟩ := writeBytes_eq_ok.1 h
  exact changes_set (ne_nil_of_not_folder hfolder) (locate_mono hgrows.base hgrows.folders hplace)

theorem readBytes_of_writeBytes (h : s.writeBytes p b = .ok s') : s'.readBytes p = .ok b := by
  have hgrows := grows_writeBytes h
  obtain ⟨place, hplace, hfolder, rfl⟩ := writeBytes_eq_ok.1 h
  exact readBytes_of_find? (locate_mono hgrows.base hgrows.folders hplace)
    (find?_set_self (ne_nil_of_not_folder hfolder) _)

/-! ## Files with their folders -/

variable {cs : List Char}

/-- How a file is created: something is there and must not be overwritten, or folders are made and the file is written,
as far as that goes. -/
theorem create_cases (s : Store) (p : Pathname) (cs : List Char) (overwrite : Bool) :
    (s.has p ∧ overwrite = false ∧ s.create p cs overwrite = (s, .ok false)) ∨ (¬ (s.has p ∧ overwrite = false)) ∧
        ((∃ e, s.create p cs overwrite = ((s.makeFolders p.parent).1, .error e)) ∨
          ∃ s', (s.makeFolders p.parent).1.writeText p cs = .ok s' ∧ s.create p cs overwrite = (s', .ok true)) := by
  unfold create
  by_cases hthere : (s.has p && !overwrite)
  · rw [if_pos hthere]
    rw [and_eq_true, not_eq_true'] at hthere
    exact .inl ⟨hthere.1, hthere.2, rfl⟩
  · rw [if_neg hthere]
    rw [and_eq_true, not_eq_true'] at hthere
    refine .inr ⟨hthere, ?_⟩
    rcases s.makeFolders p.parent with ⟨s₁, _ | e⟩
    · dsimp only
      cases s₁.writeText p cs with
      | error e => exact .inl ⟨e, rfl⟩
      | ok s' => exact .inr ⟨s', rfl, rfl⟩
    · exact .inl ⟨e, rfl⟩

/-- **A file that is created is all that changes,** with the folders on the way to it. -/
theorem changes_create (s : Store) (p : Pathname) (cs : List Char) (overwrite : Bool) :
    s.Changes (fun q => (s.create p cs overwrite).1.locate p = .ok q) ((s.create p cs overwrite).1.LeadsBy p.parent)
      (s.create p cs overwrite).1 := by
  have hfolders := changes_makeFolders s p.parent
  rcases create_cases s p cs overwrite with ⟨-, -, h⟩ | ⟨-, ⟨e, h⟩ | ⟨s', hwrite, h⟩⟩
  · rw [h]
    exact Changes.refl ..
  · rw [h]
    exact hfolders.mono (fun _ h => h.elim) fun _ h => h
  · rw [h]
    have hgrows := grows_writeBytes hwrite
    refine (hfolders.mono (fun _ h => h.elim) fun q hq => ?_).trans
      ((changes_writeBytes hwrite).mono (fun _ h => h) fun _ h => h.elim)
    exact hq.mono hgrows.base hgrows.folders

theorem readBytes_of_create {overwrite : Bool} (h : (s.create p cs overwrite).2 = .ok true) :
    (s.create p cs overwrite).1.readBytes p = .ok (Utf8.encode cs) := by
  rcases create_cases s p cs overwrite with ⟨-, -, h'⟩ | ⟨-, ⟨e, h'⟩ | ⟨s', hwrite, h'⟩⟩
  · rw [h'] at h
    cases h
  · rw [h'] at h
    cases h
  · rw [h']
    exact readBytes_of_writeBytes hwrite

end
end Store

/-! ## Backups -/

namespace Backup

open Store

theorem eq_of_locate_here {parts : List String} (hnames : ∀ n ∈ parts, n ≠ "..")
    (h : s.locate ⟨.here, parts⟩ = .ok q) : q = parts := by
  rw [eq_of_follow hnames h, nil_append]

section

variable {s : Store} {id : String} (hid : IsName id)
include hid

theorem ne_dots_of_mem_placeOf : ∀ n ∈ placeOf id, n ≠ ".." := by
  intro n hn
  rcases mem_append.1 hn with hn | hn
  · exact (isName_place n hn).2.2.1
  · rw [mem_singleton.1 hn]
    exact hid.2.2.1

theorem prefix_of_leadsBy (h : s.LeadsBy (folder.child id) q) : q <+: placeOf id := by
  obtain ⟨k, hk⟩ := h
  rw [folder_child] at hk
  rw [eq_of_locate_here (fun n hn => ne_dots_of_mem_placeOf hid n (mem_of_mem_take hn)) hk]
  exact take_prefix k _

theorem below_of_locate (hn : n ≠ "..") (h : s.locate ((folder.child id).child n) = .ok q) : q = placeOf id ++ [n] := by
  rw [folder_child] at h
  refine eq_of_locate_here (fun m hm => ?_) h
  rcases mem_append.1 hm with hm | hm
  · exact ne_dots_of_mem_placeOf hid m hm
  · rwa [mem_singleton.1 hm]

/-- What is copied into the folder of a backup under a name stays there: under that name, or in it where that is a
folder. -/
theorem changes_copy {s' : Store} (hn : n ≠ "..") (h : s.copy file ((folder.child id).child n) = .ok s') :
    s.Changes (fun q => placeOf id <+: q) (fun _ => False) s' := by
  obtain ⟨b, q, -, hplace, hfolder, -, rfl⟩ := copy_eq_ok h
  refine changes_set (ne_nil_of_not_folder hfolder) ?_
  split at hplace
  · rw [folder_child] at hplace
    have hnames : ∀ m ∈ placeOf id ++ [n], m ≠ ".." := by
      intro m hm
      rcases mem_append.1 hm with hm | hm
      · exact ne_dots_of_mem_placeOf hid m hm
      · rwa [mem_singleton.1 hm]
    rcases follow_one (follow_append hnames (cons_ne_nil _ _) hplace) with rfl | rfl
    · exact ⟨[n, file.name], by simp⟩
    · simp
  · rw [below_of_locate hid hn hplace]
    exact prefix_append ..

theorem changes_fill {m : Moment} :
    s.Changes (fun q => placeOf id <+: q) (fun _ => False) (fill s (folder.child id) file description m).1 := by
  obtain ⟨s₁, cs, hcopy, hfill⟩ := fill_cases s (folder.child id) file description m
  have hcopied : s.Changes (fun q => placeOf id <+: q) (fun _ => False) s₁ := by
    rcases hcopy with rfl | hcopy
    · exact Changes.refl ..
    · refine changes_copy hid (fun h => ?_) hcopy
      have := congrArg String.toList h
      rw [String.toList_append] at this
      cases this
  rcases hfill with ⟨e, hfill⟩ | ⟨s₂, hwrite, hfill⟩
  · rwa [hfill]
  · rw [hfill]
    refine hcopied.trans ((changes_writeBytes hwrite).mono (fun q hq => ?_) fun _ h => h)
    rw [below_of_locate hid (by decide) hq]
    exact prefix_append ..

end

def nextPlace (w : Workspace) : List String := placeOf (idOf w.clock.now (w.serial + 1))

theorem changes_create (w : Workspace) (file : Pathname) (description : Value) :
    w.store.Changes (fun q => nextPlace w <+: q) (fun q => q <+: nextPlace w) (create w file description).1.store := by
  have hid := isName_idOf w.clock.now (w.serial + 1)
  have hfolders := changes_makeFolders w.store (folder.child (idOf w.clock.now (w.serial + 1)))
  unfold create
  dsimp only
  cases hmade : w.store.makeFolders (folder.child (idOf w.clock.now (w.serial + 1))) with
  | mk s failed =>
    rw [hmade] at hfolders
    have hopened : w.store.Changes (fun q => nextPlace w <+: q) (fun q => q <+: nextPlace w) s :=
      hfolders.mono (fun _ h => h.elim) fun q hq => prefix_of_leadsBy hid hq
    cases failed with
    | some e => exact hopened
    | none =>
      have hfill : s.Changes _ _ (fill s (folder.child (idOf w.clock.now (w.serial + 1)))
          file description w.clock.next.now).1 :=
        changes_fill hid
      have hall := hopened.trans (hfill.mono (fun _ h => h) fun _ h => h.elim)
      dsimp only
      generalize fill s (folder.child (idOf w.clock.now (w.serial + 1))) file description w.clock.next.now
        = filled at hall ⊢
      obtain ⟨s', _ | e⟩ := filled
      · exact hall
      · exact hall

/-- How a file is given its new content: a backup is made, and if that comes to its end, the content is written. -/
theorem replace_cases (w : Workspace) (file : Pathname) (content : List Char) (description : Value) :
    (∃ e, replace w file content description true = ((create w file description).1, .error e)) ∨
      ∃ id s', (create w file description).1.store.writeText file content = .ok s' ∧
        replace w file content description true
          = ({ (create w file description).1 with store := s' }, .ok (some id)) := by
  unfold replace
  rw [if_pos rfl]
  rcases create w file description with ⟨w', e | id⟩
  · exact .inl ⟨e, rfl⟩
  · dsimp only
    cases hwrite : w'.store.writeText file content with
    | error e => exact .inl ⟨e, rfl⟩
    | ok s' => exact .inr ⟨id, s', rfl, rfl⟩

/-- **A file is given its new content at its own place, and the backup is made in its own folder.** -/
theorem changes_replace (w : Workspace) (file : Pathname) (content : List Char) (description : Value) : w.store.Changes
      (fun q => (replace w file content description true).1.store.locate file = .ok q ∨ nextPlace w <+: q)
      (fun q => q <+: nextPlace w) (replace w file content description true).1.store := by
  have hcreate := changes_create w file description
  rcases replace_cases w file content description with ⟨e, h⟩ | ⟨id, s', hwrite, h⟩
  · rw [h]
    exact hcreate.mono (fun _ hq => .inr hq) fun _ hq => hq
  · rw [h]
    exact (hcreate.mono (fun _ hq => .inr hq) fun _ hq => hq).trans
      ((changes_writeBytes hwrite).mono (fun _ hq => .inl hq) fun _ hq => hq.elim)

theorem readBytes_of_replace {w w' : Workspace} {content : List Char}
    {id : Option String} (h : replace w file content description true = (w', .ok id)) :
    w'.store.readBytes file = .ok (Utf8.encode content) := by
  rcases replace_cases w file content description with ⟨e, h'⟩ | ⟨id, s', hwrite, h'⟩
  · cases h.symm.trans h'
  · cases h.symm.trans h'
    exact readBytes_of_writeBytes hwrite

end Backup
end SourceBench
