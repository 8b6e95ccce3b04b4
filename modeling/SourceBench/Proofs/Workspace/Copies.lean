import SourceBench.Proofs.Value.Texts
import SourceBench.Proofs.Workspace.Moment
import SourceBench.Proofs.Workspace.Store
import SourceBench.Workspace.Backup

/-!
# What a backup keeps

`Saved` is what one backup is about.  Where its record and its copy are in place, restoring it gives the file its bytes
back and changes nothing else (`restore_saved`); rewriting a file puts them in place (`replace_saved`).
-/
namespace SourceBench.Backup

open List Store Pathname

/-! ## Places -/

def place : List String := ["home", "backups"]

def placeOf (id : String) : List String := place ++ [id]

def recordPlace (id : String) : List String := placeOf id ++ [recordName]

theorem folder_eq : folder = ⟨.here, place⟩ := by decide

theorem folder_child (id : String) : folder.child id = ⟨.here, placeOf id⟩ := by rw [folder_eq]; rfl

theorem folder_record (id : String) : (folder.child id).child recordName = ⟨.here, recordPlace id⟩ := by
  rw [folder_child]
  rfl

theorem isName_place : ∀ n ∈ place, IsName n := by decide

theorem isName_recordName : IsName recordName := by decide

theorem isName_copy {name : String} (h : '/' ∉ name.toList) : IsName ("0_" ++ name) := by
  have hlist : ("0_" ++ name).toList = '0' :: '_' :: name.toList := by rw [String.toList_append]; rfl
  refine ⟨fun h => ?_, fun h => ?_, fun h => ?_, ?_⟩
  · rw [h] at hlist; cases hlist
  · rw [h] at hlist; cases hlist
  · rw [h] at hlist; cases hlist
  · rw [hlist]
    simp [h]

theorem copy_ne_recordName (name : String) : "0_" ++ name ≠ recordName := fun h => by
  have := congrArg String.toList h
  rw [String.toList_append] at this
  cases this

theorem isName_idOf (m : Moment) (serial : Nat) : IsName (idOf m serial) := by
  have hdigits : ∀ {base width n : Nat}, 1 < base → base ≤ 16 → '/' ∉ Text.padded base width n := by
    intro base width n hbase hle h
    obtain ⟨d, hd, hc⟩ := Text.exists_of_mem_padded hbase h
    exact (show ∀ d < 16, '/' ≠ Nat.digitChar d by decide) d (by omega) hc
  have hlist : (idOf m serial).toList = m.word.toList ++ '_' :: Text.padded 16 8 serial := by
    have hhex : Text.hexDigits 8 serial = Text.padded 16 8 serial := rfl
    rw [idOf, String.toList_append, String.toList_append, String.toList_ofList, String.toList_ofList, append_assoc,
      hhex, singleton_append]
  have hunder : '_' ∈ (idOf m serial).toList := by rw [hlist]; simp
  refine ⟨fun h => ?_, fun h => ?_, fun h => ?_, ?_⟩
  · rw [h] at hunder; revert hunder; decide
  · rw [h] at hunder; revert hunder; decide
  · rw [h] at hunder; revert hunder; decide
  · have hten : ∀ {width n : Nat}, '/' ∉ Text.padded 10 width n := hdigits (by decide) (by decide)
    have hsixteen : '/' ∉ Text.padded 16 8 serial := hdigits (by decide) (by decide)
    have hunder : '/' ∉ "_".toList := by decide
    rw [hlist]
    simp only [Moment.word, String.toList_append, Moment.toList_digits, mem_append, mem_cons, hten, hsixteen, hunder,
      or_false, or_self]
    decide

/-! ## What is saved -/

/-- What one backup is about: a file with the bytes that it had, and what the record says of them. -/
structure Saved where
  id : String
  file : List String
  before : Bytes
  description : String
  stamp : Moment
deriving DecidableEq

namespace Saved

def copyPlace (r : Saved) : List String := placeOf r.id ++ ["0_" ++ r.file.getLast?.getD ""]

def record (r : Saved) (base : List String) : Value :=
  recordOf (.str r.description) r.stamp [(⟨.slash, base ++ r.file⟩, ⟨.here, r.copyPlace⟩)]

/-- The record and the copy are in place, and so is the file, which is not in the folder of backups. -/
structure InStore (r : Saved) (s : Store) : Prop where
  record : s.find? (recordPlace r.id) = some (.file (Utf8.encode (Json.write (.indented 2) 0 (r.record s.base))))
  copy : s.find? r.copyPlace = some (.file r.before)
  file : ∃ b, s.find? r.file = some (.file b)
  outside : ¬ place <+: r.file

variable {r : Saved} {s : Store}

theorem isTextual_record (r : Saved) (base : List String) : Json.isTextual (r.record base) := by
  simp [record, recordOf, Json.isTextual, Json.areTextual, Json.fieldsTextual]

theorem InStore.locate_record (h : r.InStore s) (hs : s.WellFormed) :
    s.locate ⟨.here, recordPlace r.id⟩ = .ok (recordPlace r.id) := hs.follow_of_find? h.record

theorem InStore.readText_record (h : r.InStore s) (hs : s.WellFormed) :
    s.readText ⟨.here, recordPlace r.id⟩ = .ok (Json.write (.indented 2) 0 (r.record s.base)) :=
  readText_of_find? (h.locate_record hs) h.record
    fun hreturn => (Json.clean_write _ _ 0 _ hreturn).2 rfl

theorem InStore.isName_id (h : r.InStore s) (hs : s.WellFormed) : IsName r.id :=
  hs.isName h.record r.id (by simp [recordPlace, placeOf])

theorem InStore.file_ne_nil (h : r.InStore s) : r.file ≠ [] := by
  obtain ⟨b, hb⟩ := h.file
  rintro hnil
  rw [hnil] at hb
  cases hb

end Saved

theorem restoreRecord_record (s : Store) (r : Saved) :
    restoreRecord s (r.record s.base) = restoreItems s [.object [("original", .str (s.absolute r.file).text),
      ("backup", .str (text ⟨.here, r.copyPlace⟩))]] := rfl

variable {s : Store} {r : Saved}

theorem restore_saved (hs : s.WellFormed) (h : r.InStore s) :
    restore s r.id = (s.set r.file (.file r.before), .done) := by
  obtain ⟨b, hb⟩ := h.file
  have hrecord : (folder.join (.ofString r.id)).child recordName = ⟨.here, recordPlace r.id⟩ := by
    rw [ofString_name (h.isName_id hs), folder_eq]
    rfl
  have hcopy : ofString (text ⟨.here, r.copyPlace⟩) = ⟨.here, r.copyPlace⟩ :=
    ofString_text (fun h => by cases h) (by simp [Saved.copyPlace]) (hs.isName h.copy)
  have hfile : ofString (s.absolute r.file).text = s.absolute r.file := by
    refine ofString_text (fun h => by cases h) (append_ne_nil_of_right_ne_nil _ h.file_ne_nil) fun n hn => ?_
    rcases mem_append.1 hn with hn | hn
    · exact hs.base n hn
    · exact hs.isName hb n hn
  have hlocate : s.locate ⟨.here, r.copyPlace⟩ = .ok r.copyPlace := hs.follow_of_find? h.copy
  have hne : r.copyPlace ≠ r.file := fun heq => h.outside (heq ▸ by simp [Saved.copyPlace, placeOf])
  have hdone : s.copy ⟨.here, r.copyPlace⟩ (s.absolute r.file) = .ok (s.set r.file (.file r.before)) :=
    copy_of_locate hlocate h.copy (by rw [locate_absolute, hs.follow_of_find? hb]) (by rw [hb]; simp) hne
  rw [restore]
  simp only [hrecord, has_of_find? (h.locate_record hs) h.record, h.readText_record hs,
    Json.parse_write _ (Saved.isTextual_record r s.base), Bool.not_true, Bool.false_eq_true, if_false]
  rw [restoreRecord_record, restoreItems, restoreItem]
  simp [pathField, Fields.get?, hcopy, hfile, has_of_find? hlocate h.copy, hdone, bind, Except.bind, pure, Except.pure,
    restoreItems]

/-! ## Rewriting -/

namespace Saved

variable {r : Saved} {s : Store}

/-- The store with the copy and the record of a backup put into its folder. -/
def putIn (r : Saved) (s : Store) : Store :=
  (s.set r.copyPlace (.file r.before)).set (recordPlace r.id)
    (.file (Utf8.encode (Json.write (.indented 2) 0 (r.record s.base))))

theorem copyPlace_ne_nil (r : Saved) : r.copyPlace ≠ [] := by simp [copyPlace]

theorem recordPlace_ne_nil (id : String) : recordPlace id ≠ [] := by simp [recordPlace]

theorem dropLast_recordPlace (id : String) : (recordPlace id).dropLast = placeOf id := dropLast_concat

theorem copyPlace_ne (r : Saved) : r.copyPlace ≠ recordPlace r.id := fun h =>
  copy_ne_recordName _ (singleton_inj.1 (append_cancel_left h))

theorem find?_putIn (r : Saved) (s : Store) (q : List String) : (r.putIn s).find? q =
    if q = recordPlace r.id then some (.file (Utf8.encode (Json.write (.indented 2) 0 (r.record s.base))))
    else if q = r.copyPlace then some (.file r.before) else s.find? q := by
  rw [putIn, find?_set (recordPlace_ne_nil r.id), find?_set r.copyPlace_ne_nil]

@[simp] theorem base_putIn (r : Saved) (s : Store) : (r.putIn s).base = s.base := by simp [putIn]

structure Vacant (r : Saved) (s : Store) : Prop where
  folder : s.find? (placeOf r.id) = some .folder
  empty : ∀ n, s.find? (placeOf r.id ++ [n]) = none

theorem find?_putIn_of_some (h : r.Vacant s) {q : List String} {e : Entry} (hq : s.find? q = some e) :
    (r.putIn s).find? q = some e := by
  rw [find?_putIn, if_neg, if_neg, hq]
  · rintro rfl
    rw [copyPlace, h.empty] at hq
    cases hq
  · rintro rfl
    rw [recordPlace, h.empty] at hq
    cases hq

namespace Vacant

variable (h : r.Vacant s) (hs : s.WellFormed)
include h hs

variable {m : String}

theorem isName_inside (hm : IsName m) : ∀ n ∈ placeOf r.id ++ [m], IsName n := by
  intro n hn
  rcases mem_append.1 hn with hn | hn
  · exact hs.isName h.folder n hn
  · rwa [mem_singleton.1 hn]

theorem locate_inside (hm : IsName m) : s.locate ⟨.here, placeOf r.id ++ [m]⟩ = .ok (placeOf r.id ++ [m]) :=
  hs.follow_of_parent (h.isName_inside hs hm) (by rw [dropLast_concat, h.folder])

theorem wellFormed_set (hm : IsName m) (b : Bytes) : (s.set (placeOf r.id ++ [m]) (.file b)).WellFormed :=
  hs.set (by simp) (h.isName_inside hs hm) (by rw [dropLast_concat, h.folder])
    (fun hfolder => by rw [h.empty] at hfolder; cases hfolder)

end Vacant

theorem isName_copyName (hfile : ∀ n ∈ r.file, IsName n) : IsName ("0_" ++ r.file.getLast?.getD "") := by
  refine isName_copy ?_
  cases hfind : r.file.getLast? with
  | none => decide
  | some n => exact (hfile n (mem_of_getLast? hfind)).2.2.2

theorem Vacant.record_free (h : r.Vacant s) : (s.set r.copyPlace (.file r.before)).find? (placeOf r.id) = some .folder ∧
      (s.set r.copyPlace (.file r.before)).find? (recordPlace r.id) = none := by
  rw [find?_set_of_ne r.copyPlace_ne_nil (by simp [copyPlace]),
    find?_set_of_ne r.copyPlace_ne_nil r.copyPlace_ne.symm]
  exact ⟨h.folder, h.empty _⟩

theorem Vacant.wellFormed_copy (h : r.Vacant s) (hs : s.WellFormed) (hfile : ∀ n ∈ r.file, IsName n) :
    (s.set r.copyPlace (.file r.before)).WellFormed := h.wellFormed_set hs (isName_copyName hfile) r.before

theorem Vacant.wellFormed_putIn (h : r.Vacant s) (hs : s.WellFormed) (hfile : ∀ n ∈ r.file, IsName n) :
    (r.putIn s).WellFormed := by
  obtain ⟨hfolder, hfree⟩ := h.record_free
  refine (h.wellFormed_copy hs hfile).set (recordPlace_ne_nil r.id) (h.isName_inside hs isName_recordName) ?_
    (fun hrecord => ?_)
  · rw [dropLast_recordPlace, hfolder]
  · cases hfree.symm.trans hrecord

theorem Vacant.folderNames_putIn (h : r.Vacant s) (hs : s.WellFormed) (hfile : ∀ n ∈ r.file, IsName n)
    (q : List String) : (r.putIn s).folderNames q = s.folderNames q := by
  have hcopy : s.find? r.copyPlace = none := h.empty _
  rw [putIn, (h.wellFormed_copy hs hfile).folderNames_set_file (recordPlace_ne_nil r.id)
    (fun hfolder => nomatch h.record_free.2.symm.trans hfolder)]
  exact hs.folderNames_set_file r.copyPlace_ne_nil (fun hfolder => nomatch hcopy.symm.trans hfolder) _ _

end Saved

theorem fill_saved (hs : s.WellFormed) {p : Pathname} (hvacant : r.Vacant s) (hplace : s.locate p = .ok r.file)
    (hfile : s.find? r.file = some (.file r.before)) :
    fill s ⟨.here, placeOf r.id⟩ p (.str r.description) r.stamp = (r.putIn s, none) := by
  have hname := Saved.isName_copyName (hs.isName hfile)
  have hcopied : s.copy p ⟨.here, r.copyPlace⟩ = .ok (s.set r.copyPlace (.file r.before)) := by
    have hfree : s.find? r.copyPlace = none := hvacant.empty _
    refine copy_of_locate hplace hfile (hvacant.locate_inside hs hname) (by rw [hfree]; simp) fun heq => ?_
    cases hfree.symm.trans (heq ▸ hfile)
  have hsaved : saveCopy s p ⟨.here, r.copyPlace⟩ =
      .ok (s.set r.copyPlace (.file r.before), [(s.absolute r.file, ⟨.here, r.copyPlace⟩)]) := by
    simp [saveCopy, has_of_find? hplace hfile, hplace, hcopied, bind, Except.bind, pure, Except.pure]
  have hrecord : (s.set r.copyPlace (.file r.before)).locate ⟨.here, recordPlace r.id⟩ = .ok (recordPlace r.id) := by
    refine (hvacant.wellFormed_copy hs (hs.isName hfile)).follow_of_parent
      (hvacant.isName_inside hs isName_recordName) ?_
    exact (Saved.dropLast_recordPlace r.id).symm ▸ hvacant.record_free.1
  rw [fill, hs.name_of_locate hplace hfile,
    show child ⟨.here, placeOf r.id⟩ ("0_" ++ r.file.getLast?.getD "") = ⟨.here, r.copyPlace⟩ from rfl, hsaved]
  dsimp only
  rw [writeText, show child ⟨.here, placeOf r.id⟩ recordName = ⟨.here, recordPlace r.id⟩ from rfl,
    writeBytes_of_locate hrecord (by rw [hvacant.record_free.2]; simp)]
  rfl

structure Rewritten (s : Store) (r : Saved) (content : List Char) (s' : Store) : Prop where
  wellFormed : s'.WellFormed
  base : s'.base = s.base
  saved : r.InStore s'
  file : s'.find? r.file = some (.file (Utf8.encode content))
  folders : ∀ q, q <+: placeOf r.id → s'.find? q = some .folder
  frame : ∀ q, q ≠ r.file → ¬ q <+: placeOf r.id → ¬ placeOf r.id <+: q → s'.find? q = s.find? q
  folderNames : s'.folderNames place = s.folderNames place ++ [r.id]

/-- No file is where the folder of backups is to be. -/
def Clear (s : Store) : Prop := ∀ q, q <+: place → ∀ b, s.find? q ≠ some (.file b)

instance (s : Store) : Decidable (Clear s) :=
  decidable_of_iff (∀ q ∈ place.inits, s.find? q = none ∨ s.find? q = some .folder) <| by
    simp only [mem_inits]
    refine forall₂_congr fun q _ => ?_
    rcases s.find? q with _ | (b | _) <;> simp

theorem Clear.way (h : Clear s) {id : String} (hnew : s.find? (placeOf id) = none) :
    ∀ q, q <+: placeOf id → ∀ b, s.find? q ≠ some (.file b) := by
  intro q hq b
  rcases prefix_concat_iff.1 hq with rfl | hq
  · exact fun hb => nomatch hnew.symm.trans hb
  · exact h q hq b

section

variable {s s₁ : Store} {r : Saved} (hclear : Clear s) (hnew : s.find? (placeOf r.id) = none)
  (hfile : s.find? r.file = some (.file r.before)) (hopened : s.Opened (placeOf r.id) s₁)
include hnew hopened

theorem vacant_of_opened (hs : s.WellFormed) : r.Vacant s₁ := by
  refine ⟨by rw [hopened.find?, if_pos (prefix_refl _)], fun n => ?_⟩
  rw [hopened.find?, if_neg (not_prefix_of_concat _ n), hs.none_below hnew]

include hclear hfile

theorem file_of_opened : s₁.find? r.file = some (.file r.before) := by
  rw [hopened.find?, if_neg fun hq => hclear.way hnew _ hq _ hfile, hfile]

theorem rewritten_of_opened (hs : s.WellFormed) (houtside : ¬ place <+: r.file) (content : List Char) :
    Rewritten s r content ((r.putIn s₁).set r.file (.file (Utf8.encode content))) := by
  have hvacant := vacant_of_opened hnew hopened hs
  have hfile₁ := Saved.find?_putIn_of_some hvacant (file_of_opened hclear hnew hfile hopened)
  have hs₁ : (r.putIn s₁).WellFormed := hvacant.wellFormed_putIn hopened.wellFormed (hs.isName hfile)
  have hne : r.file ≠ [] := by
    rintro hnil
    rw [hnil] at hfile
    cases hfile
  have hcopy : r.copyPlace ≠ r.file := fun heq => houtside (heq ▸ by simp [Saved.copyPlace, placeOf])
  have hrecord : recordPlace r.id ≠ r.file := fun heq => houtside (heq ▸ by simp [recordPlace, placeOf])
  refine ⟨hs₁.set hne (hs.isName hfile) (hs₁.parent hfile₁) (fun h => nomatch hfile₁.symm.trans h),
    by rw [base_set, Saved.base_putIn, hopened.base], ⟨?_, ?_, ⟨_, find?_set_self hne _⟩, houtside⟩,
    find?_set_self hne _, fun q hq => ?_, fun q hqfile habove hbelow => ?_, ?_⟩
  · rw [find?_set_of_ne hne hrecord, Saved.find?_putIn, if_pos rfl, base_set, Saved.base_putIn]
  · rw [find?_set_of_ne hne hcopy, Saved.find?_putIn, if_neg r.copyPlace_ne, if_pos rfl]
  · have hqfile : q ≠ r.file := fun heq => hclear.way hnew _ (heq ▸ hq) _ hfile
    rw [find?_set_of_ne hne hqfile, Saved.find?_putIn_of_some hvacant (by rw [hopened.find?, if_pos hq])]
  · rw [find?_set_of_ne hne hqfile, Saved.find?_putIn, if_neg, if_neg, hopened.find?, if_neg habove]
    · rintro rfl
      exact hbelow (prefix_append ..)
    · rintro rfl
      exact hbelow (prefix_append ..)
  · rw [hs₁.folderNames_set_file hne (by rw [hfile₁]; simp),
      hvacant.folderNames_putIn hopened.wellFormed (hs.isName hfile), hopened.new place r.id rfl hnew]

end

theorem replace_saved {w : Workspace} (hs : w.store.WellFormed) (hclear : Clear w.store) {p : Pathname}
    (hid : r.id = idOf w.clock.now (w.serial + 1)) (hstamp : r.stamp = w.clock.next.now)
    (hnew : w.store.find? (placeOf r.id) = none)
    (hplace : w.store.locate p = .ok r.file) (hfile : w.store.find? r.file = some (.file r.before))
    (houtside : ¬ place <+: r.file) (content : List Char) : ∃ s', replace w p content (.str r.description) true =
        (⟨s', w.clock.next.next, w.serial + 1⟩, .ok (some r.id)) ∧ Rewritten w.store r content s' := by
  have hnames : ∀ n ∈ placeOf r.id, IsName n := by
    intro n hn
    rcases mem_append.1 hn with hn | hn
    · exact isName_place n hn
    · rw [mem_singleton.1 hn, hid]
      exact isName_idOf ..
  obtain ⟨s₁, hmade, hopened⟩ := hs.makeFolders_spec hnames (hclear.way hnew)
  have hvacant := vacant_of_opened hnew hopened hs
  have hfile₁ := file_of_opened hclear hnew hfile hopened
  -- Folders are made on the way and none is taken away: the path name leads to the file as before.
  have hplace₁ : s₁.locate p = .ok r.file := by
    refine locate_mono hopened.base (fun q hq => ?_) hplace
    rw [hopened.find?, hq, ite_self]
  have hplace₂ : (r.putIn s₁).locate p = .ok r.file :=
    locate_mono (r.base_putIn s₁) (fun _ => Saved.find?_putIn_of_some hvacant) hplace₁
  have hcreate : create w p (.str r.description) = (⟨r.putIn s₁, w.clock.next.next, w.serial + 1⟩, .ok r.id) := by
    have hfill := fill_saved hopened.wellFormed hvacant hplace₁ hfile₁
    rw [hid] at hfill hmade
    rw [hstamp] at hfill
    rw [create, folder_child, hid]
    dsimp only
    rw [hmade]
    dsimp only
    rw [hfill]
  have hwritten : (r.putIn s₁).writeText p content = .ok ((r.putIn s₁).set r.file (.file (Utf8.encode content))) :=
    writeBytes_of_locate hplace₂ (by rw [Saved.find?_putIn_of_some hvacant hfile₁]; simp) _
  refine ⟨_, ?_, rewritten_of_opened hclear hnew hfile hopened hs houtside content⟩
  rw [replace, if_pos rfl, hcreate]
  dsimp only
  rw [hwritten]

end SourceBench.Backup
