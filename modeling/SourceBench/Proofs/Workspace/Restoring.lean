import SourceBench.Proofs.Workspace.Growth

/-!
# What restoring does

A record may be anything.  What cannot be read changes nothing.  Otherwise the items of the record are restored one
after another up to the first that is refused, and nothing else changes (`restore_outcome`).  A backup counts as
restored if no item is refused, also where copies are missing; and what was restored before an item is refused stays
(`restore_damaged`).
-/
namespace SourceBench

open List

namespace Store

/-! ## Stores with the same folders -/

section

variable {s s' s₁ : Store} {p : Pathname}

/-- The stores have the same folders, so that path names lead to the same places. -/
structure SameFolders (s s' : Store) : Prop where
  base : s'.base = s.base
  folders : ∀ q, s'.find? q = some .folder ↔ s.find? q = some .folder

theorem SameFolders.refl (s : Store) : s.SameFolders s := ⟨rfl, fun _ => Iff.rfl⟩

theorem SameFolders.trans (h : s.SameFolders s₁) (h' : s₁.SameFolders s') : s.SameFolders s' :=
  ⟨h'.base.trans h.base, fun q => (h'.folders q).trans (h.folders q)⟩

variable {place : List String}

theorem sameFolders_set (h : s.find? place ≠ some .folder) (b : Bytes) : s.SameFolders (s.set place (.file b)) := by
  refine ⟨base_set .., fun q => ?_⟩
  rw [find?_set (ne_nil_of_not_folder h)]
  split
  · next hq =>
    subst hq
    exact ⟨fun h' => (nomatch h'), fun h' => absurd h' h⟩
  · exact Iff.rfl

theorem SameFolders.locate_iff (h : s.SameFolders s') : s'.locate p = .ok place ↔ s.locate p = .ok place :=
  ⟨locate_mono h.base.symm fun q hq => (h.folders q).1 hq, locate_mono h.base fun q hq => (h.folders q).2 hq⟩

theorem SameFolders.toOption_locate (h : s.SameFolders s') (p : Pathname) :
    (s'.locate p).toOption = (s.locate p).toOption := by
  have hok : ∀ {x : Except FileError (List String)} {q : List String}, x.toOption = some q ↔ x = .ok q := by
    rintro (e | q') q <;> simp [Except.toOption]
  refine Option.ext fun q => ?_
  rw [hok, hok, h.locate_iff]

theorem hasFolder_iff : s.hasFolder p ↔ ∃ place, s.locate p = .ok place ∧ s.find? place = some .folder := by
  cases hplace : s.locate p with
  | error e => simp [hasFolder, look, hplace, bind, Except.bind]
  | ok place => simp [hasFolder_of_locate hplace]

theorem SameFolders.hasFolder_eq (h : s.SameFolders s') (p : Pathname) : s'.hasFolder p = s.hasFolder p := by
  rw [Bool.eq_iff_iff, hasFolder_iff, hasFolder_iff]
  simp only [h.locate_iff, h.folders]

theorem has_iff : s.has p ↔ ∃ place e, s.locate p = .ok place ∧ s.find? place = some e := by
  cases hplace : s.locate p with
  | error e => simp [has, look, hplace, bind, Except.bind]
  | ok place =>
    cases hfind : s.find? place with
    | none => simp [has, look_of_none hplace hfind, hfind]
    | some e => simp [has_of_find? hplace hfind, hfind]

theorem SameFolders.has_eq (h : s.SameFolders s') (hplace : ∀ q, s.locate p = .ok q → s'.find? q = s.find? q) :
    s'.has p = s.has p := by
  rw [Bool.eq_iff_iff, has_iff, has_iff]
  constructor
  · rintro ⟨q, e, hq, he⟩
    have hq := h.locate_iff.1 hq
    exact ⟨q, e, hq, hplace q hq ▸ he⟩
  · rintro ⟨q, e, hq, he⟩
    exact ⟨q, e, h.locate_iff.2 hq, hplace q hq ▸ he⟩

theorem SameFolders.readBytes_iff (h : s.SameFolders s') (hplace : ∀ q, s.locate p = .ok q → s'.find? q = s.find? q)
    {b : Bytes} : s'.readBytes p = .ok b ↔ s.readBytes p = .ok b := by
  rw [readBytes_eq_ok, readBytes_eq_ok]
  constructor
  · rintro ⟨q, hq, hb⟩
    have hq := h.locate_iff.1 hq
    exact ⟨q, hq, hplace q hq ▸ hb⟩
  · rintro ⟨q, hq, hb⟩
    exact ⟨q, h.locate_iff.2 hq, hplace q hq ▸ hb⟩

end

end Store

namespace Backup

open Store

/-! ## Items -/

def pathIn? (item : Value) (key : String) : Option Pathname :=
  match item.field? key with
  | some (.str p) => some (.ofString p)
  | _ => none

def goal? (s : Store) (item : Value) : Option (List String) := do
  let copy ← pathIn? item "backup"
  let original ← pathIn? item "original"
  (s.locate (if s.hasFolder original then original.child copy.name else original)).toOption

def Apart (s : Store) (items : List Value) (p : Pathname) : Prop :=
  ∀ item ∈ items, ∀ place, goal? s item = some place → s.locate p ≠ .ok place

def Lost (s : Store) (items : List Value) (item : Value) : Prop :=
  ∃ copy, pathIn? item "backup" = some copy ∧ s.has copy = false ∧ Apart s items copy

/-- A field of a table holds no path name. -/
inductive BadField (fields : Fields) (key : String) : Restored → Prop
  | missing (h : Fields.get? fields key = none) : BadField fields key (.failed (.missingKey key))
  | notText {v : Value} (h : Fields.get? fields key = some v) (hv : ∀ t, v ≠ .str t) : BadField fields key .wrongType

/-- Why an item cannot be restored.  Its original is not looked at unless its copy is there. -/
inductive Refused (s : Store) : Value → Restored → Prop
  | notTable {item : Value} (h : ∀ fields, item ≠ .object fields) : Refused s item .wrongType
  | copy {fields : Fields} {r : Restored} (h : BadField fields "backup" r) : Refused s (.object fields) r
  | original {fields : Fields} {r : Restored} {copy : Pathname} (hcopy : pathIn? (.object fields) "backup" = some copy)
    (hhas : s.has copy = true) (h : BadField fields "original" r) : Refused s (.object fields) r
  | notCopied {fields : Fields} {e : FileError} {copy original : Pathname}
    (hcopy : pathIn? (.object fields) "backup" = some copy) (hhas : s.has copy = true)
    (horiginal : pathIn? (.object fields) "original" = some original) (h : s.copy copy original = .error e) :
    Refused s (.object fields) (.failed (.file e))

/-- The items have been restored, as far as their copies were there.  An item whose copy was there has its bytes at its
goal, unless a later item is restored there; other places are as they were. -/
structure Restores (s : Store) (items : List Value) (s' : Store) : Prop where
  folders : s.SameFolders s'
  frame : ∀ q, (∀ item ∈ items, goal? s item = some q → Lost s items item) → s'.find? q = s.find? q
  named : ∀ item ∈ items, ∃ copy, pathIn? item "backup" = some copy
  copied : ∀ before item after copy, items = before ++ item :: after → pathIn? item "backup" = some copy →
    s.has copy = true → Apart s items copy → ∃ b place, s.readBytes copy = .ok b ∧ s'.readBytes copy = .ok b ∧
      goal? s item = some place ∧ ((∀ later ∈ after, goal? s later ≠ some place) → s'.find? place = some (.file b))

variable {s s' s₁ : Store} {item : Value} {items : List Value} {p : Pathname} {r : Restored}

theorem pathField_eq_ok {fields : Fields} {key : String} (h : pathField fields key = .ok p) :
    pathIn? (.object fields) key = some p := by
  unfold pathField at h
  rw [pathIn?, Value.field?]
  split at h
  · cases h
  · next heq =>
    rw [heq]
    exact congrArg some (Except.ok.inj h)
  · cases h

theorem pathField_eq_error {fields : Fields} {key : String} (h : pathField fields key = .error r) :
    BadField fields key r := by
  unfold pathField at h
  split at h
  · next heq =>
    cases h
    exact .missing heq
  · cases h
  · next v hv heq =>
    cases h
    exact .notText heq hv

/-- **What restoring an item does**: it leaves all where the copy is missing, and writes its bytes where it is not. -/
theorem restoreItem_eq_ok (h : restoreItem s item = .ok s') : ∃ copy, pathIn? item "backup" = some copy ∧
    ((s.has copy = false ∧ s' = s) ∨ ∃ b place, s.readBytes copy = .ok b ∧ goal? s item = some place ∧
      s.find? place ≠ some .folder ∧ s' = s.set place (.file b)) := by
  unfold restoreItem at h
  split at h
  · next fields =>
    obtain ⟨copy, hcopy, h⟩ := bind_eq_ok_iff.1 h
    refine ⟨copy, pathField_eq_ok hcopy, ?_⟩
    split at h
    · obtain ⟨original, horiginal, h⟩ := bind_eq_ok_iff.1 h
      split at h
      · next hdone =>
        cases h
        obtain ⟨b, place, hb, hplace, hfolder, -, rfl⟩ := copy_eq_ok hdone
        refine .inr ⟨b, place, hb, ?_, hfolder, rfl⟩
        simp only [goal?, pathField_eq_ok hcopy, pathField_eq_ok horiginal, bind, Option.bind]
        rw [hplace]
        rfl
      · cases h
    · next hmissing =>
      cases h
      exact .inl ⟨by simpa using hmissing, rfl⟩
  · cases h

theorem restoreItem_eq_error (h : restoreItem s item = .error r) : Refused s item r := by
  unfold restoreItem at h
  split at h
  · next fields =>
    rcases bind_eq_error_iff.1 h with hcopy | ⟨copy, hcopy, h⟩
    · exact .copy (pathField_eq_error hcopy)
    · split at h
      · next hhas =>
        rcases bind_eq_error_iff.1 h with horiginal | ⟨original, horiginal, h⟩
        · exact .original (pathField_eq_ok hcopy) hhas (pathField_eq_error horiginal)
        · split at h
          · cases h
          · next hfail =>
            cases h
            exact .notCopied (pathField_eq_ok hcopy) hhas (pathField_eq_ok horiginal) hfail
      · cases h
  · next hitem =>
    cases h
    exact .notTable hitem

theorem Refused.ne_done (h : Refused s item r) : r ≠ .done := by
  rintro rfl
  cases h with
  | copy h => cases h
  | original _ _ h => cases h

/-! ## Runs -/

theorem goal?_eq (h : s.SameFolders s') (item : Value) : goal? s' item = goal? s item := by
  simp only [goal?, h.hasFolder_eq, h.toOption_locate]

theorem Apart.later (h : Apart s (item :: items) p) (hsame : s.SameFolders s₁) : Apart s₁ items p := by
  intro other hother place hplace hp
  rw [goal?_eq hsame] at hplace
  exact h other (mem_cons_of_mem _ hother) place hplace (hsame.locate_iff.1 hp)

theorem restoreItem_frame (h : restoreItem s item = .ok s₁) :
    s.SameFolders s₁ ∧ ∀ q, goal? s item ≠ some q → s₁.find? q = s.find? q := by
  obtain ⟨copy, -, ⟨-, rfl⟩ | ⟨b, place, -, hgoal, hfolder, rfl⟩⟩ := restoreItem_eq_ok h
  · exact ⟨SameFolders.refl _, fun _ _ => rfl⟩
  · refine ⟨sameFolders_set hfolder b, fun q hq => find?_set_of_ne (ne_nil_of_not_folder hfolder) (fun heq => hq ?_) _⟩
    rw [heq, hgoal]

theorem Restores.nil (s : Store) : Restores s [] s where
  folders := SameFolders.refl s
  frame _ _ := rfl
  named _ h := by cases h
  copied before item after copy h := by simp at h

theorem Restores.apart (h : Restores s items s') (hp : Apart s items p) {q : List String} (hq : s.locate p = .ok q) :
    s'.find? q = s.find? q :=
  h.frame q fun item hitem hgoal => absurd hq (hp item hitem q hgoal)

/-- **An item that is restored before others.** -/
theorem Restores.cons (hfirst : restoreItem s item = .ok s₁) (h : Restores s₁ items s') :
    Restores s (item :: items) s' := by
  obtain ⟨hsame, hframe⟩ := restoreItem_frame hfirst
  -- A copy that no item is restored onto is the same before and after the first item.
  have hkept : ∀ {p : Pathname}, Apart s (item :: items) p → ∀ q, s.locate p = .ok q → s₁.find? q = s.find? q :=
    fun hp q hq => hframe q fun hgoal => hp item mem_cons_self q hgoal hq
  obtain ⟨copy, hcopy, hstep⟩ := restoreItem_eq_ok hfirst
  refine ⟨hsame.trans h.folders, fun q hq => ?_, forall_mem_cons.2 ⟨⟨copy, hcopy⟩, h.named⟩, ?_⟩
  · have hlater : s'.find? q = s₁.find? q := by
      refine h.frame q fun other hother hgoal => ?_
      rw [goal?_eq hsame] at hgoal
      obtain ⟨c, hc, hmissing, hapart⟩ := hq other (mem_cons_of_mem _ hother) hgoal
      exact ⟨c, hc, (hsame.has_eq (hkept hapart)).trans hmissing, hapart.later hsame⟩
    rw [hlater]
    rcases hstep with ⟨-, rfl⟩ | ⟨b, place, hb, hgoal, hfolder, rfl⟩
    · rfl
    · refine find?_set_of_ne (ne_nil_of_not_folder hfolder) (fun heq => ?_) _
      -- A place that the item was written to is the goal of an item whose copy is there.
      obtain ⟨c, hc, hmissing, -⟩ := hq item mem_cons_self (heq ▸ hgoal)
      cases hcopy.symm.trans hc
      obtain ⟨place', hplace', hfind⟩ := readBytes_eq_ok.1 hb
      rw [has_of_find? hplace' hfind] at hmissing
      cases hmissing
  · intro before other after c hsplit hc hhas hapart
    have hbytes : ∀ {b}, s₁.readBytes c = .ok b ↔ s.readBytes c = .ok b := hsame.readBytes_iff (hkept hapart)
    cases before with
    | nil =>
      obtain ⟨rfl, rfl⟩ := cons.inj hsplit
      cases hcopy.symm.trans hc
      rcases hstep with ⟨hmissing, -⟩ | ⟨b, place, hb, hgoal, hfolder, rfl⟩
      · rw [hmissing] at hhas
        cases hhas
      · refine ⟨b, place, hb, ?_, hgoal, fun hlater => ?_⟩
        · refine (h.folders.readBytes_iff fun q hq => ?_).2 (hbytes.2 hb)
          exact h.apart (hapart.later hsame) hq
        · rw [h.frame place fun other hother hgoal' => absurd (goal?_eq hsame other ▸ hgoal') (hlater other hother),
            find?_set_self (ne_nil_of_not_folder hfolder)]
    | cons first before =>
      obtain ⟨rfl, rfl⟩ := cons.inj hsplit
      obtain ⟨b, place, hb, hb', hgoal, hplace⟩ := h.copied before other after c rfl hc
        ((hsame.has_eq (hkept hapart)).trans hhas) (hapart.later hsame)
      simp only [goal?_eq hsame] at hgoal hplace
      exact ⟨b, place, hbytes.1 hb, hb', hgoal, hplace⟩

theorem restoreItems_outcome : ∀ (items : List Value) (s : Store), ∃ restored left, items = restored ++ left ∧
    Restores s restored (restoreItems s items).1 ∧ ((restoreItems s items).2 = .done ↔ left = []) ∧
      ∀ item ∈ left.head?, Refused (restoreItems s items).1 item (restoreItems s items).2
  | [], s => ⟨[], [], rfl, .nil s, by simp [restoreItems], fun _ h => by cases h⟩
  | item :: items, s => by
    rw [restoreItems]
    cases hitem : restoreItem s item with
    | ok s₁ =>
      obtain ⟨restored, left, hsplit, hrestored, hdone, hleft⟩ := restoreItems_outcome items s₁
      exact ⟨item :: restored, left, by rw [hsplit, cons_append], hrestored.cons hitem, hdone, hleft⟩
    | error r =>
      have hrefused := restoreItem_eq_error hitem
      refine ⟨[], item :: items, rfl, .nil s, by simp [hrefused.ne_done], fun other hother => ?_⟩
      cases hother
      exact hrefused

/-! ## Records -/

def listed (s : Store) (id : String) : Except Restored (List Value) :=
  let file := (folder.join (.ofString id)).child recordName
  if !s.has file then .error .absent
  else match s.readText file with
    | .error e => .error (.failed (.file e))
    | .ok cs => match Json.parse (String.ofList cs) with
      | none => .error (.failed .badRecord)
      | some (.object fields) => match Fields.get? fields "files" with
        | none => .error (.failed (.missingKey "files"))
        | some v => match v.elements? with
          | some items => .ok items
          | none => .error .wrongType
      | some _ => .error .wrongType

theorem restore_eq (s : Store) (id : String) : restore s id = match listed s id with
    | .error r => (s, r)
    | .ok items => restoreItems s items := by
  unfold restore listed
  dsimp only
  split
  · rfl
  · cases s.readText ((folder.join (.ofString id)).child recordName) with
    | error e => rfl
    | ok cs =>
      dsimp only
      cases Json.parse (String.ofList cs) with
      | none => rfl
      | some record =>
        cases record with
        | object fields =>
          dsimp only [restoreRecord]
          cases Fields.get? fields "files" with
          | none => rfl
          | some v =>
            dsimp only
            cases v.elements? <;> rfl
        | _ => rfl

theorem listed_ne_done {s : Store} {id : String} (h : listed s id = .error r) : r ≠ .done := by
  rintro rfl
  unfold listed at h
  dsimp only at h
  split at h
  · cases h
  · split at h
    · cases h
    · split at h
      · cases h
      · split at h
        · cases h
        · split at h <;> cases h
      · cases h

/-- **How restoring a backup ends.**  A record that cannot be read changes nothing.  Otherwise the items that it lists
are restored up to the first that is refused, and it is all done if none is. -/
theorem restore_outcome (s : Store) (id : String) : match listed s id with
    | .error r => restore s id = (s, r) ∧ r ≠ .done
    | .ok items => ∃ restored left, items = restored ++ left ∧ Restores s restored (restore s id).1 ∧
        ((restore s id).2 = .done ↔ left = []) ∧
          ∀ item ∈ left.head?, Refused (restore s id).1 item (restore s id).2 := by
  rw [restore_eq]
  cases hlisted : listed s id with
  | error r => exact ⟨rfl, listed_ne_done hlisted⟩
  | ok items => exact restoreItems_outcome items s

def damaged (record : Value) : Store :=
  ⟨[], [(["home"], .folder), (["home", "backups"], .folder), (["home", "backups", "b"], .folder),
    (["home", "backups", "b", recordName], .file (Utf8.encode (Json.write (.indented 2) 0 record))),
      (["c"], .file [120])]⟩

def recordOfItems (items : List Value) : Value := .object [("files", .list items)]

/-- A record that is no table is of the wrong type; a backup without its copy counts as restored; and what was restored
stays when a later item is refused. -/
theorem restore_damaged :
    let list := damaged (.list [])
    let missing := damaged (recordOfItems [.object [("backup", .str "d"), ("original", .str "a")]])
    let broken := damaged (recordOfItems [.object [("backup", .str "c"), ("original", .str "a")], .object []])
    restore list "b" = (list, .wrongType) ∧ restore missing "b" = (missing, .done) ∧
      restore broken "b" = (broken.set ["a"] (.file [120]), .failed (.missingKey "backup")) := by
  decide +kernel

end Backup
end SourceBench
