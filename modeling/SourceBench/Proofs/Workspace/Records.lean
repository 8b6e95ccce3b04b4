import SourceBench.Proofs.Value.Fields
import SourceBench.Proofs.Workspace.Copies
import SourceBench.Proofs.Workspace.Newest

/-!
# Records of backups

What a list of backups is made of (`list_eq_ok_iff`): one record for each folder that has one, with the folder's name
for an id, in order.
-/
namespace SourceBench

open List Store Except

theorem exists_of_mem_right {α β : Type} {R : α → β → Prop} {xs : List α} {ys : List β}
    (h : List.Forall₂ R xs ys) {y : β} (hy : y ∈ ys) : ∃ x ∈ xs, R x y := by
  induction h with
  | nil => cases hy
  | cons hxy _ ih =>
    rcases mem_cons.1 hy with rfl | hy
    · exact ⟨_, mem_cons_self, hxy⟩
    · obtain ⟨x, hx, hR⟩ := ih hy
      exact ⟨x, mem_cons_of_mem _ hx, hR⟩

namespace Store.WellFormed

variable {s : Store} (hs : s.WellFormed)
include hs

variable {place : List String}

theorem find?_of_mem_folderNames {n : String} (h : n ∈ s.folderNames place) :
    s.find? (place ++ [n]) = some .folder := by
  obtain ⟨⟨q, e⟩, hmem, hin⟩ := mem_filterMap.1 h
  cases e with
  | file b => cases hin
  | folder =>
    rw [folderIn?] at hin
    dsimp only at hin
    split at hin
    · next hq =>
      simp only [Bool.and_eq_true, beq_iff_eq] at hq
      rw [← hq.1, dropLast_append_getLast? n hin]
      exact hs.find?_of_mem hmem
    · cases hin

theorem folderNames_of_none (h : s.find? place = none) : s.folderNames place = [] := by
  refine eq_nil_iff_forall_not_mem.2 fun n hn => ?_
  cases (hs.none_below h).symm.trans (hs.find?_of_mem_folderNames hn)

end Store.WellFormed

namespace Backup

theorem ids_eq (s : Store) : ids s place = (s.folderNames place).filter fun n => (s.find? (recordPlace n)).isSome := by
  rw [ids, folderNames, filter_filterMap]
  refine filterMap_congr fun x _ => ?_
  obtain ⟨q, e⟩ := x
  cases e with
  | file b => rfl
  | folder =>
    rw [folderIn?]
    dsimp only
    by_cases hq : (q.dropLast == place && q.length == place.length + 1)
    · rw [hq, Bool.true_and, if_pos rfl]
      simp only [Bool.and_eq_true, beq_iff_eq] at hq
      cases hlast : q.getLast? with
      | none => simp
      | some n =>
        have hplace : q = placeOf n := by rw [placeOf, ← hq.1, dropLast_append_getLast? n hlast]
        rw [hplace, ← recordPlace]
        rfl
    · rw [if_neg hq, Bool.eq_false_iff.2 hq]
      rfl

/-- A record with its stamp, as it is listed under a name. -/
def IsItem (s : Store) (n : String) (x : Item) : Prop := entryOf s n = .ok x.2 ∧ stampOf x.2 = .ok x.1

variable {x : Item} {s : Store} {n : String}

theorem stamped_eq_ok_iff {e : Fields} :
    (do return (← stampOf e, e) : Except ListError Item) = .ok x ↔ stampOf e = .ok x.1 ∧ x.2 = e := by
  rw [bind_eq_ok_iff]
  constructor
  · rintro ⟨v, hv, hx⟩
    rw [← ok.inj hx]
    exact ⟨hv, rfl⟩
  · rintro ⟨hv, rfl⟩
    exact ⟨x.1, hv, rfl⟩

theorem forall₂_isItem {ns : List String} {xs : List Item} : List.Forall₂ (IsItem s) ns xs ↔
    ∃ es, ns.mapM (entryOf s) = .ok es ∧ es.mapM (fun e => do return (← stampOf e, e)) = .ok xs := by
  simp only [mapM_eq_ok_iff, stamped_eq_ok_iff]
  constructor
  · intro h
    induction h with
    | nil => exact ⟨[], .nil, .nil⟩
    | cons hx _ ih =>
      obtain ⟨es, hread, hstamped⟩ := ih
      exact ⟨_, .cons hx.1 hread, .cons ⟨hx.2, rfl⟩ hstamped⟩
  · rintro ⟨es, hread, hstamped⟩
    induction hread generalizing xs with
    | nil =>
      cases hstamped
      exact .nil
    | cons hn _ ih =>
      cases hstamped with
      | cons hx hxs => exact .cons ⟨hx.2 ▸ hn, hx.2 ▸ hx.1⟩ (ih hxs)

theorem list_eq (hs : s.WellFormed) (hclear : Clear s) : list s =
    ((ids s place).mapM (entryOf s) >>= fun es => (es.mapM fun e => do return (← stampOf e, e)) >>= newestFirst) := by
  rw [list, folder_eq]
  cases hplace : s.find? place with
  | none =>
    -- Without the folder there are no backups.
    have hempty : ids s place = [] := by rw [ids_eq, hs.folderNames_of_none hplace]; rfl
    rw [has_of_none isName_place hplace, hempty]
    rfl
  | some e =>
    have hlocate : s.locate ⟨.here, place⟩ = .ok place := hs.follow_of_find? hplace
    cases e with
    | file b => exact absurd hplace (hclear place (prefix_refl _) b)
    | folder =>
      rw [has_of_find? hlocate hplace, hasFile, look_of_find? hlocate hplace, hlocate]
      rfl

theorem list_eq_ok_iff (hs : s.WellFormed) (hclear : Clear s) {es : List Fields} :
    list s = .ok es ↔ ∃ xs, List.Forall₂ (IsItem s) (ids s place) xs ∧ newestFirst xs = .ok es := by
  simp only [list_eq hs hclear, forall₂_isItem, bind_eq_ok_iff]
  constructor
  · rintro ⟨fs, hread, xs, hstamped, h⟩
    exact ⟨xs, ⟨fs, hread, hstamped⟩, h⟩
  · rintro ⟨xs, ⟨fs, hread, hstamped⟩, h⟩
    exact ⟨fs, hread, xs, hstamped, h⟩

/-! ## Records that stay -/

def timeText (fs : Fields) : List Char :=
  match Fields.get? fs "timestamp" with
  | some (.str t) => t.toList
  | _ => []

def hasTime (fs : Fields) : Bool :=
  match Fields.get? fs "timestamp" with
  | some (.str _) => true
  | _ => false

theorem IsItem.get?_timestamp (h : IsItem s n x) : Fields.get? x.2 "timestamp" = some x.1 := by
  have hstamp := h.2
  unfold stampOf at hstamp
  split at hstamp
  · next v hv => rw [hv, ok.inj hstamp]
  · cases hstamp

theorem IsItem.isStamped (h : IsItem s n x) (htime : hasTime x.2) : IsStamped x := by
  unfold hasTime at htime
  split at htime
  · next t ht => exact ⟨t, Option.some.inj (h.get?_timestamp.symm.trans ht)⟩
  · cases htime

theorem IsItem.timeText_eq (h : IsItem s n x) : timeText x.2 = stampText x := by
  rw [timeText, h.get?_timestamp, stampText]
  cases x.1 <;> rfl

def backupId (fs : Fields) : Option String :=
  match Fields.get? fs "backup_id" with
  | some (.str id) => some id
  | _ => none

theorem backupId_of_entryOf {fs : Fields} (h : entryOf s n = .ok fs) : backupId fs = some n := by
  unfold entryOf at h
  split at h
  · cases h
  · split at h
    · cases h
    · rw [← ok.inj h, backupId, Fields.get?_set, if_pos rfl]
    · cases h

theorem entryOf_congr {s' : Store} (hs : s.WellFormed) (hs' : s'.WellFormed) (hsome : (s.find? (recordPlace n)).isSome)
    (h : s'.find? (recordPlace n) = s.find? (recordPlace n)) : entryOf s' n = entryOf s n := by
  obtain ⟨e, he⟩ := Option.isSome_iff_exists.1 hsome
  rw [he] at h
  have hlook : s.look ⟨.here, recordPlace n⟩ = .ok e := look_of_find? (hs.follow_of_find? he) he
  have hlook' : s'.look ⟨.here, recordPlace n⟩ = .ok e := look_of_find? (hs'.follow_of_find? h) h
  have hread : s'.readText ⟨.here, recordPlace n⟩ = s.readText ⟨.here, recordPlace n⟩ := by
    rw [readText, readText, readBytes, readBytes, hlook, hlook']
  rw [entryOf, entryOf, folder_record, hread]

namespace Saved

def entry (r : Saved) (base : List String) : Fields :=
  [("description", .str r.description), ("timestamp", .str r.stamp.text),
    ("files", .list [.object [("original", .str (Pathname.text ⟨.slash, base ++ r.file⟩)),
      ("backup", .str (Pathname.text ⟨.here, r.copyPlace⟩))]]), ("backup_id", .str r.id)]

def item (r : Saved) (base : List String) : Item := (.str r.stamp.text, r.entry base)

theorem InStore.isItem {r : Saved} {s : Store} (h : r.InStore s) (hs : s.WellFormed) :
    IsItem s r.id (r.item s.base) := by
  refine ⟨?_, rfl⟩
  rw [entryOf, folder_record, h.readText_record hs]
  dsimp only
  rw [Json.parse_write _ (isTextual_record r s.base)]
  rfl

end Saved

end Backup
end SourceBench
