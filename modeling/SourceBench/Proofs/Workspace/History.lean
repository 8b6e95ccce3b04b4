import SourceBench.Proofs.Workspace.Records

/-!
# Histories of rewritten files

A history is any number of rewritings with backups, and of restorations of those backups, one after another.  Its log
says what each rewriting saved.  No later step touches what is saved (`Kept`), so that at any time every backup made in
the history is listed, and restoring it gives its file the bytes that it had.
-/
namespace SourceBench.Backup

open List

variable {n : String} {w : Workspace} {q : Saved} {file : List String} {before : Bytes} {xs : List Item}

/-! ## Steps -/

/-- One rewriting of a file: when it is made, and the number for its id. -/
structure Rewriting where
  path : Pathname
  content : List Char
  description : String
  clock : Clock
  serial : Nat

namespace Rewriting

def id (c : Rewriting) : String := idOf c.clock.now (c.serial + 1)

def run (c : Rewriting) (w : Workspace) : Workspace × Except FileError (Option String) :=
  replace ⟨w.store, c.clock, c.serial⟩ c.path c.content (.str c.description) true

def saved (c : Rewriting) (file : List String) (before : Bytes) : Saved :=
  ⟨c.id, file, before, c.description, c.clock.next.now⟩

/-- The rewriting is due after what the log says: its path leads to a file, which is not in the folder of backups, the
clock shows more than ever before, and its id is new. -/
structure Due (c : Rewriting) (start : Store) (w : Workspace) (log : List Saved) (file : List String) (before : Bytes) :
    Prop where
  leads : w.store.locate c.path = .ok file
  holds : w.store.find? file = some (.file before)
  outside : ¬ place <+: file
  later : ∀ r ∈ log, r.stamp.micros < c.clock.next.now.micros
  calendar : c.clock.next.now.InCalendar
  new : c.id ∉ log.map (·.id)
  unused : start.find? (placeOf c.id) = none

end Rewriting

/-- What can be reached by rewriting files and restoring backups made on the way, with the log of what was saved. -/
inductive History (start : Workspace) : Workspace → List Saved → Prop where
  | nil : History start start []
  | rewrite {w : Workspace} {log : List Saved} {c : Rewriting} {file : List String} {before : Bytes}
      (h : History start w log) (hc : c.Due start.store w log file before) :
      History start (c.run w).1 (log ++ [c.saved file before])
  | restore {w : Workspace} {log : List Saved} {r : Saved} (h : History start w log) (hr : r ∈ log) :
      History start { w with store := (Backup.restore w.store r.id).1 } log

/-! ## What stays -/

/-- What a history keeps: the backups of the log are in place, their folders stand behind those from the start, and what
is in the other folders is as at the start. -/
structure Kept (start : Store) (w : Workspace) (log : List Saved) : Prop where
  wellFormed : w.store.WellFormed
  clear : Clear w.store
  saved : ∀ r ∈ log, r.InStore w.store
  folderNames : w.store.folderNames place = start.folderNames place ++ log.map (·.id)
  others : ∀ n, n ∉ log.map (·.id) → ∀ rest, w.store.find? (placeOf n ++ rest) = start.find? (placeOf n ++ rest)
  times : log.Pairwise fun q r => q.stamp.micros < r.stamp.micros
  calendar : ∀ r ∈ log, r.stamp.InCalendar
  unused : ∀ r ∈ log, start.find? (placeOf r.id) = none

theorem kept_nil (hs : w.store.WellFormed) (hclear : Clear w.store) : Kept w.store w [] where
  wellFormed := hs
  clear := hclear
  saved := fun _ h => absurd h not_mem_nil
  folderNames := (append_nil _).symm
  others := fun _ _ _ => rfl
  times := .nil
  calendar := fun _ h => absurd h not_mem_nil
  unused := fun _ h => absurd h not_mem_nil

theorem placeOf_append_ne {p : List String} (h : ¬ place <+: p) (n : String) (rest : List String) :
    placeOf n ++ rest ≠ p := by
  rintro rfl
  exact h ((prefix_append ..).trans (prefix_append ..))

variable {s s' : Store} {r : Saved} {content : List Char} {log : List Saved} {c : Rewriting}

theorem Rewritten.other (h : Rewritten s r content s') (hn : n ≠ r.id) (rest : List String) :
    s'.find? (placeOf n ++ rest) = s.find? (placeOf n ++ rest) := by
  have hne : ¬ [n] <+: [r.id] := fun h => hn (by simpa using h)
  refine h.frame _ (placeOf_append_ne h.saved.outside n rest) (fun hle => ?_) (fun hle => ?_)
  · have := (prefix_append (placeOf n) rest).trans hle
    exact hne ((prefix_append_right_inj place).1 this)
  · rw [placeOf, placeOf, append_assoc, prefix_append_right_inj] at hle
    exact hn (cons_prefix_cons.1 hle).1.symm

theorem Saved.InStore.mono (h : q.InStore s) (hbase : s'.base = s.base)
    (hother : ∀ rest, s'.find? (placeOf q.id ++ rest) = s.find? (placeOf q.id ++ rest))
    (hfile : ∃ b, s'.find? q.file = some (.file b)) : q.InStore s' where
  record := by rw [recordPlace, hother, hbase]; exact h.record
  copy := by rw [copyPlace, hother]; exact h.copy
  file := hfile
  outside := h.outside

theorem Rewritten.inStore (h : Rewritten s r content s') (hclear : Clear s)
    (hnew : s.find? (placeOf r.id) = none) (hid : q.id ≠ r.id) (hq : q.InStore s) : q.InStore s' := by
  refine hq.mono h.base (h.other hid) ?_
  obtain ⟨b, hb⟩ := hq.file
  by_cases heq : q.file = r.file
  · rw [heq]
    exact ⟨_, h.file⟩
  · refine ⟨b, (h.frame q.file heq (fun hle => ?_) (fun hle => ?_)).trans hb⟩
    · exact hclear.way hnew _ hle b hb
    · exact hq.outside ((prefix_append ..).trans hle)

section

variable {start : Store} {w : Workspace} {log : List Saved} (h : Kept start w log)
include h

theorem Kept.concat (hs' : Rewritten w.store r content s')
    (hfree : w.store.find? (placeOf r.id) = none) (hid : r.id ∉ log.map (·.id))
    (hunused : start.find? (placeOf r.id) = none)
    (hlater : ∀ q ∈ log, q.stamp.micros < r.stamp.micros) (hcalendar : r.stamp.InCalendar) (clock : Clock)
    (serial : Nat) : Kept start ⟨s', clock, serial⟩ (log ++ [r]) := by
  have hnew : ∀ q ∈ log, q.id ≠ r.id := fun q hq heq => hid (heq ▸ mem_map_of_mem hq)
  refine ⟨hs'.wellFormed, fun q hq b hb => ?_, ?_, ?_, fun n hn rest => ?_, ?_, ?_, ?_⟩
  · cases (hs'.folders q (hq.trans (prefix_append ..))).symm.trans hb
  · rw [forall_mem_append, forall_mem_singleton]
    exact ⟨fun q hq => hs'.inStore h.clear hfree (hnew q hq) (h.saved q hq), hs'.saved⟩
  · rw [hs'.folderNames, h.folderNames, map_append, append_assoc]
    rfl
  · rw [map_append, mem_append, not_or] at hn
    rw [hs'.other (fun heq => hn.2 (mem_singleton.2 heq)), h.others n hn.1]
  · rw [pairwise_append]
    refine ⟨h.times, pairwise_singleton .., fun q hq q' hq' => ?_⟩
    rw [mem_singleton.1 hq']
    exact hlater q hq
  · rw [forall_mem_append, forall_mem_singleton]
    exact ⟨h.calendar, hcalendar⟩
  · rw [forall_mem_append, forall_mem_singleton]
    exact ⟨h.unused, hunused⟩

theorem Kept.free {id : String} (hnew : id ∉ log.map (·.id)) (hunused : start.find? (placeOf id) = none) :
    w.store.find? (placeOf id) = none := by
  have := h.others id hnew []
  rwa [append_nil, hunused] at this

theorem Kept.run (hc : c.Due start w log file before) :
    ∃ s', c.run w = (⟨s', c.clock.next.next, c.serial + 1⟩, .ok (some c.id)) ∧
      Rewritten w.store (c.saved file before) c.content s' :=
  replace_saved (w := ⟨w.store, c.clock, c.serial⟩) (r := c.saved file before) h.wellFormed h.clear rfl rfl
    (h.free hc.new hc.unused) hc.leads hc.holds hc.outside c.content

theorem Kept.rewrite (hc : c.Due start w log file before) : Kept start (c.run w).1 (log ++ [c.saved file before]) := by
  obtain ⟨s', hrun, hs'⟩ := h.run hc
  rw [hrun]
  exact h.concat hs' (h.free hc.new hc.unused) hc.new hc.unused hc.later hc.calendar _ _

theorem Kept.restore (hr : r ∈ log) : Kept start { w with store := (Backup.restore w.store r.id).1 } log := by
  have hsaved := h.saved r hr
  obtain ⟨b, hb⟩ := hsaved.file
  have hne := hsaved.file_ne_nil
  -- The file is outside the folder of backups, so nothing in there changes.
  have hother : ∀ n rest, (w.store.set r.file (.file r.before)).find? (placeOf n ++ rest)
      = w.store.find? (placeOf n ++ rest) :=
    fun n rest => Store.find?_set_of_ne hne (placeOf_append_ne hsaved.outside n rest) _
  rw [restore_saved h.wellFormed hsaved]
  refine ⟨h.wellFormed.set hne (h.wellFormed.isName hb) (h.wellFormed.parent hb) (fun hf => nomatch hb.symm.trans hf),
    fun q hq b' hb' => ?_, fun q hq => (h.saved q hq).mono (Store.base_set ..) (hother q.id) ?_, ?_,
      fun n hn rest => ?_,
    h.times, h.calendar, h.unused⟩
  · rw [Store.find?_set hne] at hb'
    split at hb'
    · next heq => exact h.clear q hq b (heq ▸ hb)
    · exact h.clear q hq b' hb'
  · obtain ⟨b', hb'⟩ := (h.saved q hq).file
    rw [Store.find?_set hne]
    split
    · exact ⟨_, rfl⟩
    · exact ⟨b', hb'⟩
  · rw [h.wellFormed.folderNames_set_file hne (by rw [hb]; simp), h.folderNames]
  · rw [hother, h.others n hn]

end

theorem History.kept {start : Workspace} (hs : start.store.WellFormed) (hclear : Clear start.store)
    (h : History start w log) : Kept start.store w log := by
  induction h with
  | nil => exact kept_nil hs hclear
  | rewrite _ hc ih => exact ih.rewrite hc
  | restore _ hr ih => exact ih.restore hr

/-! ## What is listed -/

def isOf (log : List Saved) (fs : Fields) : Bool := log.any fun r => backupId fs == some r.id

theorem isOf_iff {fs : Fields} (h : backupId fs = some n) : isOf log fs ↔ n ∈ log.map (·.id) := by
  rw [isOf, h]
  simp only [any_eq_true, beq_iff_eq, Option.some.injEq, mem_map]
  exact ⟨fun ⟨r, hr, hn⟩ => ⟨r, hr, hn.symm⟩, fun ⟨r, hr, hn⟩ => ⟨r, hr, hn.symm⟩⟩

theorem isOf_entry (hr : r ∈ log) (base : List String) : isOf log (r.entry base) :=
  (isOf_iff (n := r.id) rfl).2 (mem_map_of_mem hr)

section

variable {start : Store} {w : Workspace} {log : List Saved} (h : Kept start w log) (hs : start.WellFormed)
include h hs

theorem Kept.not_mem_of_folder (hn : n ∈ start.folderNames place) : n ∉ log.map (·.id) := fun hmem => by
  obtain ⟨r, hr, rfl⟩ := mem_map.1 hmem
  cases (h.unused r hr).symm.trans (hs.find?_of_mem_folderNames hn)

theorem Kept.not_isOf {x : Item} (hn : n ∈ ids start place) (hx : IsItem start n x) : isOf log x.2 = false := by
  rw [ids_eq, mem_filter] at hn
  rw [Bool.eq_false_iff, Ne, isOf_iff (backupId_of_entryOf hx.1)]
  exact h.not_mem_of_folder hs hn.1

theorem Kept.ids_append : ids w.store place = ids start place ++ log.map (·.id) := by
  rw [ids_eq, ids_eq, h.folderNames, filter_append]
  congr 1
  · refine filter_congr fun n hn => ?_
    rw [recordPlace, h.others n (h.not_mem_of_folder hs hn)]
  · refine filter_eq_self.2 fun n hn => ?_
    obtain ⟨r, hr, rfl⟩ := mem_map.1 hn
    rw [(h.saved r hr).record]
    rfl

theorem Kept.items (hxs : List.Forall₂ (IsItem start) (ids start place) xs) :
    List.Forall₂ (IsItem w.store) (ids w.store place) (xs ++ log.map (·.item w.store.base)) := by
  rw [h.ids_append hs]
  refine rel_append ?_ ?_
  · refine ((forall₂_and_left _ _).2 ⟨fun n hn => hn, hxs⟩).imp fun n x ⟨hn, hx⟩ => ⟨?_, hx.2⟩
    rw [ids_eq, mem_filter] at hn
    rw [entryOf_congr hs h.wellFormed hn.2 (h.others n (h.not_mem_of_folder hs hn.1) [recordName]), hx.1]
  · rw [forall₂_map_left_iff, forall₂_map_right_iff, forall₂_same]
    exact fun r hr => (h.saved r hr).isItem h.wellFormed

omit hs

theorem Kept.newer : (log.map (·.item w.store.base)).Pairwise fun x y => Newer y x := by
  rw [pairwise_map]
  refine h.times.imp_of_mem fun {q r} _ hr hlt => ?_
  exact (Text.before_iff_lt _ _).1 (Moment.before_text (h.calendar r hr) hlt)

end

theorem list_of_items (hs : s.WellFormed) (hclear : Clear s)
    (hxs : List.Forall₂ (IsItem s) (ids s place) xs) (hstamped : ∀ x ∈ xs, IsStamped x) :
    list s = .ok ((arranged xs).map (·.2)) :=
  (list_eq_ok_iff hs hclear).2 ⟨xs, hxs, newestFirst_eq hstamped⟩

theorem Kept.list {start : Store} (h : Kept start w log) (hs : start.WellFormed)
    (hclear : Clear start) {earlier : List Fields} (hlist : Backup.list start = .ok earlier)
    (htimes : ∀ e ∈ earlier, hasTime e) :
    ∃ es, Backup.list w.store = .ok es ∧ es.Pairwise (fun e f => Text.before (timeText e) (timeText f) = false) ∧
      (es.filter (isOf log)).map backupId = (log.map fun r => some r.id).reverse ∧
      es.filter (fun e => !isOf log e) = earlier := by
  obtain ⟨xs, hxs, hearlier⟩ := (list_eq_ok_iff hs hclear).1 hlist
  have hitems := h.items hs hxs
  have hstamped : ∀ x ∈ xs, IsStamped x := by
    intro x hx
    obtain ⟨n, -, hn⟩ := exists_of_mem_right hxs hx
    exact hn.isStamped (htimes x.2 (mem_of_newestFirst hearlier hx))
  -- All stamps are texts, so that the list from the start is its records put in order.
  obtain rfl : (arranged xs).map (·.2) = earlier := Except.ok.inj ((newestFirst_eq hstamped).symm.trans hearlier)
  have hold : ∀ x ∈ xs, isOf log x.2 = false := by
    intro x hx
    obtain ⟨n, hn, hitem⟩ := exists_of_mem_right hxs hx
    exact h.not_isOf hs hn hitem
  have hmade : ∀ x ∈ log.map (·.item w.store.base), isOf log x.2 := by
    intro x hx
    obtain ⟨r, hr, rfl⟩ := mem_map.1 hx
    exact isOf_entry hr _
  -- The order of all records is, on either kind of them, the order of that kind.
  obtain ⟨hnew, hrest⟩ := filter_arranged_append hold hmade
  refine ⟨_, list_of_items h.wellFormed h.clear hitems ?_, ?_, ?_, ?_⟩
  · rw [forall_mem_append]
    refine ⟨hstamped, fun x hx => ?_⟩
    obtain ⟨r, -, rfl⟩ := mem_map.1 hx
    exact ⟨_, rfl⟩
  · rw [pairwise_map]
    refine (inOrder_arranged _).imp_of_mem fun {x y} hx hy hnot => ?_
    obtain ⟨m, -, hm⟩ := exists_of_mem_right hitems (mem_arranged.1 hx)
    obtain ⟨n, -, hn⟩ := exists_of_mem_right hitems (mem_arranged.1 hy)
    rw [hm.timeText_eq, hn.timeText_eq, Bool.eq_false_iff, Ne, Text.before_iff_lt]
    exact hnot
  · rw [filter_map, Function.comp_def, hnew, arranged_of_newer h.newer, map_reverse, map_reverse, map_map,
      map_map]
    rfl
  · rw [filter_map, Function.comp_def, hrest]

/-! ## A history beside an earlier backup -/

def yearLater : Workspace :=
  ⟨⟨["w"], [(["a.ts"], .file (Utf8.encode "x\n".toList)), (["home"], .folder), (["home", "backups"], .folder),
    (["home", "backups", "old"], .folder), (["home", "backups", "old", "metadata.json"],
      .file (Utf8.encode "\x7b\"timestamp\": \"2023-01-01T00:00:00\", \"files\": []\x7d".toList))]⟩,
        ⟨⟨1704067200000000⟩, 1000000⟩, 0⟩

def firstChange : Rewriting := ⟨⟨.here, ["a.ts"]⟩, "y\n".toList, "", ⟨⟨1704067200000000⟩, 1000000⟩, 0⟩

def secondChange : Rewriting :=
  ⟨⟨.slash, ["w", "home", "..", "a.ts"]⟩, "z\n".toList, "again", ⟨⟨1704067201000000⟩, 250⟩, 1⟩

def firstSaved : Saved := firstChange.saved ["a.ts"] (Utf8.encode "x\n".toList)

def secondSaved : Saved := secondChange.saved ["a.ts"] (Utf8.encode "y\n".toList)

theorem firstChange_due : firstChange.Due yearLater.store yearLater [] firstSaved.file firstSaved.before := by
  constructor <;> decide +kernel

def changed : Workspace := (firstChange.run yearLater).1

def changedBack : Workspace :=
  let w := (secondChange.run changed).1
  { w with store := (restore w.store firstSaved.id).1 }

theorem secondChange_due :
    secondChange.Due yearLater.store changed [firstSaved] secondSaved.file secondSaved.before := by
  constructor <;> decide +kernel

theorem history_changed : History yearLater changed [firstSaved] := .rewrite .nil firstChange_due

theorem history_changedBack : History yearLater changedBack [firstSaved, secondSaved] :=
  .restore (.rewrite history_changed secondChange_due) mem_cons_self

/-- **A history restores any of its points.**  Backups are listed newest first, those of the history beside those from
the start.  Restoring one gives its file the bytes that it had just before the rewriting, and changes nothing else. -/
theorem history_restores {start w : Workspace} {log : List Saved} (hs : start.store.WellFormed)
    (hclear : Clear start.store) (h : History start w log) :
    (∀ earlier, list start.store = .ok earlier → (∀ e ∈ earlier, hasTime e = true) → ∃ es, list w.store = .ok es ∧
      es.Pairwise (fun e f => Text.before (timeText e) (timeText f) = false) ∧
      (es.filter (isOf log)).map backupId = (log.map fun r => some r.id).reverse ∧
      es.filter (fun e => !isOf log e) = earlier) ∧
    (∀ r ∈ log, ∃ s, restore w.store r.id = (s, .done) ∧ s.find? r.file = some (.file r.before) ∧
      ∀ q, q ≠ r.file → s.find? q = w.store.find? q) ∧
    (∀ c file before, Rewriting.Due c start.store w log file before → (c.run w).2 = .ok (some c.id)) := by
  have hkept := h.kept hs hclear
  refine ⟨fun earlier hlist htimes => hkept.list hs hclear hlist htimes, fun r hr => ?_, fun c file before hc => ?_⟩
  · have hsaved := hkept.saved r hr
    exact ⟨_, restore_saved hkept.wellFormed hsaved, Store.find?_set_self hsaved.file_ne_nil _,
      fun q hq => Store.find?_set_of_ne hsaved.file_ne_nil hq _⟩
  · obtain ⟨s', hrun, -⟩ := hkept.run hc
    rw [hrun]

/-- After both changes and a restoration, the second backup is restored. -/
theorem history_restores_changedBack : yearLater.store.WellFormed ∧ Clear yearLater.store ∧
    History yearLater changedBack [firstSaved, secondSaved] ∧
    ∃ earlier es s, list yearLater.store = .ok earlier ∧ (∀ e ∈ earlier, hasTime e = true) ∧ earlier ≠ [] ∧
      list changedBack.store = .ok es ∧
      (es.filter (isOf [firstSaved, secondSaved])).map backupId = [some secondSaved.id, some firstSaved.id] ∧
      es.filter (fun e => !isOf [firstSaved, secondSaved] e) = earlier ∧
      restore changedBack.store secondSaved.id = (s, .done) ∧
        s.find? secondSaved.file = some (.file secondSaved.before) := by
  have hs : yearLater.store.WellFormed := by decide +kernel
  have hclear : Clear yearLater.store := by decide +kernel
  have hevaluated : (list yearLater.store).map (fun es => (es.all hasTime, es.length)) = .ok (true, 1) := by
    decide +kernel
  obtain ⟨earlier, hlist, hearlier⟩ := exists_of_map_eq_ok hevaluated
  rw [Prod.mk.injEq, all_eq_true] at hearlier
  obtain ⟨hlisted, hrestore, -⟩ := history_restores hs hclear history_changedBack
  obtain ⟨es, hes, -, hnew, hold⟩ := hlisted earlier hlist hearlier.1
  obtain ⟨s, hdone, hfile, -⟩ := hrestore secondSaved (mem_cons_of_mem _ mem_cons_self)
  exact ⟨hs, hclear, history_changedBack, earlier, es, s, hlist, hearlier.1,
    ne_nil_of_length_eq_add_one hearlier.2, hes, hnew, hold, hdone, hfile⟩

/-- **Backups from before a history are listed as well.** -/
theorem earlier_backups_listed : History yearLater changed [firstSaved] ∧
    (list changed.store).map (·.map backupId) = .ok [some firstSaved.id, some "old"] :=
  ⟨history_changed, by decide +kernel⟩

end SourceBench.Backup
