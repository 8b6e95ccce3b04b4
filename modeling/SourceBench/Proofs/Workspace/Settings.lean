import SourceBench.Proofs.Toml.Keys
import SourceBench.Proofs.Workspace.Footprint

/-!
# The last change to a setting holds

Changes read the whole file of settings, change one table and write it again.  After any number of them, each setting
has the value that was given for it last, or else what the file had at first (`change_run_last`); the defaults stand
below these.  That a text that was written can be read again is assumed of the settings that a run writes
(`Toml.ReadsBack`).
-/
namespace SourceBench

open List Fields Value Option

variable {new gs : Fields} {v : Value} {s' : Store}

/-- Settings that are written and read are the same again, up to the order of fields. -/
def Toml.ReadsBack (fs : Fields) : Prop :=
  ∃ gs, Toml.parse (Store.plainBreaks (Toml.render fs)) = some gs ∧ (object gs).Alike (.object fs)

namespace Settings

open Value

deriving instance DecidableEq for Loaded

/-! ## Fields over fields -/

theorem get?_update (h : (new.map (·.1)).Nodup) (old : Fields) (key : String) :
    get? (update old new) key = (get? new key).or (get? old key) := by
  induction new generalizing old with
  | nil => rfl
  | cons f new ih =>
    rw [map_cons, nodup_cons] at h
    change get? (update (set old f.1 f.2) new) key = _
    rw [ih h.2, get?_set, get?_cons]
    by_cases hkey : f.1 = key
    · subst hkey
      rw [if_pos rfl, if_pos rfl, get?_eq_none.2 h.1]
      rfl
    · rw [if_neg hkey, if_neg (Ne.symm hkey)]

def overlay (below : Option Value) : Value → Value
  | .object new => match below.getD (.object []) with
    | .object old => .object (update old new)
    | v => v
  | v => v

theorem get?_mergeSection (acc : Fields) (name : String) (v : Value) (n : String) :
    get? ((mergeSection acc name v).getD acc) n =
      if n = name then some (overlay (get? acc name) v) else get? acc n := by
  have hset : ∀ w, get? ((some (set acc name w)).getD acc) n =
      if n = name then some w else get? acc n := fun w => get?_set acc name w n
  cases v with
  | object new =>
    unfold mergeSection overlay
    dsimp only
    cases hold : (get? acc name).getD (.object []) with
    | object old => exact hset _
    | _ =>
      -- What is there is no table, so it stays.
      rw [getD_none]
      by_cases hn : n = name
      · rw [if_pos hn, hn]
        cases hname : get? acc name with
        | none => rw [hname] at hold; cases hold
        | some w =>
          rw [hname] at hold
          exact congrArg some hold
      · rw [if_neg hn]
  | _ => exact hset _

variable {fs : Fields} {s : Store} {c : Change}

theorem get?_withDefaults (h : (fs.map (·.1)).Nodup) (n : String) : get? (withDefaults fs) n =
      ((get? fs n).map (overlay (get? defaults n))).or (get? defaults n) := by
  unfold withDefaults
  generalize defaults = acc
  induction fs generalizing acc with
  | nil => rfl
  | cons f fs ih =>
    rw [map_cons, nodup_cons] at h
    rw [foldl_cons, ih h.2, get?_mergeSection, get?_cons]
    by_cases hn : f.1 = n
    · subst hn
      rw [if_pos rfl, if_pos rfl, get?_eq_none.2 h.1]
      rfl
    · rw [if_neg hn, if_neg (Ne.symm hn)]

/-! ## One change -/

def given : Value → Option Value
  | .null => none
  | v => some v

theorem eq_of_given {w : Value} (h : given v = some w) : v = w := by
  unfold given at h
  split at h
  · cases h
  · exact some.inj h

theorem get?_filter_given (h : (fs.map (·.1)).Nodup) (key : String) :
    get? (fs.filter fun f => (given f.2).isSome) key = (get? fs key).bind given := by
  induction fs with
  | nil => rfl
  | cons f fs ih =>
    rw [map_cons, nodup_cons] at h
    have ih := ih h.2
    rw [filter_cons, get?_cons]
    cases hgiven : given f.2 with
    | none =>
      rw [isSome_none, if_neg Bool.false_ne_true, ih]
      by_cases hkey : f.1 = key
      · rw [if_pos hkey, ← hkey, get?_eq_none.2 h.1]
        exact hgiven.symm
      · rw [if_neg hkey]
    | some v =>
      rw [isSome_some, if_pos rfl, get?_cons, ih]
      by_cases hkey : f.1 = key
      · rw [if_pos hkey, if_pos hkey, eq_of_given hgiven]
        exact (eq_of_given hgiven ▸ hgiven).symm
      · rw [if_neg hkey, if_neg hkey]

namespace Change

def table : Change → String
  | analysis .. => "analysis"
  | header _ => "format"

def value? : Change → String → String → Option Value
  | analysis largeFileLines _ _, "analysis", "large_file_lines" => given largeFileLines
  | analysis _ complexity _, "analysis", "complexity_threshold" => given complexity
  | analysis _ _ diffTolerance, "analysis", "diff_tolerance" => given diffTolerance
  | header text, "format", "license_header" => some text
  | _, _, _ => none

def fields : Change → Fields
  | analysis a b c => [("large_file_lines", a), ("complexity_threshold", b), ("diff_tolerance", c)].filter
      fun f => (given f.2).isSome
  | header text => [("license_header", text)]

theorem apply_eq (fs : Fields) (c : Change) : c.apply fs = setFields fs c.table c.fields := by
  cases c with
  | header text => rfl
  | analysis a b c =>
    rw [apply, setAnalysis, fields, table]
    refine congrArg (setFields fs "analysis") (filter_congr fun f _ => ?_)
    obtain ⟨key, v⟩ := f
    cases v <;> rfl

theorem nodup_thresholds (a b c : Value) :
    ([("large_file_lines", a), ("complexity_threshold", b), ("diff_tolerance", c)].map (·.1)).Nodup := by
  simp only [map_cons, map_nil]
  decide

theorem nodup_fields (c : Change) : (c.fields.map (·.1)).Nodup := by
  cases c with
  | analysis a b c => exact (nodup_thresholds a b c).sublist (filter_sublist.map _)
  | header text => exact nodup_singleton _

theorem value?_eq (c : Change) (table key : String) :
    c.value? table key = if table = c.table then get? c.fields key else none := by
  cases c with
  | analysis a b c =>
    rw [fields, get?_filter_given (nodup_thresholds a b c), get?_cons, get?_cons, get?_cons,
      get?_nil]
    unfold value?
    split <;> grind [Change.table]
  | header text =>
    rw [fields, get?_cons, get?_nil]
    unfold value?
    split <;> grind [Change.table]

end Change

/-- The tables that changes are to are tables, if they are there. -/
def Sectioned (fs : Fields) : Prop :=
  ∀ table ∈ ["analysis", "format"], ∀ v, get? fs table = some v → ∃ inner, v = .object inner

def lastGiven (changes : List Change) (table key : String) : Option Value :=
  changes.reverse.findSome? (·.value? table key)

theorem lastGiven_cons (c : Change) (changes : List Change) (table key : String) :
    lastGiven (c :: changes) table key = (lastGiven changes table key).or (c.value? table key) := by
  rw [lastGiven, reverse_cons, findSome?_append, findSome?_singleton]
  rfl

def expected (fs : Fields) (changes : List Change) : List String → Option Value
  | [] => some (.object [])
  | [table] => if table ∈ changes.map (·.table) then some (.object []) else (object fs).peek [table]
  | table :: key :: path => match lastGiven changes table key with
    | some v => v.peek path
    | none => (object fs).peek (table :: key :: path)

theorem peek_apply (h : Sectioned fs) (c : Change) :
    ∃ fs', c.apply fs = some fs' ∧ ∀ path, (object fs').peek path = expected fs [c] path := by
  obtain ⟨old, hold⟩ : ∃ old, (get? fs c.table).getD (.object []) = .object old := by
    cases hget : get? fs c.table with
    | none => exact ⟨[], rfl⟩
    | some v => exact h c.table (by cases c <;> simp [Change.table]) v hget
  refine ⟨set fs c.table (.object (update old c.fields)), ?_, fun path => ?_⟩
  · rw [Change.apply_eq, setFields, hold]
  · match path with
    | [] => rfl
    | [table] =>
      rw [peek_cons, get?_set, expected, map_singleton]
      by_cases htable : table = c.table
      · rw [if_pos htable, if_pos (mem_singleton.2 htable)]
        rfl
      · rw [if_neg htable, if_neg (htable ∘ mem_singleton.1), peek_cons]
    | table :: key :: path =>
      rw [peek_cons, get?_set, expected, peek_cons, lastGiven_cons, Change.value?_eq]
      change _ = match if table = c.table then get? c.fields key else none with
        | some v => v.peek path
        | none => _
      by_cases htable : table = c.table
      · rw [if_pos htable, if_pos htable, bind_some, peek_cons, get?_update c.nodup_fields, htable]
        cases get? c.fields key with
        | some v => rfl
        | none =>
          cases hget : get? fs c.table with
          | none =>
            rw [hget] at hold
            cases hold
            rfl
          | some v =>
            rw [hget] at hold
            rw [show v = .object old from hold, bind_some, peek_cons]
            rfl
      · rw [if_neg htable, if_neg htable]

/-! ## Defaults -/

theorem eq_object_of_get?_defaults {table : String} (h : get? defaults table = some v) :
    table ∈ ["analysis", "format"] ∧ ∃ old, v = .object old := by
  simp only [defaults, get?_cons, get?_nil] at h
  split at h
  · next htable =>
    cases h
    exact ⟨by simp [← htable], _, rfl⟩
  · split at h
    · next htable =>
      cases h
      exact ⟨by simp [← htable], _, rfl⟩
    · cases h

theorem overlay_object (hnew : (new.map (·.1)).Nodup) (table : String) :
    ∃ merged, overlay (get? defaults table) (.object new) = .object merged ∧
      ∀ key, get? merged key = (get? new key).or ((object defaults).at? [table, key]) := by
  cases hdefault : get? defaults table with
  | none =>
    refine ⟨update [] new, rfl, fun key => ?_⟩
    rw [get?_update hnew, at?_cons, hdefault]
    rfl
  | some v =>
    obtain ⟨-, old, rfl⟩ := eq_object_of_get?_defaults hdefault
    refine ⟨update old new, rfl, fun key => ?_⟩
    rw [get?_update hnew, at?_cons, hdefault, bind_some, at?_single]

/-- **The settings stand over their defaults, table by table and key by key.** -/
theorem at?_withDefaults (htidy : (object fs).Tidy) (h : Sectioned fs) (table key : String) :
    (object (withDefaults fs)).peek [table] = ((object fs).peek [table]).or ((object defaults).peek [table]) ∧
      (object (withDefaults fs)).at? [table, key]
        = ((object fs).at? [table, key]).or ((object defaults).at? [table, key]) := by
  rw [peek_cons, peek_cons, peek_cons, at?_cons, at?_cons, get?_withDefaults (tidy_object.1 htidy).1]
  cases hv : get? fs table with
  | none =>
    rw [at?_cons]
    exact ⟨rfl, rfl⟩
  | some v =>
    cases v with
    | object new =>
      obtain ⟨merged, hmerged, hkeys⟩ := overlay_object (tidy_object.1 (htidy.field hv)).1 table
      rw [map_some, hmerged]
      refine ⟨rfl, ?_⟩
      rw [some_or, bind_some, bind_some, at?_single, at?_single, hkeys]
    | _ =>
      -- Tables with defaults are tables, so there is no default here.
      have hdefault : get? defaults table = none := by
        rw [eq_none_iff_forall_ne_some]
        intro d hd
        obtain ⟨inner, hinner⟩ := h table (eq_object_of_get?_defaults hd).1 _ hv
        cases hinner
      rw [at?_cons, hdefault]
      exact ⟨rfl, rfl⟩

/-! ## Saving and loading -/

theorem load_tidy {loaded : Loaded} (h : load s = .ok loaded) : (object loaded.fields).Tidy := by
  unfold load at h
  split at h
  · cases h
    exact tidy_empty
  · split at h
    · split at h
      · next hparse =>
        cases h
        exact Toml.parse_tidy hparse
      · cases h
        exact tidy_empty
    · cases h
    · cases h
      exact tidy_empty

theorem load_of_save (h : save s fs = (s', true)) (hread : Toml.ReadsBack fs) :
    ∃ gs, load s' = .ok ⟨gs, true⟩ ∧ (object gs).Alike (.object fs) := by
  obtain ⟨gs, hparse, halike⟩ := hread
  refine ⟨gs, ?_, halike⟩
  have hbytes : s'.readBytes file = .ok (Utf8.encode (Toml.render fs)) := by
    unfold save at h
    split at h
    · cases h
    · split at h
      · next hwrite =>
        cases h
        exact Store.readBytes_of_writeBytes hwrite
      · cases h
  obtain ⟨place, hplace, hfile⟩ := Store.readBytes_eq_ok.1 hbytes
  have htext : s'.readText file = .ok (Store.plainBreaks (Toml.render fs)) := by
    simp only [Store.readText, hbytes, bind, Except.bind, Utf8.decode_encode]
    rfl
  rw [load, Store.has_of_find? hplace hfile, htext]
  simp only [hparse]
  rfl

/-! ## Runs -/

def changeAll (s : Store) : List Change → Option Store
  | [] => some s
  | c :: cs => match change s c with
    | (s', .saved) => changeAll s' cs
    | _ => none

def written (s : Store) : List Change → List Fields
  | [] => []
  | c :: cs => match load s with
    | .ok loaded => (c.apply loaded.fields).toList ++ written (change s c).1 cs
    | .error _ => []

theorem change_eq_saved (h : change s c = (s', .saved)) :
    ∃ loaded fs, load s = .ok loaded ∧ c.apply loaded.fields = some fs ∧ save s fs = (s', true) := by
  unfold change at h
  split at h
  · cases h
  · next loaded hload =>
    split at h
    · cases h
    · next fs happly =>
      split at h
      · next hsave =>
        cases h
        exact ⟨loaded, fs, hload, happly, hsave⟩
      · cases h

theorem expected_cons (h : ∀ path, (object gs).peek path = expected fs [c] path) (changes : List Change)
    (path : List String) : expected gs changes path = expected fs (c :: changes) path := by
  match path with
  | [] => rfl
  | [table] =>
    rw [expected, expected, h, expected]
    by_cases hlater : table ∈ changes.map (·.table)
    · rw [if_pos hlater]
      exact (if_pos (mem_cons_of_mem _ hlater)).symm
    · rw [if_neg hlater]
      simp only [map_cons, map_nil, mem_cons, hlater, not_mem_nil]
  | table :: key :: path =>
    rw [expected, expected, h, expected, lastGiven_cons, lastGiven_cons]
    cases lastGiven changes table key with
    | some v => rfl
    | none => rfl

theorem Sectioned.of_peek (h : Sectioned fs) (hpeek : ∀ path, (object gs).peek path = expected fs [c] path) :
    Sectioned gs := by
  intro table htable v hv
  have hbare : some v.bare = expected fs [c] [table] := by
    rw [← hpeek, peek_cons, hv]
    rfl
  refine eq_object_of_bare ?_
  rw [expected] at hbare
  split at hbare
  · exact some.inj hbare
  · rw [peek_cons] at hbare
    cases hw : get? fs table with
    | none => rw [hw] at hbare; cases hbare
    | some w =>
      obtain ⟨inner, rfl⟩ := h table htable w hw
      rw [hw] at hbare
      exact some.inj hbare

theorem load_changeAll : ∀ {changes : List Change} {s s' : Store} {initial : Fields}, load s = .ok ⟨initial, true⟩ →
    Sectioned initial → changeAll s changes = some s' → (∀ fs ∈ written s changes, Toml.ReadsBack fs) →
    ∃ final, load s' = .ok ⟨final, true⟩ ∧ Sectioned final ∧
      ∀ path, (object final).peek path = expected initial changes path
  | [], s, s', initial, hload, htables, hrun, _ => by
    cases hrun
    refine ⟨initial, hload, htables, fun path => ?_⟩
    match path with
    | [] => rfl
    | [table] => rw [expected, if_neg (by simp)]
    | table :: key :: path => rfl
  | c :: changes, s, s', initial, hload, htables, hrun, hread => by
    rw [changeAll] at hrun
    split at hrun
    · next s₁ hchange =>
      obtain ⟨loaded, fs, hload', happly, hsave⟩ := change_eq_saved hchange
      cases hload.symm.trans hload'
      have hwritten : written s (c :: changes) = fs :: written s₁ changes := by
        rw [written, hload, hchange]
        dsimp only
        rw [happly]
        rfl
      rw [hwritten] at hread
      obtain ⟨gs, hgs, halike⟩ := load_of_save hsave (hread fs mem_cons_self)
      obtain ⟨fs', happly', hpeek⟩ := peek_apply htables c
      cases happly.symm.trans happly'
      have hstep : ∀ path, (object gs).peek path = expected initial [c] path := fun path =>
        (halike path).trans (hpeek path)
      obtain ⟨final, hfinal, htables', hlast⟩ := load_changeAll hgs (htables.of_peek hstep) hrun
        fun fs hfs => hread fs (mem_cons_of_mem _ hfs)
      exact ⟨final, hfinal, htables', fun path => (hlast path).trans (expected_cons hstep changes path)⟩
    · cases hrun

/-- **The last change to a setting holds.**  Let the file of settings be absent or one that can be read, with tables
where changes are made, and let all changes of a run be saved, each writing what can be read back.  Then every path of
the settings has what was given for it last, or else what it had at first.  With defaults, every table and key has what
the settings have, or else its default. -/
theorem change_run_last {s s' : Store} {initial : Fields} {changes : List Change} (hload : load s = .ok ⟨initial, true⟩)
    (htables : Sectioned initial) (hrun : changeAll s changes = some s')
    (hread : ∀ fs ∈ written s changes, Toml.ReadsBack fs) : ∃ final, load s' = .ok ⟨final, true⟩ ∧
      (∀ path, (Value.object final).peek path = expected initial changes path) ∧
      ∀ table key, (Value.object (withDefaults final)).peek [table] =
          ((Value.object final).peek [table]).or ((Value.object defaults).peek [table]) ∧
        (Value.object (withDefaults final)).at? [table, key] =
          ((Value.object final).at? [table, key]).or ((Value.object defaults).at? [table, key]) := by
  obtain ⟨final, hfinal, htables', hlast⟩ := load_changeAll hload htables hrun hread
  exact ⟨final, hfinal, hlast, at?_withDefaults (load_tidy hfinal) htables'⟩

/-- A threshold is set twice, with a header between, in a file that has more. -/
theorem change_run_last_threshold :
    let s : Store := ⟨[], [(["home"], .folder), (["home", "config.toml"],
      .file (Utf8.encode "[tool]\nname = \"x\"\n\n[analysis]\ndiff_tolerance = 1\n".toList))]⟩
    let initial : Fields :=
      [("tool", .object [("name", .str "x")]), ("analysis", .object [("diff_tolerance", .int 1)])]
    let changes : List Change := [.analysis (.int 5) .null .null, .header (.str "h"), .analysis (.int 7) .null .null]
    ∃ s' final, load s = .ok ⟨initial, true⟩ ∧ Sectioned initial ∧ changeAll s changes = some s' ∧
      (∀ fs ∈ written s changes, Toml.ReadsBack fs) ∧ load s' = .ok ⟨final, true⟩ ∧
      (∀ path, (Value.object final).peek path = expected initial changes path) ∧
      ∀ table key, (Value.object (withDefaults final)).peek [table] =
          ((Value.object final).peek [table]).or ((Value.object defaults).peek [table]) ∧
        (Value.object (withDefaults final)).at? [table, key] =
          ((Value.object final).at? [table, key]).or ((Value.object defaults).at? [table, key]) := by
  intro s initial changes
  have hload : load s = .ok ⟨initial, true⟩ := by decide +kernel
  have htables : Sectioned initial := by
    intro table _ v hv
    simp only [initial, Fields.get?_cons, Fields.get?_nil] at hv
    split at hv
    · exact ⟨_, (some.inj hv).symm⟩
    · split at hv
      · exact ⟨_, (some.inj hv).symm⟩
      · cases hv
  have hsaved : (changeAll s changes).isSome := by decide +kernel
  obtain ⟨s', hrun⟩ := Option.isSome_iff_exists.1 hsaved
  have hsame : ∀ fs ∈ written s changes, Toml.parse (Store.plainBreaks (Toml.render fs)) = some fs := by decide +kernel
  have hread : ∀ fs ∈ written s changes, Toml.ReadsBack fs := fun fs hfs => ⟨fs, hsame fs hfs, Alike.refl _⟩
  obtain ⟨final, hfinal⟩ := change_run_last hload htables hrun hread
  exact ⟨s', final, hload, htables, hrun, hread, hfinal⟩

end Settings
end SourceBench
