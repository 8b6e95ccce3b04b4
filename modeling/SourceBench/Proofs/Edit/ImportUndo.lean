import SourceBench.Proofs.Edit.ImportFrame
import SourceBench.Proofs.Edit.Memory
import SourceBench.Proofs.Outline.Moved

/-!
# An import that is added and removed again

Removing the import of a module finds the statement that was added for it and no other (`find?_received`).  It takes the
statement with at most one line end behind it, so the source is back but for white space at that place
(`removeStatement_added`).  Where the syntax reads one statement more after the first change and one less after the
second, all tables are what they were (`Transformation.addImport_undone`).
-/
namespace SourceBench

open Syntax Utf8 View

namespace Imports

open Reading List

variable {v : View} {m : String} {y : List Char} {g : Gap} {op : AddImport}

/-! ## Statements by their modules -/

def moduleOf (text : List Char) (t : Tree) : Option String :=
  if t.kind = .importStatement then (t.child? .source).map (literalText text) else none

theorem statements_eq (v : View) :
    statements v = v.tree.namedChildren.filterMap fun t => (moduleOf v.text t).map fun m => (t, m) := by
  rw [statements, filterMap_filter]
  refine filterMap_congr fun t _ => ?_
  rw [moduleOf]
  by_cases hkind : t.kind = .importStatement
  · rw [if_pos (beq_iff_eq.2 hkind), if_pos hkind, Option.map_map]
    rfl
  · rw [if_neg (mt beq_iff_eq.1 hkind), if_neg hkind]
    rfl

variable {text : List Char} {t : Tree}

theorem moduleOf_echo {text' : List Char} {u : Tree} (h : Echo text text' t u) :
    moduleOf text t = moduleOf text' u := by
  rw [moduleOf, moduleOf, Mirror.kind_eq h]
  split
  · exact optionMap_eq_of_rel (fun _ _ hab => Echo.literalText_eq hab) (Mirror.child? h .source)
  · rfl

theorem moduleOf_of_find?_none (h : (statements v).find? (·.2 == m) = none)
    (ht : t ∈ v.tree.namedChildren) : moduleOf v.text t ≠ some m := by
  intro hm
  rw [statements_eq, find?_eq_none] at h
  exact h (t, m) (mem_filterMap.2 ⟨t, ht, by rw [hm]; rfl⟩) (beq_self_eq_true m)

theorem find?_statements {l r : List Tree} (h : v.tree.namedChildren = l ++ t :: r)
    (hl : ∀ u ∈ l, moduleOf v.text u ≠ some m) (ht : moduleOf v.text t = some m) :
    (statements v).find? (·.2 == m) = some (t, m) := by
  have hleft : (l.filterMap fun u => (moduleOf v.text u).map fun n => (u, n)).find? (·.2 == m) = none := by
    refine find?_eq_none.2 fun p hp heq => ?_
    obtain ⟨u, hu, hup⟩ := mem_filterMap.1 hp
    obtain ⟨n, hn, rfl⟩ := Option.map_eq_some_iff.1 hup
    exact hl u hu (hn.trans (congrArg some (beq_iff_eq.1 heq)))
  rw [statements_eq, h, filterMap_append, find?_append, hleft, Option.none_or, filterMap_cons_some (by rw [ht]; rfl)]
  exact find?_cons_of_pos (beq_self_eq_true m)

/-! ## What the syntax reads -/

def Fills (t : Tree) : Except PlanError (Option Change) → Prop
  | .ok (some e) => t.start = e.site ∧ t.stop = e.site + e.length
  | _ => True

instance (t : Tree) : ∀ answer, Decidable (Fills t answer)
  | .ok (some _) => inferInstanceAs (Decidable (_ ∧ _))
  | .ok none | .error _ => inferInstanceAs (Decidable True)

/-- The result reads as the statements of a text with an import of the module among them, which takes up what was
written for it. -/
def Receives [Recovery] (text result : List Char) (op : AddImport) : Prop :=
  Framed text result op ∧
    ∀ t ∈ (ofText result).tree.namedChildren[(ahead (encode text) (ofText text) op).length]?,
      moduleOf result t = some op.source ∧ Fills t ((tableOf (encode text) (ofText text)).ask op)

instance [Recovery] (text result : List Char) (op : AddImport) : Decidable (Receives text result op) :=
  inferInstanceAs (Decidable (_ ∧ ∀ t ∈ _, _ ∧ _))

def Loses [Recovery] (text result : List Char) (n : Nat) : Prop :=
  mirrorAll (SameWords text result) ((ofText text).tree.namedChildren.eraseIdx n)
    (ofText result).tree.namedChildren

instance [Recovery] (text result : List Char) (n : Nat) : Decidable (Loses text result n) :=
  inferInstanceAs (Decidable (mirrorAll _ _ _))

section Received

variable {text result : List Char} {op : AddImport}

theorem Receives.exists_statement [Recovery] (h : Receives text result op) :
    ∃ l mine r, (ofText result).tree.namedChildren = l ++ mine :: r ∧
      l.length = (ahead (encode text) (ofText text) op).length ∧
      Forall₂ (Echo text result) (ahead (encode text) (ofText text) op) l ∧
      Forall₂ (Echo text result) (behind (encode text) (ofText text) op) r ∧ moduleOf result mine = some op.source ∧
        ∀ e, (tableOf (encode text) (ofText text)).ask op = .ok (some e) →
          mine.start = e.site ∧ mine.stop = e.site + e.length := by
  obtain ⟨l, mine, r, hstatements, -, hl, hr⟩ := h.1.exists_statements
  obtain ⟨hmodule, hplace⟩ :=
    h.2 mine (by rw [hstatements, hl.length_eq, getElem?_append_right (Nat.le_refl _), Nat.sub_self]; rfl)
  refine ⟨l, mine, r, hstatements, hl.length_eq.symm, hl, hr, hmodule, fun e he => ?_⟩
  rw [he] at hplace
  exact hplace

theorem find?_received [SoundRecovery] (h : Receives text result op) (hnew : joined (ofText text) op = none) :
    ∃ l mine r, (ofText result).tree.namedChildren = l ++ mine :: r ∧
      l.length = (ahead (encode text) (ofText text) op).length ∧
      Forall₂ (Echo text result) (ofText text).tree.namedChildren (l ++ r) ∧
      (statements (ofText result)).find? (·.2 == op.source) = some (mine, op.source) ∧
      ∀ e, (tableOf (encode text) (ofText text)).ask op = .ok (some e) →
        mine.start = e.site ∧ mine.stop = e.site + e.length := by
  obtain ⟨l, mine, r, hstatements, hlength, hl, hr, hmodule, hplace⟩ := h.exists_statement
  have hparted := parted text op
  rw [hnew, Option.toList_none, append_nil] at hparted
  have hnone := Option.map_eq_none_iff.1 hnew
  have hleft : ∀ u ∈ l, moduleOf result u ≠ some op.source :=
    (forall_mem_iff_of_forall₂ (p := fun t => moduleOf text t ≠ some op.source)
      (fun _ _ hab => by rw [moduleOf_echo hab]) hl).1 fun t ht =>
        moduleOf_of_find?_none hnone (by rw [hparted]; exact mem_append_left _ ht)
  refine ⟨l, mine, r, hstatements, hlength, ?_, find?_statements hstatements hleft hmodule, hplace⟩
  rw [hparted]
  exact rel_append hl hr

end Received

/-! ## What is left of the text -/

def afterBreak : List Char → List Char
  | '\r' :: '\n' :: rest => rest
  | '\n' :: rest => rest
  | rest => rest

theorem exists_break {bytes : Bytes} (h : bytes.drop t.stop = encode y) :
    ∃ w, y = w ++ afterBreak y ∧ removeStatement bytes t = .one (.replace t.start (t.stop + byteSize w) []) := by
  unfold removeStatement
  rw [h]
  fun_cases afterBreak y with
  | case1 rest => exact ⟨['\r', '\n'], rfl, rfl⟩
  | case2 rest => exact ⟨['\n'], rfl, rfl⟩
  | case3 y hcrlf hlf =>
    refine ⟨[], rfl, ?_⟩
    split
    · rename_i rest hbytes
      obtain ⟨z, rfl⟩ := prefix_of_encode (u := ['\r', '\n']) hbytes
      exact absurd rfl (hcrlf z)
    · rename_i rest hbytes
      obtain ⟨z, rfl⟩ := prefix_of_encode (u := ['\n']) hbytes
      exact absurd rfl (hlf z)
    · rfl

theorem removeStatement_apply {x s : List Char} (hstart : t.start = byteSize x)
    (hstop : t.stop = byteSize x + byteSize s) :
    Splice.applyAll (removeStatement (encode (x ++ s ++ y)) t).edits (encode (x ++ s ++ y))
      = encode (x ++ afterBreak y) := by
  have hdrop : (encode (x ++ s ++ y)).drop t.stop = encode y := by
    rw [encode_append, hstop, ← byteSize_append, ← length_encode, drop_left]
  obtain ⟨w, hw, hplan⟩ := exists_break hdrop
  have htext : encode (x ++ s ++ y) = encode x ++ encode (s ++ w) ++ encode (afterBreak y) := by
    rw [← encode_append, ← encode_append, append_assoc x s y, append_assoc x (s ++ w), append_assoc s w, ← hw]
  rw [hplan, htext]
  show Splice.apply (.replace t.start (t.stop + byteSize w) []) _ = _
  rw [Splice.apply_append (by simp [Splice.replace, hstart]) (by simp [Splice.replace, hstop, Int.add_assoc])]
  simp [Splice.replace, encode]

/-- The gap takes nothing from bytes, or all of them if they are white space, and adds line feeds only. -/
structure Gap.Blank (g : Gap) (bytes : Bytes) : Prop where
  taken : g.start = g.stop ∨ g.start = 0 ∧ g.stop = bytes.length ∧ bytes.all Bytes.isSpace = true
  lead : ∀ c ∈ g.lead, c = '\n'
  trail : ∀ c ∈ g.trail, c = '\n'

theorem topOf_blank (bytes : Bytes) (v : View) : (topOf bytes v).Blank bytes := by
  unfold topOf
  split
  · exact ⟨.inl rfl, by simp, by simp⟩
  · by_cases hblank : bytes.all Bytes.isSpace
    · rw [if_pos hblank]
      exact ⟨.inr ⟨rfl, rfl, hblank⟩, by simp, by simp⟩
    · rw [if_neg hblank]
      exact ⟨.inl rfl, by simp, by simp⟩

theorem gap_blank (bytes : Bytes) (v : View) (source : String) : ((tableOf bytes v).gap source).Blank bytes := by
  unfold Table.gap
  split
  · exact ⟨.inl rfl, by simp [Standing.before], by simp [Standing.before]⟩
  · exact ⟨.inl rfl, by simp [Standing.behind], by simp [Standing.behind]⟩
  · exact topOf_blank bytes v

theorem Gap.Blank.split (h : g.Blank (encode text)) (hcut : Cut text g.start ∧ Cut text g.stop) :
    ∃ x w y, text = x ++ w ++ y ∧
      g.start = byteSize x ∧ g.stop = byteSize x + byteSize w ∧ ∀ c ∈ w, Text.isSpace c := by
  rcases h.taken with heq | ⟨hstart, hstop, hblank⟩
  · obtain ⟨x, y, rfl, hx⟩ := hcut.1
    exact ⟨x, [], y, by rw [append_nil], hx.symm, by rw [← heq, hx]; rfl, by simp⟩
  · refine ⟨[], text, [], by simp, hstart, by simp [hstop], fun c hc => ?_⟩
    exact (blank_of_all_isSpace hblank c hc).2

theorem afterBreak_split {trail : List Char} (htrail : ∀ c ∈ trail, c = '\n') (y : List Char) :
    ∃ w w' z, y = w ++ z ∧ afterBreak (trail ++ y) = w' ++ z ∧ ∀ c ∈ w ++ w', Text.isSpace c := by
  cases trail with
  | cons c trail =>
    obtain rfl := htrail c mem_cons_self
    exact ⟨[], trail, y, rfl, rfl, fun c hc => by rw [htrail c (mem_cons_of_mem _ hc)]; rfl⟩
  | nil =>
    rw [nil_append]
    fun_cases afterBreak y with
    | case1 rest => exact ⟨['\r', '\n'], [], rest, rfl, rfl, all_eq_true.1 rfl⟩
    | case2 rest => exact ⟨['\n'], [], rest, rfl, rfl, all_eq_true.1 rfl⟩
    | case3 => exact ⟨[], [], y, rfl, rfl, by simp⟩

theorem ask_of_new [Recovery] {x : Option Change} (hnew : joined (ofText text) op = none)
    (h : (tableOf (encode text) (ofText text)).ask op = .ok x) :
    ∃ statement, x = some (((tableOf (encode text) (ofText text)).gap op.source).fill statement) := by
  rw [Table.ask, find?_standing, Option.map_eq_none_iff.1 hnew] at h
  obtain ⟨statement, -, rfl⟩ := exists_of_map_eq_ok h
  exact ⟨statement, rfl⟩

/-- **A statement that was put into a gap and removed again leaves the text but for white space.** -/
theorem removeStatement_added {result statement : List Char} (hblank : g.Blank (encode text))
    (hcut : Cut text g.start ∧ Cut text g.stop) (hresult : encode result = (g.fill statement).on (encode text))
    (hstart : t.start = (g.fill statement).site)
    (hstop : t.stop = (g.fill statement).site + (g.fill statement).length) :
    ∃ x w w' z, text = x ++ w ++ z ∧ (∀ c ∈ w ++ w', Text.isSpace c) ∧
      Splice.applyAll (removeStatement (encode result) t).edits (encode result) = encode (x ++ w' ++ z) := by
  obtain ⟨x, w, y, rfl, hx, hw, hspace⟩ := hblank.split hcut
  obtain ⟨u, u', z, rfl, hz, hspace'⟩ := afterBreak_split hblank.trail y
  have hwritten : result = x ++ g.lead ++ statement ++ (g.trail ++ (u ++ z)) := by
    refine encode_inj.1 (hresult.trans ?_)
    have hon := Change.on_append (e := g.fill statement) (a := encode x) (b := encode w)
      (c := encode (u ++ z)) (by rw [length_encode]; exact hx) (by rw [length_encode, length_encode]; exact hw)
    rw [append_assoc x, encode_append, encode_append, hon]
    simp only [Gap.fill, encode_append, append_assoc]
  refine ⟨x, w ++ u, g.lead ++ u', z, by simp, fun c hc => ?_, ?_⟩
  · simp only [mem_append] at hc hspace'
    rcases hc with (hc | hc) | hc | hc
    · exact hspace c hc
    · exact hspace' c (.inl hc)
    · rw [hblank.lead c hc]
      rfl
    · exact hspace' c (.inr hc)
  · rw [hwritten, removeStatement_apply (s := statement) (by rw [hstart, byteSize_append, ← hx]; rfl)
      (by rw [hstop, byteSize_append, ← hx]; rfl), hz]
    simp

end Imports

/-! ## Outlines -/

namespace Reading

open List

variable {text result : List Char}

/-- **Sources whose statements echo each other have the same outline**, but for places. -/
theorem outline_of_echo [SoundRecovery] (h : Forall₂ (Echo text result) (ofText text).tree.namedChildren
    (ofText result).tree.namedChildren) (path : String) :
    let o := Outline.ofSource .typescript path text
    let o' := Outline.ofSource .typescript path result
    o'.imports = o.imports ∧ o'.exports = o.exports ∧ o'.tree.roots = o.tree.roots ∧
      o'.tree.nodes.map (·.bare) = o.tree.nodes.map (·.bare) := by
  have hnames : exportedNames text (ofText text).tree = exportedNames result (ofText result).tree :=
    flatMap_ofKind h (fun _ _ => Echo.localExportNames_eq) (· == .exportStatement)
  have hnodes : (layOut text 0 (declared text (ofText text).tree)).map (·.bare)
      = (layOut result 0 (declared result (ofText result).tree)).map (·.bare) := by
    rw [declared, declared, hnames]
    refine layOut_bare (rel_map (fun g g' hg => ?_) (groupsAfter_echo h rfl)) 0
    exact ⟨hg.1.marked _, hg.2⟩
  refine ⟨?_, ?_, ?_, ?_⟩
  · exact (filterMap_eq_of_forall₂ (fun _ _ hab => Echo.importRecord_eq hab)
      (forall₂_ofKind h (· == .importStatement))).symm
  · exact (flatMap_ofKind h (fun _ _ => Echo.exportRecords_eq) (· == .exportStatement)).symm
  · rw [Imports.ofSource_tree, Imports.ofSource_tree]
    have hwithout : ∀ d : Declaration, d.without none = d := fun d => if_neg fun hplace => by cases hplace.2
    refine (@Imports.roots_of_bare none _ _ ?_).symm
    simp only [hwithout, map_id']
    exact hnodes
  · rw [Imports.ofSource_tree, Imports.ofSource_tree]
    exact hnodes.symm

end Reading

namespace Transformation

open Imports Reading

theorem ask_of_succeeded [SoundRecovery] {source : List Char} {op : AddImport} {t : Transformation}
    (h : run source [.addImport op] = .ok t)
    (hs : t.succeeded) : ∃ x, (tableOf (encode source) (ofText source)).ask op = .ok x ∧
      t.document.bytes = after x (encode source) := by
  obtain ⟨p, hplan, hbytes⟩ := plan_of_succeeded h hs rfl
  have hadd : add (encode source) (ofText source) op = .ok p := hplan
  rw [add_eq] at hadd
  obtain ⟨x, hx, rfl⟩ := exists_of_map_eq_ok hadd
  exact ⟨x, hx, by rw [hbytes, applyAll_planOf]⟩

/-- **Removing an import that was just added.**  If the syntax reads the result of adding it as the statements of the
source with the import among them, removing it succeeds, by itself or in one run with the first, and leaves the source
but for white space at one place.  If the syntax reads this as those statements without the import, then imports,
exports and declarations are those of the source. -/
theorem addImport_undone [SoundRecovery] {source middle : List Char} {op : AddImport} {t : Transformation}
    (hnew : joined (View.ofText source) op = none) (h : run source [.addImport op] = .ok t) (hs : t.succeeded = true)
    (hmiddle : t.source? = some middle) (hreceives : Receives source middle op) :
    ∃ final, (∃ u, run middle [.removeImport ⟨op.source, []⟩] = .ok u ∧ u.succeeded = true ∧ u.source? = some final) ∧
      (∃ u, run source [.addImport op, .removeImport ⟨op.source, []⟩] = .ok u ∧ u.succeeded = true ∧
        u.source? = some final) ∧
      (∃ x w w' z, source = x ++ w ++ z ∧ final = x ++ w' ++ z ∧ ∀ c ∈ w ++ w', Text.isSpace c = true) ∧
      (Loses middle final (ahead (Utf8.encode source) (View.ofText source) op).length → ∀ path,
        let o := Outline.ofSource .typescript path source
        let o' := Outline.ofSource .typescript path final
        o'.imports = o.imports ∧ o'.exports = o.exports ∧ o'.tree.roots = o.tree.roots ∧
          o'.tree.nodes.map (·.bare) = o.tree.nodes.map (·.bare)) := by
  obtain ⟨l, mine, r, hstatements, hlength, hecho, hfind, hplace⟩ := find?_received hreceives hnew
  obtain ⟨e, hask, hbytes⟩ := ask_of_succeeded h hs
  obtain ⟨statement, rfl⟩ := ask_of_new hnew hask
  rw [← Utf8.encode_of_decode hmiddle] at hbytes
  obtain ⟨hstart, hstop⟩ := hplace _ hask
  obtain ⟨x, w, w', z, hsource, hspace, hfinal⟩ :=
    removeStatement_added (gap_blank (Utf8.encode source) (View.ofText source) op.source)
    (gap_stands source op.source).cut hbytes hstart hstop
  have hremove : (Operation.removeImport ⟨op.source, []⟩).plan (Utf8.encode middle) (View.ofText middle)
      = .ok (removeStatement (Utf8.encode middle) mine) := by
    show Except.ok (remove _ _ _) = _
    rw [remove, hfind]
    rfl
  obtain ⟨u, hrun, hu, hremoved⟩ := run_of_plan rfl hremove
  have htext : u.source? = some (x ++ w' ++ z) := by
    rw [source?, Document.text?, hremoved, hfinal, Utf8.decode_encode]
  refine ⟨x ++ w' ++ z, ⟨u, hrun, hu, htext⟩, ?_, ⟨x, w, w', z, hsource, rfl, hspace⟩, fun hloses path => ?_⟩
  · obtain ⟨v, hv, hs, hend⟩ := run_append_of_succeeded h hs hmiddle hrun hu
    exact ⟨v, hv, hs, hend.trans htext⟩
  · refine outline_of_echo (forall₂_echo_trans hecho ?_) path
    rw [Loses, hstatements, ← hlength, List.eraseIdx_append_of_length_le (Nat.le_refl _), Nat.sub_self,
      List.eraseIdx_cons_zero] at hloses
    exact mirrorAll_iff.1 hloses

attribute [local instance] SoundRecovery.bare

def documentedBelow : List Char := "import 'a';\r\n/** D. */\nclass A \x7b\x7d\n".toList

def documentedBelowTwo : List Char :=
  "import 'a';\nimport \x7b b \x7d from 'b';\r\n/** D. */\nclass A \x7b\x7d\n".toList

def documentedAgain : List Char := "import 'a';\n/** D. */\nclass A \x7b\x7d\n".toList

def importOfB : AddImport := ⟨"b", [.str "b"], .null, .null, .bool false⟩

-- Lest the trees be read once more to see whether proofs of them are functions.
attribute [local irreducible] Receives Loses

theorem addImport_undone_documented :
    joined (View.ofText documentedBelow) importOfB = none ∧ Receives documentedBelow documentedBelowTwo importOfB ∧
      (∃ u, run documentedBelow [.addImport importOfB, .removeImport ⟨"b", []⟩] = .ok u ∧ u.succeeded = true ∧
        u.source? = some documentedAgain) ∧
      Loses documentedBelowTwo documentedAgain
        (ahead (Utf8.encode documentedBelow) (View.ofText documentedBelow) importOfB).length ∧
      (Outline.ofSource .typescript "a.ts" documentedAgain).tree.nodes.map (·.bare)
        = (Outline.ofSource .typescript "a.ts" documentedBelow).tree.nodes.map (·.bare) := by
  obtain ⟨⟨t, hrun, hs, hmiddle⟩, hnew, hreceives, hloses, w, hw, hagain⟩ :
      (∃ t, run documentedBelow [.addImport importOfB] = .ok t ∧ t.succeeded = true ∧
        t.source? = some documentedBelowTwo) ∧
      joined (View.ofText documentedBelow) importOfB = none ∧ Receives documentedBelow documentedBelowTwo importOfB ∧
      Loses documentedBelowTwo documentedAgain
        (ahead (Utf8.encode documentedBelow) (View.ofText documentedBelow) importOfB).length ∧
      ∃ w, run documentedBelowTwo [.removeImport ⟨"b", []⟩] = .ok w ∧ w.source? = some documentedAgain := by
    rw [show documentedBelow = _ from String.toList_ofList, show documentedBelowTwo = _ from String.toList_ofList,
      show documentedAgain = _ from String.toList_ofList]
    decide +kernel
  obtain ⟨final, ⟨v, hv, hsv, hfinal⟩, hboth, -, htables⟩ := addImport_undone hnew hrun hs hmiddle hreceives
  obtain rfl : v = w := Except.ok.inj (hv.symm.trans hw)
  obtain rfl : final = documentedAgain := Option.some.inj (hfinal.symm.trans hagain)
  exact ⟨hnew, hreceives, hboth, hloses, (htables hloses "a.ts").2.2.2⟩

end Transformation
end SourceBench
