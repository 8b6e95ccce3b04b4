import SourceBench.Proofs.Edit.ImportSeat
import SourceBench.Proofs.Edit.Memory

/-!
# Names taken from an import

Taking names from an import leaves its other names with their aliases, in their order, and its default; an import that
would have neither goes as a whole, also if it has a namespace (`Transformation.removeImport_shortens`).  Which of the
four it comes to is `remove_eq`: the statement goes, it stays as it is, its braces are written anew, or they are cut
off.
-/
namespace SourceBench

open Syntax Utf8 View

namespace Imports

open Reading Layout List

/-! ## What a statement binds -/

def statementOf (v : View) (source : String) : Option Tree := ((statements v).find? (·.2 == source)).map (·.1)

def bracesOf (t : Tree) : Option Tree := (childOfKind t .importClause).bind (childOfKind · .namedImports)

def defaultOf (t : Tree) : Option Tree := (childOfKind t .importClause).bind (childOfKind · .identifier)

def specifiersOf (t : Tree) : List Tree := ((bracesOf t).map specifiers).getD []

def bindingOf (text : List Char) (s : Tree) : Option (String × Option String) :=
  (s.child? .name).map fun n => (stringOf text n, (s.child? .newName).map (stringOf text))

def namedBindings (text : List Char) (t : Tree) : List (String × Option String) :=
  (specifiersOf t).filterMap (bindingOf text)

theorem filterMap_kept (v : View) (names : List Value) (ss : List Tree) :
    (ss.filter (isKept v names)).filterMap (bindingOf v.text)
      = (ss.filterMap (bindingOf v.text)).filter fun b => !(Value.str b.1).isAmong names := by
  rw [filterMap_filter, filter_filterMap]
  refine filterMap_congr fun s _ => ?_
  unfold isKept bindingOf
  cases s.child? .name with
  | none => rfl
  | some n => cases h : (Value.str (stringOf v.text n)).isAmong names <;> simp [h, Option.filter]

/-! ## The four outcomes -/

def listing (text : List Char) (items : List Tree) : List Char :=
  braced (Text.join ", ".toList (items.map (textOf text)))

theorem remove_eq {bytes : Bytes} {v : View} {op : RemoveImport} {t : Tree} (h : statementOf v op.source = some t)
    (hne : op.names ≠ []) : remove bytes v op =
      let kept := (specifiersOf t).filter (isKept v op.names)
      if kept = [] ∧ defaultOf t = none then removeStatement bytes t
      else if kept.length = (specifiersOf t).length then .none
      else match bracesOf t, defaultOf t with
        | some n, some d =>
          if kept = [] then .one (.replace d.stop n.stop []) else .one (.replace n.start n.stop (listing v.text kept))
        | some n, none => .one (.replace n.start n.stop (listing v.text kept))
        | none, _ => .none := by
  obtain ⟨⟨t', m⟩, hfind, rfl⟩ := Option.map_eq_some_iff.1 h
  have hnames : op.names.isEmpty = false := by simpa using hne
  rw [remove, hfind]
  simp only [hnames, Bool.false_eq_true, if_false, Bool.and_eq_true, List.isEmpty_iff, Option.isNone_iff_eq_none,
    beq_iff_eq]
  rfl

/-- What is left of a text when only some items of an import are kept.  The statement goes with the line end behind it
if it would have neither an item nor a default, a namespace or not; else its braces list the items anew, or are cut off
behind the default.  Nothing outside the statement changes but that line end. -/
inductive Shortened (text : List Char) (t : Tree) (kept : List Tree) : Bytes → Prop where
  | gone (end_ rest : Bytes) : kept = [] → defaultOf t = none → end_ ∈ [[], [10], [13, 10]] →
      (encode text).drop t.stop = end_ ++ rest → Shortened text t kept ((encode text).take t.start ++ rest)
  | same : kept = specifiersOf t → (kept = [] → defaultOf t ≠ none) → Shortened text t kept (encode text)
  | listed (n : Tree) : bracesOf t = some n → t.start ≤ n.start → n.stop ≤ t.stop → kept ≠ [] →
      Shortened text t kept ((encode text).take n.start ++ encode (listing text kept) ++ (encode text).drop n.stop)
  | cut (n d : Tree) : bracesOf t = some n → defaultOf t = some d → t.start ≤ d.stop → n.stop ≤ t.stop → kept = [] →
      Shortened text t kept ((encode text).take d.stop ++ (encode text).drop n.stop)

theorem applyAll_replace (a z : Nat) (new : List Char) (bytes : Bytes) :
    Splice.applyAll (Plan.one (.replace a z new)).edits bytes = bytes.take a ++ encode new ++ bytes.drop z :=
  Splice.apply_replace a z new bytes

theorem applyAll_cut (a z : Nat) (bytes : Bytes) :
    Splice.applyAll (Plan.one (.replace a z [])).edits bytes = bytes.take a ++ bytes.drop z := by
  rw [applyAll_replace, show encode [] = [] from rfl, append_nil]

theorem shortened_removeStatement {text : List Char} {t : Tree} (hd : defaultOf t = none) :
    Shortened text t [] (Splice.applyAll (removeStatement (encode text) t).edits (encode text)) := by
  unfold removeStatement
  rw [applyAll_cut]
  split
  · rename_i rest hrest
    rw [← drop_drop, hrest]
    exact .gone [13, 10] rest rfl hd (by simp) hrest
  · rename_i rest hrest
    rw [← drop_drop, hrest]
    exact .gone [10] rest rfl hd (by simp) hrest
  · exact .gone [] _ rfl hd (by simp) rfl

/-- What stands in the clause of an import lies in its statement. -/
theorem places_in_clause [SoundRecovery] {text : List Char} {t u : Tree} {m : String} {k : Kind}
    (ht : (t, m) ∈ statements (ofText text)) (hu : (childOfKind t .importClause).bind (childOfKind · k) = some u) :
    t.start ≤ u.start ∧ u.start ≤ u.stop ∧ u.stop ≤ t.stop := by
  obtain ⟨clause, hclause, hu⟩ := Option.bind_eq_some_iff.1 hu
  exact Tree.places_of_mem (coherent_below (mem_children_of_mem_statements ht))
    (nodes_trans (mem_nodes_of_child (mem_children_of_childOfKind hclause))
      (mem_nodes_of_child (mem_children_of_childOfKind hu)))

theorem shortened_listing [SoundRecovery] {text : List Char} {t n : Tree} {m : String} {kept : List Tree}
    (ht : (t, m) ∈ statements (ofText text)) (hn : bracesOf t = some n) (hkept : kept ≠ []) : Shortened text t kept
      (Splice.applyAll (Plan.one (.replace n.start n.stop (listing text kept))).edits (encode text)) := by
  obtain ⟨hstart, -, hstop⟩ := places_in_clause ht hn
  rw [applyAll_replace]
  exact .listed n hn hstart hstop hkept

theorem shortened_remove [SoundRecovery] {text : List Char} {op : RemoveImport} {t : Tree}
    (h : statementOf (ofText text) op.source = some t) (hne : op.names ≠ []) :
    Shortened text t ((specifiersOf t).filter (isKept (ofText text) op.names))
      (Splice.applyAll (remove (encode text) (ofText text) op).edits (encode text)) := by
  obtain ⟨p, hfind, rfl⟩ := Option.map_eq_some_iff.1 h
  have hmem : p ∈ statements (ofText text) := mem_of_find?_eq_some hfind
  rw [remove_eq h hne]
  generalize hkept : (specifiersOf p.1).filter (isKept (ofText text) op.names) = kept
  dsimp only
  by_cases hnothing : kept = [] ∧ defaultOf p.1 = none
  · rw [if_pos hnothing]
    obtain ⟨rfl, hd⟩ := hnothing
    exact shortened_removeStatement hd
  rw [if_neg hnothing]
  by_cases hall : kept.length = (specifiersOf p.1).length
  · rw [if_pos hall]
    refine .same ?_ fun hnil hd => hnothing ⟨hnil, hd⟩
    rw [← hkept] at hall ⊢
    exact filter_eq_self.2 (length_filter_eq_length_iff.1 hall)
  rw [if_neg hall]
  cases hn : bracesOf p.1 with
  | none =>
    have hnil : specifiersOf p.1 = [] := by rw [specifiersOf, hn]; rfl
    rw [← hkept, hnil] at hall
    exact absurd rfl hall
  | some n =>
    cases hd : defaultOf p.1 with
    | none => exact shortened_listing hmem hn fun hnil => hnothing ⟨hnil, hd⟩
    | some d =>
      dsimp only
      by_cases hempty : kept = []
      · obtain ⟨hstart, hle, -⟩ := places_in_clause hmem hd
        rw [if_pos hempty, applyAll_cut]
        exact .cut n d hn hd (by omega) (places_in_clause hmem hn).2.2 hempty
      · rw [if_neg hempty]
        exact shortened_listing hmem hn hempty

end Imports

namespace Transformation

open Imports Reading List

/-- **What is left of an import that names are removed from.**  The items that are kept bind the names that were not
listed, with their aliases and in their order.  The statement goes as a whole if none is kept and there is no default;
else it has just these items, and all else is as it was. -/
theorem removeImport_shortens [SoundRecovery] {source result : List Char} {op : RemoveImport} {t : Transformation}
    (hne : op.names ≠ []) (h : run source [.removeImport op] = .ok t) (hs : t.succeeded = true)
    (hresult : t.source? = some result) :
    (statementOf (ofText source) op.source = none → result = source) ∧
    ∀ st ∈ statementOf (ofText source) op.source, ∃ ahead behind kept,
      (ofText source).tree.namedChildren = ahead ++ st :: behind ∧
      (∀ u ∈ ahead, u.stop ≤ st.start) ∧ (∀ u ∈ behind, st.stop ≤ u.start) ∧
      kept.filterMap (bindingOf source)
        = (namedBindings source st).filter (fun b => !(Value.str b.1).isAmong op.names) ∧
      Shortened source st kept (encode result) := by
  obtain ⟨p, hplan, hbytes⟩ := plan_of_succeeded h hs rfl
  obtain rfl : remove (encode source) (ofText source) op = p := Except.ok.inj hplan
  rw [← encode_of_decode hresult] at hbytes
  refine ⟨fun hnone => ?_, fun st hst => ?_⟩
  · rw [remove, Option.map_eq_none_iff.1 hnone] at hbytes
    exact encode_inj.1 hbytes
  · obtain ⟨q, hfind, rfl⟩ := Option.map_eq_some_iff.1 hst
    exact ⟨_, _, _, (queued_ofText source).named.split_around (mem_statements (mem_of_find?_eq_some hfind)).1,
      fun u hu => of_decide_eq_true (mem_filter.1 hu).2, fun u hu => of_decide_eq_true (mem_filter.1 hu).2,
      filterMap_kept (ofText source) op.names (specifiersOf q.1), hbytes ▸ shortened_remove hst hne⟩

attribute [local instance] SoundRecovery.bare

def threeNames : List Char := "import d, \x7b a as b, c, /* c */ e \x7d from 'm';\nf();\n".toList

def twoNames : List Char := "import d, \x7b a as b, e \x7d from 'm';\nf();\n".toList

theorem removeImport_shortens_alias :
    (∃ t, run threeNames [.removeImport ⟨"m", [.str "c", .str "b"]⟩] = .ok t ∧ t.source? = some twoNames) ∧
    ∃ st ∈ statementOf (ofText threeNames) "m", ∃ kept,
      kept.filterMap (bindingOf threeNames) = [("a", some "b"), ("e", none)] ∧
      Shortened threeNames st kept (encode twoNames) := by
  obtain ⟨⟨t, hrun, hs, hresult⟩, hnamed⟩ :
      (∃ t, run threeNames [.removeImport ⟨"m", [.str "c", .str "b"]⟩] = .ok t ∧ t.succeeded = true ∧
        t.source? = some twoNames) ∧
      (statementOf (ofText threeNames) "m").map (namedBindings threeNames) =
        some [("a", some "b"), ("c", none), ("e", none)] := by
    rw [show threeNames = _ from String.toList_ofList, show twoNames = _ from String.toList_ofList]
    decide +kernel
  obtain ⟨st, hst, hbindings⟩ := Option.map_eq_some_iff.1 hnamed
  obtain ⟨-, -, kept, -, -, -, hkept, hshort⟩ := (removeImport_shortens (by simp) hrun hs hresult).2 st hst
  rw [hbindings] at hkept
  exact ⟨⟨t, hrun, hresult⟩, st, hst, kept, hkept, hshort⟩

def namespaceOnly : List Char := "import * as ns from 'm';\n".toList

def bracesByWord : List Char := "import d, \x7b x \x7dfrom 'm';\n".toList

/-- A namespace goes with its statement, and a default that is left runs into the word behind the braces. -/
theorem removeImport_loses_bindings :
    ((statementOf (ofText namespaceOnly) "m").bind (importRecord namespaceOnly) = some ⟨"m", [], none,
      some "ns", false⟩ ∧
      ∃ t, run namespaceOnly [.removeImport ⟨"m", [.str "x"]⟩] = .ok t ∧ t.succeeded = true ∧ t.source? = some []) ∧
    (statementOf (ofText bracesByWord) "m").bind (importRecord bracesByWord)
      = some ⟨"m", ["x"], some "d", none, false⟩ ∧
      ∃ t, run bracesByWord [.removeImport ⟨"m", [.str "x"]⟩] = .ok t ∧ t.succeeded = true ∧
        t.source? = some "import dfrom 'm';\n".toList ∧ parse .typescript "import dfrom 'm';\n".toList = none := by
  decide +kernel

end Transformation
end SourceBench
