import SourceBench.Proofs.Edit.ImportSorted
import SourceBench.Proofs.Snippet.Imports

/-!
# Names that are imported more than once

An import that joins a statement brings the names that the statement does not have, each once (`newAmong_texts`); one
that joins none brings all its names as they are.  Either way the words that a change puts into a statement are those
names (`wordsIn_extension`), so where the syntax reads what was written, the record of the module has them behind its
own, no other record changes, and adding them again changes nothing (`Transformation.addImport_unites`).
-/
namespace SourceBench

open Syntax Utf8 View

namespace Imports

open Reading Snippet List

/-! ## Words of a text -/

/-- The words of a text: its longest runs of characters that a word may have. -/
def wordsIn (text : List Char) : List String :=
  ((text.splitOnP fun c => !isWordChar c).filter (!·.isEmpty)).map String.ofList

theorem wordsIn_append_cons (a b : List Char) {c : Char} (hc : isWordChar c = false) :
    wordsIn (a ++ c :: b) = wordsIn a ++ wordsIn b := by
  rw [wordsIn, splitOnP_append_cons a b (by rw [hc]; rfl), filter_append, map_append]
  rfl

theorem wordsIn_word {name : String} (h : isWord name.toList) : wordsIn name.toList = [name] := by
  obtain ⟨c, cs, hcs⟩ : ∃ c cs, name.toList = c :: cs := by
    cases hname : name.toList with
    | nil => rw [hname] at h; cases h
    | cons c cs => exact ⟨c, cs, rfl⟩
  rw [hcs, isWord, Bool.and_eq_true, isWordStart, Bool.and_eq_true, all_eq_true] at h
  have hchars : ∀ x ∈ name.toList, (!isWordChar x) = false := by
    intro x hx
    rw [hcs] at hx
    rcases mem_cons.1 hx with rfl | hx
    · rw [h.1.1]; rfl
    · rw [h.2 x hx]; rfl
  rw [wordsIn, splitOnP_eq_singleton hchars, filter_cons_of_pos (by rw [hcs]; rfl), filter_nil, map_singleton,
    String.ofList_toList]

theorem wordsIn_join : ∀ {names : List String}, (∀ n ∈ names, isWord n.toList) →
    wordsIn (Text.join ", ".toList (names.map (·.toList))) = names
  | [], _ => rfl
  | [n], h => wordsIn_word (h n mem_cons_self)
  | n :: m :: names, h => by
    have hjoin : Text.join ", ".toList ((n :: m :: names).map (·.toList))
        = n.toList ++ ',' :: ([] ++ ' ' :: Text.join ", ".toList ((m :: names).map (·.toList))) := by
      simp [Text.join]
    rw [hjoin, wordsIn_append_cons _ _ (by decide), wordsIn_append_cons _ _ (by decide),
      wordsIn_word (h n mem_cons_self), wordsIn_join fun x hx => h x (mem_cons_of_mem n hx)]
    rfl

theorem wordsIn_braced (cs : List Char) : wordsIn (braced cs) = wordsIn cs := by
  have hbraced : braced cs = [] ++ '\x7b' :: ([] ++ ' ' :: (cs ++ ' ' :: ([] ++ '\x7d' :: []))) := by simp [braced]
  rw [hbraced, wordsIn_append_cons _ _ (by decide), wordsIn_append_cons _ _ (by decide),
    wordsIn_append_cons _ _ (by decide)]
  exact append_nil _

theorem wordsIn_comma (cs : List Char) : wordsIn (", ".toList ++ cs) = wordsIn cs := by
  have hcomma : ", ".toList ++ cs = [] ++ ',' :: ([] ++ ' ' :: cs) := rfl
  rw [hcomma, wordsIn_append_cons _ _ (by decide), wordsIn_append_cons _ _ (by decide)]
  rfl

/-! ## Names that are new -/

def unseen (known names : List String) : List String := (names.filter (· ∉ known)).eraseDups

theorem isAmong_texts (n : String) (known : List String) :
    (Value.str n).isAmong (known.map .str) = decide (n ∈ known) := by
  rw [Value.isAmong, any_map, Bool.eq_iff_iff, any_eq_true, decide_eq_true_eq]
  exact ⟨fun ⟨m, hm, heq⟩ => beq_iff_eq.1 heq ▸ hm, fun hn => ⟨n, hn, beq_self_eq_true n⟩⟩

theorem newAmong_texts : ∀ (names known : List String),
    newAmong (known.map .str) (names.map .str) = (unseen known names).map .str
  | [], _ => rfl
  | n :: names, known => by
    rw [map_cons, newAmong, isAmong_texts]
    by_cases hn : n ∈ known
    · rw [if_pos (by simpa using hn), newAmong_texts names known, unseen, unseen,
        filter_cons_of_neg (by simpa using hn)]
    · have hfilter : (names.filter (· ∉ known)).filter (fun m => !m == n) = names.filter (· ∉ n :: known) := by
        rw [filter_filter]
        exact filter_congr fun m _ => by by_cases h : m = n <;> simp [h]
      have ih := newAmong_texts names (n :: known)
      rw [map_cons] at ih
      rw [if_neg (by simpa using hn), ih, unseen, unseen, filter_cons_of_pos (by simpa using hn),
        eraseDups_cons, hfilter, map_cons]

theorem mem_unseen {known names : List String} {n : String} : n ∈ unseen known names ↔ n ∈ names ∧ n ∉ known := by
  rw [unseen, mem_eraseDups, mem_filter, decide_eq_true_eq]

theorem commaList_texts (names : List String) :
    commaList (names.map .str) = .ok (Text.join ", ".toList (names.map (·.toList))) := by
  rw [commaList, mapM_textOnly_texts]

/-! ## What a change writes -/

section Extension

variable {σ : Standing} {ρ : ImportRecord} {op : AddImport} {names : List String}

theorem extension_cases (hrecord : σ.record = some ρ) (hnames : op.names = names.map .str) :
    (unseen ρ.names names = [] ∧ σ.extension op = .ok none) ∨
      (unseen ρ.names names ≠ [] ∧ ∀ x, σ.extension op = .ok x → ∃ a z new, x = some (a, z, new) ∧
        ρ.namespaceName = none ∧
        (σ.room ≠ .nowhere → wordsIn new = wordsIn (Text.join ", ".toList ((unseen ρ.names names).map (·.toList)))) ∧
        (σ.room = .nowhere → a = 0 ∧ z = σ.length ∧
          statementText op.source ((unseen ρ.names names).map .str) .null .null (.bool ρ.isTypeOnly) = .ok new)) := by
  unfold Standing.extension
  simp only [hrecord, hnames, newAmong_texts, isEmpty_map, List.isEmpty_iff, commaList_texts]
  by_cases hnone : unseen ρ.names names = []
  · exact .inl ⟨hnone, if_pos hnone⟩
  refine .inr ⟨hnone, fun x h => ?_⟩
  rw [if_neg hnone] at h
  by_cases hspace : ρ.namespaceName.isSome
  · rw [if_pos hspace] at h
    cases h
  rw [if_neg hspace] at h
  have hspace := Option.not_isSome_iff_eq_none.1 hspace
  cases hroom : σ.room with
  | behindNames p =>
    rw [hroom] at h
    cases h
    exact ⟨_, _, _, rfl, hspace, fun _ => wordsIn_comma _, nofun⟩
  | emptyBraces p q =>
    rw [hroom] at h
    cases h
    exact ⟨_, _, _, rfl, hspace, fun _ => wordsIn_braced _, nofun⟩
  | behindDefault p =>
    rw [hroom] at h
    cases h
    exact ⟨_, _, _, rfl, hspace, fun _ => (wordsIn_comma _).trans (wordsIn_braced _), nofun⟩
  | nowhere =>
    rw [hroom] at h
    obtain ⟨s, hs, rfl⟩ := exists_of_map_eq_ok h
    exact ⟨_, _, _, rfl, hspace, fun hne => absurd rfl hne, fun _ => ⟨rfl, rfl, hs⟩⟩

end Extension

theorem statementText_texts (source : String) (names : List String) {default namespace_ : Value} (typeOnly : Value)
    (hdefault : default.truthy = false) (hnamespace : namespace_.truthy = false) :
    statementText source (names.map .str) default namespace_ typeOnly
      = .ok (ImportStatement.render { source := source, names := names, isTypeOnly := typeOnly.truthy }) := by
  rw [statementText, ImportStatement.ofValues]
  simp only [namesIn_texts, bind, Except.bind, hdefault, hnamespace, writtenNames_texts]
  rfl

def recordAlone [Recovery] (text : List Char) : Option ImportRecord :=
  (Outline.ofSource .typescript "" text).imports.head?

theorem recordAlone_render [Recovery] {source : String} {names : List String} (hmodule : isQuotable source.toList)
    (hwords : ∀ n ∈ names, isWord n.toList) (hne : names ≠ []) (typeOnly : Bool) :
    recordAlone (ImportStatement.render { source := source, names := names, isTypeOnly := typeOnly })
      = some ⟨source, names, none, none, typeOnly⟩ := by
  obtain ⟨n, ns, rfl⟩ := exists_cons_of_ne_nil hne
  let s : ImportStatement := { source := source, names := n :: ns, isTypeOnly := typeOnly }
  obtain ⟨-, -, himports⟩ := outline_of_binds (binds_names hwords) hmodule .typescript "" typeOnly
    (render_some (s := s) rfl)
  rw [recordAlone, himports, String.ofList_toList]
  rfl

/-! ## What the syntax reads -/

def writtenBy : Except PlanError (Option Change) → List Char
  | .ok (some e) => e.text
  | _ => []

/-- The result reads as the statements of a text with an import of the module among them.  If it joined a statement that
has room for names, its record is that of the statement with the words that were written behind its names; else it is
read as the statement is by itself. -/
def Extends [Recovery] (text result : List Char) (op : AddImport) : Prop :=
  Receives text result op ∧
    ∀ mine ∈ (ofText result).tree.namedChildren[(ahead (encode text) (ofText text) op).length]?,
      importRecord result mine = match (joined (ofText text) op).filter (roomOf · != .nowhere) with
        | some t => (importRecord text t).map fun ρ =>
          { ρ with names := ρ.names ++ wordsIn (writtenBy ((tableOf (encode text) (ofText text)).ask op)) }
        | none => recordAlone (textOf result mine)

instance [Recovery] (text result : List Char) (op : AddImport) : Decidable (Extends text result op) :=
  inferInstanceAs (Decidable (_ ∧ ∀ mine ∈ _, _ = _))

def united (op : AddImport) (names : List String) : Option ImportRecord → ImportRecord
  | some ρ => { ρ with names := ρ.names ++ unseen ρ.names names }
  | none => ⟨op.source, names, none, none, op.isTypeOnly.truthy⟩

section Joined

variable {text result : List Char} {op : AddImport} {t mine : Tree} {ρ : ImportRecord}

theorem record_of_joined [Recovery] (h : joined (ofText text) op = some t) :
    ∃ ρ, importRecord text t = some ρ ∧ ρ.source = op.source := by
  have hmodule := moduleOf_of_joined h
  rw [moduleOf, if_pos (mem_of_joined h).2] at hmodule
  obtain ⟨m, hm, hsource⟩ := Option.map_eq_some_iff.1 hmodule
  exact ⟨_, by rw [importRecord_eq_map, sourceOf, hm]; rfl, hsource⟩

theorem record_of_nowhere (hrecord : importRecord text t = some ρ) (hroom : roomOf t = .nowhere) :
    ρ.names = [] ∧ ρ.defaultName = none := by
  rw [importRecord_eq_map] at hrecord
  obtain ⟨m, -, rfl⟩ := Option.map_eq_some_iff.1 hrecord
  have hnone : (importParts t).filter (·.kind == .namedImports) = [] ∧
      (importParts t).filter (·.kind == .identifier) = [] := by
    unfold roomOf at hroom
    simp only at hroom
    split at hroom
    · split at hroom <;> cases hroom
    · cases hroom
    · rename_i hnamed hdefault
      unfold importParts
      cases hclause : t.namedChildren.find? (·.kind == .importClause) with
      | none => exact ⟨rfl, rfl⟩
      | some c =>
        rw [childOfKind, hclause] at hnamed hdefault
        exact ⟨filter_eq_nil_iff.2 (find?_eq_none.1 hnamed), filter_eq_nil_iff.2 (find?_eq_none.1 hdefault)⟩
  rw [recordOf, hnone.1, hnone.2]
  exact ⟨rfl, rfl⟩

theorem moduleOf_ahead [SoundRecovery] {u : Tree} (hu : u ∈ ahead (encode text) (ofText text) op) :
    moduleOf text u ≠ some op.source := by
  intro hmodule
  have hparted := parted text op
  cases hjoined : joined (ofText text) op with
  | none =>
    exact moduleOf_of_find?_none (Option.map_eq_none_iff.1 hjoined) (mem_of_mem_filter hu) hmodule
  | some t =>
    -- The first statement of the module would be ahead of itself.
    rw [hjoined, append_assoc] at hparted
    obtain ⟨⟨t', m⟩, hfind, rfl⟩ := Option.map_eq_some_iff.1 hjoined
    rw [statements_eq, hparted, filterMap_append, find?_append, Option.or_eq_some_iff] at hfind
    rcases hfind with hfirst | ⟨hnone, -⟩
    · obtain ⟨w, hw, hpair⟩ := mem_filterMap.1 (mem_of_find?_eq_some hfirst)
      obtain ⟨n, -, hwt⟩ := Option.map_eq_some_iff.1 hpair
      cases hwt
      have hle := (mem_filter.1 hw).2
      rw [seat, hjoined, decide_eq_true_eq] at hle
      have := (queued_ofText text).named.2 t' (mem_of_joined hjoined).1
      dsimp only at hle
      omega
    · have hpair : (moduleOf (ofText text).text u).map (fun n => (u, n)) = some (u, op.source) :=
        congrArg (Option.map fun n => (u, n)) hmodule
      exact find?_eq_none.1 hnone (u, op.source) (mem_filterMap.2 ⟨u, hu, hpair⟩) (beq_self_eq_true _)

theorem textOf_filled {e : Change} (lead s trail : List Char) {seat : Nat × Nat} (hseated : e.Seated text seat)
    (hresult : encode result = e.on (encode text)) (hwritten : e.text = lead ++ s ++ trail)
    (hsite : e.site = e.start + byteSize lead) (hlength : e.length = byteSize s) (hstart : mine.start = e.site)
    (hstop : mine.stop = e.site + e.length) : textOf result mine = s := by
  obtain ⟨x, w, y, rfl, hx, hw⟩ := hseated.start_cut.split hseated.stop_cut hseated.ordered
  have hplace : result = (x ++ lead) ++ (s ++ (trail ++ y)) := by
    refine encode_inj.1 (hresult.trans ?_)
    have hon := Change.on_append (e := e) (a := encode x) (b := encode w) (c := encode y)
      (by rw [length_encode, hx]) (by rw [length_encode, length_encode, ← hw, byteSize_append])
    rw [append_assoc x, encode_append, encode_append, hon, hwritten]
    simp only [encode_append, append_assoc]
  show sliceBytes result mine.start mine.stop = s
  have hfirst : mine.start = byteSize (x ++ lead) := by rw [hstart, hsite, byteSize_append, hx]
  rw [sliceBytes, hstop, ← hstart, Nat.add_sub_cancel_left, hfirst, hplace, Layout.dropBytes_append, hlength,
    Layout.takeBytes_append]

/-- **What the syntax reads is the union**: the record of the statement that was joined with the names that it lacked,
or a record of all names. -/
theorem Extends.record [SoundRecovery] {names : List String} {e : Change} (h : Extends text result op)
    (hnames : op.names = names.map .str)
    (hwords : ∀ n ∈ names, isWord n.toList) (hne : names ≠ []) (hdefault : op.defaultName.truthy = false)
    (hnamespace : op.namespaceName.truthy = false) (hmodule : isQuotable op.source.toList)
    (hask : (tableOf (encode text) (ofText text)).ask op = .ok (some e)) (hresult : encode result = e.on (encode text))
    (hmine : (ofText result).tree.namedChildren[(ahead (encode text) (ofText text) op).length]? = some mine) :
    importRecord result mine = some (united op names ((joined (ofText text) op).bind (importRecord text))) := by
  have hseated := ask_seated hask
  have hplace := (h.1.2 mine hmine).2
  have hrecord := h.2 mine hmine
  rw [hask] at hplace hrecord
  obtain ⟨hstart, hstop⟩ := hplace
  rw [Table.ask, find?_standing] at hask
  cases hjoined : joined (ofText text) op with
  | none =>
    rw [Option.map_eq_none_iff.1 hjoined, Option.map_none, hnames,
      statementText_texts _ _ _ hdefault hnamespace] at hask
    cases hask
    rw [hjoined] at hrecord
    rw [hrecord, Option.filter_none, textOf_filled _ _ _ hseated hresult rfl rfl rfl hstart hstop,
      recordAlone_render hmodule hwords hne]
    rfl
  | some t =>
    obtain ⟨ρ, hρ, hsource⟩ := record_of_joined hjoined
    obtain ⟨⟨t', m⟩, hfind, rfl⟩ := Option.map_eq_some_iff.1 hjoined
    have hρ : importRecord text t' = some ρ := hρ
    rw [hfind, Option.map_some] at hask
    obtain ⟨x, hx, hxe⟩ := exists_of_map_eq_ok hask
    have hunseen : ∀ n ∈ unseen ρ.names names, isWord n.toList := fun n hn => hwords n (mem_unseen.1 hn).1
    rcases extension_cases (σ := standingOf (ofText text) t' m) hρ hnames with ⟨-, hquiet⟩ | ⟨hfresh, hcases⟩
    · obtain rfl : none = x := Except.ok.inj (hquiet.symm.trans hx)
      cases hxe
    obtain ⟨a, z, new, rfl, hspace, hnamed, hwhole⟩ := hcases x hx
    cases hxe
    rw [hjoined, Option.filter_some] at hrecord
    rw [hrecord, Option.bind_some, hρ]
    by_cases hroom : roomOf t' = .nowhere
    · obtain ⟨rfl, rfl, hs⟩ := hwhole hroom
      rw [statementText_texts _ _ _ rfl rfl, Except.ok.injEq] at hs
      obtain ⟨hnone, hnodefault⟩ := record_of_nowhere hρ hroom
      have hlength : 0 + byteSize new + ((standingOf (ofText text) t' m).length
          - (standingOf (ofText text) t' m).length) = byteSize new := by omega
      have hwritten := textOf_filled [] new [] hseated hresult (append_nil new).symm rfl hlength hstart hstop
      rw [if_neg (by simp [hroom]), hwritten, ← hs, recordAlone_render hmodule hunseen hfresh]
      obtain ⟨source, known, default, namespace_, typeOnly⟩ := ρ
      cases hsource
      cases hnone
      cases hnodefault
      cases hspace
      rfl
    · rw [if_pos (by simpa using hroom)]
      simp only [writtenBy, Standing.change, hnamed hroom, wordsIn_join hunseen, hρ]
      rfl

end Joined

/-! ## Records -/

def records (text : List Char) (ts : List Tree) : List ImportRecord :=
  (ts.filter (·.kind == .importStatement)).filterMap (importRecord text)

theorem imports_eq [Recovery] (path : String) (text : List Char) :
    (Outline.ofSource .typescript path text).imports = records text (ofText text).tree.namedChildren := rfl

theorem records_append (text : List Char) (ts us : List Tree) :
    records text (ts ++ us) = records text ts ++ records text us := by
  rw [records, filter_append, filterMap_append]
  rfl

theorem records_import {text : List Char} {t : Tree} (h : t.kind = .importStatement) (ts : List Tree) :
    records text (t :: ts) = (importRecord text t).toList ++ records text ts := by
  rw [records, filter_cons_of_pos (by rw [h]; rfl), filterMap_cons]
  cases importRecord text t <;> rfl

theorem records_echo {text result : List Char} {ts us : List Tree} (h : Forall₂ (Echo text result) ts us) :
    records text ts = records result us :=
  filterMap_eq_of_forall₂ (fun _ _ hab => Echo.importRecord_eq hab) (forall₂_ofKind h (· == .importStatement))

def firstRecord [Recovery] (text : List Char) (source : String) : Option ImportRecord :=
  ((statements (ofText text)).find? (·.2 == source)).bind fun p => importRecord text p.1

theorem firstRecord_eq [Recovery] (text : List Char) (op : AddImport) :
    firstRecord text op.source = (joined (ofText text) op).bind (importRecord text) := by
  rw [firstRecord, joined, Option.bind_map]
  rfl

theorem records_parted [SoundRecovery] (path : String) (text : List Char) (op : AddImport) :
    (Outline.ofSource .typescript path text).imports = records text (ahead (encode text) (ofText text) op)
      ++ (firstRecord text op.source).toList ++ records text (behind (encode text) (ofText text) op) := by
  rw [imports_eq, parted text op, records_append, records_append, firstRecord_eq]
  cases hjoined : joined (ofText text) op with
  | none => rfl
  | some t => rw [Option.toList_some, records_import (mem_of_joined hjoined).2]; simp [records]

end Imports

namespace Transformation

open Imports Reading

theorem addImport_again [SoundRecovery] {text : List Char} {op : AddImport} {names : List String} {ρ : ImportRecord}
    (hnames : op.names = names.map .str) (hrecord : firstRecord text op.source = some ρ)
    (hall : ∀ n ∈ names, n ∈ ρ.names) :
    ∃ u, run text [.addImport op] = .ok u ∧ u.succeeded ∧ u.source? = some text := by
  obtain ⟨⟨t, m⟩, hfind, ht⟩ := Option.bind_eq_some_iff.1 hrecord
  have hnone : unseen ρ.names names = [] := List.eq_nil_iff_forall_not_mem.2 fun n hn =>
    (mem_unseen.1 hn).2 (hall n (mem_unseen.1 hn).1)
  have hplan : (Operation.addImport op).plan (encode text) (ofText text) = .ok .none := by
    show add _ _ _ = _
    have ht : importRecord (ofText text).text t = some ρ := ht
    simp only [add, hfind, merge, ht, hnames, newAmong_texts, hnone]
    rfl
  obtain ⟨u, hrun, hs, hbytes⟩ := run_of_plan rfl hplan
  exact ⟨u, hrun, hs, by rw [source?, Document.text?, hbytes]; exact decode_encode text⟩

/-- **Added names are united with those of their module.**  If the syntax reads what the change writes, the record of
the module has the names that it had and behind them the given ones that it lacked, each once, and is else as it was; a
module that was not imported gets a record of all given names.  All other records are as they were, in their order, and
the same operation changes nothing any more. -/
theorem addImport_unites [SoundRecovery] {source result : List Char} {op : AddImport} {names : List String}
    {t : Transformation}
    (hnames : op.names = names.map .str) (hwords : ∀ n ∈ names, isWord n.toList = true) (hne : names ≠ [])
    (hdefault : op.defaultName.truthy = false) (hnamespace : op.namespaceName.truthy = false)
    (hmodule : isQuotable op.source.toList = true) (h : run source [.addImport op] = .ok t) (hs : t.succeeded = true)
    (hresult : t.source? = some result) (hread : ∀ text ∈ changed source op, Extends source text op) (path : String) :
    (∃ l r, (Outline.ofSource .typescript path source).imports = l ++ (firstRecord source op.source).toList ++ r ∧
      (Outline.ofSource .typescript path result).imports = l ++ united op names (firstRecord source op.source) :: r) ∧
    firstRecord result op.source = some (united op names (firstRecord source op.source)) ∧
    ∃ u, run result [.addImport op] = .ok u ∧ u.succeeded = true ∧ u.source? = some result := by
  suffices hunion : (∃ l r, (Outline.ofSource .typescript path source).imports = l
      ++ (firstRecord source op.source).toList ++ r ∧
      (Outline.ofSource .typescript path result).imports = l ++ united op names (firstRecord source op.source) :: r) ∧
      firstRecord result op.source = some (united op names (firstRecord source op.source)) by
    refine ⟨hunion.1, hunion.2, addImport_again hnames hunion.2 fun n hn => ?_⟩
    cases firstRecord source op.source with
    | none => exact hn
    | some ρ => exact List.mem_append.2 (or_iff_not_imp_left.2 fun hnot => mem_unseen.2 ⟨hn, hnot⟩)
  obtain ⟨x, hask, hbytes⟩ := ask_of_succeeded h hs
  rw [← Utf8.encode_of_decode hresult] at hbytes
  have hparted := records_parted path source op
  cases x with
  | none =>
    -- Nothing was asked for, so the module has a record with all names.
    obtain rfl : result = source := Utf8.encode_inj.1 hbytes
    cases hjoined : joined (View.ofText result) op with
    | none =>
      obtain ⟨statement, hfill⟩ := ask_of_new hjoined hask
      cases hfill
    | some t =>
      obtain ⟨ρ, hρ, -⟩ := record_of_joined hjoined
      have hfirst : firstRecord result op.source = some ρ := by rw [firstRecord_eq, hjoined, Option.bind_some, hρ]
      have hsame : united op names (some ρ) = ρ := by
        obtain ⟨⟨t', m⟩, hfind, rfl⟩ := Option.map_eq_some_iff.1 hjoined
        rw [Table.ask, find?_standing, hfind, Option.map_some] at hask
        obtain ⟨y, hy, hnone⟩ := exists_of_map_eq_ok hask
        obtain rfl := Option.map_eq_none_iff.1 hnone
        rcases extension_cases (σ := standingOf (View.ofText result) t' m) hρ hnames with ⟨hall, -⟩ | ⟨-, hcases⟩
        · rw [united, hall, List.append_nil]
        · obtain ⟨_, _, _, hx, -⟩ := hcases none hy
          cases hx
      rw [hfirst, hsame]
      rw [hfirst] at hparted
      exact ⟨⟨_, _, hparted, by rw [hparted, Option.toList_some, List.append_assoc, List.singleton_append]⟩, rfl⟩
  | some e =>
    have hon : Utf8.encode result = e.on (Utf8.encode source) := hbytes
    have hchanged : changed source op = some result := by
      rw [changed, hask]
      show Utf8.decode (e.on (Utf8.encode source)) = some result
      rw [← hon, Utf8.decode_encode]
    have hextends := hread result hchanged
    obtain ⟨l, mine, r, hstatements, hlength, hl, hr, hsource, -⟩ := hextends.1.exists_statement
    have hmine : (View.ofText result).tree.namedChildren[(ahead (Utf8.encode source) (View.ofText source) op).length]?
        = some mine := by
      rw [hstatements, ← hlength, List.getElem?_append_right (Nat.le_refl _), Nat.sub_self]
      rfl
    have hrecord := hextends.record hnames hwords hne hdefault hnamespace hmodule hask hon hmine
    rw [← firstRecord_eq] at hrecord
    have hkind : mine.kind = .importStatement := by
      by_contra hkind
      rw [moduleOf, if_neg hkind] at hsource
      cases hsource
    have hleft : ∀ u ∈ l, moduleOf result u ≠ some op.source :=
      (forall_mem_iff_of_forall₂ (p := fun t => moduleOf source t ≠ some op.source)
        (fun _ _ hab => by rw [moduleOf_echo hab]) hl).1 fun _ hu => moduleOf_ahead hu
    refine ⟨⟨_, _, hparted, ?_⟩, ?_⟩
    · rw [imports_eq, hstatements, records_append, records_import hkind, hrecord, records_echo hl, records_echo hr]
      rfl
    · rw [firstRecord, find?_statements hstatements hleft hsource]
      exact hrecord

attribute [local instance] SoundRecovery.bare

def typeImport : List Char := "import type \x7b a, /* b */ \x7d from 'm';\n".toList

def widerTypeImport : List Char := "import type \x7b a, b, /* b */ \x7d from 'm';\n".toList

def repeatedNames (names : List String) : AddImport := ⟨"m", names.map .str, .null, .null, .bool false⟩

theorem addImport_unites_repeated : (∀ text ∈ changed typeImport (repeatedNames ["b", "a", "b"]),
      Extends typeImport text (repeatedNames ["b", "a", "b"])) ∧
    (∃ t, run typeImport [.addImport (repeatedNames ["b", "a", "b"])] = .ok t ∧ t.source? = some widerTypeImport) ∧
    (Outline.ofSource .typescript "a.ts" widerTypeImport).imports = [⟨"m", ["a", "b"], none, none, true⟩] ∧
    ∃ u, run widerTypeImport [.addImport (repeatedNames ["b", "a", "b"])] = .ok u ∧
      u.source? = some widerTypeImport := by
  obtain ⟨⟨t, hrun, hs, hresult⟩, hread, hfirst, hone⟩ :
      (∃ t, run typeImport [.addImport (repeatedNames ["b", "a", "b"])] = .ok t ∧ t.succeeded = true ∧
        t.source? = some widerTypeImport) ∧
      (∀ text ∈ changed typeImport (repeatedNames ["b", "a", "b"]),
        Extends typeImport text (repeatedNames ["b", "a", "b"])) ∧
      firstRecord typeImport (repeatedNames ["b", "a", "b"]).source = some ⟨"m", ["a"], none, none, true⟩ ∧
      (Outline.ofSource .typescript "a.ts" typeImport).imports = [⟨"m", ["a"], none, none, true⟩] := by
    rw [show typeImport = _ from String.toList_ofList, show widerTypeImport = _ from String.toList_ofList]
    decide +kernel
  obtain ⟨⟨l, r, hbefore, hafter⟩, -, u, hu, -, hagain⟩ := addImport_unites
    (show (repeatedNames ["b", "a", "b"]).names = ["b", "a", "b"].map .str from rfl) (by decide) (by simp) rfl rfl
      (by decide) hrun
    hs hresult hread "a.ts"
  rw [hfirst] at hbefore hafter
  rw [hone, eq_comm, List.append_assoc, List.append_eq_singleton_iff] at hbefore
  rcases hbefore with ⟨rfl, hr⟩ | ⟨-, hr⟩
  · obtain rfl : r = [] := (List.cons.inj hr).2
    exact ⟨hread, ⟨t, hrun, hresult⟩, hafter, u, hu, hagain⟩
  · cases hr

theorem addImport_repeats : ∃ t text, run [] [.addImport (repeatedNames ["x", "x"])] = .ok t ∧ t.succeeded = true ∧
    t.source? = some text ∧ text = "import \x7b x, x \x7d from 'm';\n".toList ∧
    (Outline.ofSource .typescript "a.ts" text).imports = [⟨"m", ["x", "x"], none, none, false⟩] := by
  obtain ⟨⟨t, hrun, hs, hresult⟩, himports⟩ :
      (∃ t, run [] [.addImport (repeatedNames ["x", "x"])] = .ok t ∧ t.succeeded = true ∧
        t.source? = some "import \x7b x, x \x7d from 'm';\n".toList) ∧
      (Outline.ofSource .typescript "a.ts" "import \x7b x, x \x7d from 'm';\n".toList).imports
        = [⟨"m", ["x", "x"], none, none, false⟩] := by decide +kernel
  exact ⟨t, _, hrun, hs, hresult, rfl, himports⟩

end Transformation
end SourceBench
