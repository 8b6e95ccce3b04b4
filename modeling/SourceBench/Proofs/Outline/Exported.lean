import SourceBench.Proofs.Declaration.Links
import SourceBench.Proofs.Outline.Lookup
import SourceBench.Proofs.Syntax.ExportForms

/-!
# Exported declarations

A top-level declaration is marked as exported by its own statement or by one that gives its name away, before it or
after it.  Either way the exports have a record of it.  The arena is read by its roots alone (`Topped`): they stay what
they were added as, whatever becomes of members.
-/
namespace SourceBench

open List

namespace DeclarationTree

/-- Declarations have their places as ids, and the roots were added as the heads. -/
structure Topped (t : DeclarationTree) (heads : List DeclarationInfo) : Prop where
  ids : ∀ (i : Nat) (d : Declaration), t.nodes[i]? = some d → d.id = i
  heads : t.roots.map (fun i => t.nodes[i]?.map (·.toDeclarationInfo)) = heads.map some

namespace Topped

variable {t t' : DeclarationTree} {heads : List DeclarationInfo} {info : DeclarationInfo} (h : Topped t heads)
include h

theorem rootDecls_infos : t.rootDecls.map (·.toDeclarationInfo) = heads := by
  have hread : t.rootDecls.map (·.toDeclarationInfo)
      = (t.roots.map fun i => t.nodes[i]?.map (·.toDeclarationInfo)).filterMap id := by
    rw [rootDecls, pick, map_filterMap, filterMap_map]
    rfl
  rw [hread, h.heads, filterMap_map]
  exact filterMap_some

theorem exists_node {i : Nat} (hi : i ∈ t.roots) : ∃ d, t.nodes[i]? = some d := by
  have hmem := mem_map_of_mem (f := fun i => t.nodes[i]?.map (·.toDeclarationInfo)) hi
  rw [h.heads] at hmem
  obtain ⟨info, -, heq⟩ := mem_map.1 hmem
  obtain ⟨d, hd, -⟩ := Option.map_eq_some_iff.1 heq.symm
  exact ⟨d, hd⟩

/-- Declarations may change in their places, with a change of what the roots are said to be. -/
theorem change {f : Nat → Declaration → Declaration} {F : DeclarationInfo → DeclarationInfo}
    (hroots : t'.roots = t.roots) (hnodes : ∀ i, t'.nodes[i]? = t.nodes[i]?.map (f i)) (hid : ∀ i d, (f i d).id = d.id)
    (hinfo : ∀ i ∈ t.roots, ∀ d : Declaration, d.id = i → (f i d).toDeclarationInfo = F d.toDeclarationInfo) :
    Topped t' (heads.map F) := by
  constructor
  · intro i d hd
    rw [hnodes] at hd
    obtain ⟨e, he, rfl⟩ := Option.map_eq_some_iff.1 hd
    rw [hid, h.ids i e he]
  · have hmap : (heads.map F).map some = (heads.map some).map (Option.map F) := by simp
    rw [hmap, ← h.heads, map_map, hroots]
    refine map_congr_left fun i hi => ?_
    obtain ⟨d, hd⟩ := h.exists_node hi
    rw [hnodes, Function.comp_apply, hd]
    exact congrArg some (hinfo i hi d (h.ids i d hd))

theorem seated (info : DeclarationInfo) : Topped { t with nodes := t.seated info } heads := by
  constructor
  · intro i d hd
    rcases Nat.lt_or_ge i t.nodes.length with hi | hi
    · exact h.ids i d ((List.getElem?_append_left hi).symm.trans hd)
    · have hlast := (List.getElem?_eq_some_iff.1 hd).1
      simp only [length_seated] at hlast
      obtain rfl : i = t.nodes.length := by omega
      simp only [DeclarationTree.seated, List.getElem?_concat_length] at hd
      rw [← Option.some.inj hd]
  · rw [← h.heads]
    refine List.map_congr_left fun i hi => ?_
    obtain ⟨d, hd⟩ := h.exists_node hi
    rw [DeclarationTree.seated, List.getElem?_append_left (List.getElem?_eq_some_iff.1 hd).1]

theorem add_head (hinfo : info.parent = none) : Topped (t.add info).1 (heads ++ [info]) := by
  have hseated := h.seated info
  rw [add_of_parent_none t hinfo]
  refine ⟨hseated.ids, ?_⟩
  simp only [grow, hinfo, filter_cons, map_append, Option.isNone_none, if_true, filter_nil, map_cons,
    map_nil, ← hseated.heads]
  simp [DeclarationTree.seated]

theorem add_member {p : Int} (hinfo : info.parent = some p) : Topped (t.add info).1 heads := by
  have hseated := h.seated info
  have hadd := added t info
  generalize (t.add info).1 = t', (t.add info).2 = r at hadd ⊢
  cases hadd with
  | root hparent => rw [hparent] at hinfo; cases hinfo
  | refused => exact hseated
  | @member p place owner d =>
    rw [← map_id heads]
    refine hseated.change rfl (fun i => getElem?_modify _ place _ i) ?_ ?_
    · intro i d
      split <;> rfl
    · intro i _ d _
      split <;> rfl

omit h in
theorem add_members : ∀ {ms : List DeclarationInfo} {t : DeclarationTree}, Topped t heads →
    (∀ m ∈ ms, ∃ p, m.parent = some p) → Topped (ms.foldl (fun t i => (t.add i).1) t) heads
  | [], _, h, _ => h
  | m :: ms, t, h, hms => by
    rw [forall_mem_cons] at hms
    obtain ⟨p, hp⟩ := hms.1
    rw [foldl_cons]
    exact add_members (h.add_member hp) hms.2

end Topped
end DeclarationTree

namespace Reading

open Syntax DeclarationTree Outline

variable {source : List Char} {path : String} {root e d : Tree} {n : String}

theorem topped_groups : ∀ {gs : List Group} {t : DeclarationTree} {heads : List DeclarationInfo}, Topped t heads →
    Topped (gs.foldl (addGroup source) t) (heads ++ gs.map (Group.head source))
  | [], _, _, h => by simpa using h
  | g :: gs, t, heads, h => by
    have hgroup : Topped (addGroup source t g) (heads ++ [g.head source]) := by
      have hhead : Topped (t.add (g.head source)).1 _ := h.add_head rfl
      rw [addGroup]
      rw [add_of_parent_none t rfl] at hhead ⊢
      exact hhead.add_members fun m hm => ⟨_, parent_of_mem_membersIn hm⟩
    rw [foldl_cons, map_cons, ← singleton_append, ← append_assoc]
    exact topped_groups hgroup

theorem topped_markExported {t : DeclarationTree} {heads : List DeclarationInfo} (h : Topped t heads)
    (names : List String) :
    Topped (markExported t names) (heads.map fun i =>
      { i with isExported := i.isExported || names.contains i.name }) := by
  refine h.change rfl (fun i => getElem?_map) ?_ ?_
  · intro i d
    split <;> rfl
  · rintro i hi d rfl
    rw [contains_iff_mem.2 hi, Bool.true_and]
    cases names.contains d.name <;> simp

/-- **The top-level declarations of an outline are those of its statements**, with their marks. -/
theorem rootDecls_ofTree (source : List Char) (path : String) (root : Tree) :
    (Outline.ofTree source path root).tree.rootDecls.map (·.toDeclarationInfo)
      = (declared source root).map (Group.head source) := by
  have hempty : Topped .empty [] := ⟨fun i d hd => by simp [DeclarationTree.empty] at hd, rfl⟩
  have hgroups : Topped ((groups source root).foldl (addGroup source) .empty) _ := topped_groups hempty
  refine (topped_markExported hgroups (exportedNames source root)).rootDecls_infos.trans ?_
  rw [declared, nil_append, map_map, map_map]
  rfl

/-! ## Names given away -/

def exportStatements (root : Tree) : List Tree := root.namedChildren.filter (·.kind == .exportStatement)

/-- The export statement, which names no module, gives away the name: as its value or as the local name of a
specifier. -/
def GivesAway (source : List Char) (e : Tree) (n : String) : Prop :=
  sourceOf e = none ∧ ((∃ v, e.child? .value = some v ∧ v.kind = .identifier ∧ stringOf source v = n) ∨
    ∃ s ∈ exportSpecifiers e, ∃ l, s.child? .name = some l ∧ stringOf source l = n)

theorem mem_exportSpecifiers {s : Tree} : s ∈ exportSpecifiers e ↔
    ∃ c ∈ e.namedChildren, c.kind = .exportClause ∧ s ∈ c.namedChildren.filter (·.kind == .exportSpecifier) := by
  simp only [exportSpecifiers, mem_flatMap, mem_filter, beq_iff_eq, and_assoc]

theorem mem_namesOf : n ∈ localExportNames.namesOf source e ↔
    ∃ s ∈ exportSpecifiers e, ∃ l, s.child? .name = some l ∧ stringOf source l = n := by
  simp only [localExportNames.namesOf, mem_map, mem_filterMap]
  constructor
  · rintro ⟨l, ⟨s, hs, hl⟩, hn⟩
    exact ⟨s, hs, l, hl, hn⟩
  · rintro ⟨s, hs, l, hl, hn⟩
    exact ⟨l, ⟨s, hs, hl⟩, hn⟩

theorem mem_localExportNames (h : ExportForm e) : n ∈ localExportNames source e ↔ GivesAway source e n := by
  unfold localExportNames GivesAway
  cases hsource : sourceOf e with
  | some m => simp
  | none =>
    cases hv : e.child? .value with
    | none => simp [mem_namesOf]
    | some v =>
      by_cases hk : v.kind = .identifier
      · -- beside a value stands no clause
        have hno : exportSpecifiers e = [] := eq_nil_iff_forall_not_mem.2 fun s hs => by
          obtain ⟨c, hc, hclause, -⟩ := mem_exportSpecifiers.1 hs
          have := (h.clause c hc hclause).1
          rw [(h.value v hv).1] at this
          cases this
        simp [hk, hno, eq_comm]
      · simp [hk, mem_namesOf]

/-! ## Records -/

theorem mem_itemsOf {i : Item} (h : i ∈ itemsOf source true d) :
    if d.kind == .lexicalDeclaration || d.kind == .variableDeclaration then
      ∃ v ∈ d.namedChildren.filter (·.kind == .variableDeclarator), v.child? .name = some i.name
    else d.child? .name = some i.name := by
  have hvariable (h : i ∈ variableItems source d) :
      ∃ v ∈ d.namedChildren.filter (·.kind == .variableDeclarator), v.child? .name = some i.name := by
    obtain ⟨v, hv, hi⟩ := mem_filterMap.1 h
    obtain ⟨name, hname, rfl⟩ := Option.map_eq_some_iff.1 hi
    exact ⟨v, hv, hname⟩
  revert h
  fun_cases itemsOf source true d <;> intro h
  case case1 hk _ | case3 hk _ =>
    rw [hk]
    exact hvariable h
  case case2 h' | case4 h' => exact absurd rfl h'
  case case5 hlex hvar =>
    obtain ⟨name, hname, hitem⟩ := Option.bind_eq_some_iff.1 (Option.mem_toList.1 h)
    rw [if_neg (by simpa using ⟨hlex, hvar⟩), hname, namedItem?_name hitem]

/-- Each name in a declaration that a statement wraps has a record, unless a default wraps variables. -/
theorem recorded_of_declaration {i : Item} (hd : e.child? .declaration = some d) (hi : i ∈ itemsOf source true d)
    (hplain : e.hasToken "default" → d.kind ≠ .lexicalDeclaration ∧ d.kind ≠ .variableDeclaration) :
    ∃ r ∈ exportRecords source e, r.isReExport = false ∧ r.name = stringOf source i.name := by
  have hname := mem_itemsOf hi
  unfold exportRecords
  by_cases hdefault : e.hasToken "default"
  · rw [if_neg (by simpa using hplain hdefault)] at hname
    rw [if_pos hdefault]
    exact ⟨_, mem_singleton_self _, rfl, by simp only [defaultExportName, hd, hname]⟩
  · rw [if_neg hdefault, hd]
    dsimp only
    split at hname
    · rename_i hvar
      obtain ⟨v, hv, hname⟩ := hname
      rw [if_pos hvar]
      exact ⟨_, mem_map_of_mem (mem_filterMap.2 ⟨v, hv, hname⟩), rfl, rfl⟩
    · rename_i hvar
      rw [if_neg hvar, hname]
      exact ⟨_, mem_singleton_self _, rfl, rfl⟩

/-- The record is of the name: it has the name itself or another that a specifier gives it. -/
def RecordOf (source : List Char) (root : Tree) (n : String) (r : ExportRecord) : Prop :=
  r.isReExport = false ∧ (r.name = n ∨ ∃ e ∈ exportStatements root, sourceOf e = none ∧ ∃ s ∈ exportSpecifiers e, ∃ l a,
    s.child? .name = some l ∧ stringOf source l = n ∧ s.child? .newName = some a ∧ r.name = stringOf source a)

theorem recorded_of_givesAway (he : e ∈ exportStatements root) (hform : ExportForm e) (h : GivesAway source e n) :
    ∃ r ∈ exportRecords source e, RecordOf source root n r := by
  unfold exportRecords
  obtain ⟨hsource, ⟨v, hv, hk, rfl⟩ | ⟨s, hs, l, hl, rfl⟩⟩ := h
  · obtain ⟨hdefault, hno⟩ := hform.value v hv
    rw [if_pos hdefault]
    exact ⟨_, mem_singleton_self _, rfl, .inl (by simp [defaultExportName, hno, hv, hk])⟩
  · obtain ⟨c, hc, hclause, hs'⟩ := mem_exportSpecifiers.1 hs
    obtain ⟨hdefault, hno⟩ := hform.clause c hc hclause
    obtain ⟨a, ha, hname⟩ : ∃ a, ((s.child? .newName).orElse fun _ => s.child? .name) = some a ∧
        (a = l ∨ s.child? .newName = some a) := by
      cases hnew : s.child? .newName with
      | none => exact ⟨l, hl, .inl rfl⟩
      | some a => exact ⟨a, rfl, .inr rfl⟩
    rw [if_neg (by simp [hdefault]), hno]
    refine ⟨⟨stringOf source a, false, e.hasToken "type", false, none⟩, ?_, rfl, ?_⟩
    · -- where there is a record, no star is looked for
      have hkept {r : ExportRecord} {rs star : List ExportRecord} (hr : r ∈ rs) :
          r ∈ if rs.isEmpty && e.hasToken "*" then star else rs := by
        rwa [if_neg (by simp [ne_nil_of_mem hr])]
      unfold clauseRecords
      rw [hsource]
      refine hkept (mem_flatMap.2 ⟨c, hc, ?_⟩)
      rw [hclause]
      exact mem_map.2 ⟨a, mem_filterMap.2 ⟨s, hs', ha⟩, rfl⟩
    · rcases hname with rfl | hnew
      · exact .inl rfl
      · exact .inr ⟨e, he, hsource, s, hs, l, a, hl, rfl, hnew, rfl⟩

/-! ## Marks and records -/

theorem groupsIn_exported {previous : Option Tree} {t : Tree} {g : Group} (h : g ∈ groupsIn source previous t) :
    (g.frame.exported ↔ t.kind = .exportStatement) ∧
      (t.kind = .exportStatement → ∃ d, t.child? .declaration = some d ∧ g.item ∈ itemsOf source true d) := by
  obtain ⟨hframe, d, hd, hitem⟩ := mem_groupsIn h
  refine ⟨by rw [hframe]; exact beq_iff_eq, fun hk => ?_⟩
  rw [declaration?, if_pos hk] at hd
  rw [beq_iff_eq.2 hk] at hitem
  exact ⟨d, hd, hitem⟩

/-- The declaration is the one of the group, and it is marked and recorded as the statements of the tree say. -/
structure Agrees (source : List Char) (root : Tree) (exports : List ExportRecord) (d : Declaration)
    (g : Group) : Prop where
  head : d.toDeclarationInfo = { g.head source with isExported := d.isExported }
  statement : g.frame.outer ∈ root.namedChildren
  marked : d.isExported = true ↔
    g.frame.outer.kind = .exportStatement ∨ ∃ e ∈ exportStatements root, GivesAway source e d.name
  recorded : d.isExported = true → ∃ r ∈ exports, RecordOf source root d.name r

/-- **The marks of an outline and its exports agree**, in the order of statements that the tree has.  Statements have
their forms, as those of a source do, and no default wraps variables. -/
theorem exports_agree (source : List Char) (path : String) (root : Tree)
    (hform : (∀ e ∈ exportStatements root, ExportForm e) ∨ ∃ dialect text, parse dialect text = some root)
    (hplain : ∀ e ∈ exportStatements root, e.hasToken "default" = true → ∀ d, e.child? .declaration = some d →
      d.kind ≠ .lexicalDeclaration ∧ d.kind ≠ .variableDeclaration) :
    List.Forall₂ (Agrees source root (Outline.ofTree source path root).exports)
      (Outline.ofTree source path root).tree.rootDecls (groups source root) := by
  have hforms : ∀ e ∈ exportStatements root, ExportForm e := by
    rcases hform with hform | ⟨dialect, text, hparse⟩
    · exact hform
    · intro e he
      obtain ⟨he, hk⟩ := mem_filter.1 he
      exact parse_exportForm hparse (Layout.mem_nodes_of_child (mem_of_mem_filter he)) (beq_iff_eq.1 hk)
  have hnames (n : String) :
      (exportedNames source root).contains n = true ↔ ∃ e ∈ exportStatements root, GivesAway source e n := by
    rw [contains_iff_mem, exportedNames, mem_flatMap]
    exact exists_congr fun e => and_congr_right fun he => mem_localExportNames (hforms e he)
  have hroots := rootDecls_ofTree source path root
  rw [declared, map_map, ← forall₂_eq_eq_eq, forall₂_map_left_iff, forall₂_map_right_iff,
    forall₂_iff_zip] at hroots
  refine forall₂_iff_zip.2 ⟨hroots.1, fun {d g} hpair => ?_⟩
  have hhead : d.toDeclarationInfo = _ := hroots.2 hpair
  obtain ⟨⟨q, t⟩, ht, hg⟩ := mem_flatMap.1 (of_mem_zip hpair).2
  have ht := mem_withPrevious ht
  have houter := (groupsIn_from hg).1
  obtain ⟨hexported, hitem⟩ := groupsIn_exported hg
  have hname : d.name = stringOf source g.item.name := by rw [hhead]; rfl
  have hmarked : d.isExported = true ↔ t.kind = .exportStatement ∨ ∃ e ∈ exportStatements root,
      GivesAway source e d.name := by
    rw [← hnames, ← hexported, hname, ← Bool.or_eq_true, hhead]
    rfl
  refine ⟨?_, houter ▸ ht, houter ▸ hmarked, fun h => ?_⟩
  · rw [hhead]
    rfl
  · rcases hmarked.1 h with hk | ⟨e, he, hgives⟩
    · have ht' : t ∈ exportStatements root := mem_filter.2 ⟨ht, beq_iff_eq.2 hk⟩
      obtain ⟨u, hu, hi⟩ := hitem hk
      obtain ⟨r, hr, hre, hrname⟩ := recorded_of_declaration hu hi fun hdefault => hplain t ht' hdefault u hu
      exact ⟨r, mem_flatMap.2 ⟨t, ht', hr⟩, hre, .inl (hrname.trans hname.symm)⟩
    · obtain ⟨r, hr, hof⟩ := recorded_of_givesAway he (hforms e he) hgives
      exact ⟨r, mem_flatMap.2 ⟨e, he, hr⟩, hof⟩

/-- A source that gives a class away under another name after its declaration, and a function with it. -/
def aliased : List Char := "class A \x7b\x7d\nexport function f() \x7b\x7d\nexport \x7b A as B \x7d;".toList

set_option maxRecDepth 1000 in
theorem exports_agree_alias : ∃ root, parse .typescript aliased = some root ∧
    (exportStatements root).all (!·.hasToken "default") = true ∧
    ((ofTree aliased "a.ts" root).tree.rootDecls.map fun d => (d.name, d.isExported)) = [("A", true), ("f", true)] ∧
    List.Forall₂ (Agrees aliased root (ofTree aliased "a.ts" root).exports)
      (ofTree aliased "a.ts" root).tree.rootDecls (groups aliased root) := by
  have hread : ((parse .typescript aliased).map fun root => ((exportStatements root).all (!·.hasToken "default"),
      (ofTree aliased "a.ts" root).tree.rootDecls.map fun d => (d.name, d.isExported)))
      = some (true, [("A", true), ("f", true)]) := by
    rw [show aliased = _ from String.toList_ofList]
    decide +kernel
  obtain ⟨root, hroot, heq⟩ := Option.map_eq_some_iff.1 hread
  obtain ⟨hall, hdecls⟩ := Prod.mk.inj heq
  refine ⟨root, hroot, hall, hdecls, exports_agree aliased "a.ts" root (.inr ⟨_, _, hroot⟩) fun e he hdefault => ?_⟩
  have := all_eq_true.1 hall e he
  simp [hdefault] at this

end Reading
end SourceBench
