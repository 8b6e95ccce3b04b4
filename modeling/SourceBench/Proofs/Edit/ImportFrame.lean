import SourceBench.Proofs.Edit.ImportSeat
import SourceBench.Proofs.Outline.Echo

/-!
# Declarations beside an added import

Where the result of adding an import reads as the statements of the source with the import among them, it exports the
same names and has the same declarations, but for one thing: a new import that comes to stand between a doc comment and
a declaration takes the comment from it.  This can only be where the source has no imports (`addImport_frame`).
-/
namespace SourceBench

open Syntax View Outline

variable {t : Tree} {ts : List Tree} {place : Option Nat} {α : Type} {op : AddImport}

/-! ## Statements around an import -/

def Declaration.without (place : Option Nat) (d : Declaration) : Declaration :=
  if d.parent = none ∧ some d.startByte = place then { d with doc := none } else d

namespace Reading

open List

variable {source : List Char}

def Group.without (place : Option Nat) (g : Group) : Group :=
  if some g.frame.outer.start = place then { g with frame.doc := none } else g

theorem layOut_without (place : Option Nat) (gs : List Group) (n : Nat) :
    layOut source n (gs.map (Group.without place)) = (layOut source n gs).map (Declaration.without place) := by
  refine layOut_map (F := Group.without place) (f := Declaration.without place) (fun g n ids => ?_) (fun g n => ?_)
    (fun d hd => if_neg fun h => ?_) gs n
  · rw [Group.without, Declaration.without]
    by_cases h : some g.frame.outer.start = place
    · rw [if_pos h, if_pos ⟨rfl, h⟩]
      rfl
    · rw [if_neg h, if_neg fun h' => h h'.2]
  · rw [Group.without]
    split <;> rfl
  · rw [h.1] at hd
    cases hd

theorem map_marked_without (names : List String) (place : Option Nat) (gs : List Group) :
    (gs.map (Group.marked source names)).map (Group.without place)
      = (gs.map (Group.without place)).map (Group.marked source names) := by
  rw [map_map, map_map]
  refine map_congr_left fun g _ => ?_
  show (g.marked source names).without place = (g.without place).marked source names
  by_cases h : some g.frame.outer.start = place
  · have hg : (g.marked source names).without place = { g.marked source names with frame.doc := none } := if_pos h
    rw [hg, Group.without, if_pos h]
    rfl
  · have hg : (g.marked source names).without place = g.marked source names := if_neg h
    rw [hg, Group.without, if_neg h]

theorem groupsIn_congr {q q' : Option Tree} (h : docBefore source q = docBefore source q') (t : Tree) :
    groupsIn source q t = groupsIn source q' t := by
  rw [groupsIn, groupsIn, h]

theorem groupsAfter_congr {q q' : Option Tree} (h : docBefore source q = docBefore source q') (ts : List Tree) :
    groupsAfter source q ts = groupsAfter source q' ts := by
  cases ts with
  | nil => rfl
  | cons t ts => exact congrArg (· ++ groupsAfter source (some t) ts) (groupsIn_congr h t)

theorem groupsIn_without (previous : Option Tree) (t : Tree) :
    (groupsIn source previous t).map (Group.without (some t.start)) = groupsIn source none t := by
  rw [groupsIn_eq, groupsIn_eq, map_map]
  exact map_congr_left fun d _ => if_pos rfl

variable {previous : Option Tree}

theorem mem_groupsAfter {g : Group} (h : g ∈ groupsAfter source previous ts) : g.frame.outer ∈ ts := by
  obtain ⟨⟨q, t⟩, ht, hg⟩ := mem_flatMap.1 h
  rw [(groupsIn_from hg).1]
  exact mem_withPrevious ht

theorem groupsAfter_without (h : ∀ t ∈ ts, some t.start ≠ place) :
    (groupsAfter source previous ts).map (Group.without place) = groupsAfter source previous ts :=
  (map_congr_left fun _ hg => if_neg (h _ (mem_groupsAfter hg))).trans (map_id _)

theorem groupsIn_import (h : t.kind = .importStatement) : groupsIn source previous t = [] := by
  rw [groupsIn, h]

theorem groupsAfter_append (previous : Option Tree) : ∀ (ts us : List Tree), groupsAfter source previous (ts ++ us)
      = groupsAfter source previous ts ++ groupsAfter source (ts.getLast?.or previous) us
  | [], us => by simp [groupsAfter, withPrevious]
  | t :: ts, us => by
    have ih := groupsAfter_append (some t) ts us
    simp only [groupsAfter, withPrevious, cons_append, flatMap_cons, append_assoc] at ih ⊢
    rw [ih]
    congr 3
    cases ts with
    | nil => rfl
    | cons u us => simp [getLast?_cons]

theorem docBefore_import (h : t.kind = .importStatement) : docBefore source (some t) = none := by
  rw [docBefore, h]
  rfl

/-- Where a new import comes to stand before statements, those that the first declares lose their doc comment. -/
def lostAt (own : Option Tree) (r : List Tree) : Option Nat :=
  match own with
  | some _ => none
  | none => r.head?.map (·.start)

theorem ne_start_of_queued {l r : List Tree} (h : Imports.Queued (l ++ t :: r)) :
    (∀ u ∈ l, some u.start ≠ some t.start) ∧ ∀ u ∈ r, some u.start ≠ some t.start := by
  have ht := h.2 t (by simp)
  obtain ⟨-, hr, hl⟩ := pairwise_append.1 h.1
  refine ⟨fun u hu heq => ?_, fun u hu heq => ?_⟩
  · have := hl u hu t mem_cons_self
    have := h.2 u (mem_append_left _ hu)
    have := Option.some.inj heq
    omega
  · have := (pairwise_cons.1 hr).1 u hu
    have := Option.some.inj heq
    omega

theorem groups_parted {l r : List Tree} (hqueued : Imports.Queued (l ++ r)) :
    (groupsAfter source none (l ++ r)).map (Group.without (lostAt none r))
      = groupsAfter source none l ++ groupsAfter source none r := by
  rw [groupsAfter_append, Option.or_none, map_append]
  cases r with
  | nil => rw [groupsAfter_without (fun _ _ h => by cases h)]; rfl
  | cons t r =>
    obtain ⟨hl, hr⟩ := ne_start_of_queued hqueued
    have hfirst : ∀ q, groupsAfter source q (t :: r) = groupsIn source q t ++ groupsAfter source (some t) r :=
      fun _ => rfl
    have hlost : lostAt none (t :: r) = some t.start := rfl
    rw [hfirst, hfirst, map_append, hlost, groupsAfter_without hl, groupsAfter_without hr, groupsIn_without]

/-- **Without the doc comments that an import takes, statements read as if nothing stood before those behind it.** -/
theorem groups_without {l r : List Tree} {own : Option Tree} (hown : ∀ t ∈ own, t.kind = .importStatement)
    (hqueued : Imports.Queued (l ++ own.toList ++ r)) :
    (groupsAfter source none (l ++ own.toList ++ r)).map (Group.without (lostAt own r))
      = groupsAfter source none l ++ groupsAfter source none r := by
  cases own with
  | some t =>
    have hkind := hown t rfl
    have hbehind : groupsAfter source (some t) r = groupsAfter source none r :=
      groupsAfter_congr (docBefore_import hkind) r
    have hown : groupsAfter source l.getLast? (t :: r) = groupsAfter source (some t) r := by
      show groupsIn source _ t ++ _ = _
      rw [groupsIn_import hkind]
      rfl
    rw [groupsAfter_without (fun _ _ h => by cases h), Option.toList_some, append_assoc, singleton_append,
      groupsAfter_append, Option.or_none, hown, hbehind]
  | none =>
    rw [Option.toList_none, append_nil] at hqueued ⊢
    exact groups_parted hqueued

theorem groups_kept {l r : List Tree} {own : Option Tree} (hqueued : Imports.Queued (l ++ own.toList ++ r))
    (h : own.isSome ∨ (∃ t ∈ r.head?, t.kind = .importStatement) ∨ ∃ t ∈ l.getLast?, t.kind = .importStatement) :
    (groupsAfter source none (l ++ own.toList ++ r)).map (Group.without (lostAt own r))
      = groupsAfter source none (l ++ own.toList ++ r) := by
  cases own with
  | some t => exact groupsAfter_without fun _ _ h => by cases h
  | none =>
    rw [Option.toList_none, append_nil] at hqueued ⊢
    rw [groups_parted hqueued, groupsAfter_append, Option.or_none]
    congr 1
    rcases h with h | ⟨t, ht, hkind⟩ | ⟨t, ht, hkind⟩
    · cases h
    · cases r with
      | nil => cases ht
      | cons u r =>
        cases ht
        show groupsIn source none t ++ _ = groupsIn source _ t ++ _
        rw [groupsIn_import hkind, groupsIn_import hkind]
    · rw [Option.mem_def.1 ht]
      exact (groupsAfter_congr (docBefore_import hkind) r).symm

end Reading

/-! ## The outline of the result -/

namespace Imports

open Reading List

variable {text result : List Char}

theorem beside [SoundRecovery] (op : AddImport) (h : statements (ofText text) ≠ []) : (joined (ofText text) op).isSome ∨
      (∃ t ∈ (behind (Utf8.encode text) (ofText text) op).head?, t.kind = .importStatement) ∨
      ∃ t ∈ (ahead (Utf8.encode text) (ofText text) op).getLast?, t.kind = .importStatement := by
  have hqueued := (queued_ofText text).named
  have hparted := parted text op
  unfold ahead behind seat at hparted ⊢
  cases hjoined : joined (ofText text) op with
  | some t => exact .inl rfl
  | none =>
    rw [hjoined, Option.toList_none, append_nil] at hparted
    refine .inr ?_
    dsimp only at hparted ⊢
    generalize hgap : (tableOf (Utf8.encode text) (ofText text)).gap op.source = gap at hparted
    have hstands := gap_stands text op.source
    rw [hgap] at hstands
    cases hstands with
    | before ht =>
      obtain ⟨hmem, hkind⟩ := mem_statements ht
      have hbehind := append_cancel_left (hparted.symm.trans (hqueued.split_around hmem))
      exact .inl ⟨_, by rw [hbehind]; rfl, hkind⟩
    | behind ht =>
      obtain ⟨hmem, hkind⟩ := mem_statements (mem_of_getLast? ht)
      have hsplit := hqueued.split_around hmem
      rw [append_cons] at hsplit
      have hahead := append_cancel_right (hparted.symm.trans hsplit)
      exact .inr ⟨_, by rw [hahead, getLast?_concat]; rfl, hkind⟩
    | top hnil => exact absurd hnil h

/-- The result reads as the statements of a text with an import among them. -/
def Framed [Recovery] (text result : List Char) (op : AddImport) : Prop :=
  let before := ahead (Utf8.encode text) (ofText text) op
  let after := behind (Utf8.encode text) (ofText text) op
  let statements := (ofText result).tree.namedChildren
  mirrorAll (SameWords text result) before (statements.take before.length) ∧
    statements[before.length]?.map (·.kind) = some .importStatement ∧
    mirrorAll (SameWords text result) after (statements.drop (before.length + 1))

instance [Recovery] (text result : List Char) (op : AddImport) : Decidable (Framed text result op) :=
  inferInstanceAs (Decidable (_ ∧ _ ∧ _))

theorem eq_take_cons_drop {l : List α} {n : Nat} {x : α} (h : l[n]? = some x) :
    l = l.take n ++ x :: l.drop (n + 1) := by
  obtain ⟨hlt, rfl⟩ := List.getElem?_eq_some_iff.1 h
  rw [getElem_cons_drop, take_append_drop]

theorem Framed.exists_statements [Recovery] (h : Framed text result op) :
    ∃ l mine r, (ofText result).tree.namedChildren = l ++ mine :: r ∧ mine.kind = .importStatement ∧
      Forall₂ (Echo text result) (ahead (Utf8.encode text) (ofText text) op) l ∧
      Forall₂ (Echo text result) (behind (Utf8.encode text) (ofText text) op) r := by
  obtain ⟨hl, hmine, hr⟩ := h
  obtain ⟨mine, hget, hkind⟩ := Option.map_eq_some_iff.1 hmine
  exact ⟨_, mine, _, eq_take_cons_drop hget, hkind, mirrorAll_iff.1 hl, mirrorAll_iff.1 hr⟩

section Around

variable {text result : List Char} {l r l' r' : List Tree} {own : Option Tree} {mine : Tree}
  (hown : ∀ t ∈ own, t.kind = .importStatement) (hmine : mine.kind = .importStatement)
  (hl : Forall₂ (Echo text result) l l') (hr : Forall₂ (Echo text result) r r')

include hown hmine hl hr

theorem flatMap_exports {f f' : Tree → List α} (hf : ∀ t u, Echo text result t u → f t = f' u) :
    ((l ++ own.toList ++ r).filter (·.kind == .exportStatement)).flatMap f
      = ((l' ++ mine :: r').filter (·.kind == .exportStatement)).flatMap f' := by
  have hnone : own.toList.filter (·.kind == .exportStatement) = [] := filter_eq_nil_iff.2 fun t ht => by
    rw [hown t (Option.mem_toList.1 ht)]
    decide
  have hskip : (mine :: r').filter (·.kind == .exportStatement) = r'.filter (·.kind == .exportStatement) :=
    filter_cons_of_neg (by rw [hmine]; decide)
  simp only [filter_append, flatMap_append, hnone, hskip, append_nil, flatMap_ofKind hl hf (· == .exportStatement),
    flatMap_ofKind hr hf (· == .exportStatement)]

theorem groups_around (hqueued : Queued (l ++ own.toList ++ r)) :
    Forall₂ (fun (g g' : Group) => g.Echoes text result g' ∧ g.frame.doc = g'.frame.doc)
      ((groupsAfter text none (l ++ own.toList ++ r)).map (Group.without (lostAt own r)))
      (groupsAfter result none (l' ++ mine :: r')) := by
  have hbehind : groupsAfter result l'.getLast? (mine :: r') = groupsAfter result none r' := by
    show groupsIn result _ mine ++ groupsAfter result (some mine) r' = _
    rw [groupsIn_import hmine, nil_append]
    exact groupsAfter_congr (docBefore_import hmine) r'
  rw [groups_without hown hqueued, groupsAfter_append, Option.or_none, hbehind]
  exact rel_append (groupsAfter_echo hl rfl) (groupsAfter_echo hr rfl)

end Around

def lost [Recovery] (text : List Char) (op : AddImport) : Option Nat :=
  lostAt (joined (ofText text) op) (behind (Utf8.encode text) (ofText text) op)

theorem roots_of_bare {ds ds' : List Declaration} (h : (ds.map (·.without place)).map (·.bare) = ds'.map (·.bare)) :
    (DeclarationTree.empty.grow ds).roots = (DeclarationTree.empty.grow ds').roots := by
  have hkept : ∀ {f : Declaration → Declaration}, (∀ d, (f d).parent = d.parent ∧ (f d).id = d.id) →
      ∀ ds : List Declaration, ((ds.map f).filter (·.parent.isNone)).map (·.id)
        = (ds.filter (·.parent.isNone)).map (·.id) := by
    intro f hf ds
    simp only [filter_map, map_map, Function.comp_def, hf]
  have hwithout : ∀ d : Declaration, (d.without place).parent = d.parent ∧ (d.without place).id = d.id := fun d => by
    rw [Declaration.without]
    split <;> exact ⟨rfl, rfl⟩
  have hbare : ∀ d : Declaration, d.bare.parent = d.parent ∧ d.bare.id = d.id := fun _ => ⟨rfl, rfl⟩
  show (ds.filter (·.parent.isNone)).map (·.id) = (ds'.filter (·.parent.isNone)).map (·.id)
  rw [← hkept hwithout, ← hkept hbare, h, hkept hbare]

theorem ofSource_tree [SoundRecovery] (path : String) (source : List Char) : (ofSource .typescript path source).tree
    = DeclarationTree.empty.grow (layOut source 0 (declared source (ofText source).tree)) :=
  ofTree_tree (groups_sound (ofText_coherent source)) path

/-- **The outline of a framed result** is that of the text, but for the doc comments that the import takes. -/
theorem Framed.outline [SoundRecovery] (h : Framed text result op) (path : String) :
    (ofSource .typescript path text).exports = (ofSource .typescript path result).exports ∧
      (ofSource .typescript path text).tree.roots = (ofSource .typescript path result).tree.roots ∧
      ((ofSource .typescript path text).tree.nodes.map (·.without (lost text op))).map (·.bare)
        = (ofSource .typescript path result).tree.nodes.map (·.bare) := by
  obtain ⟨l, mine, r, hstatements, hmine, hl, hr⟩ := h.exists_statements
  have hown : ∀ t ∈ joined (ofText text) op, t.kind = .importStatement := fun t ht => (mem_of_joined ht).2
  have hparted := parted text op
  have hqueued := (queued_ofText text).named
  rw [hparted] at hqueued
  have hnames : exportedNames text (ofText text).tree = exportedNames result (ofText result).tree := by
    unfold exportedNames
    rw [hparted, hstatements]
    exact flatMap_exports hown hmine hl hr fun _ _ => Echo.localExportNames_eq
  have hnodes : ((layOut text 0 (declared text (ofText text).tree)).map (·.without (lost text op))).map (·.bare)
      = (layOut result 0 (declared result (ofText result).tree)).map (·.bare) := by
    rw [← layOut_without, declared, declared, groups, groups, hparted, hstatements, ← hnames,
      map_marked_without]
    refine layOut_bare (rel_map (fun g g' hg => ?_) (groups_around hown hmine hl hr hqueued)) 0
    exact ⟨hg.1.marked _, hg.2⟩
  refine ⟨?_, ?_, ?_⟩
  · show ((ofText text).tree.namedChildren.filter _).flatMap _ = ((ofText result).tree.namedChildren.filter _).flatMap _
    rw [hparted, hstatements]
    exact flatMap_exports hown hmine hl hr fun _ _ => Echo.exportRecords_eq
  · rw [ofSource_tree, ofSource_tree]
    exact roots_of_bare hnodes
  · rw [ofSource_tree, ofSource_tree]
    exact hnodes

theorem nodes_without [SoundRecovery] (op : AddImport) (h : statements (ofText text) ≠ []) (path : String) :
    (ofSource .typescript path text).tree.nodes.map (·.without (lost text op))
      = (ofSource .typescript path text).tree.nodes := by
  have hqueued := (queued_ofText text).named
  rw [parted text op] at hqueued
  have hkept := @groups_kept text _ _ _ hqueued (beside op h)
  rw [← parted text op] at hkept
  rw [ofSource_tree]
  show (layOut text 0 _).map _ = layOut text 0 _
  rw [← layOut_without, declared, map_marked_without, groups, lost, hkept]

end Imports

namespace Declaration

theorem bare_without (place : Option Nat) (d : Declaration) :
    (d.without place).bare = d.bare ↔ (d.parent = none → some d.startByte = place → d.doc = none) := by
  rw [without]
  split
  · rename_i h
    have hdoc : ({ d with doc := none } : Declaration).bare = d.bare ↔ d.doc = none :=
      ⟨fun heq => (congrArg (·.doc) heq).symm, fun hnone => by rw [← hnone]⟩
    rw [hdoc]
    exact ⟨fun hnone _ _ => hnone, fun himp => himp h.1 h.2⟩
  · rename_i h
    exact ⟨fun _ hparent hplace => absurd ⟨hparent, hplace⟩ h, fun _ => rfl⟩

end Declaration

namespace Transformation

open Imports

/-- **Adding an import**: it writes between the statements before it and those behind it.  If the result reads as these
statements with an import between them, exports and declarations are as they were, but that no declaration right behind
a new import keeps a doc comment.  None is lost in a source that imports already. -/
theorem addImport_frame [SoundRecovery] {source : List Char} {op : AddImport} {t : Transformation}
    (h : run source [.addImport op] = .ok t) (hs : t.succeeded = true) :
    ∃ result, t.source? = some result ∧
      (∃ a z new, (∀ u ∈ ahead (Utf8.encode source) (View.ofText source) op, u.stop ≤ a) ∧ a ≤ z ∧
        (∀ u ∈ behind (Utf8.encode source) (View.ofText source) op, z ≤ u.start) ∧
        Utf8.encode result = (Utf8.encode source).take a ++ Utf8.encode new ++ (Utf8.encode source).drop z) ∧
      (Framed source result op → ∀ path,
        let o := Outline.ofSource .typescript path source
        let o' := Outline.ofSource .typescript path result
        o'.exports = o.exports ∧ o'.tree.roots = o.tree.roots ∧
          o'.tree.nodes.map (·.bare) = (o.tree.nodes.map (·.without (lost source op))).map (·.bare) ∧
          (o'.tree.nodes.map (·.bare) = o.tree.nodes.map (·.bare) ↔
            ∀ d ∈ o.tree.nodes, d.parent = none → some d.startByte = lost source op → d.doc = none) ∧
          (statements (View.ofText source) ≠ [] → o'.tree.nodes.map (·.bare) = o.tree.nodes.map (·.bare))) := by
  obtain ⟨p, heffect⟩ := effect_of_succeeded h hs
  have htable : table? (Utf8.encode source) = some (tableOf (Utf8.encode source) (View.ofText source)) := by
    rw [table?, Utf8.decode_encode]
    rfl
  rw [effect_of_table htable] at heffect
  cases hask : (tableOf (Utf8.encode source) (View.ofText source)).ask op with
  | error e =>
    rw [hask] at heffect
    cases e <;> simp [settle] at heffect
  | ok x =>
    rw [hask] at heffect
    obtain ⟨a, z, new, result, ha, haz, hz, hafter, hresult⟩ := after_seated hask
    have hbytes : t.document.bytes = Utf8.encode result := by
      simp only [settle, Except.ok.injEq, Prod.mk.injEq] at heffect
      rw [← heffect.1, hafter]
    refine ⟨result, by rw [source?, Document.text?, hbytes, Utf8.decode_encode], ⟨a, z, new, fun u hu => ?_, haz,
      fun u hu => ?_, hresult⟩, fun hframed path => ?_⟩
    · exact Nat.le_trans (of_decide_eq_true (List.mem_filter.1 hu).2) ha
    · exact Nat.le_trans hz (of_decide_eq_true (List.mem_filter.1 hu).2)
    · obtain ⟨hexports, hroots, hnodes⟩ := hframed.outline path
      refine ⟨hexports.symm, hroots.symm, hnodes.symm, ?_, fun hne => ?_⟩
      · rw [← hnodes, List.map_map, List.map_inj_left]
        exact forall₂_congr fun d _ => Declaration.bare_without _ d
      · rw [← hnodes, nodes_without op hne path]

attribute [local instance] SoundRecovery.bare

def importingClass : List Char :=
  "import \x7b b \x7d from 'b';\n\n/** Doc. */\nexport class A \x7b m() \x7b\x7d \x7d\n".toList

def importingClassTwice : List Char :=
  "import \x7b a \x7d from 'a';\nimport \x7b b \x7d from 'b';\n\n/** Doc. */\nexport class A \x7b m() \x7b\x7d \x7d\n"
    |>.toList

def importOfA : AddImport := ⟨"a", [.str "a"], .null, .null, .bool false⟩

theorem addImport_frame_documented :
    ∃ t, run importingClass [.addImport importOfA] = .ok t ∧ t.succeeded = true ∧ t.source? = some importingClassTwice ∧
      Framed importingClass importingClassTwice importOfA ∧
      (Outline.ofSource .typescript "a.ts" importingClass).tree.nodes.map (fun d => (d.name, d.doc))
        = [("A", some "Doc."), ("m", none)] ∧
      (Outline.ofSource .typescript "a.ts" importingClassTwice).tree.nodes.map (·.bare)
        = (Outline.ofSource .typescript "a.ts" importingClass).tree.nodes.map (·.bare) := by
  obtain ⟨⟨t, hrun, hs, htext⟩, hframed, hdocs, hsome⟩ :
      (∃ t, run importingClass [.addImport importOfA] = .ok t ∧ t.succeeded = true ∧
        t.source? = some importingClassTwice) ∧
      Framed importingClass importingClassTwice importOfA ∧
      (Outline.ofSource .typescript "a.ts" importingClass).tree.nodes.map (fun d => (d.name, d.doc))
        = [("A", some "Doc."), ("m", none)] ∧
      statements (View.ofText importingClass) ≠ [] := by
    rw [show importingClass = _ from String.toList_ofList, show importingClassTwice = _ from String.toList_ofList]
    decide +kernel
  obtain ⟨result, hresult, -, hread⟩ := addImport_frame hrun hs
  rw [htext, Option.some.injEq] at hresult
  subst hresult
  obtain ⟨-, -, -, -, hnodes⟩ := hread hframed "a.ts"
  exact ⟨t, hrun, hs, htext, hframed, hdocs, hnodes hsome⟩

def documentedClass : List Char := "/** Doc. */\nclass A \x7b\x7d\n".toList

def partedClass : List Char := "/** Doc. */\n\nimport \x7b a \x7d from 'a';\nclass A \x7b\x7d\n".toList

/-- A new import comes between a class and its doc comment, and the class has none then. -/
theorem addImport_takes_doc :
    (∃ t, run documentedClass [.addImport importOfA] = .ok t ∧ t.succeeded = true ∧ t.source? = some partedClass) ∧
      Framed documentedClass partedClass importOfA ∧
      (Outline.ofSource .typescript "a.ts" documentedClass).tree.nodes.map (fun d => (d.name, d.doc))
        = [("A", some "Doc.")] ∧
      (Outline.ofSource .typescript "a.ts" partedClass).tree.nodes.map (fun d => (d.name, d.doc)) = [("A", none)] := by
  rw [show documentedClass = _ from String.toList_ofList, show partedClass = _ from String.toList_ofList]
  decide +kernel

end Transformation
end SourceBench
