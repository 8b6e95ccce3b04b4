import SourceBench.Proofs.Outline.Echo
import SourceBench.Proofs.Syntax.Elsewhere
import SourceBench.Proofs.Outline.Complexity

/-!
# Outlines of moved trees

A tree that is moved behind more text says what it said (`mirror_moved`).  So what is read off moved statements is what
is read off them, moved by as much, except that the first may have another comment before it now (`groupsAfter_raised`,
`layOut_raised`).
-/
namespace SourceBench

open Syntax Tree Outline Declaration

/-- What is said of a declaration when its source stands `δ` further on, and what is at the top level and began at
`place` has the doc comment `doc`. -/
def DeclarationInfo.raised (δ : Pos) (place : Option Nat) (doc : Option String)
    (i : DeclarationInfo) : DeclarationInfo :=
  { i with
    startLine := δ.row + i.startLine
    stopLine := δ.row + i.stopLine
    doc := if i.parent = none ∧ some i.startByte = place then doc else i.doc
    startByte := δ.byte + i.startByte
    stopByte := δ.byte + i.stopByte
    nameRange := i.nameRange.map fun r => (δ.byte + r.1, δ.byte + r.2)
    bodyRange := i.bodyRange.map fun r => (δ.byte + r.1, δ.byte + r.2) }

def Declaration.raised (δ : Pos) (place : Option Nat) (doc : Option String) (d : Declaration) : Declaration :=
  { d with toDeclarationInfo := d.toDeclarationInfo.raised δ place doc }

namespace Reading

open List DeclarationTree

/-! ## Texts -/

theorem dropBytes_add (n : Nat) (source : List Char) : ∀ before : List Char,
    dropBytes (Utf8.byteSize before + n) (before ++ source) = dropBytes n source
  | [] => by rw [Utf8.byteSize_nil, Nat.zero_add, nil_append]
  | a :: before => by
    have hpos := Char.utf8Size_pos a
    rw [cons_append, dropBytes, Utf8.byteSize_cons, if_neg (by omega), Nat.add_assoc, Nat.add_sub_cancel_left,
      dropBytes_add n source before]

variable {before source : List Char} {δ : Pos} (hδ : δ.byte = Utf8.byteSize before)

include hδ

theorem textOf_moved (t : Tree) : textOf (before ++ source) (t.moved δ) = textOf source t := by
  rw [textOf, textOf, span_moved]
  show sliceBytes _ (δ.byte + t.span.start.byte) (δ.byte + t.span.stop.byte) = _
  rw [sliceBytes, Nat.add_sub_add_left, hδ, dropBytes_add]
  rfl

theorem stringOf_moved (t : Tree) : stringOf (before ++ source) (t.moved δ) = stringOf source t := by
  rw [stringOf, stringOf, textOf_moved hδ]

omit hδ

def Stays (δ : Pos) (source source' : List Char) (t u : Tree) : Prop := SameWords source source' t u ∧ u = t.moved δ

mutual
theorem mirror_moved (hδ : δ.byte = Utf8.byteSize before) :
    ∀ t : Tree, Mirror (Stays δ source (before ++ source)) t (t.moved δ)
  | .leaf _ _ _ _ => ⟨rfl, rfl, ⟨(textOf_moved hδ _).symm, rfl⟩, rfl⟩
  | .node _ _ _ ts => ⟨rfl, rfl, ⟨⟨(textOf_moved hδ _).symm, rfl⟩, rfl⟩, mirrorAll_moved hδ ts⟩
theorem mirrorAll_moved (hδ : δ.byte = Utf8.byteSize before) : ∀ ts : List Tree,
    mirrorAll (Stays δ source (before ++ source)) ts (movedAll δ ts)
  | [] => trivial
  | t :: ts => ⟨mirror_moved hδ t, mirrorAll_moved hδ ts⟩
end

include hδ

theorem forall₂_moved (ts : List Tree) : Forall₂ (Mirror (Stays δ source (before ++ source))) ts (movedAll δ ts) :=
  mirrorAll_iff.1 (mirrorAll_moved hδ ts)

theorem echo_moved (t : Tree) : Echo source (before ++ source) t (t.moved δ) :=
  (mirror_moved hδ t).imp fun _ _ h => h.1

theorem forall₂_echo_moved (ts : List Tree) : Forall₂ (Echo source (before ++ source)) ts (movedAll δ ts) :=
  (forall₂_moved hδ ts).imp fun _ _ h => h.imp fun _ _ h => h.1

omit hδ

/-! ## Declarations -/

def Item.moved (δ : Pos) (d : Item) : Item := ⟨d.kind, d.name.moved δ, d.body.map (·.moved δ), d.details⟩

/-- The group `δ` further on, with another doc comment if its statement began at a place. -/
def Group.raised (δ : Pos) (place : Option Nat) (doc : Option String) (g : Group) : Group :=
  ⟨⟨g.frame.outer.moved δ, g.frame.exported, if some g.frame.outer.start = place then doc else g.frame.doc⟩,
    g.item.moved δ⟩

theorem eq_map_of_forall₂ {α β : Type} {f : α → β} {l : List α} {l' : List β} (h : Forall₂ (fun a b => b = f a) l l') :
    l' = l.map f := by
  have heq := map_eq_of_forall₂ (f := f) (g := id) (fun _ _ hab => hab.symm) h
  rw [map_id] at heq
  exact heq.symm

theorem rangeOf_moved (t : Tree) : rangeOf (t.moved δ) = (δ.byte + (rangeOf t).1, δ.byte + (rangeOf t).2) := by
  simp only [rangeOf, start, stop, span_moved]
  rfl

theorem map_rangeOf_moved (o : Option Tree) :
    (o.map (·.moved δ)).map rangeOf = (o.map rangeOf).map fun r => (δ.byte + r.1, δ.byte + r.2) := by
  cases o with
  | none => rfl
  | some t => exact congrArg some (rangeOf_moved t)

theorem Item.Mirrors.eq_moved {source' : List Char} {d d' : Item}
    (h : d.Mirrors (Stays δ source source') source source' d') : d' = d.moved δ := by
  obtain ⟨hkind, hname, hbody, hdetails⟩ := h
  have hbody' : d'.body = d.body.map (·.moved δ) := by
    match d.body, d'.body, hbody with
    | _, _, .none => rfl
    | _, _, .some hab => exact congrArg some hab.related.2
  have hdetails' := hdetails fun _ _ ht => ht.1
  obtain ⟨kind, name, body, details⟩ := d'
  rw [Item.moved, ← hbody', ← hname.related.2, hkind, hdetails']

include hδ

theorem groupsIn_moved (q q' : Option Tree) (t : Tree) : groupsIn (before ++ source) q' (t.moved δ) =
      (groupsIn source q t).map (Group.raised δ (some t.start) (docBefore (before ++ source) q')) := by
  have htree : Mirror (Stays δ source (before ++ source)) t (t.moved δ) := mirror_moved hδ t
  refine eq_map_of_forall₂ ((forall₂_mem (groupsIn_mirror htree q q')).imp fun g g' hg => ?_)
  obtain ⟨hg, hg', hmirror⟩ := hg
  obtain ⟨frame', item'⟩ := g'
  obtain rfl : frame' = _ := (mem_groupsIn hg').1
  rw [Group.raised, ← hmirror.item.eq_moved, hmirror.exported, (mem_groupsIn hg).1, if_pos rfl]

theorem groupsAfter_moved {place : Option Nat} (doc : Option String) : ∀ {ts : List Tree} {q q' : Option Tree},
    (∀ t ∈ ts, some t.start ≠ place) → docBefore (before ++ source) q' = docBefore source q →
      groupsAfter (before ++ source) q' (movedAll δ ts) = (groupsAfter source q ts).map (Group.raised δ place doc)
  | [], _, _, _, _ => rfl
  | t :: ts, q, q', hts, hq => by
    obtain ⟨ht, hts⟩ := forall_mem_cons.1 hts
    show groupsIn _ q' (t.moved δ) ++ groupsAfter _ (some (t.moved δ)) (movedAll δ ts) =
      (groupsIn source q t ++ groupsAfter source (some t) ts).map _
    rw [map_append, groupsIn_moved hδ q q' t, groupsAfter_moved doc hts (docBefore_echo (.some (echo_moved hδ t))).symm]
    refine congrArg (· ++ _) (map_congr_left fun g hg => ?_)
    rw [Group.raised, Group.raised, (mem_groupsIn hg).1, if_pos rfl, if_neg ht, hq]

/-- **Moved statements declare what they declared**, except that what the first declares has the doc comment that stands
before it now. -/
theorem groupsAfter_raised (q' : Option Tree) {ts : List Tree} (hts : ts.Pairwise fun t u => t.start ≠ u.start) :
    groupsAfter (before ++ source) q' (movedAll δ ts) =
      (groupsAfter source none ts).map (Group.raised δ (ts.head?.map (·.start)) (docBefore (before ++ source) q')) := by
  cases ts with
  | nil => rfl
  | cons t ts =>
    have hne : ∀ u ∈ ts, some u.start ≠ some t.start :=
      fun u hu heq => (pairwise_cons.1 hts).1 u hu (Option.some.inj heq).symm
    show groupsIn _ q' (t.moved δ) ++ groupsAfter _ (some (t.moved δ)) (movedAll δ ts) =
      (groupsIn source none t ++ groupsAfter source (some t) ts).map _
    rw [map_append, groupsIn_moved hδ none q' t]
    exact congrArg (_ ++ ·) (groupsAfter_moved hδ _ hne (docBefore_echo (.some (echo_moved hδ t))).symm)

section
variable (place : Option Nat) (doc : Option String)

omit hδ in
theorem startRow_moved (t : Tree) : ((t.moved δ).startRow : Int) + 1 = δ.row + ((t.startRow : Int) + 1) := by
  rw [startRow, span_moved]
  show ((δ.row + t.startRow : Nat) : Int) + 1 = _
  omega

omit hδ in
theorem stopRow_moved (t : Tree) : ((t.moved δ).stopRow : Int) + 1 = δ.row + ((t.stopRow : Int) + 1) := by
  rw [stopRow, span_moved]
  show ((δ.row + t.stopRow : Nat) : Int) + 1 = _
  omega

omit hδ in
theorem start_moved (t : Tree) : (t.moved δ).start = δ.byte + t.start := congrArg Prod.fst (rangeOf_moved t)

omit hδ in
theorem stop_moved (t : Tree) : (t.moved δ).stop = δ.byte + t.stop := congrArg Prod.snd (rangeOf_moved t)

theorem head_raised (g : Group) :
    (g.raised δ place doc).head (before ++ source) = (g.head source).raised δ place doc := by
  simp only [Group.head, Group.raised, Item.moved, DeclarationInfo.raised, stringOf_moved hδ, startRow_moved,
    stopRow_moved, start_moved, stop_moved, map_rangeOf_moved, rangeOf_moved, Option.map_some, true_and]

theorem asMember_raised (d : Item) (owner : Nat) {q q' : Option Tree}
    (hq : docBefore (before ++ source) q' = docBefore source q)
    (m : Tree) : (d.moved δ).asMember (before ++ source) owner q' (m.moved δ) =
      (d.asMember source owner q m).raised δ place doc := by
  simp only [Item.asMember, Item.moved, DeclarationInfo.raised, stringOf_moved hδ, startRow_moved, stopRow_moved,
    start_moved, stop_moved, map_rangeOf_moved, rangeOf_moved, Option.map_some, hq, reduceCtorEq, false_and, if_false]

theorem members_raised (g : Group) (id : Nat) : (g.raised δ place doc).members (before ++ source) id =
    (g.members source id).map (DeclarationInfo.raised δ place doc) := by
  have hbody : Option.Rel (Mirror (Stays δ source (before ++ source))) g.item.memberBody
      (g.item.moved δ).memberBody := by
    show Option.Rel _ _ (if g.item.kind = .classDecl ∨ g.item.kind = .interfaceDecl then g.item.body.map _ else none)
    rw [Item.memberBody]
    split
    · cases g.item.body with
      | none => exact .none
      | some b => exact .some (mirror_moved hδ b)
    · exact .none
  refine eq_map_of_forall₂ ((membersIn_mirror hbody id).imp fun m m' hm => ?_)
  obtain ⟨d, d', q, q', u, u', hd, hq, hu, -, -, rfl, rfl⟩ := hm
  have hdoc : docBefore (before ++ source) q' = docBefore source q := by
    refine (docBefore_echo ?_).symm
    cases hq with
    | none => exact .none
    | some hab => exact .some (hab.imp fun _ _ h => h.1)
  rw [hd.eq_moved, hu.related.2, asMember_raised hδ place doc d id hdoc]

theorem layOut_raised (gs : List Group) (n : Nat) : layOut (before ++ source) n (gs.map (Group.raised δ place doc)) =
    (layOut source n gs).map (raised δ place doc) := by
  have hgroups : Forall₂ (fun (g g' : Group) => g'.head (before ++ source) = (g.head source).raised δ place doc ∧
      ∀ id, Forall₂ (fun i i' => i' = i.raised δ place doc) (g.members source id) (g'.members (before ++ source) id)) gs
      (gs.map (Group.raised δ place doc)) := by
    refine forall₂_map_right_iff.2 (forall₂_same.2 fun g _ => ⟨head_raised hδ place doc g, fun id => ?_⟩)
    rw [members_raised hδ]
    exact forall₂_map_right_iff.2 (forall₂_same.2 fun _ _ => rfl)
  refine eq_map_of_forall₂
    ((layOut_forall₂ (I := fun i i' => i' = i.raised δ place doc) hgroups n).imp fun d d' hd => ?_)
  obtain ⟨hinfo, hid, hmembers⟩ := hd
  obtain ⟨i', id', members'⟩ := d'
  simp only at hinfo hid hmembers
  rw [raised, hinfo, ← hid, ← hmembers]

theorem marked_raised (names : List String) (g : Group) :
    (g.raised δ place doc).marked (before ++ source) names = (g.marked source names).raised δ place doc := by
  simp only [Group.marked, Group.raised, Item.moved, stringOf_moved hδ]
  rfl

end

omit hδ

/-! ## Imports and decisions -/

def importParts (t : Tree) : List Tree :=
  match t.namedChildren.find? (·.kind == .importClause) with
  | some c => c.namedChildren
  | none => []

def recordOf (source : List Char) (m : Tree) (parts : List Tree) (isTypeOnly : Bool) : ImportRecord where
  source := literalText source m
  names := (((parts.filter (·.kind == .namedImports)).flatMap fun q =>
    q.namedChildren.filter (·.kind == .importSpecifier)).filterMap (·.child? .name)).map (stringOf source)
  defaultName := (parts.filter (·.kind == .identifier)).getLast?.map (stringOf source)
  namespaceName := ((parts.filter (·.kind == .namespaceImport)).filterMap fun q =>
    q.namedChildren.find? (·.kind == .identifier)).getLast?.map (stringOf source)
  isTypeOnly := isTypeOnly

theorem importRecord_eq_map (source : List Char) (t : Tree) : importRecord source t =
    ((sourceOf t).orElse fun _ => t.namedChildren.find? (·.kind == .string)).map fun m =>
      recordOf source m (importParts t) (t.hasToken "type") := by
  unfold importRecord
  cases (sourceOf t).orElse _ <;> rfl

namespace Echo

variable {source' : List Char}

theorem recordOf_eq {m m' : Tree} {ps ps' : List Tree} (hm : Echo source source' m m')
    (hps : Forall₂ (Echo source source') ps ps') (isTypeOnly : Bool) :
    recordOf source m ps isTypeOnly = recordOf source' m' ps' isTypeOnly := by
  have hkind := fun k => forall₂_ofKind hps (· == k)
  have hnames := childNames_eq (rel_flatMap (hkind .namedImports) fun _ _ hab =>
    hab.ofKind (· == .importSpecifier)) .name
  have hdefault := optionMap_eq_of_rel (fun _ _ hab => stringOf_eq hab) (forall₂_getLast? (hkind .identifier))
  have hspace := optionMap_eq_of_rel (fun _ _ hab => stringOf_eq hab)
    (forall₂_getLast? (rel_filterMap (fun _ _ hab => find?_ofKind hab.namedChildren (· == .identifier))
      (hkind .namespaceImport)))
  rw [recordOf, recordOf, literalText_eq hm, hnames, hdefault, hspace]

variable {t u : Tree} (h : Echo source source' t u)

include h

theorem importParts : Forall₂ (Echo source source') (importParts t) (Reading.importParts u) := by
  unfold Reading.importParts
  match t.namedChildren.find? _, u.namedChildren.find? _, find?_ofKind h.namedChildren (· == .importClause) with
  | _, _, .none => exact .nil
  | _, _, .some hab => exact hab.namedChildren

theorem importRecord_eq : importRecord source t = importRecord source' u := by
  have hsource : Option.Rel (Echo source source') (sourceOf t) (sourceOf u) := h.child? .source
  rw [importRecord_eq_map, importRecord_eq_map, h.hasToken_eq]
  refine optionMap_eq_of_rel (fun _ _ hab => recordOf_eq hab h.importParts _) ?_
  match sourceOf t, sourceOf u, hsource with
  | _, _, .none => exact find?_ofKind h.namedChildren (· == .string)
  | _, _, .some hab => exact .some hab

theorem isDecision_eq : isDecision t = isDecision u := by
  unfold isDecision
  rw [h.kind_eq]
  split <;> try rfl
  match t.child? .operator, u.child? .operator, h.child? .operator with
  | _, _, .none => rfl
  | _, _, .some hab => simp only [isToken_eq hab]

end Echo

/-! ## Whole outlines -/

theorem grow_raised (place : Option Nat) (doc : Option String) (ds : List Declaration) :
    empty.grow (ds.map (raised δ place doc)) =
      { empty.grow ds with nodes := (empty.grow ds).nodes.map (raised δ place doc) } := by
  simp only [grow, empty, nil_append, foldl_map, filter_map, map_map]
  rfl

theorem rootDecls_raised (place : Option Nat) (doc : Option String) (t : DeclarationTree) (k : DeclKind) :
    (({ t with nodes := t.nodes.map (raised δ place doc) } : DeclarationTree).rootDecls.filter (·.kind == k)).length =
      (t.rootDecls.filter (·.kind == k)).length := by
  have hpick : ({ t with nodes := t.nodes.map (raised δ place doc) } : DeclarationTree).rootDecls =
      t.rootDecls.map (raised δ place doc) := by
    simp only [rootDecls, pick, getElem?_map, map_filterMap]
  rw [hpick, filter_map, length_map]
  rfl

theorem isNamed_moved (ts : List Tree) : (movedAll δ ts).filter isNamed = movedAll δ (ts.filter isNamed) := by
  rw [movedAll_eq, movedAll_eq, filter_map]
  refine congrArg _ (filter_congr fun t _ => ?_)
  rw [Function.comp_apply, Tree.isNamed, kind_moved, Tree.isNamed]

section
variable {span span' s : Span} {text : List Char} {items : List Tree}

include hδ

theorem flatMap_moved {α : Type} {f f' : Tree → List α} (hf : ∀ t u, Echo source (before ++ source) t u → f t = f' u)
    (k : Kind) (ts : List Tree) : ((movedAll δ ts).filter (·.kind == k)).flatMap f'
      = (ts.filter (·.kind == k)).flatMap f :=
  (flatMap_ofKind (forall₂_echo_moved hδ ts) hf (· == k)).symm

theorem decisions_moved (ts : List Tree) :
    ((nodesOf (movedAll δ ts)).filter isDecision).length = ((nodesOf ts).filter isDecision).length := by
  have hnodes := mirrorAll_nodes (mirrorAll_iff.2 (@forall₂_echo_moved before [] δ hδ ts))
  exact (forall₂_filter (fun _ _ hab => Echo.isDecision_eq hab) hnodes).length_eq.symm

/-- **The outline behind a comment**: the same, moved, but that the first statement has the comment before it now. -/
theorem ofTree_prefaced {root root' : Tree} (hr : root = .node .plain .program span items)
    (hr' : root' = .node .plain .program span' (.leaf .plain .comment s text :: movedAll δ items))
    (hroot : ∀ v ∈ root.nodes, v.Coherent source) (hroot' : ∀ v ∈ root'.nodes, v.Coherent (before ++ source))
    (hapart : items.Pairwise fun t u => t.start ≠ u.start) (path : String) :
    let o := ofTree source path root
    let o' := ofTree (before ++ source) path root'
    o'.tree = { o.tree with nodes := o.tree.nodes.map (raised δ (root.namedChildren.head?.map (·.start))
      (docBefore (before ++ source) (some (.leaf .plain .comment s text)))) } ∧
      o'.imports = o.imports ∧ o'.exports = o.exports ∧ o'.metrics = { o.metrics with lines := o'.metrics.lines } := by
  intro o o'
  have hnamed : root'.namedChildren = .leaf .plain .comment s text :: movedAll δ root.namedChildren := by
    rw [hr, hr']
    exact congrArg (_ :: ·) (isNamed_moved items)
  generalize hplace : root.namedChildren.head?.map (·.start) = place,
    hdoc : docBefore (before ++ source) (some (.leaf .plain .comment s text)) = doc
  have hgroups : groups (before ++ source) root' = (groups source root).map (Group.raised δ place doc) := by
    rw [groups, groups, hnamed, ← hplace, ← hdoc, hr]
    exact groupsAfter_raised hδ _ (hapart.filter _)
  have hnames : exportedNames (before ++ source) root' = exportedNames source root := by
    rw [exportedNames, exportedNames, hnamed]
    exact flatMap_moved hδ (fun _ _ => Echo.localExportNames_eq) .exportStatement _
  have htree : o'.tree = { o.tree with nodes := o.tree.nodes.map (raised δ place doc) } := by
    rw [show o'.tree = _ from ofTree_tree (groups_sound hroot') path,
      show o.tree = _ from ofTree_tree (groups_sound hroot) path,
      ← grow_raised, ← layOut_raised hδ, declared, declared, hgroups, hnames, map_map, map_map]
    refine congrArg (fun gs => empty.grow (layOut (before ++ source) 0 gs)) (map_congr_left fun g _ => ?_)
    exact marked_raised hδ place doc _ g
  have himports : o'.imports = o.imports := by
    show ((namedChildren _).filter _).filterMap _ = ((namedChildren _).filter _).filterMap _
    rw [hnamed, filterMap_eq_flatMap_toList, filterMap_eq_flatMap_toList]
    exact flatMap_moved hδ (fun _ _ hab => by rw [Echo.importRecord_eq hab]) .importStatement _
  have hexports : o'.exports = o.exports := by
    show ((namedChildren _).filter _).flatMap _ = ((namedChildren _).filter _).flatMap _
    rw [hnamed]
    exact flatMap_moved hδ (fun _ _ => Echo.exportRecords_eq) .exportStatement _
  refine ⟨htree, himports, hexports, ?_⟩
  have hcount : ∀ k : DeclKind, (o'.tree.rootDecls.filter (·.kind == k)).length
      = (o.tree.rootDecls.filter (·.kind == k)).length :=
    fun k => by rw [htree, rootDecls_raised]
  have hcomplexity : complexity root' = complexity root := by
    rw [complexity_eq, complexity_eq, hr, hr']
    exact congrArg (1 + ·) (decisions_moved hδ items)
  have hmetrics : ∀ (text : List Char) (root : Tree), let o := ofTree text path root
      o.metrics = ⟨(Text.splitLines text).length, (o.tree.rootDecls.filter (·.kind == .functionDecl)).length,
        (o.tree.rootDecls.filter (·.kind == .classDecl)).length, o.imports.length, o.exports.length, complexity root⟩ :=
    fun _ _ => rfl
  rw [show o'.metrics = _ from hmetrics _ _, show o.metrics = _ from hmetrics _ _]
  dsimp only
  rw [hcount, hcount, himports, hexports, hcomplexity]

end

end Reading
end SourceBench
