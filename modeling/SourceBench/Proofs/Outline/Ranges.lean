import SourceBench.Proofs.Layout.Twins
import SourceBench.Proofs.Outline.Arena

/-!
# Ranges in an outline

In a tree whose ranges are coherent, the ranges of an outline are too: nothing that it adds is refused, names and bodies
lie in their declarations, members in the bodies of their owners, and a walk meets declarations in the order in which
they begin.  Trees that were read from a source are coherent (`parse_coherent`).
-/
namespace SourceBench

open List Layout Utf8

variable {u : Syntax.Tree} {source : List Char} {previous : Option Syntax.Tree} {exported : Bool}

namespace Syntax

open Reading (textOf)

/-- The ranges around a tree fit together: its children lie in it, in bytes and in rows, and follow one another, and its
own range is a stretch of the source. -/
structure Tree.Coherent (source : List Char) (t : Tree) : Prop where
  inside : ∀ u ∈ t.children, t.start ≤ u.start ∧ u.stop ≤ t.stop ∧ t.startRow ≤ u.startRow ∧ u.stopRow ≤ t.stopRow
  ordered : t.children.Pairwise fun u v => u.stop ≤ v.start
  written : ∃ before after, source = before ++ textOf source t ++ after ∧ byteSize before = t.start ∧
    byteSize (before ++ textOf source t) = t.stop

theorem Tree.Coherent.start_le_stop {t : Tree} (h : t.Coherent source) : t.start ≤ t.stop := by
  obtain ⟨before, after, -, hstart, hstop⟩ := h.written
  rw [byteSize_append] at hstop
  omega

theorem Tree.Coherent.bytes {t : Tree} (h : t.Coherent source) :
    ((encode source).drop t.start).take (t.stop - t.start) = encode (textOf source t) := by
  obtain ⟨before, after, hsource, hstart, hstop⟩ := h.written
  have hbytes : encode source
      = encode before ++ (encode (textOf source t) ++ encode after) := by
    rw [← encode_append, ← encode_append, ← append_assoc, ← hsource]
  have hlength : t.stop - t.start = (encode (textOf source t)).length := by
    rw [length_encode, ← hstop, ← hstart, byteSize_append, Nat.add_sub_cancel_left]
  rw [hlength, hbytes, ← hstart, ← length_encode before, drop_left, take_left]

def Tree.Inside (u t : Tree) : Prop :=
  t.start ≤ u.start ∧ u.stop ≤ t.stop ∧ t.startRow ≤ u.startRow ∧ u.stopRow ≤ t.stopRow

theorem Tree.Inside.trans {t v : Tree} (h : v.Inside u) (h' : u.Inside t) : v.Inside t :=
  ⟨h'.1.trans h.1, h.2.1.trans h'.2.1, h'.2.2.1.trans h.2.2.1, h.2.2.2.trans h'.2.2.2⟩

theorem Tree.inside_of_mem_nodes : ∀ {t u : Tree}, (∀ v ∈ t.nodes, v.Coherent source) → u ∈ t.nodes → u.Inside t
  | .leaf r k s text, u, _, hu => by
    rw [Tree.nodes, mem_singleton] at hu
    subst hu
    exact ⟨Nat.le_refl _, Nat.le_refl _, Nat.le_refl _, Nat.le_refl _⟩
  | .node r k s cs, u, h, hu => by
    rcases mem_nodes_node.1 hu with rfl | ⟨c, hc, huc⟩
    · exact ⟨Nat.le_refl _, Nat.le_refl _, Nat.le_refl _, Nat.le_refl _⟩
    · have hc' : c.Inside (.node r k s cs) := (h _ (self_mem_nodes _)).inside c hc
      exact (inside_of_mem_nodes (fun v hv => h v (mem_nodes_node.2 (.inr ⟨c, hc, hv⟩))) huc).trans hc'

end Syntax

namespace Reading

open Syntax DeclarationTree

/-! ## Where items come from -/

variable {t : Tree} {d : Item}

theorem mem_nodes_of_child? {r : Role} (h : t.child? r = some u) : u ∈ t.nodes :=
  mem_nodes_of_child (mem_of_find?_eq_some h)

def Item.From (d : Item) (t : Tree) : Prop := d.name ∈ t.nodes ∧ ∀ b, d.body = some b → b ∈ t.nodes

theorem namedItem?_from {name : Tree} (hname : t.child? .name = some name) (h : namedItem? source t name = some d) :
    d.From t := by
  have hname := mem_nodes_of_child? hname
  revert h
  fun_cases namedItem? source t name <;> intro h <;> cases h
  case case6 => exact ⟨hname, fun b hb => nomatch hb⟩
  all_goals exact ⟨hname, fun b hb => mem_nodes_of_child? hb⟩

theorem mem_variableItems (h : d ∈ variableItems source t) : d.From t ∧ d.memberBody = none := by
  obtain ⟨v, hv, hd⟩ := mem_filterMap.1 h
  obtain ⟨name, hname, rfl⟩ := Option.map_eq_some_iff.1 hd
  have hv' : v ∈ t.children := mem_of_mem_filter (mem_of_mem_filter hv)
  have hname' := nodes_trans (mem_nodes_of_child hv') (mem_nodes_of_child? hname)
  exact ⟨⟨hname', fun b hb => nomatch hb⟩, rfl⟩

theorem itemsOf_cases (h : d ∈ itemsOf source exported t) :
    d ∈ variableItems source t ∨ ∃ name, t.child? .name = some name ∧ namedItem? source t name = some d := by
  revert h
  fun_cases itemsOf source exported t <;> intro h
  case case1 | case3 => exact .inl h
  case case2 | case4 => exact absurd h not_mem_nil
  case case5 => exact .inr (Option.bind_eq_some_iff.1 (Option.mem_toList.1 h))

theorem itemsOf_from (h : d ∈ itemsOf source exported t) : d.From t := by
  rcases itemsOf_cases h with h | ⟨name, hname, hd⟩
  · exact (mem_variableItems h).1
  · exact namedItem?_from hname hd

theorem memberItem?_from {m : Tree} (h : memberItem? source m = some d) : d.From m := by
  revert h
  fun_cases memberItem? source m <;> intro h
  case case1 | case7 => cases h
  case case2 name hname _ | case3 name hname _ | case4 name hname _ =>
    cases h
    exact ⟨mem_nodes_of_child? hname, fun b hb => mem_nodes_of_child? hb⟩
  case case5 name hname _ | case6 name hname _ =>
    cases h
    exact ⟨mem_nodes_of_child? hname, fun b hb => nomatch hb⟩

theorem itemsOf_pairwise (source : List Char) (exported : Bool) (t : Tree) :
    (itemsOf source exported t).Pairwise fun d _ => d.memberBody = none := by
  fun_cases itemsOf source exported t
  case case1 | case3 => exact pairwise_of_forall_mem_list fun d hd _ _ => (mem_variableItems hd).2
  case case2 | case4 => exact .nil
  case case5 =>
    cases (t.child? .name).bind (namedItem? source t) with
    | none => exact .nil
    | some d => exact pairwise_singleton _ _

def declaration? (t : Tree) : Option Tree := if t.kind = .exportStatement then t.child? .declaration else some t

theorem mem_nodes_of_declaration? (h : declaration? t = some u) : u ∈ t.nodes := by
  unfold declaration? at h
  split at h
  · exact mem_nodes_of_child? h
  · cases h
    exact self_mem_nodes _

theorem groupsIn_eq (source : List Char) (previous : Option Tree) (t : Tree) : groupsIn source previous t =
    ((declaration? t).toList.flatMap (itemsOf source (t.kind == .exportStatement))).map
      (⟨⟨t, t.kind == .exportStatement, docBefore source previous⟩, ·⟩) := by
  fun_cases groupsIn source previous t
  -- an import names nothing
  case case1 hk => simp [declaration?, itemsOf, namedItem?, hk]
  case case2 doc hk d hd => simp [declaration?, hk, hd, doc]
  case case3 hk hd => simp [declaration?, hk, hd]
  case case4 doc _ hk =>
    rw [declaration?, if_neg hk, beq_false_of_ne hk, Option.toList_some, flatMap_singleton]

theorem mem_groupsIn {g : Group} (h : g ∈ groupsIn source previous t) :
    g.frame = ⟨t, t.kind == .exportStatement, docBefore source previous⟩ ∧
      ∃ u, declaration? t = some u ∧ g.item ∈ itemsOf source (t.kind == .exportStatement) u := by
  rw [groupsIn_eq] at h
  obtain ⟨d, hd, rfl⟩ := mem_map.1 h
  obtain ⟨u, hu, hd⟩ := mem_flatMap.1 hd
  exact ⟨rfl, u, Option.mem_toList.1 hu, hd⟩

theorem groupsIn_from {g : Group} (h : g ∈ groupsIn source previous t) : g.frame.outer = t ∧ g.item.From t := by
  obtain ⟨hframe, u, hu, hitem⟩ := mem_groupsIn h
  have hu' := mem_nodes_of_declaration? hu
  obtain ⟨hname, hbody⟩ := itemsOf_from hitem
  exact ⟨by rw [hframe], nodes_trans hu' hname, fun b hb => nodes_trans hu' (hbody b hb)⟩

theorem groupsIn_pairwise (source : List Char) (previous : Option Tree) (t : Tree) :
    (groupsIn source previous t).Pairwise fun g _ => g.item.memberBody = none := by
  fun_cases groupsIn source previous t
  case case1 | case3 => exact .nil
  case case2 _ d _ => exact pairwise_map.2 (itemsOf_pairwise source true d)
  case case4 => exact pairwise_map.2 (itemsOf_pairwise source false t)

theorem withPrevious_snd {α : Type} : ∀ (xs : List α) (previous : Option α), (withPrevious previous xs).map (·.2) = xs
  | [], _ => rfl
  | x :: xs, _ => congrArg (x :: ·) (withPrevious_snd xs (some x))

theorem body_of_memberBody {b : Tree} (h : d.memberBody = some b) : d.body = some b := by
  unfold Item.memberBody at h
  split at h
  · exact h
  · cases h

end Reading

/-! ## Ranges of declarations -/

/-- The name and the body of the declaration lie in it, and the bytes at the range of the name are the name. -/
structure DeclarationInfo.InPlace (source : List Char) (i : DeclarationInfo) : Prop where
  named : ∃ a b, i.nameRange = some (a, b) ∧ i.startByte ≤ a ∧ a ≤ b ∧ b ≤ i.stopByte ∧
    ((encode source).drop a).take (b - a) = encode i.name.toList
  bodied : ∀ a b, i.bodyRange = some (a, b) → i.startByte ≤ a ∧ a ≤ b ∧ b ≤ i.stopByte

/-- The member lies in the body of its owner, and on its lines. -/
def DeclarationInfo.MemberOf (m owner : DeclarationInfo) : Prop :=
  (∃ a b, owner.bodyRange = some (a, b) ∧ a ≤ m.startByte ∧ m.startByte ≤ m.stopByte ∧ m.stopByte ≤ b) ∧
    owner.startLine ≤ m.startLine ∧ m.stopLine ≤ owner.stopLine

namespace Reading

open Syntax DeclarationTree

theorem mem_members {t : Tree} {g : Group}
    (hg : g ∈ groupsIn source previous t) {id : Nat} {m : DeclarationInfo} (hm : m ∈ g.members source id) :
    ∃ b q u d, g.item.body = some b ∧ b ∈ t.nodes ∧ u ∈ b.children ∧ memberItem? source u = some d ∧
      m = d.asMember source id q u := by
  obtain ⟨b, q, u, d, hb, hu, hd, rfl⟩ := mem_membersIn hm
  have hb' := body_of_memberBody hb
  exact ⟨b, q, u, d, hb', (groupsIn_from hg).2.2 b hb', mem_of_mem_filter hu, hd, rfl⟩

section Coherent

variable {source : List Char} {t : Tree} (h : ∀ v ∈ t.nodes, v.Coherent source)

include h

theorem Item.From.inPlace {d : Item} (hd : d.From t) {i : DeclarationInfo} (hname : i.name = stringOf source d.name)
    (hstart : i.startByte = t.start) (hstop : i.stopByte = t.stop) (hrange : i.nameRange = some (rangeOf d.name))
    (hbody : i.bodyRange = d.body.map rangeOf) : i.InPlace source := by
  constructor
  · have hin := Tree.inside_of_mem_nodes h hd.1
    refine ⟨d.name.start, d.name.stop, hrange, ?_, (h _ hd.1).start_le_stop, ?_, ?_⟩
    · rw [hstart]
      exact hin.1
    · rw [hstop]
      exact hin.2.1
    · rw [hname, stringOf, String.toList_ofList]
      exact (h _ hd.1).bytes
  · intro a b hab
    rw [hbody, Option.map_eq_some_iff] at hab
    obtain ⟨u, hu, hur⟩ := hab
    cases hur
    have hin := Tree.inside_of_mem_nodes h (hd.2 u hu)
    rw [hstart, hstop]
    exact ⟨hin.1, (h _ (hd.2 u hu)).start_le_stop, hin.2.1⟩

variable {previous : Option Tree} {g : Group} (hg : g ∈ groupsIn source previous t)

include hg

theorem head_inPlace : (g.head source).InPlace source := by
  obtain ⟨houter, hfrom⟩ := groupsIn_from hg
  exact hfrom.inPlace h rfl (congrArg Tree.start houter) (congrArg Tree.stop houter) rfl rfl

variable {id : Nat} {m : DeclarationInfo}

theorem member_inPlace (hm : m ∈ g.members source id) : m.InPlace source := by
  obtain ⟨b, q, u, d, -, hb, hu, hd, rfl⟩ := mem_members hg hm
  have hu' := nodes_trans hb (mem_nodes_of_child hu)
  exact (memberItem?_from hd).inPlace (fun v hv => h v (nodes_trans hu' hv)) rfl rfl rfl rfl rfl

theorem member_memberOf (hm : m ∈ g.members source id) : m.MemberOf (g.head source) := by
  obtain ⟨b, q, u, d, hbody, hb, hu, -, rfl⟩ := mem_members hg hm
  have hub := (h b hb).inside u hu
  have hbt := Tree.inside_of_mem_nodes h hb
  have hu' := (h u (nodes_trans hb (mem_nodes_of_child hu))).start_le_stop
  obtain ⟨houter, -⟩ := groupsIn_from hg
  refine ⟨⟨b.start, b.stop, ?_, hub.1, hu', hub.2.1⟩, ?_⟩
  · show g.item.body.map rangeOf = _
    rw [hbody]
    rfl
  · simp only [Group.head, Item.asMember, houter]
    have := hub.2.2.1
    have := hub.2.2.2
    have := hbt.2.2.1
    have := hbt.2.2.2
    omega

theorem group_sound : g.Sound source := fun _ _ hm => (member_memberOf h hg hm).2

theorem start_le_member (hm : m ∈ g.members source id) : t.start ≤ m.startByte ∧ m.startByte ≤ t.stop := by
  obtain ⟨b, q, u, d, -, hb, hu, -, rfl⟩ := mem_members hg hm
  have hu' := nodes_trans hb (mem_nodes_of_child hu)
  have hut := Tree.inside_of_mem_nodes h hu'
  have := (h u hu').start_le_stop
  exact ⟨hut.1, this.trans hut.2.1⟩

theorem members_apart (id : Nat) : (g.members source id).Pairwise fun m m' => m.stopByte ≤ m'.startByte := by
  unfold Group.members membersIn
  split
  · exact .nil
  · rename_i b hb
    have hbt := (groupsIn_from hg).2.2 b (body_of_memberBody hb)
    have hb' := h b hbt
    have hordered := hb'.ordered.filter Tree.isNamed
    rw [← withPrevious_snd (b.children.filter Tree.isNamed) none, pairwise_map] at hordered
    refine pairwise_filterMap.2 (hordered.imp fun {p p'} hle m hm m' hm' => ?_)
    obtain ⟨d, -, rfl⟩ := Option.map_eq_some_iff.1 hm
    obtain ⟨d', -, rfl⟩ := Option.map_eq_some_iff.1 hm'
    exact hle

end Coherent

/-! ## The order of declarations -/

/-- The one group begins, with its members, no later than the other. -/
def Group.Before (source : List Char) (g g' : Group) : Prop :=
  (g.head source).startByte ≤ (g'.head source).startByte ∧
    ∀ id, ∀ m ∈ g.members source id, m.startByte ≤ (g'.head source).startByte

theorem layOut_pairwise : ∀ {gs : List Group} (n : Nat), gs.Pairwise (Group.Before source) →
    (∀ g ∈ gs, ∀ id, (g.members source id).Pairwise (fun m m' => m.startByte ≤ m'.startByte) ∧
      ∀ m ∈ g.members source id, (g.head source).startByte ≤ m.startByte) →
    (layOut source n gs).Pairwise fun d e => d.startByte ≤ e.startByte
  | [], _, _, _ => .nil
  | g :: gs, n, hgs, hin => by
    obtain ⟨hfirst, hrest⟩ := pairwise_cons.1 hgs
    obtain ⟨hordered, hhead⟩ := hin g mem_cons_self n
    have hbehind : ∀ e ∈ layOut source (n + 1 + (g.members source n).length) gs, ∃ g' ∈ gs,
        (g'.head source).startByte ≤ e.startByte := by
      intro e he
      obtain ⟨g', hg', he'⟩ := mem_layOut he
      rcases he' with he' | ⟨id, hmem, -⟩
      · exact ⟨g', hg', by rw [he']⟩
      · exact ⟨g', hg', (hin g' (mem_cons_of_mem _ hg') id).2 _ hmem⟩
    rw [layOut, pairwise_cons, pairwise_append]
    refine ⟨fun e he => ?_, ?_, ?_, fun d hd e he => ?_⟩
    · rcases mem_append.1 he with he | he
      · exact hhead _ (mem_numbered he).1
      · obtain ⟨g', hg', hle⟩ := hbehind e he
        exact (hfirst g' hg').1.trans hle
    · rw [← numbered_infos (g.members source n) (n + 1), pairwise_map] at hordered
      exact hordered
    · exact layOut_pairwise _ hrest fun g' hg' => hin g' (mem_cons_of_mem _ hg')
    · obtain ⟨g', hg', hle⟩ := hbehind e he
      exact ((hfirst g' hg').2 n _ (mem_numbered hd).1).trans hle

section Outline

variable {source : List Char} {root : Tree} (h : ∀ v ∈ root.nodes, v.Coherent source)

include h

variable {g : Group}

theorem mem_groups (hg : g ∈ groups source root) :
    ∃ t ∈ root.children, (∀ v ∈ t.nodes, v.Coherent source) ∧ ∃ q, g ∈ groupsIn source q t := by
  obtain ⟨⟨q, t⟩, ht, hg⟩ := mem_flatMap.1 hg
  have ht' := mem_of_mem_filter (mem_withPrevious ht)
  exact ⟨t, ht', fun v hv => h v (nodes_trans (mem_nodes_of_child ht') hv), q, hg⟩

theorem groups_sound : ∀ g ∈ groups source root, g.Sound source := by
  intro g hg
  obtain ⟨t, -, ht, q, hgt⟩ := mem_groups h hg
  exact group_sound ht hgt

theorem groups_pairwise : (groups source root).Pairwise (Group.Before source) := by
  have hcoherent : ∀ {t : Tree}, t ∈ root.namedChildren → ∀ v ∈ t.nodes, v.Coherent source := fun ht v hv =>
    h v (nodes_trans (mem_nodes_of_child (mem_of_mem_filter ht)) hv)
  have hordered := ((h _ (self_mem_nodes root)).ordered).filter Tree.isNamed
  rw [← withPrevious_snd (root.children.filter Tree.isNamed) none, pairwise_map] at hordered
  refine pairwise_flatMap.2 ⟨fun ⟨q, t⟩ ht => ?_, hordered.imp_of_mem fun {p p'} hp hp' hle g hg g' hg' => ?_⟩
  · -- Declarations of one statement begin with it, and the first of several has no members.
    refine (groupsIn_pairwise source q t).imp_of_mem fun {g g'} hg hg' hnone => ⟨?_, fun id m hm => ?_⟩
    · simp only [Group.head, (groupsIn_from hg).1, (groupsIn_from hg').1]
      exact Nat.le_refl _
    · rw [Group.members, hnone] at hm
      exact absurd hm not_mem_nil
  · have hstop := (hcoherent (mem_withPrevious hp) _ (self_mem_nodes _)).start_le_stop
    simp only [Group.Before, Group.head, (groupsIn_from hg).1, (groupsIn_from hg').1]
    exact ⟨hstop.trans hle, fun id m hm =>
      (start_le_member (hcoherent (mem_withPrevious hp)) hg hm).2.trans hle⟩

theorem mem_declared (hg : g ∈ declared source root) :
    (g.head source).InPlace source ∧ (∀ id, ∀ m ∈ g.members source id, m.InPlace source ∧
      m.MemberOf (g.head source)) := by
  obtain ⟨g, hmem, rfl⟩ := mem_map.1 hg
  obtain ⟨t, -, ht, q, hgt⟩ := mem_groups h hmem
  have hhead := head_inPlace ht hgt
  exact ⟨⟨hhead.named, hhead.bodied⟩, fun id m hm => ⟨member_inPlace ht hgt hm, member_memberOf ht hgt hm⟩⟩

theorem declared_pairwise : (declared source root).Pairwise (Group.Before source) :=
  pairwise_map.2 (groups_pairwise h)

theorem declared_ordered (hg : g ∈ declared source root) (id : Nat) :
    (g.members source id).Pairwise (fun m m' => m.startByte ≤ m'.startByte) ∧
      ∀ m ∈ g.members source id, (g.head source).startByte ≤ m.startByte := by
  obtain ⟨g, hmem, rfl⟩ := mem_map.1 hg
  obtain ⟨t, -, ht, q, hgt⟩ := mem_groups h hmem
  refine ⟨(members_apart ht hgt id).imp_of_mem fun {m m'} hm _ hle => ?_, fun m hm => ?_⟩
  · obtain ⟨⟨a, b, -, hstart, hab, hstop, -⟩, -⟩ := member_inPlace ht hgt hm
    omega
  · have := (start_le_member ht hgt hm).1
    rwa [← (groupsIn_from hgt).1] at this

theorem inPlace_of_mem_layOut {d : Declaration} {n : Nat} (hd : d ∈ layOut source n (declared source root)) :
    d.toDeclarationInfo.InPlace source := by
  obtain ⟨g, hg, hd | ⟨id, hd, -⟩⟩ := mem_layOut hd
  · rw [hd]
    exact (mem_declared h hg).1
  · exact ((mem_declared h hg).2 id _ hd).1

end Outline

end Reading

namespace Outline

open Syntax Reading DeclarationTree

/-- **Ranges in outlines are coherent.**  In a tree whose ranges fit together, all that an outline adds is accepted; the
name and the body of each declaration lie in it, and the bytes at the range of the name are the name; each member lies
in the body of its owner and on its lines; and a walk meets all declarations, in the order in which they begin. -/
theorem ranges_coherent (source : List Char) (path : String) (root : Tree) (h : ∀ v ∈ root.nodes, v.Coherent source) :
    (∃ t, DeclarationTree.empty.addAll? (additions source 0 (groups source root)) = .ok t ∧
      (ofTree source path root).tree = markExported t (exportedNames source root)) ∧
    (ofTree source path root).tree.walk = (ofTree source path root).tree.nodes ∧
    (∀ d ∈ (ofTree source path root).tree.walk, d.InPlace source ∧
      ∀ m ∈ (ofTree source path root).tree.membersOf d, m.MemberOf d.toDeclarationInfo) ∧
    (ofTree source path root).tree.walk.Pairwise fun d e => d.startByte ≤ e.startByte := by
  have htree := ofTree_tree (groups_sound h) path
  have hwalk : (DeclarationTree.empty.grow (layOut source 0 (declared source root))).walk = _ := walk_of_layOut rfl rfl
  refine ⟨⟨_, addAll?_groups (groups source root) .empty (groups_sound h), ?_⟩, ?_, ?_, ?_⟩
  · rw [htree, declared, ← markExported_layOut]
    rfl
  · rw [htree, hwalk]
  · rw [htree, hwalk]
    intro d hd
    refine ⟨inPlace_of_mem_layOut h hd, fun m hm => ?_⟩
    obtain ⟨g, hg, hd'⟩ := mem_layOut hd
    rcases hd' with hd' | ⟨id, hmem, hnil⟩
    · obtain ⟨g', hg', hhead, hpick⟩ := pick_members
        (t := DeclarationTree.empty.grow (layOut source 0 (declared source root))) _ [] rfl d hd (by rw [hd']; rfl)
      rw [membersOf, hpick] at hm
      rw [hhead]
      exact ((mem_declared h hg').2 _ _ (mem_numbered hm).1).2
    · rw [membersOf, hnil] at hm
      exact absurd hm not_mem_nil
  · rw [htree, hwalk]
    exact layOut_pairwise 0 (declared_pairwise h) fun g hg id => declared_ordered h hg id

end Outline

namespace Syntax

/-! ## Trees of sources -/

open Cursor Layout Reading

variable {c d : Cursor} {source : List Char}

theorem coversAll_inside {ts : List Tree} (h : coversAll ts c d) (hu : u ∈ ts) :
    c.pos.byte ≤ u.start ∧ u.stop ≤ d.pos.byte ∧ c.pos.row ≤ u.startRow ∧ u.stopRow ≤ d.pos.row := by
  obtain ⟨before, c', d', after, hbefore, hcovers, hafter⟩ := nodesOf_lie h u (mem_nodesOf.2 ⟨u, hu, self_mem_nodes u⟩)
  rw [hcovers.start_eq, hcovers.stop_eq, (covers_rows hcovers).1, (covers_rows hcovers).2]
  exact ⟨passes_byte_le hbefore, passes_byte_le hafter, passes_row_le hbefore, passes_row_le hafter⟩

theorem written_of_passes {text : List Char} (hc : Within source c) (h : c.Passes text d) {t : Tree}
    (hspan : t.span = ⟨c.pos, d.pos⟩) : ∃ before after, source = before ++ textOf source t ++ after ∧
      byteSize before = t.start ∧ byteSize (before ++ textOf source t) = t.stop := by
  have htext : textOf source t = text := by rw [textOf, hspan, slice_of_passes hc h]
  obtain ⟨before, hbefore⟩ := hc
  have hstart : byteSize before = c.pos.byte := by
    rw [hbefore.byte_eq]
    exact (Nat.zero_add _).symm
  refine ⟨before, d.rest, ?_, ?_, ?_⟩
  · rw [htext, append_assoc, ← h.1]
    exact hbefore.1
  · rw [Tree.start, hspan, hstart]
  · rw [htext, Tree.stop, hspan, byteSize_append, hstart]
    exact h.byte_eq.symm

theorem Tree.Covers.coherent {t : Tree} (h : t.Covers c d) (hc : Within source c) : t.Coherent source := by
  obtain ⟨text, -, hpass⟩ := h.passes
  refine ⟨fun u hu => ?_, ?_, written_of_passes hc hpass h.span_eq⟩
  · rw [h.start_eq, h.stop_eq, (covers_rows h).1, (covers_rows h).2]
    exact coversAll_inside (h.children hu) hu
  · cases hcs : t.children with
    | nil => exact .nil
    | cons u us =>
      have hu : u ∈ t.children := hcs ▸ mem_cons_self
      exact hcs ▸ coversAll_pairwise (h.children hu)

theorem parse_coherent {dialect : Dialect} {root : Tree} (h : parse dialect source = some root) :
    ∀ v ∈ root.nodes, v.Coherent source := by
  obtain ⟨items, d, e, rfl, hitems, hgap, hrest⟩ := parse_covers h
  have horigin : Within source (.ofSource source) := ⟨[], passes_nil _⟩
  intro v hv
  rcases mem_nodes_node.1 hv with rfl | ⟨u, hu, hvu⟩
  · obtain ⟨text, hpass⟩ := coversAll_passes hitems
    obtain ⟨gap, hgap, -⟩ := hgap
    refine ⟨fun u hu => ?_, coversAll_pairwise hitems, written_of_passes horigin (hpass.trans hgap) rfl⟩
    obtain ⟨hstart, hstop, hrow, hrow'⟩ := coversAll_inside hitems hu
    exact ⟨hstart, hstop.trans (passes_byte_le hgap), hrow, hrow'.trans (passes_row_le hgap)⟩
  · obtain ⟨before, c', d', -, hbefore, hcovers, -⟩ := nodesOf_lie hitems v (mem_nodesOf.2 ⟨u, hu, hvu⟩)
    exact hcovers.coherent (horigin.passes hbefore)

end Syntax

namespace Outline

open Syntax

def ranged : List Char :=
  "/** É. */\nexport abstract class Été<T> \x7b\n  #x = 1;\n  m(): void \x7b\x7d\n\x7d\n".toList ++
    "export const a = 1, b = 2;\nfunction f() \x7b\x7d\nexport \x7b f \x7d;".toList

set_option maxRecDepth 1000 in
theorem ranges_coherent_nested : ∃ root, (∀ v ∈ root.nodes, v.Coherent ranged) ∧
    (ofTree ranged "a.ts" root).tree.walk.map (·.name) = ["Été", "#x", "m", "a", "b", "f"] ∧
    (∀ d ∈ (ofTree ranged "a.ts" root).tree.walk, d.InPlace ranged ∧
      ∀ m ∈ (ofTree ranged "a.ts" root).tree.membersOf d, m.MemberOf d.toDeclarationInfo) := by
  have hnames : ((parse .typescript ranged).map fun root => (ofTree ranged "a.ts" root).tree.walk.map (·.name))
      = some ["Été", "#x", "m", "a", "b", "f"] := by
    -- The kernel is slow to read characters off a literal.
    rw [show ranged = _ ++ _ from congrArg₂ _ String.toList_ofList String.toList_ofList]
    decide +kernel
  obtain ⟨root, hroot, hwalk⟩ := Option.map_eq_some_iff.1 hnames
  exact ⟨root, parse_coherent hroot, hwalk, (ranges_coherent ranged "a.ts" root (parse_coherent hroot)).2.2.1⟩

end Outline
end SourceBench
