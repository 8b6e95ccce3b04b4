import SourceBench.Proofs.Outline.Nesting
import SourceBench.Proofs.Syntax.Names

/-!
# Looking declarations up

What is looked up in an outline is the first declaration, or the first member of an owner, of a kind and a name
(`ofTree_find?`, `ofTree_findMember?`).  But for variables, the name of a declaration is a child of the tree that
declares it (`groupsIn_named`), and two declarations are made by statements apart (`groups_apart`).
-/
namespace SourceBench.Reading

open Syntax DeclarationTree List Layout DeclarationTree Option

variable {kind : DeclKind} {name : String} {g' : Group}

theorem topKey?_eq_some {d : Declaration} (h : topKey? d = some (kind, name)) :
    d.parent = none ∧ d.kind = kind ∧ d.name = name := by
  unfold topKey? at h
  split at h
  · rename_i hparent
    cases h
    exact ⟨Option.isNone_iff_eq_none.1 hparent, rfl, rfl⟩
  · cases h

theorem memberKey?_eq_some {d : Declaration} {owner : Int}
    (h : memberKey? d = some (owner, kind, name)) : d.parent = some owner ∧ d.kind = kind ∧ d.name = name := by
  obtain ⟨p, hp, hkey⟩ := Option.map_eq_some_iff.1 h
  cases hkey
  exact ⟨hp, rfl, rfl⟩

section Found

variable {source : List Char} {root : Tree} {d : Declaration}

theorem layOut_getElem? (hd : d ∈ layOut source 0 (declared source root)) :
    (layOut source 0 (declared source root))[d.id]? = some d :=
  getElem?_id (t := empty.grow (layOut source 0 (declared source root))) rfl hd

variable (h : ∀ v ∈ root.nodes, v.Coherent source) (path : String)

include h

theorem ofTree_find? (kind : DeclKind) (name : String) : (Outline.ofTree source path root).tree.find? kind name
    = (layOut source 0 (declared source root)).find? (topKey? · == some (kind, name)) := by
  rw [ofTree_tree (groups_sound h) path, find?_grow fun d hd => layOut_getElem? hd]

theorem ofTree_findMember? (owner : Nat) (kind : DeclKind) (name : String) :
    (Outline.ofTree source path root).tree.findMember? owner kind name
      = (layOut source 0 (declared source root)).find? (memberKey? · == some ((owner : Int), kind, name)) := by
  rw [ofTree_tree (groups_sound h) path, findMember?_grow fun d hd => layOut_getElem? hd]

theorem of_find? (hd : (Outline.ofTree source path root).tree.find? kind name = some d) :
    d ∈ layOut source 0 (declared source root) ∧ d.parent = none ∧ d.kind = kind ∧ d.name = name := by
  rw [ofTree_find? h] at hd
  have hkey := find?_some hd
  exact ⟨mem_of_find?_eq_some hd, topKey?_eq_some (beq_iff_eq.1 hkey)⟩

theorem of_findMember? {owner : Nat} (hd : (Outline.ofTree source path root).tree.findMember? owner kind name
      = some d) :
    d ∈ layOut source 0 (declared source root) ∧ d.parent = some (owner : Int) ∧ d.kind = kind ∧ d.name = name := by
  rw [ofTree_findMember? h] at hd
  have hkey := find?_some hd
  exact ⟨mem_of_find?_eq_some hd, memberKey?_eq_some (beq_iff_eq.1 hkey)⟩

end Found

variable {source : List Char} {root t : Tree} {d : Item} {g : Group}

theorem head_of_mem_layOut {d : Declaration} (hd : d ∈ layOut source 0 (declared source root))
    (hparent : d.parent = none) :
    ∃ g ∈ groups source root, d.kind = g.item.kind ∧ d.name = stringOf source g.item.name ∧
      d.nameRange = some (rangeOf g.item.name) := by
  obtain ⟨_, hg, hd⟩ := mem_layOut hd
  obtain ⟨g, hmem, rfl⟩ := mem_map.1 hg
  rcases hd with hd | ⟨id, hd, -⟩
  · exact ⟨g, hmem, by rw [hd]; rfl, by rw [hd]; rfl, by rw [hd]; rfl⟩
  · rw [parent_of_mem_membersIn hd] at hparent
    cases hparent

/-! ## What declares -/

theorem variable_of_mem (h : d ∈ variableItems source t) : d.kind = .variableDecl := by
  obtain ⟨v, -, hd⟩ := mem_filterMap.1 h
  obtain ⟨name, -, rfl⟩ := Option.map_eq_some_iff.1 hd
  rfl

theorem namedItem?_name {name : Tree} (h : namedItem? source t name = some d) : d.name = name := by
  revert h
  fun_cases namedItem? source t name <;> intro h <;> cases h <;> rfl

theorem itemsOf_named {exported : Bool} (h : d ∈ itemsOf source exported t) (hd : d.kind ≠ .variableDecl) :
    t.child? .name = some d.name ∧ namedItem? source t d.name = some d := by
  rcases itemsOf_cases h with h | ⟨name, hname, hitem⟩
  · exact absurd (variable_of_mem h) hd
  · obtain rfl := namedItem?_name hitem
    exact ⟨hname, hitem⟩

theorem groupsIn_named {previous : Option Tree} (h : g ∈ groupsIn source previous t)
    (hg : g.item.kind ≠ .variableDecl) :
    ∃ u, declaration? t = some u ∧ u.child? .name = some g.item.name ∧
      namedItem? source u g.item.name = some g.item := by
  obtain ⟨-, u, hu, hitem⟩ := mem_groupsIn h
  exact ⟨u, hu, itemsOf_named hitem hg⟩

theorem namedItem?_eq_some {name : Tree} (h : namedItem? source t name = some d) (hd : d.kind ≠ .enumeration) :
    wanted t.kind = some (.name, [.identifier, .typeIdentifier]) ∧ (d.kind = .classDecl → d.body = t.child? .body) := by
  revert h
  fun_cases namedItem? source t name <;> intro h <;> cases h
  case case1 hk | case2 hk | case3 hk _ | case4 hk | case5 hk => exact ⟨by rw [hk]; rfl, fun _ => rfl⟩
  case case6 hk => exact ⟨by rw [hk]; rfl, fun hclass => by cases hclass⟩
  case case7 => exact absurd rfl hd

theorem child?_eq_some {u : Tree} {r : Role} (h : t.child? r = some u) : u ∈ t.children ∧ u.role = r := by
  have hrole := find?_some h
  exact ⟨mem_of_find?_eq_some h, beq_iff_eq.1 hrole⟩

theorem memberItem?_named {m : Tree} (h : memberItem? source m = some d) :
    m.child? .name = some d.name ∧ wanted m.kind = some (.name, memberNames) := by
  revert h
  fun_cases memberItem? source m <;> intro h
  case case1 | case7 => cases h
  case case2 name hname hk | case3 name hname hk | case4 name hname hk | case5 name hname hk | case6 name hname hk =>
    cases h
    exact ⟨hname, by rw [hk]; rfl⟩

variable (h : ∀ v ∈ root.nodes, v.Coherent source)

include h

theorem named_of_group (hroot : WellNamed root) (hg : g ∈ groups source root)
    (hk : g.item.kind ≠ .variableDecl) (hk' : g.item.kind ≠ .enumeration) :
    ∃ u ∈ root.nodes, u.child? .name = some g.item.name ∧ g.item.name.kind ∈ [.identifier, .typeIdentifier] ∧
      (g.item.kind = .classDecl → g.item.body = u.child? .body) := by
  obtain ⟨t, ht, -, q, hgt⟩ := mem_groups h hg
  obtain ⟨u, hu, hname, hitem⟩ := groupsIn_named hgt hk
  obtain ⟨hwanted, hbody⟩ := namedItem?_eq_some hitem hk'
  have hmem := nodes_trans (mem_nodes_of_child ht) (mem_nodes_of_declaration? hu)
  exact ⟨u, hmem, hname, hroot.kind_of_child? hmem hwanted hname, hbody⟩

/-- **Two declarations that are no variables** are the same item, or are made by statements apart. -/
theorem groups_apart (hg : g ∈ groups source root) (hg' : g' ∈ groups source root)
    (hk : g.item.kind ≠ .variableDecl) (hk' : g'.item.kind ≠ .variableDecl) :
    ∃ t t', t ∈ root.nodes ∧ t' ∈ root.nodes ∧ g.item.From t ∧ g'.item.From t' ∧
      (g.item = g'.item ∨ t.stop ≤ t'.start ∨ t'.stop ≤ t.start) := by
  obtain ⟨t, ht, -, q, hgt⟩ := mem_groups h hg
  obtain ⟨t', ht', -, q', hgt'⟩ := mem_groups h hg'
  refine ⟨t, t', mem_nodes_of_child ht, mem_nodes_of_child ht', (groupsIn_from hgt).2, (groupsIn_from hgt').2, ?_⟩
  rcases (h _ (self_mem_nodes _)).siblings ht ht' with rfl | hapart
  · obtain ⟨u, hu, hname, hitem⟩ := groupsIn_named hgt hk
    obtain ⟨u', hu', hname', hitem'⟩ := groupsIn_named hgt' hk'
    rw [hu, some.injEq] at hu'
    subst hu'
    rw [hname, some.injEq] at hname'
    rw [← hname', hitem, some.injEq] at hitem'
    exact .inl hitem'
  · exact .inr hapart

theorem className_apart (hnamed : WellNamed root) (hg : g ∈ groups source root)
    (hg' : g' ∈ groups source root) (hk : g.item.kind = .classDecl) (hk' : g'.item.kind = .classDecl) {b n : Tree}
    (hb : g'.item.body = some b) (hn : n ∈ b.nodes) : n.stop ≤ g.item.name.start ∨ g.item.name.stop ≤ n.start := by
  have hinside : ∀ {t u : Tree}, t ∈ root.nodes → u ∈ t.nodes → t.start ≤ u.start ∧ u.stop ≤ t.stop := fun ht hu =>
    have hin := Tree.inside_of_mem_nodes (fun v hv => h v (nodes_trans ht hv)) hu
    ⟨hin.1, hin.2.1⟩
  obtain ⟨t, t', ht, ht', hfrom, hfrom', heq | hapart⟩ :=
    groups_apart h hg hg' (by rw [hk]; decide) (by rw [hk']; decide)
  · obtain ⟨u, hu, hname, -, hbody⟩ := named_of_group h hnamed hg (by rw [hk]; decide) (by rw [hk]; decide)
    rw [← heq, hbody hk] at hb
    obtain ⟨hname, hrole⟩ := child?_eq_some hname
    obtain ⟨hb, hrole'⟩ := child?_eq_some hb
    have hin := hinside (nodes_trans hu (mem_nodes_of_child hb)) hn
    rcases (h u hu).siblings hname hb with rfl | hle | hle
    · rw [hrole] at hrole'
      cases hrole'
    · exact .inr (hle.trans hin.1)
    · exact .inl (hin.2.trans hle)
  · have hin := hinside ht hfrom.1
    have hin' := hinside ht' (nodes_trans (hfrom'.2 b hb) hn)
    omega

theorem members_of_class (hnamed : WellNamed root) {c : Declaration}
    (hc : c ∈ layOut source 0 (declared source root)) (hparent : c.parent = none) :
    ∃ g ∈ groups source root, c.kind = g.item.kind ∧
      (∀ m ∈ (empty.grow (layOut source 0 (declared source root))).membersOf c, ∃ b n,
        g.item.body = some b ∧ n ∈ b.nodes ∧ n ∈ root.nodes ∧ n.role = .name ∧ n.kind ∈ memberNames ∧
          m.name = stringOf source n ∧ m.nameRange = some (rangeOf n)) ∧
      (((empty.grow (layOut source 0 (declared source root))).membersOf c).Pairwise fun m m' =>
        m.stopByte ≤ m'.startByte) ∧
      (((empty.grow (layOut source 0 (declared source root))).membersOf c).map (·.id)).Nodup := by
  obtain ⟨_, hg, hhead, hpick⟩ := pick_members (t := empty.grow (layOut source 0 (declared source root)))
    _ [] rfl c hc (by rw [hparent]; rfl)
  obtain ⟨g, hmem, rfl⟩ := mem_map.1 hg
  obtain ⟨t, ht, hcoherent, q, hgt⟩ := mem_groups h hmem
  refine ⟨g, hmem, by rw [hhead]; rfl, fun m hm => ?_, ?_, ?_⟩
  · rw [membersOf, hpick] at hm
    obtain ⟨b, q', u, d, hb, hbt, hu, hd, hinfo⟩ := mem_members hgt (mem_numbered hm).1
    obtain ⟨hname, hwanted⟩ := memberItem?_named hd
    have hub := mem_nodes_of_child hu
    have hut := nodes_trans (nodes_trans (mem_nodes_of_child ht) hbt) hub
    exact ⟨b, d.name, hb, nodes_trans hub (mem_nodes_of_child? hname),
      nodes_trans hut (mem_nodes_of_child? hname), (child?_eq_some hname).2,
      hnamed.kind_of_child? hut hwanted hname, by rw [hinfo]; rfl, by rw [hinfo]; rfl⟩
  · have hapart := members_apart hcoherent hgt c.id
    rw [membersOf, hpick]
    rw [← numbered_infos (g.members source c.id) (c.id + 1), pairwise_map] at hapart
    exact hapart
  · rw [membersOf, hpick, numbered_ids]
    exact nodup_range'

end SourceBench.Reading
