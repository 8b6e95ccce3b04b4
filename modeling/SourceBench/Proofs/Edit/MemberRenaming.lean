import SourceBench.Proofs.Edit.Effect
import SourceBench.Proofs.Edit.MemberSplices
import SourceBench.Proofs.Outline.Echo

/-!
# Renaming a member

A member of a class is looked up by its name, and the first one is renamed, with all accesses of that name that are not
private.  If the result reads as the source does, with its trees moved, one member of the class less has the old name,
and the accesses that still take it are the private ones (`renameMember_leaves`).
-/
namespace SourceBench
namespace Renaming

open Syntax Reading Splice DeclarationTree List View String

def splicesOf [Recovery] (source : List Char) (op : Rename) : List Splice :=
  match plan (ofText source) op with
  | .ok p => p.edits
  | .error _ => []

def MovedBy (ss : List Splice) (t u : Tree) : Prop :=
  (u.start : Int) = moved ss t.start ∧ (u.stop : Int) = moved ss t.stop

instance (ss : List Splice) (t u : Tree) : Decidable (MovedBy ss t u) := inferInstanceAs (Decidable (_ ∧ _))

/-- The result reads as the source does, with its trees moved. -/
def ReadsAlike [Recovery] (source result : List Char) (op : Rename) : Prop :=
  Mirror (MovedBy (splicesOf source op)) (ofText source).tree (ofText result).tree

instance [Recovery] (source result : List Char) (op : Rename) : Decidable (ReadsAlike source result op) :=
  inferInstanceAs (Decidable (Mirror _ _ _))

def arena [Recovery] (source : List Char) : List Declaration := layOut source 0 (declared source (ofText source).tree)

variable {source result : List Char} {op : Rename} {n : Tree} {owner : String}

theorem outline_tree [SoundRecovery] (source : List Char) :
    (ofText source).outline.tree = DeclarationTree.empty.grow (arena source) :=
  ofTree_tree (groups_sound (ofText_coherent source)) "transform.ts"

/-! ## The renamed member -/

theorem plan_of_class (hscope : op.scope = .str "class") (howner : op.owner = .str owner) (hne : owner ≠ "")
    (v : View) :
    plan v op = ofMember v op owner := by
  have htruthy : (Value.str owner).truthy := by simp [Value.truthy, hne]
  simp [plan, hscope, howner, htruthy]

/-- The member that is renamed: it is in the class, has the old name, and its name is replaced. -/
structure Renames [Recovery] (source : List Char) (op : Rename) (owner : String) (c m : Declaration)
    (n : Tree) : Prop where
  found : (ofText source).outline.tree.find? .classDecl owner = some c
  member : m ∈ (ofText source).outline.tree.membersOf c
  named : m.name = op.old
  range : m.nameRange = some (rangeOf n)
  names : Names source op n
  inside : ∃ g ∈ groups source (ofText source).tree, g.item.kind = .classDecl ∧ ∃ b, g.item.body = some b ∧ n ∈ b.nodes

theorem of_memberNamed [SoundRecovery] {c m : Declaration} {name : String}
    (h : memberNamed (ofText source) c name = some m) :
    m ∈ arena source ∧ m.parent = some (c.id : Int) ∧ m.name = name := by
  have hof : ∀ {k : DeclKind}, (ofText source).outline.tree.findMember? c.id k name = some m →
      m ∈ arena source ∧ m.parent = some (c.id : Int) ∧ m.name = name := fun hfound =>
    have hm := of_findMember? (ofText_coherent source) "transform.ts" hfound
    ⟨hm.1, hm.2.1, hm.2.2.2⟩
  unfold memberNamed at h
  cases hmethod : (ofText source).outline.tree.findMember? c.id .method name with
  | none =>
    rw [hmethod] at h
    exact hof h
  | some m' =>
    rw [hmethod] at h
    cases h
    exact hof hmethod

theorem ofMember_eq_ok {v : View} {p : Plan} (h : ofMember v op owner = .ok p) :
    ∃ c m a b, v.outline.tree.find? .classDecl owner = some c ∧ memberNamed v c op.old = some m ∧
      m.nameRange = some (a, b) ∧
      p.edits = .replace a b op.new.toList :: v.tree.nodes.filterMap (accessSplice v.text op.old op.new) := by
  obtain ⟨⟨c, body⟩, hclass, h⟩ := bind_eq_ok_iff.1 h
  dsimp only at h
  split at h
  · next a b hr =>
    obtain ⟨m, hm, hrange⟩ := Option.bind_eq_some_iff.1 hr
    cases h
    exact ⟨c, m, a, b, (of_classNamed hclass).1, hm, hrange, rfl⟩
  · cases h

theorem renames_of_ok [SoundRecovery] {p : Plan} (h : ofMember (ofText source) op owner = .ok p) :
    ∃ c m n, Renames source op owner c m n ∧ p.edits = splicesFor source op n := by
  obtain ⟨c, m, a, b, hc, hm, hrange, hedits⟩ := ofMember_eq_ok h
  obtain ⟨hc', hroot, hkind, -⟩ := of_find? (ofText_coherent source) "transform.ts" hc
  obtain ⟨hm', hparent, hname⟩ := of_memberNamed hm
  have hmember : m ∈ (ofText source).outline.tree.membersOf c := by
    rw [outline_tree]
    exact mem_pick_of_parent (t := DeclarationTree.empty.grow (arena source)) rfl hc' hm' hparent
  obtain ⟨g, hg, hkind', hsite, -⟩ := members_of_class (ofText_coherent source) (ofText_wellNamed source) hc' hroot
  rw [outline_tree] at hmember
  obtain ⟨b', n, hb, hnb, hn, hrole, hk, hname', hrange'⟩ := hsite m hmember
  rw [← outline_tree] at hmember
  have htext : textOf source n = op.old.toList := by
    rw [← hname, hname', stringOf, String.toList_ofList]
  rw [hrange, Option.some.injEq, Prod.mk.injEq] at hrange'
  refine ⟨c, m, n, ⟨hc, hmember, hname, ?_, ⟨hn, hk, hrole, htext⟩, g, hg,
    hkind'.symm.trans hkind, b', hb, hnb⟩, ?_⟩
  · rw [hrange, hrange'.1, hrange'.2]
  · rw [hedits, hrange'.1, hrange'.2]
    rfl

/-! ## Counting members -/

theorem countP_of_forall₂ {old : String} {id : Nat} {ms ms' : List Declaration}
    (h : Forall₂ (fun d d' => d'.name = old ↔ d.name = old ∧ d.id ≠ id) ms ms') :
    ms'.countP (·.name == old) = ms.countP fun d => d.name == old && d.id != id := by
  induction h with
  | nil => rfl
  | cons hd _ ih =>
    rw [countP_cons, countP_cons, ih]
    congr 1
    simp only [beq_iff_eq, Bool.and_eq_true, bne_iff_ne, hd]

theorem countP_other {old : String} {m : Declaration} (hname : m.name = old) : ∀ {ms : List Declaration}, m ∈ ms →
    (ms.map (·.id)).Nodup → (ms.countP fun d => d.name == old && d.id != m.id) + 1 = ms.countP (·.name == old)
  | d :: ms, hm, hnodup => by
    obtain ⟨hd, hnodup⟩ := nodup_cons.1 hnodup
    rw [countP_cons, countP_cons]
    rcases mem_cons.1 hm with rfl | hm
    · have hrest : (ms.countP fun e => e.name == old && e.id != m.id) = ms.countP (·.name == old) := by
        refine countP_congr fun e he => ?_
        have hne : e.id ≠ m.id := fun heq => hd (mem_map.2 ⟨e, he, heq⟩)
        simp [hne]
      simp [hrest, hname]
    · have hne : d.id ≠ m.id := fun heq => hd (mem_map.2 ⟨m, hm, heq.symm⟩)
      rw [← countP_other hname hm hnodup]
      simp [hne]
      omega

/-! ## Declarations in the result -/

def Follows (ss : List Splice) (i i' : DeclarationInfo) : Prop :=
  i.kind = i'.kind ∧ i.parent = i'.parent ∧ ∃ n n', i.nameRange = some (rangeOf n) ∧ i'.nameRange = some (rangeOf n') ∧
    MovedBy ss n n'

def Pairs [Recovery] (source result : List Char) (ss : List Splice) (d d' : Declaration) : Prop :=
  d ∈ arena source ∧ d' ∈ arena result ∧ Follows ss d.toDeclarationInfo d'.toDeclarationInfo ∧ d.id = d'.id ∧
    d.members = d'.members

theorem arena_pairs [Recovery] {ss : List Splice} (h : Mirror (MovedBy ss) (ofText source).tree (ofText result).tree) :
    Forall₂ (Pairs source result ss) (arena source) (arena result) := by
  have hgroups : Forall₂ (Group.Mirrors (MovedBy ss) source result) (groups source (ofText source).tree)
      (groups result (ofText result).tree) := groupsAfter_mirror h.namedChildren none none
  have hdeclared : Forall₂ (fun g g' => Follows ss (g.head source) (g'.head result) ∧
      ∀ id, Forall₂ (Follows ss) (g.members source id) (g'.members result id))
      (declared source (ofText source).tree) (declared result (ofText result).tree) := by
    refine rel_map (fun g g' hg => ⟨⟨hg.item.kind, rfl, _, _, rfl, rfl, hg.item.name.related⟩, fun id => ?_⟩) hgroups
    refine (hg.members id).imp fun m m' hm => ?_
    obtain ⟨d, d', q, q', u, u', hd, -, -, -, -, rfl, rfl⟩ := hm
    exact ⟨hd.kind, rfl, _, _, rfl, rfl, hd.name.related⟩
  exact forall₂_mem (layOut_forall₂ hdeclared 0)

section Result

variable [SoundRecovery] {c m d d' : Declaration} (hold : op.old ≠ "") (hr : Renames source op owner c m n)
  (hresult : applyAll (splicesFor source op n) (Utf8.encode source) = Utf8.encode result)

include hresult

theorem readsAfter_of_bytes {a z a' z' : Nat} {text : List Char} (ha : (a' : Int) = moved (splicesFor source op n) a)
    (hz : (z' : Int) = moved (splicesFor source op n) z)
    (h : ((Utf8.encode result).drop a').take (z' - a') = Utf8.encode text) : ReadsAfter source op n a z text := by
  rw [ReadsAfter, ← ha, ← hz, hresult, slicePart_nat, h]

theorem Pairs.readsAfter (h : Pairs source result (splicesFor source op n) d d') {y : Tree}
    (hy : d.nameRange = some (rangeOf y)) : ReadsAfter source op n y.start y.stop d'.name.toList := by
  obtain ⟨-, hd', ⟨-, -, x, x', hx, hx', hstart, hstop⟩, -, -⟩ := h
  obtain ⟨⟨a, z, hrange, -, -, -, hbytes⟩, -⟩ := inPlace_of_mem_layOut (ofText_coherent result) hd'
  rw [hx, Option.some.injEq] at hy
  rw [hx', Option.some.injEq] at hrange
  cases hrange
  have hstart' : x.start = y.start := congrArg Prod.fst hy
  have hstop' : x.stop = y.stop := congrArg Prod.snd hy
  rw [hstart'] at hstart
  rw [hstop'] at hstop
  exact readsAfter_of_bytes hresult hstart hstop hbytes

include hold hr

theorem Pairs.className_eq (h : Pairs source result (splicesFor source op n) d d') (hparent : d.parent = none)
    (hkind : d.kind = .classDecl) : d'.name = d.name := by
  have hcoherent := ofText_coherent source
  have hnamed := ofText_wellNamed source
  obtain ⟨g, hg, hkind', hname, hrange⟩ := head_of_mem_layOut h.1 hparent
  rw [hkind] at hkind'
  obtain ⟨u, hu, hchild, hwanted, -⟩ := named_of_group hcoherent hnamed hg (hkind' ▸ by decide) (hkind' ▸ by decide)
  obtain ⟨g', hg', hclass, b, hb, hnb⟩ := hr.inside
  have hapart := className_apart hcoherent hnamed hg hg' hkind'.symm hclass hb hnb
  have hleaf : isName g.item.name.kind := by
    simp only [mem_cons, not_mem_nil, or_false] at hwanted
    rcases hwanted with hk | hk <;> rw [hk] <;> rfl
  have htext := (h.readsAfter hresult hrange).eq (readsAfter_identifier hold hr.names
    (Layout.nodes_trans hu (mem_nodes_of_child? hchild)) (child?_eq_some hchild).2 hleaf hapart)
  rw [hname, ← toList_inj, htext, stringOf, String.toList_ofList]

theorem find?_pairs (hreads : Mirror (MovedBy (splicesFor source op n)) (ofText source).tree (ofText result).tree) :
    ∃ c', (ofText result).outline.tree.find? .classDecl owner = some c' ∧
      Pairs source result (splicesFor source op n) c c' := by
  have hkeys : ∀ d d', Pairs source result (splicesFor source op n) d d' →
      (topKey? d == some (.classDecl, owner)) = (topKey? d' == some (.classDecl, owner)) := by
    intro d d' h
    obtain ⟨hkind, hparent, -⟩ := h.2.2.1
    unfold topKey?
    rw [← hparent, ← hkind]
    by_cases hclass : d.parent = none ∧ d.kind = .classDecl
    · rw [h.className_eq hold hr hresult hclass.1 hclass.2]
    · cases hnone : d.parent with
      | some o => rfl
      | none => simp [show d.kind ≠ .classDecl from fun hk => hclass ⟨hnone, hk⟩]
  have hfind : ∀ text, (ofText text).outline.tree.find? .classDecl owner
      = (arena text).find? (topKey? · == some (.classDecl, owner)) := fun text =>
    ofTree_find? (ofText_coherent text) "transform.ts" .classDecl owner
  have hrel := forall₂_find? hkeys (arena_pairs hreads)
  rw [← hfind, ← hfind, hr.found] at hrel
  generalize (ofText result).outline.tree.find? .classDecl owner = o at hrel
  cases hrel with
  | some h => exact ⟨_, rfl, h⟩

/-- **Members of the class have the old name in the result if they had it and are not the one that was renamed.** -/
theorem Pairs.member_iff (hnew : ¬ op.new.toList <:+: source) (h : Pairs source result (splicesFor source op n) d d')
    (hd : d ∈ (ofText source).outline.tree.membersOf c) : d'.name = op.old ↔ d.name = op.old ∧ d.id ≠ m.id := by
  have hcoherent := ofText_coherent source
  obtain ⟨hc, hparent, -⟩ := of_find? hcoherent "transform.ts" hr.found
  obtain ⟨_, -, -, hsite, hapart, -⟩ := members_of_class hcoherent (ofText_wellNamed source) hc hparent
  have hm := hr.member
  rw [outline_tree] at hd hm
  have hm' : m ∈ arena source := mem_of_mem_pick hm
  obtain ⟨_, y, -, -, hy, hrole, hk, hname, hrange⟩ := hsite d hd
  have hafter := h.readsAfter hresult hrange
  rw [← toList_inj]
  by_cases hid : d.id = m.id
  · -- The renamed member itself.
    have hsame : d = m := by
      have hget : (arena source)[d.id]? = some d := layOut_getElem? h.1
      rw [hid] at hget
      exact Option.some.inj (hget.symm.trans (layOut_getElem? hm'))
    subst hsame
    rw [(h.readsAfter hresult hr.range).eq (readsAfter_name hold hr.names)]
    exact iff_of_false (new_ne_old hr.names hnew) fun hcontra => hcontra.2 rfl
  · -- Members of one class lie apart, and their names in them.
    have hpair := apart_of_pairwise hapart hd hm fun heq => hid (congrArg Declaration.id heq)
    have hplace : ∀ {e : Declaration} {x : Tree}, e ∈ arena source → e.nameRange = some (rangeOf x) →
        e.startByte ≤ x.start ∧ x.stop ≤ e.stopByte := fun he hx => by
      obtain ⟨⟨a, z, hrange, hstart, -, hstop, -⟩, -⟩ := inPlace_of_mem_layOut hcoherent he
      rw [hx, Option.some.injEq] at hrange
      cases hrange
      exact ⟨hstart, hstop⟩
    have hplaceD := hplace h.1 hrange
    have hplaceM := hplace hm' hr.range
    rw [after_apart hold hr.names hnew hy hk hrole (by omega) hafter, and_iff_left hid, ← toList_inj, hname, stringOf,
      String.toList_ofList]

/-- **One member of the class less has the old name.** -/
theorem Pairs.countP_members (hnew : ¬ op.new.toList <:+: source)
    (hreads : Mirror (MovedBy (splicesFor source op n)) (ofText source).tree (ofText result).tree)
    (h : Pairs source result (splicesFor source op n) c d') :
    ((ofText result).outline.tree.membersOf d').countP (·.name == op.old) + 1
      = ((ofText source).outline.tree.membersOf c).countP (·.name == op.old) := by
  have hpairs : Forall₂ (Pairs source result (splicesFor source op n)) ((ofText source).outline.tree.membersOf c)
      ((ofText result).outline.tree.membersOf d') := by
    rw [outline_tree, outline_tree, membersOf, membersOf, ← h.2.2.2.2]
    exact pick_forall₂ (t := DeclarationTree.empty.grow (arena source))
      (u := DeclarationTree.empty.grow (arena result)) (arena_pairs hreads) c.members
  have hiff := (forall₂_mem hpairs).imp fun e e' he => he.2.2.member_iff hold hr hresult hnew he.1
  obtain ⟨hc, hparent, -⟩ := of_find? (ofText_coherent source) "transform.ts" hr.found
  obtain ⟨_, -, -, -, -, hnodup⟩ := members_of_class (ofText_coherent source) (ofText_wellNamed source) hc hparent
  rw [countP_of_forall₂ hiff]
  refine countP_other hr.named hr.member ?_
  rw [outline_tree]
  exact hnodup

/-- **Accesses take the old name in the result if they are private and took it before.** -/
theorem accesses_iff (hclosed : (ofText source).tree.Closed) (hnew : ¬ op.new.toList <:+: source)
    (hreads : Mirror (MovedBy (splicesFor source op n)) (ofText source).tree (ofText result).tree) :
    Forall₂ (fun p p' => textOf result p' = op.old.toList ↔
      textOf source p = op.old.toList ∧ p.kind = .privatePropertyIdentifier) (accesses source) (accesses result) := by
  have hpairs : Forall₂ (Mirror (MovedBy (splicesFor source op n))) (accesses source) (accesses result) := by
    refine rel_filterMap (fun u u' hu => ?_) hreads.nodes
    rw [hu.kind_eq]
    split
    · exact hu.child? .property
    · exact .none
  refine (forall₂_mem hpairs).imp fun p p' hp => ?_
  obtain ⟨hp, hp', hmirror⟩ := hp
  have hbytes := (ofText_coherent result p' (access_mem hp')).bytes
  exact after_access hold hr.names hclosed hnew hp
    (readsAfter_of_bytes hresult hmirror.related.1 hmirror.related.2 hbytes)

end Result

end Renaming

namespace Transformation

open Syntax Reading Renaming Splice List

/-- **Renaming a member**, by a name that is not in the source: accesses of the old name take the new one, but for
private ones, which are left.  If the result reads as the source does, one member of the class less has the old name,
and the accesses that take it are the private ones.  So none is left exactly if the class had one member of the name,
and no private access took it. -/
theorem renameMember_leaves [SoundRecovery] {source : List Char} {op : Rename} {owner : String} {t : Transformation}
    (h : run source [.rename op] = .ok t) (hs : t.succeeded = true) (hscope : op.scope = .str "class")
    (howner : op.owner = .str owner) (hne : owner ≠ "") (hnew : ¬ op.new.toList <:+: source)
    (hbroken : parse .typescript source = none → op.old ≠ "" ∧ (View.ofText source).tree.Closed) :
    ∃ result, t.source? = some result ∧
      (∀ p ∈ accesses source, textOf source p = op.old.toList →
        slicePart (Utf8.encode result) (moved (splicesOf source op) p.start) (moved (splicesOf source op) p.stop)
          = Utf8.encode (if p.kind = .privatePropertyIdentifier then op.old.toList else op.new.toList)) ∧
      (ReadsAlike source result op → ∃ c c',
        (View.ofText source).outline.tree.find? .classDecl owner = some c ∧
        (View.ofText result).outline.tree.find? .classDecl owner = some c' ∧
        ((View.ofText result).outline.tree.membersOf c').countP (·.name == op.old) + 1
          = ((View.ofText source).outline.tree.membersOf c).countP (·.name == op.old) ∧
        Forall₂ (fun p p' => textOf result p' = op.old.toList ↔
          textOf source p = op.old.toList ∧ p.kind = .privatePropertyIdentifier) (accesses source) (accesses result) ∧
        ((∀ m ∈ (View.ofText result).outline.tree.membersOf c', m.name ≠ op.old) ∧
            (∀ p ∈ accesses result, textOf result p ≠ op.old.toList) ↔
          ((View.ofText source).outline.tree.membersOf c).countP (·.name == op.old) = 1 ∧
            ∀ p ∈ accesses source, textOf source p = op.old.toList → p.kind ≠ .privatePropertyIdentifier)) := by
  obtain ⟨plan, hplan, hbytes⟩ := plan_of_succeeded h hs rfl
  have hmember : ofMember (View.ofText source) op owner = .ok plan := by
    rw [← plan_of_class hscope howner hne]
    exact hplan
  obtain ⟨c, m, n, hr, hedits⟩ := renames_of_ok hmember
  have hsplices : splicesOf source op = splicesFor source op n := by
    rw [splicesOf, plan_of_class hscope howner hne, hmember]
    exact hedits
  have hold := View.ne_nil_of_text hr.names.mem (fun hk => by
    have := hr.names.kind; rw [hk] at this; simp [memberNames] at this)
    hr.names.text fun hnone => (hbroken hnone).1
  obtain ⟨result, hresult⟩ := splicesFor_text hr.names
  refine ⟨result, by rw [source?, Document.text?, hbytes, hedits, hresult, Utf8.decode_encode], fun p hp htext => ?_,
    fun hreads => ?_⟩
  · rw [hsplices, ← hresult]
    split
    · exact readsAfter_private hold hr.names hp ‹_› htext
    · exact readsAfter_taken hold hr.names hp ⟨(access_kind hp).resolve_right ‹_›, htext⟩
  · rw [ReadsAlike, hsplices] at hreads
    obtain ⟨c', hfound, hpair⟩ := find?_pairs hold hr hresult hreads
    have haccesses := accesses_iff hold hr hresult (View.ofText_closed fun hnone => (hbroken hnone).2) hnew hreads
    have hcount := hpair.countP_members hold hr hresult hnew hreads
    refine ⟨c, c', hr.found, hfound, hcount, haccesses, and_congr ?_ ?_⟩
    · have hzero : (∀ m ∈ (View.ofText result).outline.tree.membersOf c', m.name ≠ op.old) ↔
          ((View.ofText result).outline.tree.membersOf c').countP (·.name == op.old) = 0 := by
        simp only [countP_eq_zero, beq_iff_eq, ne_eq]
      rw [hzero]
      omega
    · refine (forall_mem_iff_of_forall₂ (fun p p' hp => ?_) haccesses).symm
      exact not_and.symm.trans (not_congr hp).symm

attribute [local instance] SoundRecovery.bare

def fieldClass : List Char := "class A \x7b x = 1; f() \x7b return this.x; \x7d \x7d\nnew A().x;\n".toList

def fieldClassRenamed : List Char := "class A \x7b y = 1; f() \x7b return this.y; \x7d \x7d\nnew A().y;\n".toList

def fieldToY : Rename := ⟨"x", "y", .str "class", .str "A"⟩

-- Lest the trees be read once more to see whether a proof of it is a function.
attribute [local irreducible] ReadsAlike

theorem renameMember_leaves_none :
    ∃ t, run fieldClass [.rename fieldToY] = .ok t ∧ t.succeeded = true ∧ t.source? = some fieldClassRenamed ∧
      (accesses fieldClass).map (textOf fieldClass) = ["x".toList, "x".toList] ∧
      ReadsAlike fieldClass fieldClassRenamed fieldToY ∧
      ∃ c', (View.ofText fieldClassRenamed).outline.tree.find? .classDecl "A" = some c' ∧
        (∀ m ∈ (View.ofText fieldClassRenamed).outline.tree.membersOf c', m.name ≠ "x") ∧
        ∀ p ∈ accesses fieldClassRenamed, textOf fieldClassRenamed p ≠ "x".toList := by
  obtain ⟨⟨t, hrun, hs, htext⟩, hfresh, hparse, hreads, htaken, hpublic, hone⟩ :
      (∃ t, run fieldClass [.rename fieldToY] = .ok t ∧ t.succeeded = true ∧ t.source? = some fieldClassRenamed) ∧
      ¬ fieldToY.new.toList <:+: fieldClass ∧ (parse .typescript fieldClass).isSome = true ∧
      ReadsAlike fieldClass fieldClassRenamed fieldToY ∧
      (accesses fieldClass).map (textOf fieldClass) = ["x".toList, "x".toList] ∧
      (∀ p ∈ accesses fieldClass, textOf fieldClass p = fieldToY.old.toList → p.kind ≠ .privatePropertyIdentifier) ∧
      ((View.ofText fieldClass).outline.tree.find? .classDecl "A").map (fun c =>
        ((View.ofText fieldClass).outline.tree.membersOf c).countP (·.name == "x")) = some 1 := by
    rw [show fieldClass = _ from String.toList_ofList, show fieldClassRenamed = _ from String.toList_ofList]
    decide +kernel
  obtain ⟨result, hresult, -, hread⟩ := renameMember_leaves hrun hs rfl rfl (by decide) hfresh fun hnone => by
    rw [hnone] at hparse
    cases hparse
  rw [htext, Option.some.injEq] at hresult
  subst hresult
  obtain ⟨c, c', hc, hc', -, -, hnone⟩ := hread hreads
  rw [hc] at hone
  exact ⟨t, hrun, hs, htext, htaken, hreads, c', hc', hnone.2 ⟨Option.some.inj hone, hpublic⟩⟩

def privateClass : List Char := "class A \x7b #x = 1; f() \x7b return this.#x; \x7d \x7d\n".toList

def privateClassRenamed : List Char := "class A \x7b #y = 1; f() \x7b return this.#x; \x7d \x7d\n".toList

def privateToY : Rename := ⟨"#x", "#y", .str "class", .str "A"⟩

/-- **A private field comes apart from its accesses.** -/
theorem renameMember_parts_private :
    (∃ t, run privateClass [.rename privateToY] = .ok t ∧ t.succeeded = true ∧ t.source? = some privateClassRenamed) ∧
    ¬ privateToY.new.toList <:+: privateClass ∧
    ∃ p ∈ accesses privateClassRenamed, textOf privateClassRenamed p = privateToY.old.toList := by
  rw [show privateClass = _ from String.toList_ofList, show privateClassRenamed = _ from String.toList_ofList]
  decide +kernel

end Transformation
end SourceBench
