import SourceBench.Edit.Renaming
import SourceBench.Proofs.Edit.Views
import SourceBench.Proofs.Outline.Lookup

/-!
# The splices that rename a member

Renaming a member replaces one name in the body of its class and the properties of that name in all member accesses, but
for private ones.  These splices lie apart (`splicesFor_tidy`), so what a name reads afterwards can be told from where
it stands: the renamed ones read the new name, and any other reads the old one only if it did before (`after_apart`,
`after_access`).
-/
namespace SourceBench.Renaming

open Syntax Reading Splice List View

section

variable [Recovery]

def accesses (source : List Char) : List Tree :=
  (ofText source).tree.nodes.filterMap fun t => if t.kind == .memberExpression then t.child? .property else none

def accessSplices (source : List Char) (op : Rename) : List Splice :=
  (ofText source).tree.nodes.filterMap (accessSplice source op.old op.new)

def splicesFor (source : List Char) (op : Rename) (n : Tree) : List Splice :=
  .replace n.start n.stop op.new.toList :: accessSplices source op

/-- The tree is the name of a member in the source, and reads the old name. -/
structure Names (source : List Char) (op : Rename) (n : Tree) : Prop where
  mem : n ∈ (ofText source).tree.nodes
  kind : n.kind ∈ memberNames
  role : n.role = .name
  text : textOf source n = op.old.toList

end

def Taken (source : List Char) (op : Rename) (p : Tree) : Prop :=
  p.kind = .propertyIdentifier ∧ textOf source p = op.old.toList

variable {source : List Char} {op : Rename} {n p y : Tree}

theorem accessSplice_eq_some {u : Tree} {s : Splice} : accessSplice source op.old op.new u = some s ↔
    u.kind = .memberExpression ∧ ∃ p, u.child? .property = some p ∧ Taken source op p ∧
      .replace p.start p.stop op.new.toList = s := by
  unfold accessSplice
  cases hp : u.child? .property with
  | none => simp
  | some p => simp [Taken, and_assoc]

variable [SoundRecovery]

/-! ## Accesses -/

theorem mem_accesses : p ∈ accesses source ↔
    ∃ u ∈ (ofText source).tree.nodes, u.kind = .memberExpression ∧ u.child? .property = some p := by
  simp only [accesses, mem_filterMap, Option.ite_none_right_eq_some, beq_iff_eq]

section

variable (hp : p ∈ accesses source)

include hp

theorem access_kind : p.kind = .propertyIdentifier ∨ p.kind = .privatePropertyIdentifier := by
  obtain ⟨u, hu, hk, hchild⟩ := mem_accesses.1 hp
  have := (ofText_wellNamed source).kind_of_child? hu (by rw [hk]; rfl) hchild
  simpa using this

theorem access_isName : isName p.kind := by
  rcases access_kind hp with h | h <;> rw [h] <;> rfl

theorem access_mem : p ∈ (ofText source).tree.nodes := by
  obtain ⟨u, hu, -, hchild⟩ := mem_accesses.1 hp
  exact Layout.nodes_trans hu (mem_nodes_of_child? hchild)

theorem access_role : p.role = .property := by
  obtain ⟨u, -, -, hchild⟩ := mem_accesses.1 hp
  exact (child?_eq_some hchild).2

theorem access_below_or_apart (hy : y ∈ (ofText source).tree.nodes) (hrole : y.role = .name) :
    p.Below y ∨ p.stop ≤ y.start ∨ y.stop ≤ p.start := by
  rcases Tree.related (ofText_coherent source) (access_mem hp) hy with h | h | h | h
  · rw [← h, access_role hp] at hrole
    cases hrole
  · exact absurd h (not_below_name (access_mem hp) (access_isName hp))
  · exact .inl h
  · exact .inr h

end

theorem access_apart_of_taken {q : Tree} (hp : p ∈ accesses source) (hq : q ∈ accesses source)
    (htaken : Taken source op q) (hnot : ¬ Taken source op p) : q.stop ≤ p.start ∨ p.stop ≤ q.start := by
  refine (names_apart (access_mem hq) (access_mem hp) (access_isName hq) (access_isName hp)).resolve_left ?_
  rintro rfl
  exact hnot htaken

theorem mem_accessSplices {s : Splice} : s ∈ accessSplices source op ↔
    ∃ p ∈ accesses source, Taken source op p ∧ .replace p.start p.stop op.new.toList = s := by
  simp only [accessSplices, mem_filterMap, accessSplice_eq_some, mem_accesses]
  constructor
  · rintro ⟨u, hu, hk, p, hchild, htaken, rfl⟩
    exact ⟨p, ⟨u, hu, hk, hchild⟩, htaken, rfl⟩
  · rintro ⟨p, ⟨u, hu, hk, hchild⟩, htaken, rfl⟩
    exact ⟨u, hu, hk, p, hchild, htaken, rfl⟩

/-! ## Splices that lie apart -/

theorem text_ne_of_below (hy : y ∈ (ofText source).tree.nodes) (hk : y.kind ∈ memberNames) (hp : p ∈ accesses source)
    (hbelow : p.Below y) : textOf source p ≠ textOf source y := by
  intro htext
  have hin := inside_of_below hy hbelow
  have hless := (ofText_sound source).bracketed y hy (isBracketed_of_below hy hk hbelow) p hbelow (access_isName hp)
  have hsize := (ofText_coherent source p (access_mem hp)).size
  have hsize' := (ofText_coherent source y hy).size
  rw [htext] at hsize
  omega

theorem accessSplices_apart (source : List Char) (op : Rename) : (accessSplices source op).Pairwise Apart := by
  refine pairwise_filterMap.2 ((nodes_pairwise (ofText_coherent source)).imp_of_mem ?_)
  intro u w hu hw huw s hs s' hs'
  obtain ⟨hk, p, hp, -, rfl⟩ := accessSplice_eq_some.1 hs
  obtain ⟨hk', p', hp', -, rfl⟩ := accessSplice_eq_some.1 hs'
  have hchild := (child?_eq_some hp).1
  have hin := inside_of_mem hu (mem_nodes_of_child? hp)
  have hin' := inside_of_mem hw (mem_nodes_of_child? hp')
  rcases huw with ⟨c, hc, hwc⟩ | hle
  · -- The inner access is not in the property that the outer one takes, which is a leaf.
    have hwin := inside_of_mem (Layout.nodes_trans hu (Layout.mem_nodes_of_child hc)) hwc
    rcases (ofText_coherent source u hu).siblings hchild hc with rfl | hle | hle
    · have hname := access_isName (mem_accesses.2 ⟨u, hu, hk, hp⟩)
      have hleaf := children_of_isName (access_mem (mem_accesses.2 ⟨u, hu, hk, hp⟩)) hname
      cases p with
      | leaf r k s x =>
        rw [Tree.nodes, mem_singleton] at hwc
        rw [hwc] at hk'
        rw [hk'] at hname
        cases hname
      | node r k s cs =>
        rw [Tree.children] at hleaf
        rw [hleaf, Tree.nodes, Tree.nodesOf, mem_singleton] at hwc
        rw [hwc] at hk'
        rw [show k = _ from hk'] at hname
        cases hname
    · exact .inl (Int.ofNat_le.2 (by omega))
    · exact .inr (Int.ofNat_le.2 (by omega))
  · exact .inl (Int.ofNat_le.2 (by omega))

theorem splicesFor_apart (hn : Names source op n) : (splicesFor source op n).Pairwise Apart := by
  refine pairwise_cons.2 ⟨fun s hs => ?_, accessSplices_apart source op⟩
  obtain ⟨p, hp, htaken, rfl⟩ := mem_accessSplices.1 hs
  rcases access_below_or_apart hp hn.mem hn.role with hbelow | hle | hle
  · exact absurd (htaken.2.trans hn.text.symm) (text_ne_of_below hn.mem hn.kind hp hbelow)
  · exact .inr (Int.ofNat_le.2 hle)
  · exact .inl (Int.ofNat_le.2 hle)

theorem mem_splicesFor (hn : Names source op n) {s : Splice} (hs : s ∈ splicesFor source op n) :
    ∃ u ∈ (ofText source).tree.nodes, textOf source u = op.old.toList ∧ .replace u.start u.stop op.new.toList = s := by
  rcases mem_cons.1 hs with rfl | hs
  · exact ⟨n, hn.mem, hn.text, rfl⟩
  · obtain ⟨p, hp, htaken, rfl⟩ := mem_accessSplices.1 hs
    exact ⟨p, access_mem hp, htaken.2, rfl⟩

theorem splicesFor_tidy (hold : op.old ≠ "") (hn : Names source op n) :
    Tidy (Utf8.encode source).length (splicesFor source op n) := by
  refine ⟨fun s hs => ?_, splicesFor_apart hn⟩
  obtain ⟨u, hu, htext, rfl⟩ := mem_splicesFor hn hs
  exact lies_replace hu htext hold _

theorem splicesFor_text (hn : Names source op n) :
    ∃ result, applyAll (splicesFor source op n) (Utf8.encode source) = Utf8.encode result := by
  refine applyAll_text (fun s hs => ?_) (splicesFor_apart hn) fun s hs => ?_
  · obtain ⟨u, hu, -, rfl⟩ := mem_splicesFor hn hs
    exact within_replace hu _
  · obtain ⟨u, hu, -, rfl⟩ := mem_splicesFor hn hs
    exact (ofText_coherent source u hu).cut

/-! ## Names after the splices -/

/-- The text stands in the result where the splices moved the range to. -/
def ReadsAfter (source : List Char) (op : Rename) (n : Tree) (a z : Nat) (text : List Char) : Prop :=
  slicePart (applyAll (splicesFor source op n) (Utf8.encode source)) (moved (splicesFor source op n) a)
    (moved (splicesFor source op n) z) = Utf8.encode text

variable {text : List Char}

theorem ReadsAfter.eq {text' : List Char} {a z : Nat} (h : ReadsAfter source op n a z text)
    (h' : ReadsAfter source op n a z text') : text = text' := Utf8.encode_inj.1 (h.symm.trans h')

variable (hold : op.old ≠ "") (hn : Names source op n)

include hold hn

theorem readsAfter_name : ReadsAfter source op n n.start n.stop op.new.toList := by
  have hput : Splice.replace n.start n.stop op.new.toList ∈ splicesFor source op n := mem_cons_self
  have := applyAll_put (splicesFor_tidy hold hn) hput
  exact this

theorem readsAfter_taken (hp : p ∈ accesses source) (htaken : Taken source op p) :
    ReadsAfter source op n p.start p.stop op.new.toList := by
  have hput : Splice.replace p.start p.stop op.new.toList ∈ splicesFor source op n :=
    mem_cons_of_mem _ (mem_accessSplices.2 ⟨p, hp, htaken, rfl⟩)
  have := applyAll_put (splicesFor_tidy hold hn) hput
  exact this

theorem readsAfter_untouched (hy : y ∈ (ofText source).tree.nodes)
    (hapart : n.stop ≤ y.start ∨ y.stop ≤ n.start)
    (hout : ∀ p ∈ accesses source, Taken source op p → p.stop ≤ y.start ∨ y.stop ≤ p.start) :
    ReadsAfter source op n y.start y.stop (textOf source y) := by
  refine kept_text hy (splicesFor_tidy hold hn) fun s hs => ?_
  rcases mem_cons.1 hs with rfl | hs
  · exact hapart.imp Int.ofNat_le.2 Int.ofNat_le.2
  · obtain ⟨p, hp, htaken, rfl⟩ := mem_accessSplices.1 hs
    exact (hout p hp htaken).imp Int.ofNat_le.2 Int.ofNat_le.2

theorem readsAfter_identifier (hy : y ∈ (ofText source).tree.nodes) (hrole : y.role = .name)
    (hname : isName y.kind) (hapart : n.stop ≤ y.start ∨ y.stop ≤ n.start) :
    ReadsAfter source op n y.start y.stop (textOf source y) :=
  readsAfter_untouched hold hn hy hapart fun _ hp _ =>
    (access_below_or_apart hp hy hrole).resolve_left (not_below_name hy hname)

theorem readsAfter_private (hp : p ∈ accesses source) (hk : p.kind = .privatePropertyIdentifier)
    (htext : textOf source p = op.old.toList) : ReadsAfter source op n p.start p.stop op.old.toList := by
  have hnot : ¬ Taken source op p := fun htaken => absurd (hk.symm.trans htaken.1) (by decide)
  rw [← htext]
  refine readsAfter_untouched hold hn (access_mem hp) ?_ fun q hq hq' => access_apart_of_taken hp hq hq' hnot
  refine ((access_below_or_apart hp hn.mem hn.role).resolve_left fun hbelow => ?_).symm
  exact text_ne_of_below hn.mem hn.kind hp hbelow (htext.trans hn.text.symm)

omit hold in
theorem new_ne_old (hnew : ¬ op.new.toList <:+: source) : op.new.toList ≠ op.old.toList := by
  intro heq
  have hsource := (ofText_coherent source n hn.mem).occurs
  rw [hn.text, ← heq] at hsource
  exact hnew hsource

theorem after_apart (hnew : ¬ op.new.toList <:+: source)
    (hy : y ∈ (ofText source).tree.nodes) (hk : y.kind ∈ memberNames) (hrole : y.role = .name)
    (hapart : n.stop ≤ y.start ∨ y.stop ≤ n.start) (h : ReadsAfter source op n y.start y.stop text) :
    text = op.old.toList ↔ textOf source y = op.old.toList := by
  by_cases hex : ∃ p ∈ accesses source, Taken source op p ∧ p.Below y
  · -- The new name is in what stands there now, and was nowhere before.
    obtain ⟨p, hp, htaken, hbelow⟩ := hex
    have hin := inside_of_below hy hbelow
    refine ⟨fun htext => absurd ?_ hnew, fun htext =>
      absurd (htaken.2.trans htext.symm) (text_ne_of_below hy hk hp hbelow)⟩
    have hle := (ofText_coherent source y hy).start_le_stop
    have hcut : ∀ s ∈ splicesFor source op n,
        s.stop ≤ y.start ∨ y.stop ≤ s.start ∨ (y.start ≤ s.start ∧ s.stop ≤ y.stop) := by
      intro s hs
      rcases mem_cons.1 hs with rfl | hs
      · exact hapart.imp Int.ofNat_le.2 fun hle => .inl (Int.ofNat_le.2 hle)
      · obtain ⟨q, hq, -, rfl⟩ := mem_accessSplices.1 hs
        rcases access_below_or_apart hq hy hrole with hb | hle | hle
        · have hin := inside_of_below hy hb
          exact .inr (.inr ⟨Int.ofNat_le.2 hin.1, Int.ofNat_le.2 hin.2⟩)
        · exact .inl (Int.ofNat_le.2 hle)
        · exact .inr (.inl (Int.ofNat_le.2 hle))
    have hlies := (splicesFor_tidy hold hn).lies
    have hwithin := applyAll_within (splicesFor_tidy hold hn)
      (mem_cons_of_mem _ (mem_accessSplices.2 ⟨p, hp, htaken, rfl⟩)) (a := y.start) (z := y.stop)
      (Int.ofNat_le.2 hin.1) (Int.ofNat_le.2 hin.2)
      (fun s hs => by have := hcut s hs; have := (hlies s hs).lt; omega)
      (fun s hs => by have := hcut s hs; have := (hlies s hs).lt; omega)
    rw [show slicePart _ (moved _ y.start) (moved _ y.stop) = _ from h, htext] at hwithin
    have hne : op.new.toList ≠ [] := fun hnil => hnew (hnil ▸ nil_infix)
    have hsource := (ofText_coherent source n hn.mem).occurs
    rw [hn.text] at hsource
    exact (Utf8.infix_of_encode hne hwithin).trans hsource
  · have hout : ∀ p ∈ accesses source, Taken source op p → p.stop ≤ y.start ∨ y.stop ≤ p.start := fun p hp htaken =>
      (access_below_or_apart hp hy hrole).resolve_left fun hbelow => hex ⟨p, hp, htaken, hbelow⟩
    rw [h.eq (readsAfter_untouched hold hn hy hapart hout)]

theorem after_access (hclosed : (ofText source).tree.Closed) (hnew : ¬ op.new.toList <:+: source)
    (hp : p ∈ accesses source) (h : ReadsAfter source op n p.start p.stop text) :
    text = op.old.toList ↔ textOf source p = op.old.toList ∧ p.kind = .privatePropertyIdentifier := by
  by_cases htaken : Taken source op p
  · rw [h.eq (readsAfter_taken hold hn hp htaken)]
    refine ⟨fun heq => absurd heq (new_ne_old hn hnew), fun hprivate => ?_⟩
    rw [htaken.1] at hprivate
    cases hprivate.2
  · have hprivate : textOf source p = op.old.toList ↔
        textOf source p = op.old.toList ∧ p.kind = .privatePropertyIdentifier :=
      ⟨fun htext => ⟨htext, (access_kind hp).resolve_left fun hk => htaken ⟨hk, htext⟩⟩, And.left⟩
    rw [← hprivate]
    rcases access_below_or_apart hp hn.mem hn.role with hbelow | hapart
    · -- In the renamed name there is too little room for the old one.
      have hin := inside_of_below hn.mem hbelow
      have hless := hclosed n hn.mem (isBracketed_of_below hn.mem hn.kind hbelow) p hbelow (access_isName hp)
      refine iff_of_false (fun htext => ?_) fun htext =>
        text_ne_of_below hn.mem hn.kind hp hbelow (htext.trans hn.text.symm)
      have htidy := splicesFor_tidy hold hn
      have hle := (ofText_coherent source p (access_mem hp)).start_le_stop
      have hbegin := htidy.moved_nonneg (htidy.outside mem_cons_self).1 (Int.natCast_nonneg _)
      have hmoved : ∀ m : Nat, n.start ≤ m → m < n.stop → moved (splicesFor source op n) m
          = moved (splicesFor source op n) n.start + (m - n.start) := fun m hle hlt =>
        htidy.moved_inside mem_cons_self (Int.ofNat_le.2 hle) (Int.ofNat_lt.2 hlt)
      have hlength := length_slicePart_le (applyAll (splicesFor source op n) (Utf8.encode source))
        (a := moved (splicesFor source op n) p.start) (z := moved (splicesFor source op n) p.stop)
      rw [show slicePart _ (moved _ p.start) (moved _ p.stop) = _ from h, htext, Utf8.length_encode, ← hn.text,
        hmoved p.start hin.1 (by omega), hmoved p.stop (by omega) hless] at hlength
      have hsize := (ofText_coherent source n hn.mem).size
      have hbegin : 0 ≤ moved (splicesFor source op n) n.start := hbegin
      have := hlength (by omega) (by omega)
      omega
    · rw [h.eq (readsAfter_untouched hold hn (access_mem hp) hapart.symm fun q hq hq' =>
        access_apart_of_taken hp hq hq' htaken)]

end SourceBench.Renaming
