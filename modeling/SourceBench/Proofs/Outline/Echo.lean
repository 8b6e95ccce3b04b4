import SourceBench.Proofs.Outline.Ranges
import SourceBench.Proofs.Syntax.Mirror

/-!
# Outlines of trees that say the same

What an outline reads off trees that mirror each other is of the same kinds, in the same order, with names and bodies
that mirror each other (`groupsAfter_mirror`).  A tree echoes another when it has the same texts too, wherever both
stand.  What is read off statements that echo each other differs in places only (`layOut_bare`), given that the doc
comments before them are the same.
-/
namespace SourceBench

/-- What is said of a declaration apart from where it stands. -/
def DeclarationInfo.bare (i : DeclarationInfo) : DeclarationInfo :=
  { i with startLine := 0, stopLine := 0, startByte := 0, stopByte := 0, nameRange := none, bodyRange := none }

def Declaration.bare (d : Declaration) : Declaration := { d with toDeclarationInfo := d.toDeclarationInfo.bare }

namespace Reading

open Syntax DeclarationTree List

def word : Tree → List Char
  | .leaf _ _ _ text => text
  | .node _ _ _ _ => []

def SameWords (source source' : List Char) (t u : Tree) : Prop :=
  textOf source t = textOf source' u ∧ word t = word u

instance (source source' : List Char) (t u : Tree) : Decidable (SameWords source source' t u) :=
  inferInstanceAs (Decidable (_ ∧ _))

/-- The tree of the one source says what the tree of the other does. -/
abbrev Echo (source source' : List Char) : Tree → Tree → Prop := Mirror (SameWords source source')

variable {source source' : List Char}

namespace Echo

variable {t u : Tree} (h : Echo source source' t u)

include h

theorem textOf_eq : textOf source t = textOf source' u := h.related.1

theorem stringOf_eq : stringOf source t = stringOf source' u := by
  rw [stringOf, stringOf, h.textOf_eq]

theorem typeText_eq : typeText source t = typeText source' u := by
  rw [typeText, typeText, h.textOf_eq]

theorem literalText_eq : literalText source t = literalText source' u := by
  rw [literalText, literalText, h.textOf_eq]

theorem isToken_eq (s : String) : t.isToken s = u.isToken s := by
  have hword := h.related.2
  have hkind := h.kind_eq
  cases t with
  | leaf r k sp a => cases u with
    | leaf r' k' sp' b =>
      obtain rfl : k = k' := hkind
      obtain rfl : a = b := hword
      cases k <;> rfl
    | node r' k' sp' us => exact h.elim
  | node r k sp ts => cases u with
    | leaf r' k' sp' b => exact h.elim
    | node r' k' sp' us => rfl

theorem hasToken_eq (s : String) : t.hasToken s = u.hasToken s :=
  any_eq_of_forall₂ (fun _ _ hab => isToken_eq hab s) h.children

theorem childString_eq (r : Role) : (t.child? r).map (stringOf source) = (u.child? r).map (stringOf source') :=
  optionMap_eq_of_rel (fun _ _ hab => stringOf_eq hab) (h.child? r)

theorem childType_eq (r : Role) : (t.child? r).map (typeText source) = (u.child? r).map (typeText source') :=
  optionMap_eq_of_rel (fun _ _ hab => typeText_eq hab) (h.child? r)

theorem partTexts_eq : partTexts source t = partTexts source' u :=
  map_eq_of_forall₂ (fun _ _ hab => by rw [stringOf_eq hab]) (h.ofKind (· != .comment))

theorem accessibilityValue_eq : accessibilityValue source t = accessibilityValue source' u := by
  rw [accessibilityValue, accessibilityValue]
  exact congrArg _ (optionMap_eq_of_rel (fun _ _ hab => stringOf_eq hab)
    (find?_ofKind h.namedChildren (· == .accessibilityModifier)))

theorem parameterValue_eq : parameterValue source t = parameterValue source' u := by
  have hname : stringOf source ((t.child? .pattern).getD t) = stringOf source' ((u.child? .pattern).getD u) := by
    match t.child? .pattern, u.child? .pattern, h.child? .pattern with
    | _, _, .none => exact h.stringOf_eq
    | _, _, .some hab => exact stringOf_eq hab
  rw [parameterValue, parameterValue, hname, h.childType_eq]

theorem parametersValue_eq (r : Role) : parametersValue source (t.child? r) = parametersValue source' (u.child? r) := by
  match t.child? r, u.child? r, h.child? r with
  | _, _, .none => rfl
  | _, _, .some hab =>
    exact congrArg Value.list (map_eq_of_forall₂ (fun _ _ hab => parameterValue_eq hab)
      (hab.ofKind fun k => k == .requiredParameter || k == .optionalParameter))

theorem enumMembers_eq : enumMembers source t = enumMembers source' u := by
  refine map_eq_of_forall₂ (fun a b hab => ?_) (h.ofKind (· != .comment))
  have hname : literalText source ((a.child? .name).getD a) = literalText source' ((b.child? .name).getD b) := by
    match a.child? .name, b.child? .name, hab.child? .name with
    | _, _, .none => exact literalText_eq hab
    | _, _, .some h => exact literalText_eq h
  simp only [hab.kind_eq]
  split
  · rw [hname]
  · rw [literalText_eq hab]

omit h

theorem lastOfKind {ts us : List Tree} (h : Forall₂ (Echo source source') ts us) (p : Kind → Bool) :
    Option.Rel (Echo source source') (ts.filter (p ·.kind)).getLast? (us.filter (p ·.kind)).getLast? :=
  forall₂_getLast? (forall₂_ofKind h p)

theorem lastParts_eq {ts us : List Tree} (h : Forall₂ (Echo source source') ts us) (p : Kind → Bool) :
    (match (ts.filter (p ·.kind)).getLast? with
      | some c => partTexts source c
      | none => []) =
    match (us.filter (p ·.kind)).getLast? with
      | some c => partTexts source' c
      | none => [] := by
  have hlast := lastOfKind h p
  generalize (ts.filter (p ·.kind)).getLast? = o, (us.filter (p ·.kind)).getLast? = o' at hlast
  cases hlast with
  | none => rfl
  | some hab => exact partTexts_eq hab

include h

theorem classDetails_eq : classDetails source t = classDetails source' u := by
  have hclauses : Forall₂ (Echo source source')
      ((t.namedChildren.filter (·.kind == .classHeritage)).flatMap (·.namedChildren))
      ((u.namedChildren.filter (·.kind == .classHeritage)).flatMap (·.namedChildren)) :=
    rel_flatMap (h.ofKind (· == .classHeritage)) fun _ _ hab => hab.namedChildren
  have hextended := optionMap_eq_of_rel (f := fun c => String.ofList (Text.trim ((textOf source c).drop 7)))
    (g := fun c => String.ofList (Text.trim ((textOf source' c).drop 7))) (fun _ _ hab => by rw [textOf_eq hab])
    (lastOfKind hclauses (· == .extendsClause))
  have himplemented := lastParts_eq hclauses (· == .implementsClause)
  simp only [classDetails, hextended, h.kind_eq]
  exact congrArg (fun parts => [_, _, ("implements", Value.list parts)]) himplemented

end Echo

variable {ts us : List Tree} {t u : Tree} {I : DeclarationInfo → DeclarationInfo → Prop}

theorem forall₂_echo_trans {source'' : List Char} {vs : List Tree} (h : Forall₂ (Echo source source') ts us)
    (h' : Forall₂ (Echo source' source'') us vs) : Forall₂ (Echo source source'') ts vs :=
  mirrorAll_iff.1 (mirrorAll_trans (fun _ _ _ htu huv => ⟨htu.1.trans huv.1, htu.2.trans huv.2⟩)
    (mirrorAll_iff.2 h) (mirrorAll_iff.2 h'))

/-! ## Items -/

variable {P : Tree → Tree → Prop}

/-- The items are of the same kind, and their names and bodies mirror each other.  Where mirrors say the same, their
details are the same. -/
structure Item.Mirrors (P : Tree → Tree → Prop) (source source' : List Char) (d d' : Item) : Prop where
  kind : d.kind = d'.kind
  name : Mirror P d.name d'.name
  body : Option.Rel (Mirror P) d.body d'.body
  details : (∀ t u, P t u → SameWords source source' t u) → d.details = d'.details

theorem Item.Mirrors.memberBody {d d' : Item} (h : d.Mirrors P source source' d') :
    Option.Rel (Mirror P) d.memberBody d'.memberBody := by
  rw [Item.memberBody, Item.memberBody, h.kind]
  split
  · exact h.body
  · exact .none

theorem memberItem?_mirror (h : Mirror P t u) :
    Option.Rel (Item.Mirrors P source source') (memberItem? source t) (memberItem? source' u) := by
  unfold memberItem?
  rw [h.kind_eq]
  match t.child? .name, u.child? .name, h.child? .name with
  | _, _, .none => exact .none
  | _, _, .some hab =>
    generalize u.kind = k
    dsimp only
    split
    case h_1 | h_2 | h_3 =>
      refine .some ⟨rfl, hab, h.child? .body, fun hP => ?_⟩
      have h : Echo source source' t u := h.imp hP
      simp only [h.hasToken_eq, h.accessibilityValue_eq, h.parametersValue_eq, h.childType_eq]
    case h_4 | h_5 =>
      refine .some ⟨rfl, hab, .none, fun hP => ?_⟩
      have h : Echo source source' t u := h.imp hP
      simp only [h.hasToken_eq, h.accessibilityValue_eq, h.childType_eq, h.childString_eq]
    case h_6 => exact .none

theorem namedItem?_mirror {name name' : Tree} (h : Mirror P t u) (hname : Mirror P name name') :
    Option.Rel (Item.Mirrors P source source') (namedItem? source t name) (namedItem? source' u name') := by
  have hbody := h.child? .body
  unfold namedItem?
  have hkind := h.kind_eq
  rw [hkind]
  generalize u.kind = k
  dsimp only
  split
  case h_1 | h_2 =>
    exact .some ⟨rfl, hname, hbody, fun hP => Echo.classDetails_eq (h.imp hP)⟩
  case h_3 =>
    refine .some ⟨rfl, hname, hbody, fun hP => ?_⟩
    exact congrArg (fun parts => [("extends", Value.list parts)])
      (Echo.lastParts_eq (h.imp hP).namedChildren (· == .extendsTypeClause))
  case h_4 | h_5 =>
    refine .some ⟨rfl, hname, hbody, fun hP => ?_⟩
    have h : Echo source source' t u := h.imp hP
    simp only [h.hasToken_eq, h.parametersValue_eq, h.childType_eq]
  case h_6 =>
    refine .some ⟨rfl, hname, .none, fun hP => ?_⟩
    have h : Echo source source' t u := h.imp hP
    simp only [h.childString_eq]
  case h_7 =>
    refine .some ⟨rfl, hname, hbody, fun hP => ?_⟩
    have h : Echo source source' t u := h.imp hP
    have hmembers : (t.child? .body).map (enumMembers source) = (u.child? .body).map (enumMembers source') :=
      optionMap_eq_of_rel (fun _ _ hab => Echo.enumMembers_eq hab) (h.child? .body)
    simp only [hmembers, h.hasToken_eq]
  case h_8 => exact .none

theorem variableItems_mirror (h : Mirror P t u) :
    Forall₂ (Item.Mirrors P source source') (variableItems source t) (variableItems source' u) := by
  refine rel_filterMap (fun v w hvw => ?_) (h.ofKind (· == .variableDeclarator))
  match v.child? .name, w.child? .name, hvw.child? .name with
  | _, _, .none => exact .none
  | _, _, .some hab =>
    refine .some ⟨rfl, hab, .none, fun hP => ?_⟩
    simp only [Echo.childString_eq (h.imp hP), Echo.childType_eq (hvw.imp hP)]

theorem itemsOf_mirror (h : Mirror P t u) (exported : Bool) :
    Forall₂ (Item.Mirrors P source source') (itemsOf source exported t) (itemsOf source' exported u) := by
  unfold itemsOf
  rw [h.kind_eq]
  split
  case h_1 | h_2 =>
    split
    · exact variableItems_mirror h
    · exact .nil
  case h_3 =>
    match t.child? .name, u.child? .name, h.child? .name with
    | _, _, .none => exact .nil
    | _, _, .some hab =>
      simp only [Option.bind_some]
      match namedItem? source t _, namedItem? source' u _, namedItem?_mirror h hab with
      | _, _, .none => exact .nil
      | _, _, .some hd => exact .cons hd .nil

/-! ## Members and groups -/

theorem docBefore_echo {q q' : Option Tree} (h : Option.Rel (Echo source source') q q') :
    docBefore source q = docBefore source' q' := by
  cases h with
  | none => rfl
  | some hab => simp only [docBefore, Echo.textOf_eq hab, hab.kind_eq]

def PairMirrors (P : Tree → Tree → Prop) (p p' : Option Tree × Tree) : Prop :=
  Option.Rel (Mirror P) p.1 p'.1 ∧ Mirror P p.2 p'.2

theorem withPrevious_mirror (h : Forall₂ (Mirror P) ts us) : ∀ {q q' : Option Tree},
    Option.Rel (Mirror P) q q' → Forall₂ (PairMirrors P) (withPrevious q ts) (withPrevious q' us) := by
  induction h with
  | nil => exact fun _ => .nil
  | cons hab _ ih => exact fun hq => .cons ⟨hq, hab⟩ (ih (.some hab))

def MemberMirrors (P : Tree → Tree → Prop) (source source' : List Char) (owner : Nat) (m m' : DeclarationInfo) : Prop :=
  ∃ d d' q q' u u', d.Mirrors P source source' d' ∧ Option.Rel (Mirror P) q q' ∧ Mirror P u u' ∧
    memberItem? source u = some d ∧ memberItem? source' u' = some d' ∧
    m = d.asMember source owner q u ∧ m' = d'.asMember source' owner q' u'

theorem membersIn_mirror {b b' : Option Tree} (h : Option.Rel (Mirror P) b b') (owner : Nat) :
    Forall₂ (MemberMirrors P source source' owner) (membersIn source owner b) (membersIn source' owner b') := by
  cases h with
  | none => exact .nil
  | some hab =>
    refine rel_filterMap (fun ⟨q, m⟩ ⟨q', m'⟩ hp => ?_) (withPrevious_mirror hab.namedChildren .none)
    have hitem : Option.Rel (Item.Mirrors P source source') (memberItem? source m) (memberItem? source' m') :=
      memberItem?_mirror hp.2
    dsimp only
    generalize ho : memberItem? source m = o, ho' : memberItem? source' m' = o' at hitem
    cases hitem with
    | none => exact .none
    | some hd => exact .some ⟨_, _, q, q', m, m', hd, hp.1, hp.2, ho, ho', rfl, rfl⟩

/-- The groups mirror each other, whatever their doc comments. -/
structure Group.Mirrors (P : Tree → Tree → Prop) (source source' : List Char) (g g' : Group) : Prop where
  exported : g.frame.exported = g'.frame.exported
  item : g.item.Mirrors P source source' g'.item

theorem Group.Mirrors.members {g g' : Group} (h : g.Mirrors P source source' g') (id : Nat) :
    Forall₂ (MemberMirrors P source source' id) (g.members source id) (g'.members source' id) :=
  membersIn_mirror h.item.memberBody id

theorem groupsIn_mirror (h : Mirror P t u) (q q' : Option Tree) :
    Forall₂ (Group.Mirrors P source source') (groupsIn source q t) (groupsIn source' q' u) := by
  have hdeclaration : Option.Rel (Mirror P) (declaration? t) (declaration? u) := by
    rw [declaration?, declaration?, h.kind_eq]
    split
    · exact h.child? .declaration
    · exact .some h
  rw [groupsIn_eq, groupsIn_eq, h.kind_eq]
  refine rel_map (fun _ _ hd => ⟨rfl, hd⟩) ?_
  generalize declaration? t = d, declaration? u = d' at hdeclaration ⊢
  cases hdeclaration with
  | none => exact .nil
  | some hab => simpa using itemsOf_mirror hab _

theorem groupsAfter_mirror (h : Forall₂ (Mirror P) ts us) : ∀ (q q' : Option Tree),
    Forall₂ (Group.Mirrors P source source') (groupsAfter source q ts) (groupsAfter source' q' us) := by
  induction h with
  | nil => exact fun _ _ => .nil
  | cons htu _ ih => exact fun q q' => rel_append (groupsIn_mirror htu q q') (ih _ _)

/-! ## Groups that say the same -/

/-- The groups mirror each other and say the same. -/
abbrev Group.Echoes (source source' : List Char) : Group → Group → Prop :=
  Group.Mirrors (SameWords source source') source source'

theorem MemberMirrors.bare_eq {owner : Nat} {m m' : DeclarationInfo}
    (h : MemberMirrors (SameWords source source') source source' owner m m') : m.bare = m'.bare := by
  obtain ⟨d, d', q, q', u, u', hd, hq, -, -, -, rfl, rfl⟩ := h
  simp only [Item.asMember, DeclarationInfo.bare, hd.kind, Echo.stringOf_eq hd.name, docBefore_echo hq,
    hd.details fun _ _ => id]

theorem Group.Mirrors.head_eq {g g' : Group} (h : g.Echoes source source' g') (hdoc : g.frame.doc = g'.frame.doc) :
    (g.head source).bare = (g'.head source').bare := by
  simp only [Group.head, DeclarationInfo.bare, h.item.kind, Echo.stringOf_eq h.item.name, h.exported, hdoc,
    h.item.details fun _ _ => id]

theorem Group.Mirrors.marked {g g' : Group} (h : g.Echoes source source' g') (names : List String) :
    (g.marked source names).Echoes source source' (g'.marked source' names) := by
  refine ⟨?_, h.item⟩
  show (_ || _) = (_ || _)
  rw [h.exported, Echo.stringOf_eq h.item.name]

theorem groupsAfter_echo (h : Forall₂ (Echo source source') ts us) : ∀ {q q' : Option Tree},
    docBefore source q = docBefore source' q' →
    Forall₂ (fun (g g' : Group) => g.Echoes source source' g' ∧ g.frame.doc = g'.frame.doc) (groupsAfter source q ts)
      (groupsAfter source' q' us) := by
  induction h with
  | nil => exact fun _ => .nil
  | @cons t u ts us htu _ ih =>
    intro q q' hq
    refine rel_append ((forall₂_mem (groupsIn_mirror htu q q')).imp fun g g' hg => ⟨hg.2.2, ?_⟩)
      (ih (docBefore_echo (.some htu)))
    rw [(mem_groupsIn hg.1).1, (mem_groupsIn hg.2.1).1, hq]

/-! ## Arenas -/

theorem numbered_forall₂ {is is' : List DeclarationInfo} (h : Forall₂ I is is') :
    ∀ n : Nat, Forall₂ (fun d d' => I d.toDeclarationInfo d'.toDeclarationInfo ∧ d.id = d'.id ∧
      d.members = d'.members) (numbered n is) (numbered n is') := by
  induction h with
  | nil => exact fun _ => .nil
  | cons hi _ ih => exact fun n => .cons ⟨hi, rfl, rfl⟩ (ih (n + 1))

theorem layOut_forall₂ {gs gs' : List Group} (h : Forall₂ (fun g g' => I (g.head source) (g'.head source') ∧
      ∀ id, Forall₂ I (g.members source id) (g'.members source' id)) gs gs') : ∀ n : Nat,
    Forall₂ (fun d d' => I d.toDeclarationInfo d'.toDeclarationInfo ∧ d.id = d'.id ∧ d.members = d'.members)
      (layOut source n gs) (layOut source' n gs') := by
  induction h with
  | nil => exact fun _ => .nil
  | @cons g g' gs gs' hg _ ih =>
    intro n
    have hlength := (hg.2 n).length_eq
    rw [layOut, layOut, hlength]
    exact .cons ⟨hg.1, rfl, rfl⟩ (rel_append (numbered_forall₂ (hg.2 n) (n + 1)) (ih _))

theorem pick_forall₂ {t u : DeclarationTree} {R : Declaration → Declaration → Prop} (h : Forall₂ R t.nodes u.nodes)
    (ids : List Nat) : Forall₂ R (t.pick ids) (u.pick ids) := by
  have hget : ∀ i : Nat, Option.Rel R t.nodes[i]? u.nodes[i]? := by
    generalize t.nodes = ds, u.nodes = ds' at h
    induction h with
    | nil => exact fun _ => .none
    | cons hd _ ih =>
      intro i
      cases i with
      | zero => exact .some hd
      | succ i => exact ih i
  exact rel_filterMap (R := Eq) (fun i _ heq => heq ▸ hget i) (forall₂_eq_eq_eq ▸ rfl)

theorem layOut_bare {gs gs' : List Group}
    (h : Forall₂ (fun (g g' : Group) => g.Echoes source source' g' ∧ g.frame.doc = g'.frame.doc) gs gs') (n : Nat) :
    (layOut source n gs).map (·.bare) = (layOut source' n gs').map (·.bare) := by
  refine map_eq_of_forall₂ (R := fun d d' => d.toDeclarationInfo.bare = d'.toDeclarationInfo.bare ∧ d.id = d'.id ∧
    d.members = d'.members) (fun d d' hd => ?_) (layOut_forall₂ (h.imp fun g g' hg =>
      ⟨hg.1.head_eq hg.2, fun id => (hg.1.members id).imp fun _ _ hm => hm.bare_eq⟩) n)
  rw [Declaration.bare, Declaration.bare, hd.1, hd.2.1, hd.2.2]

/-! ## Exports -/

namespace Echo

theorem childNames_eq {ts us : List Tree} (h : Forall₂ (Echo source source') ts us) (r : Role) :
    (ts.filterMap (·.child? r)).map (stringOf source) = (us.filterMap (·.child? r)).map (stringOf source') :=
  map_eq_of_forall₂ (fun _ _ hab => stringOf_eq hab) (rel_filterMap (fun _ _ hab => hab.child? r) h)

variable {t u : Tree} (h : Echo source source' t u)

include h

theorem isSome_sourceOf : (sourceOf t).isSome = (sourceOf u).isSome := by
  have hsource := h.child? .source
  unfold sourceOf
  generalize t.child? .source = o, u.child? .source = o' at hsource
  cases hsource <;> rfl

theorem localExportNames_eq : localExportNames source t = localExportNames source' u := by
  have hspecifiers : Forall₂ (Echo source source') (exportSpecifiers t) (exportSpecifiers u) :=
    rel_flatMap (h.ofKind (· == .exportClause)) fun _ _ hab => hab.ofKind (· == .exportSpecifier)
  have hnames : localExportNames.namesOf source t = localExportNames.namesOf source' u :=
    childNames_eq hspecifiers .name
  rw [localExportNames, localExportNames, h.isSome_sourceOf, hnames]
  match t.child? .value, u.child? .value, h.child? .value with
  | _, _, .none => rfl
  | _, _, .some hab => simp only [hab.kind_eq, stringOf_eq hab]

theorem defaultExportName_eq : defaultExportName source t = defaultExportName source' u := by
  have hdeclaration := h.child? .declaration
  have hvalue := h.child? .value
  unfold defaultExportName
  generalize t.child? .declaration = o, u.child? .declaration = o' at hdeclaration
  cases hdeclaration with
  | @some d d' hab =>
    dsimp only
    match d.child? .name, d'.child? .name, hab.child? .name with
    | _, _, .none => rfl
    | _, _, .some hn => exact stringOf_eq hn
  | none =>
    generalize t.child? .value = o, u.child? .value = o' at hvalue
    cases hvalue with
    | none => rfl
    | some hab => simp only [hab.kind_eq, stringOf_eq hab]

theorem clauseRecords_eq : clauseRecords source t = clauseRecords source' u := by
  have hfrom : (sourceOf t).map (literalText source) = (sourceOf u).map (literalText source') :=
    optionMap_eq_of_rel (fun _ _ hab => literalText_eq hab) (h.child? .source)
  unfold clauseRecords
  simp only [h.hasToken_eq, hfrom]
  rw [flatMap_eq_of_forall₂ (fun a b hab => ?_) h.namedChildren]
  rw [hab.kind_eq]
  split
  · -- Each specifier is known by its new name, if it has one.
    refine map_eq_of_forall₂ (fun n n' hn => by rw [stringOf_eq hn])
      (rel_filterMap (fun s s' hs => ?_) (hab.ofKind (· == .exportSpecifier)))
    match s.child? .newName, s'.child? .newName, hs.child? .newName with
    | _, _, .none => exact hs.child? .name
    | _, _, .some hn => exact .some hn
  · have hname := find?_ofKind hab.namedChildren (· != .comment)
    generalize a.namedChildren.find? _ = o, b.namedChildren.find? _ = o' at hname
    cases hname with
    | none => rfl
    | some hn => simp only [stringOf_eq hn]
  · rfl

theorem exportRecords_eq : exportRecords source t = exportRecords source' u := by
  have hdeclaration := h.child? .declaration
  rw [exportRecords, exportRecords, h.hasToken_eq, h.defaultExportName_eq, h.clauseRecords_eq]
  split
  · rfl
  generalize t.child? .declaration = o, u.child? .declaration = o' at hdeclaration
  cases hdeclaration with
  | none => rfl
  | @some d d' hab =>
    have hvariables := childNames_eq (hab.ofKind (· == .variableDeclarator)) .name
    have hname := hab.child? .name
    dsimp only
    rw [hab.kind_eq]
    split
    · have hrecords := congrArg (map plainExport) hvariables
      rw [map_map, map_map] at hrecords
      exact hrecords
    · generalize d.child? .name = o, d'.child? .name = o' at hname
      cases hname with
      | none => rfl
      | some hn => exact congrArg (fun n => [plainExport n]) (stringOf_eq hn)

end Echo

end Reading
end SourceBench
