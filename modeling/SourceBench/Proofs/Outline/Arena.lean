import Mathlib.Data.List.Basic
import SourceBench.Outline

/-!
# The arena of an outline

An outline adds each top-level declaration and then its members.  `groups` is what it adds, as data, and `layOut` the
declarations that come of it when none is refused: each head is followed by its members, and every declaration has its
place as its id (`addAll?_groups`).  Walking such an arena from its roots goes through its declarations in their order.
-/
namespace SourceBench

open List DeclarationTree

variable {d : Declaration} {α : Type} {n owner : Nat} {ids : List Nat}

namespace DeclarationTree

/-! ## Adding one declaration -/

def topKey? (d : Declaration) : Option (DeclKind × String) :=
  if d.parent.isNone then some (d.kind, d.name) else none

def memberKey? (d : Declaration) : Option (Int × DeclKind × String) := d.parent.map (·, d.kind, d.name)

def indexWith {α : Type} [BEq α] (key : Declaration → Option α) (index : List (α × Nat)) (d : Declaration) :
    List (α × Nat) :=
  match key d with
  | some k => indexInsert index k d.id
  | none => index

/-- The arena with more declarations behind its own, as roots and in the indexes. -/
def grow (t : DeclarationTree) (ds : List Declaration) : DeclarationTree where
  nodes := t.nodes ++ ds
  roots := t.roots ++ (ds.filter (·.parent.isNone)).map (·.id)
  topIndex := ds.foldl (indexWith topKey?) t.topIndex
  memberIndex := ds.foldl (indexWith memberKey?) t.memberIndex

@[simp] theorem grow_nil (t : DeclarationTree) : t.grow [] = t := by simp [grow]

theorem grow_append (t : DeclarationTree) (ds es : List Declaration) : t.grow (ds ++ es) = (t.grow ds).grow es := by
  simp [grow]

theorem foldl_indexWith_of_none [BEq α] {key : Declaration → Option α} :
    ∀ {ds : List Declaration} (index : List (α × Nat)), (∀ d ∈ ds, key d = none) →
      ds.foldl (indexWith key) index = index
  | [], _, _ => rfl
  | d :: ds, index, h => by
    rw [foldl_cons, indexWith, h d mem_cons_self]
    exact foldl_indexWith_of_none index fun e he => h e (mem_cons_of_mem _ he)

theorem indexFind_insert [BEq α] [LawfulBEq α] (index : List (α × Nat)) (k k' : α) (id : Nat) :
    indexFind (indexInsert index k id) k' = (indexFind index k').or (if k == k' then some id else none) := by
  unfold indexInsert indexFind
  split
  · rename_i hany
    by_cases hk : k = k'
    · -- The key is there already, so that what is found for it is not from the new entry.
      subst hk
      obtain ⟨e, he⟩ := Option.isSome_iff_exists.1 (find?_isSome.2 (any_eq_true.1 hany))
      rw [he]
      rfl
    · rw [beq_false_of_ne hk, if_neg (by decide), Option.or_none]
  · rw [find?_append, Option.map_or, find?_singleton]
    cases k == k' <;> rfl

theorem indexFind_foldl [BEq α] [LawfulBEq α] (key : Declaration → Option α) (k : α) :
    ∀ (ds : List Declaration) (index : List (α × Nat)), indexFind (ds.foldl (indexWith key) index) k
      = (indexFind index k).or ((ds.find? (key · == some k)).map (·.id))
  | [], index => by rw [foldl_nil, find?_nil, Option.map_none, Option.or_none]
  | d :: ds, index => by
    rw [foldl_cons, indexFind_foldl key k ds, indexWith, find?_cons]
    cases hd : key d with
    | none => rfl
    | some k' =>
      dsimp only
      rw [indexFind_insert, Option.or_assoc, Option.some_beq_some]
      cases k' == k with
      | true => rfl
      | false => rfl

variable {ds : List Declaration} {t : DeclarationTree} {info : DeclarationInfo}

theorem lookup_foldl [BEq α] [LawfulBEq α] (key : Declaration → Option α) (k : α) (h : ∀ d ∈ ds, ds[d.id]? = some d) :
    (indexFind (ds.foldl (indexWith key) []) k).bind (ds[·]?) = ds.find? (key · == some k) := by
  rw [indexFind_foldl]
  cases hd : ds.find? (key · == some k) with
  | none => rfl
  | some d => exact h d (mem_of_find?_eq_some hd)

theorem find?_grow (h : ∀ d ∈ ds, ds[d.id]? = some d) (kind : DeclKind) (name : String) :
    (empty.grow ds).find? kind name = ds.find? (topKey? · == some (kind, name)) := lookup_foldl _ _ h

theorem findMember?_grow (h : ∀ d ∈ ds, ds[d.id]? = some d) (owner : Nat) (kind : DeclKind) (name : String) :
    (empty.grow ds).findMember? owner kind name = ds.find? (memberKey? · == some ((owner : Int), kind, name)) :=
  lookup_foldl _ _ h

def addAll? : DeclarationTree → List DeclarationInfo → Except AddError DeclarationTree
  | t, [] => .ok t
  | t, i :: is => match t.add i with
    | (t', .ok _) => t'.addAll? is
    | (_, .error e) => .error e

theorem addAll?_cons {t' : DeclarationTree} {i : DeclarationInfo} (h : t.add i = (t', .ok d))
    (is : List DeclarationInfo) : t.addAll? (i :: is) = t'.addAll? is := by
  rw [addAll?, h]

theorem addAll?_append : ∀ {is js : List DeclarationInfo} {t t' : DeclarationTree}, t.addAll? is = .ok t' →
    t.addAll? (is ++ js) = t'.addAll? js
  | [], _, _, _, h => by
    cases h
    rfl
  | i :: is, js, t, t', h => by
    rw [cons_append, addAll?]
    rw [addAll?] at h
    split at h
    · exact addAll?_append h
    · cases h

/-- Where nothing is refused, adding that goes on after a refusal gives the same arena. -/
theorem foldl_add_eq : ∀ {is : List DeclarationInfo} {t t' : DeclarationTree}, t.addAll? is = .ok t' →
    is.foldl (fun t i => (t.add i).1) t = t'
  | [], _, _, h => by
    cases h
    rfl
  | i :: is, t, t', h => by
    rw [addAll?] at h
    rw [foldl_cons]
    split at h
    · rename_i t'' d hadd
      rw [hadd]
      exact foldl_add_eq h
    · cases h

theorem add_of_parent_none (t : DeclarationTree) (h : info.parent = none) :
    t.add info = (t.grow [⟨info, t.nodes.length, []⟩], .ok ⟨info, t.nodes.length, []⟩) := by
  simp [add, grow, indexWith, topKey?, memberKey?, h]

/-- **A member within the lines of its owner is added** behind all declarations and at the end of its owner's
members. -/
theorem add_of_contained {before after : List Declaration} {owner : Declaration}
    (hnodes : t.nodes = before ++ owner :: after)
    (hparent : info.parent = some (before.length : Int)) (hlo : owner.startLine ≤ info.startLine)
    (hhi : info.stopLine ≤ owner.stopLine) : t.add info = ({ t with
      nodes := before ++ { owner with members := owner.members ++ [t.nodes.length] } ::
        (after ++ [⟨info, t.nodes.length, []⟩])
      memberIndex := indexInsert t.memberIndex ((before.length : Int), info.kind, info.name) t.nodes.length },
      .ok ⟨info, t.nodes.length, []⟩) := by
  have hplace : placeOf (t.nodes ++ [(⟨info, t.nodes.length, []⟩ : Declaration)]).length before.length
      = some before.length := by
    simp [placeOf, hnodes]
    omega
  have hall : t.nodes ++ [(⟨info, t.nodes.length, []⟩ : Declaration)]
      = before ++ owner :: (after ++ [⟨info, t.nodes.length, []⟩]) := by
    rw [hnodes, append_assoc, cons_append]
  have howner : (t.nodes ++ [(⟨info, t.nodes.length, []⟩ : Declaration)])[before.length]? = some owner := by
    rw [hall, getElem?_append_right (Nat.le_refl _), Nat.sub_self, getElem?_cons_zero]
  simp only [add, hparent, hplace, howner, hlo, hhi, decide_true, Bool.and_self, if_true]
  have hmodify : (t.nodes ++ [(⟨info, t.nodes.length, []⟩ : Declaration)]).modify before.length
      (fun o => { o with members := o.members ++ [t.nodes.length] })
      = before ++ { owner with members := owner.members ++ [t.nodes.length] } ::
        (after ++ [⟨info, t.nodes.length, []⟩]) := by
    rw [hall, modify_eq_take_drop]
    simp
  have hlast : (before ++ { owner with members := owner.members ++ [t.nodes.length] } ::
      (after ++ [(⟨info, t.nodes.length, []⟩ : Declaration)]))[t.nodes.length]?
      = some ⟨info, t.nodes.length, []⟩ := by
    rw [← cons_append, ← append_assoc, getElem?_append_right (by simp [hnodes])]
    simp [hnodes]
  rw [hmodify, hlast]

/-! ## Members of one owner -/

def numbered : Nat → List DeclarationInfo → List Declaration
  | _, [] => []
  | n, i :: is => ⟨i, n, []⟩ :: numbered (n + 1) is

@[simp] theorem length_numbered : ∀ (is : List DeclarationInfo) (n : Nat), (numbered n is).length = is.length
  | [], _ => rfl
  | _ :: is, n => congrArg (· + 1) (length_numbered is (n + 1))

theorem mem_numbered {is : List DeclarationInfo} (h : d ∈ numbered n is) :
    d.toDeclarationInfo ∈ is ∧ d.members = [] := by
  induction is generalizing n with
  | nil => exact absurd h not_mem_nil
  | cons i is ih =>
    rcases mem_cons.1 h with rfl | h
    · exact ⟨mem_cons_self, rfl⟩
    · exact ⟨mem_cons_of_mem _ (ih h).1, (ih h).2⟩

theorem numbered_infos : ∀ (is : List DeclarationInfo) (n : Nat), (numbered n is).map (·.toDeclarationInfo) = is
  | [], _ => rfl
  | i :: is, n => congrArg (i :: ·) (numbered_infos is (n + 1))

/-- The members that an owner can take: they name it as their owner and lie within its lines. -/
def Contained (owner : DeclarationInfo) (place : Nat) (ms : List DeclarationInfo) : Prop :=
  ∀ m ∈ ms, m.parent = some (place : Int) ∧ owner.startLine ≤ m.startLine ∧ m.stopLine ≤ owner.stopLine

theorem addAll?_contained : ∀ (ms : List DeclarationInfo) (t : DeclarationTree) (before after : List Declaration)
    (owner : Declaration), t.nodes = before ++ owner :: after → Contained owner.toDeclarationInfo before.length ms →
    t.addAll? ms = .ok { t with
      nodes := before ++ { owner with members := owner.members ++ range' t.nodes.length ms.length } ::
        (after ++ numbered t.nodes.length ms)
      memberIndex := (numbered t.nodes.length ms).foldl (indexWith memberKey?) t.memberIndex }
  | [], t, before, after, owner, hnodes, _ => by
    simp only [addAll?, numbered, length_nil, range'_zero, append_nil, foldl_nil, ← hnodes]
  | m :: ms, t, before, after, owner, hnodes, hms => by
    obtain ⟨hparent, hlo, hhi⟩ := hms m mem_cons_self
    -- The owner stays at its place, so the other members find it there, with one member more.
    rw [addAll?_cons (add_of_contained hnodes hparent hlo hhi),
      addAll?_contained ms _ before (after ++ [⟨m, t.nodes.length, []⟩])
        { owner with members := owner.members ++ [t.nodes.length] } rfl
        fun m' hm' => hms m' (mem_cons_of_mem _ hm')]
    have hlength : (before ++ ({ owner with members := owner.members ++ [t.nodes.length] } : Declaration) ::
        (after ++ [⟨m, t.nodes.length, []⟩])).length = t.nodes.length + 1 := by
      simp [hnodes]
      omega
    simp only [hlength, numbered, length_cons, range'_succ, append_assoc, singleton_append,
      foldl_cons, indexWith, memberKey?, hparent, Option.map_some]

end DeclarationTree

namespace Reading

open Syntax DeclarationTree

/-! ## Groups in the arena -/

def additions (source : List Char) : Nat → List Group → List DeclarationInfo
  | _, [] => []
  | n, g :: gs => g.head source :: (g.members source n ++ additions source (n + 1 + (g.members source n).length) gs)

/-- The declarations of groups with their ids and members, given the id of the first. -/
def layOut (source : List Char) : Nat → List Group → List Declaration
  | _, [] => []
  | n, g :: gs =>
    ⟨g.head source, n, range' (n + 1) (g.members source n).length⟩ ::
      (numbered (n + 1) (g.members source n) ++ layOut source (n + 1 + (g.members source n).length) gs)

/-! ## Adding groups -/

def Group.Sound (source : List Char) (g : Group) : Prop :=
  ∀ n, ∀ m ∈ g.members source n, (g.head source).startLine ≤ m.startLine ∧ m.stopLine ≤ (g.head source).stopLine

theorem mem_withPrevious {xs : List α} {previous : Option α} {p : Option α × α}
    (h : p ∈ withPrevious previous xs) : p.2 ∈ xs := by
  induction xs generalizing previous with
  | nil => exact absurd h not_mem_nil
  | cons x xs ih =>
    rcases mem_cons.1 h with rfl | h
    · exact mem_cons_self
    · exact mem_cons_of_mem _ (ih h)

variable {source : List Char} {body : Option Tree} {m : DeclarationInfo} {t : DeclarationTree} {g : Group}

theorem mem_membersIn (h : m ∈ membersIn source owner body) :
    ∃ b q u d, body = some b ∧ u ∈ b.namedChildren ∧ memberItem? source u = some d ∧
      m = d.asMember source owner q u := by
  cases body with
  | none => cases h
  | some b =>
    obtain ⟨⟨q, u⟩, hu, hm⟩ := mem_filterMap.1 h
    obtain ⟨d, hd, rfl⟩ := Option.map_eq_some_iff.1 hm
    exact ⟨b, q, u, d, rfl, mem_withPrevious hu, hd, rfl⟩

theorem parent_of_mem_membersIn (h : m ∈ membersIn source owner body) : m.parent = some (owner : Int) := by
  obtain ⟨b, q, u, d, -, -, -, rfl⟩ := mem_membersIn h
  rfl

/-- What a group does to an arena: its head becomes a root, and its members are found through it. -/
theorem grow_group (source : List Char) (g : Group) (t : DeclarationTree) :
    t.grow (layOut source t.nodes.length [g]) = { t with
      nodes := t.nodes ++ ⟨g.head source, t.nodes.length,
        range' (t.nodes.length + 1) (g.members source t.nodes.length).length⟩ ::
          numbered (t.nodes.length + 1) (g.members source t.nodes.length)
      roots := t.roots ++ [t.nodes.length]
      topIndex := indexInsert t.topIndex ((g.head source).kind, (g.head source).name) t.nodes.length
      memberIndex := (numbered (t.nodes.length + 1) (g.members source t.nodes.length)).foldl (indexWith memberKey?)
        t.memberIndex } := by
  have hparent : ∀ d ∈ numbered (t.nodes.length + 1) (g.members source t.nodes.length), d.parent.isNone = false := by
    intro d hd
    rw [parent_of_mem_membersIn (mem_numbered hd).1]
    rfl
  have hroots : (numbered (t.nodes.length + 1) (g.members source t.nodes.length)).filter (·.parent.isNone) = [] :=
    filter_eq_nil_iff.2 fun d hd => by simp [hparent d hd]
  have htop : ∀ d ∈ numbered (t.nodes.length + 1) (g.members source t.nodes.length), topKey? d = none := fun d hd => by
    simp [topKey?, hparent d hd]
  have hhead : (g.head source).parent.isNone := rfl
  simp only [grow, layOut, append_nil, foldl_cons, foldl_indexWith_of_none _ htop, filter_cons, hhead,
    hroots, if_true, map_cons, map_nil]
  rfl

theorem layOut_cons (source : List Char) (n : Nat) (g : Group) (gs : List Group) :
    layOut source n (g :: gs) = layOut source n [g] ++ layOut source (n + (layOut source n [g]).length) gs := by
  simp only [layOut, append_nil, cons_append, length_cons, length_numbered]
  congr 3
  omega

theorem grow_layOut (source : List Char) (t : DeclarationTree) (g : Group) (gs : List Group) :
    (t.grow (layOut source t.nodes.length [g])).grow
    (layOut source (t.grow (layOut source t.nodes.length [g])).nodes.length gs)
      = t.grow (layOut source t.nodes.length (g :: gs)) := by
  rw [layOut_cons source _ g gs, grow_append]
  congr 2
  simp [grow]

theorem addAll?_group (t : DeclarationTree) (h : g.Sound source) :
    t.addAll? (g.head source :: g.members source t.nodes.length) = .ok (t.grow (layOut source t.nodes.length [g])) := by
  have hmembers : Contained (g.head source) t.nodes.length (g.members source t.nodes.length) := fun m hm =>
    ⟨parent_of_mem_membersIn hm, h _ m hm⟩
  have hlength : (t.grow [⟨g.head source, t.nodes.length, []⟩]).nodes.length = t.nodes.length + 1 := by
    simp [grow]
  rw [addAll?_cons (add_of_parent_none t rfl),
    addAll?_contained _ _ t.nodes [] ⟨g.head source, t.nodes.length, []⟩ rfl hmembers, grow_group, hlength]
  rfl

/-- **Groups whose members lie in their heads are added without a refusal**, and lie in the arena one after another. -/
theorem addAll?_groups : ∀ (gs : List Group) (t : DeclarationTree), (∀ g ∈ gs, g.Sound source) →
    t.addAll? (additions source t.nodes.length gs) = .ok (t.grow (layOut source t.nodes.length gs))
  | [], t, _ => by simp [additions, layOut, addAll?]
  | g :: gs, t, h => by
    have hlength : t.nodes.length + 1 + (g.members source t.nodes.length).length
        = (t.grow (layOut source t.nodes.length [g])).nodes.length := by
      simp [grow, layOut]
      omega
    rw [additions, ← cons_append, addAll?_append (addAll?_group t (h g mem_cons_self)), hlength,
      addAll?_groups gs _ fun g' hg' => h g' (mem_cons_of_mem _ hg'), grow_layOut]

theorem addGroup_eq (t : DeclarationTree) (h : g.Sound source) :
    addGroup source t g = t.grow (layOut source t.nodes.length [g]) := by
  rw [← foldl_add_eq (addAll?_group t h), foldl_cons, addGroup, add_of_parent_none t rfl]

theorem foldl_addGroup : ∀ (gs : List Group) (t : DeclarationTree), (∀ g ∈ gs, g.Sound source) →
    gs.foldl (addGroup source) t = t.grow (layOut source t.nodes.length gs)
  | [], t, _ => by simp [layOut]
  | g :: gs, t, h => by
    rw [foldl_cons, addGroup_eq t (h g mem_cons_self),
      foldl_addGroup gs _ fun g' hg' => h g' (mem_cons_of_mem _ hg'), grow_layOut]

def groups (source : List Char) (root : Tree) : List Group := groupsAfter source none root.namedChildren

def exportedNames (source : List Char) (root : Tree) : List String :=
  (root.namedChildren.filter (·.kind == .exportStatement)).flatMap (localExportNames source)

/-! ## Walking -/

theorem pick_range' : ∀ (ds before after : List Declaration), t.nodes = before ++ (ds ++ after) →
    t.pick (range' before.length ds.length) = ds
  | [], _, _, _ => rfl
  | d :: ds, before, after, h => by
    have hd : t.nodes[before.length]? = some d := by
      rw [h, getElem?_append_right (Nat.le_refl _), Nat.sub_self]
      rfl
    have hrest := pick_range' ds (before ++ [d]) after (by rw [h, append_assoc]; rfl)
    rw [length_append, length_singleton] at hrest
    rw [length_cons, range'_succ, pick, filterMap_cons, hd]
    exact congrArg (d :: ·) hrest

theorem mem_of_mem_pick (h : d ∈ t.pick ids) : d ∈ t.nodes := by
  obtain ⟨i, -, hd⟩ := mem_filterMap.1 h
  exact mem_of_getElem? hd

theorem walkFrom_of_flat (hflat : ∀ d ∈ t.pick ids, ∀ m ∈ t.pick d.members, m.members = [])
    (hn : ∀ d ∈ t.pick ids, t.pick d.members ≠ [] → 0 < n) :
    t.walkFrom (n + 1) ids = (t.pick ids).flatMap fun d => d :: t.pick d.members := by
  have hnil : ∀ {ids : List Nat} (k : Nat), t.pick ids = [] → t.walkFrom k ids = [] := fun k h => by
    cases k with
    | zero => rfl
    | succ k => rw [walkFrom, h, flatMap_nil]
  rw [walkFrom]
  refine flatMap_congr fun d hd => congrArg (d :: ·) ?_
  by_cases hd' : t.pick d.members = []
  · rw [hd', hnil n hd']
  · obtain ⟨k, rfl⟩ := Nat.exists_eq_succ_of_ne_zero (Nat.pos_iff_ne_zero.1 (hn d hd hd'))
    have hleaf : ∀ m ∈ t.pick d.members, m :: t.walkFrom k m.members = [m] := fun m hm => by
      rw [hflat d hd m hm, hnil k rfl]
    rw [walkFrom, flatMap_congr hleaf]
    simp

section Layout

variable {source : List Char} {t : DeclarationTree}

theorem numbered_ids : ∀ (is : List DeclarationInfo) (n : Nat), (numbered n is).map (·.id) = range' n is.length
  | [], _ => rfl
  | _ :: is, n => congrArg (n :: ·) (numbered_ids is (n + 1))

theorem layOut_ids :
    ∀ (gs : List Group) (n : Nat), (layOut source n gs).map (·.id) = range' n (layOut source n gs).length
  | [], _ => rfl
  | g :: gs, n => by
    simp only [layOut, map_cons, map_append, numbered_ids, layOut_ids gs, length_cons, length_append,
      length_numbered, range'_succ, range'_append_1]

theorem mem_layOut : ∀ {gs : List Group} {n : Nat}, d ∈ layOut source n gs →
    ∃ g ∈ gs, d.toDeclarationInfo = g.head source ∨ ∃ id, d.toDeclarationInfo ∈ g.members source id ∧ d.members = []
  | [], _, h => absurd h not_mem_nil
  | g :: gs, n, h => by
    rw [layOut, mem_cons, mem_append] at h
    rcases h with rfl | h | h
    · exact ⟨g, mem_cons_self, .inl rfl⟩
    · exact ⟨g, mem_cons_self, .inr ⟨n, mem_numbered h⟩⟩
    · obtain ⟨g', hg', h'⟩ := mem_layOut h
      exact ⟨g', mem_cons_of_mem _ hg', h'⟩

variable {gs : List Group}

theorem getElem?_id (h : t.nodes = layOut source 0 gs) (hd : d ∈ t.nodes) : t.nodes[d.id]? = some d := by
  obtain ⟨i, hi, rfl⟩ := getElem_of_mem hd
  have hid : (t.nodes.map (·.id))[i]? = some i := by
    rw [h, layOut_ids, getElem?_range' (by rwa [← h])]
    simp
  rw [getElem?_map, getElem?_eq_getElem hi] at hid
  rw [show (t.nodes[i]).id = i from Option.some.inj hid, getElem?_eq_getElem hi]

theorem pick_group {before after : List Declaration}
    (h : t.nodes = before ++ (layOut source before.length [g] ++ after)) :
    t.pick (range' (before.length + 1) (g.members source before.length).length)
      = numbered (before.length + 1) (g.members source before.length) := by
  rw [layOut, layOut, append_nil, cons_append, ← singleton_append, ← append_assoc] at h
  have := pick_range' _ _ _ h
  rwa [length_append, length_singleton, length_numbered] at this

theorem pick_members : ∀ (gs : List Group) (before : List Declaration),
    t.nodes = before ++ layOut source before.length gs →
    ∀ d ∈ layOut source before.length gs, d.parent.isNone →
      ∃ g ∈ gs, d.toDeclarationInfo = g.head source ∧ t.pick d.members = numbered (d.id + 1) (g.members source d.id)
  | [], _, _, _, hd, _ => absurd hd not_mem_nil
  | g :: gs, before, h, d, hd, hroot => by
    rw [layOut_cons] at h hd
    rcases mem_append.1 hd with hd | hd
    · rw [layOut, layOut, append_nil, mem_cons] at hd
      rcases hd with rfl | hd
      · exact ⟨g, mem_cons_self, rfl, pick_group h⟩
      · rw [parent_of_mem_membersIn (mem_numbered hd).1] at hroot
        cases hroot
    · rw [← append_assoc] at h
      rw [← length_append] at h hd
      obtain ⟨g', hg', hhead, hpick⟩ := pick_members gs (before ++ layOut source before.length [g]) h d hd hroot
      exact ⟨g', mem_cons_of_mem _ hg', hhead, hpick⟩

theorem flatMap_heads : ∀ (gs : List Group) (before : List Declaration),
    t.nodes = before ++ layOut source before.length gs →
    ((layOut source before.length gs).filter (·.parent.isNone)).flatMap (fun d => d :: t.pick d.members)
      = layOut source before.length gs
  | [], _, _ => rfl
  | g :: gs, before, h => by
    rw [layOut_cons] at h ⊢
    have hhead := pick_group h
    have hmembers : (numbered (before.length + 1) (g.members source before.length)).filter (·.parent.isNone) = [] :=
      filter_eq_nil_iff.2 fun d hd => by simp [parent_of_mem_membersIn (mem_numbered hd).1]
    rw [← append_assoc] at h
    rw [← length_append] at h ⊢
    rw [filter_append, flatMap_append, flatMap_heads gs _ h]
    congr 1
    have hroot : (g.head source).parent.isNone := rfl
    simp only [layOut, append_nil, filter_cons, hroot, if_true, hmembers, flatMap_cons, flatMap_nil,
      hhead]

theorem mem_pick_of_parent (h : t.nodes = layOut source 0 gs) {m : Declaration} (hd : d ∈ t.nodes) (hm : m ∈ t.nodes)
    (hparent : m.parent = some (d.id : Int)) : m ∈ t.pick d.members := by
  have hheads : _ = layOut source 0 gs := flatMap_heads gs [] h
  rw [h, ← hheads, mem_flatMap] at hm
  obtain ⟨c, hc, hm⟩ := hm
  obtain ⟨hc, hroot⟩ := mem_filter.1 hc
  obtain ⟨g, -, -, hpick⟩ := pick_members gs [] h c hc hroot
  rcases mem_cons.1 hm with rfl | hm
  · rw [hparent] at hroot
    cases hroot
  · have hm' := hm
    rw [hpick] at hm'
    rw [parent_of_mem_membersIn (mem_numbered hm').1, Option.some.injEq, Int.natCast_inj] at hparent
    have hc' := getElem?_id h (h ▸ hc)
    rw [hparent, getElem?_id h hd, Option.some.injEq] at hc'
    rwa [hc']

theorem pick_ids {ds : List Declaration} (h : ∀ d ∈ ds, t.nodes[d.id]? = some d) : t.pick (ds.map (·.id)) = ds := by
  rw [pick, filterMap_map]
  exact (filterMap_congr h).trans filterMap_some

theorem walk_of_layOut (hnodes : t.nodes = layOut source 0 gs)
    (hroots : t.roots = (t.nodes.filter (·.parent.isNone)).map (·.id)) : t.walk = t.nodes := by
  have hpick : t.pick t.roots = t.nodes.filter (·.parent.isNone) := by
    rw [hroots]
    exact pick_ids fun d hd => getElem?_id hnodes (List.mem_of_mem_filter hd)
  have hmembers : ∀ d ∈ t.pick t.roots, ∃ g ∈ gs, t.pick d.members = numbered (d.id + 1) (g.members source d.id) := by
    intro d hd
    rw [hpick, List.mem_filter, hnodes] at hd
    obtain ⟨g, hg, -, h⟩ := pick_members gs [] hnodes d hd.1 hd.2
    exact ⟨g, hg, h⟩
  rw [walk]
  cases hlength : t.nodes.length with
  | zero => exact (List.length_eq_zero_iff.1 hlength).symm
  | succ n =>
    rw [walkFrom_of_flat, hpick, hnodes]
    · exact flatMap_heads gs [] hnodes
    · intro d hd m hm
      obtain ⟨g, -, h⟩ := hmembers d hd
      rw [h] at hm
      exact (mem_numbered hm).2
    · intro d hd hne
      -- The first member stands right behind its head, so the arena has two declarations at least.
      obtain ⟨g, -, h⟩ := hmembers d hd
      obtain ⟨m, hm⟩ := List.exists_mem_of_ne_nil _ hne
      have hid : d.id + 1 ≤ m.id := by
        rw [h] at hm
        have := List.mem_map_of_mem (f := (·.id)) hm
        rw [numbered_ids] at this
        exact (List.mem_range'_1.1 this).1
      have := (List.getElem?_eq_some_iff.1 (getElem?_id hnodes (mem_of_mem_pick hm))).1
      omega

/-! ## Marking -/

/-- A group whose name is among those exported after their declaration. -/
def Group.marked (source : List Char) (names : List String) (g : Group) : Group :=
  { g with frame.exported := g.frame.exported || names.contains (stringOf source g.item.name) }

def mark (names : List String) (d : Declaration) : Declaration :=
  { d with isExported := d.isExported || d.parent.isNone && names.contains d.name }

theorem layOut_map {F : Group → Group} {f : Declaration → Declaration}
    (hhead : ∀ g n ids, f ⟨g.head source, n, ids⟩ = ⟨(F g).head source, n, ids⟩)
    (hmembers : ∀ g n, (F g).members source n = g.members source n)
    (hmember : ∀ d : Declaration, d.parent.isNone = false → f d = d) : ∀ (gs : List Group) (n : Nat),
    layOut source n (gs.map F) = (layOut source n gs).map f
  | [], _ => rfl
  | g :: gs, n => by
    have hnumbered : (numbered (n + 1) (g.members source n)).map f = numbered (n + 1) (g.members source n) := by
      refine (map_congr_left fun d hd => hmember d ?_).trans (map_id _)
      rw [parent_of_mem_membersIn (mem_numbered hd).1]
      rfl
    rw [map_cons, layOut, layOut, map_cons, map_append, hnumbered, hhead, hmembers,
      ← layOut_map hhead hmembers hmember gs]

theorem layOut_marked (names : List String) (gs : List Group) (n : Nat) :
    layOut source n (gs.map (Group.marked source names)) = (layOut source n gs).map (mark names) := by
  refine layOut_map (F := Group.marked source names) (f := mark names) (fun _ _ _ => rfl) (fun _ _ => rfl)
    (fun d hd => ?_) gs n
  rw [mark, hd, Bool.false_and, Bool.or_false]

theorem markExported_layOut (gs : List Group) (names : List String) :
    markExported (empty.grow (layOut source 0 gs)) names
      = empty.grow (layOut source 0 (gs.map (Group.marked source names))) := by
  have hid : ∀ e ∈ layOut source 0 gs, (layOut source 0 gs)[e.id]? = some e := fun e he =>
    getElem?_id (t := ⟨layOut source 0 gs, [], [], []⟩) rfl he
  have hroot : ∀ d ∈ layOut source 0 gs,
      (((layOut source 0 gs).filter (·.parent.isNone)).map (·.id)).contains d.id = d.parent.isNone := by
    intro d hd
    rw [Bool.eq_iff_iff, contains_iff_mem, mem_map]
    constructor
    · rintro ⟨e, he, heq⟩
      obtain ⟨he, hnone⟩ := mem_filter.1 he
      have := hid e he
      rw [heq, hid d hd] at this
      rwa [Option.some.inj this]
    · exact fun hnone => ⟨d, mem_filter.2 ⟨hd, hnone⟩, rfl⟩
  have hnodes : (layOut source 0 gs).map (fun d =>
      if (((layOut source 0 gs).filter (·.parent.isNone)).map (·.id)).contains d.id && names.contains d.name
      then { d with isExported := true } else d) = (layOut source 0 gs).map (mark names) := by
    refine map_congr_left fun d hd => ?_
    rw [hroot d hd, mark]
    cases d.parent.isNone && names.contains d.name
    · simp
    · simp
  -- Marks are in no key, so the roots and the indexes are those of the unmarked groups.
  simp only [markExported, grow, layOut_marked, empty, nil_append, foldl_map,
    filter_map, map_map, mk.injEq]
  exact ⟨hnodes, rfl, rfl, rfl⟩

def declared (source : List Char) (root : Tree) : List Group :=
  (groups source root).map (Group.marked source (exportedNames source root))

/-- **The arena of an outline**, when all members lie in their heads. -/
theorem ofTree_tree {root : Tree} (h : ∀ g ∈ groups source root, g.Sound source) (path : String) :
    (Outline.ofTree source path root).tree = empty.grow (layOut source 0 (declared source root)) := by
  have hdecls : (groups source root).foldl (addGroup source) .empty = _ := foldl_addGroup _ _ h
  rw [declared, ← markExported_layOut]
  show markExported _ _ = _
  rw [groups] at hdecls
  rw [hdecls]
  rfl

end Layout
end Reading
end SourceBench
