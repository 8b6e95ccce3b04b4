import Mathlib.Data.List.Find
import Mathlib.Data.List.Nodup
import SourceBench.Proofs.Outline.Arena

/-!
# Links between declarations

Declarations are added to an arena one call after another.  The log of such a run holds what was accepted: the id of
each declaration with the place of its owner.  The roots and the members of an arena are those of its log, in the log's
order, whatever was refused in between (`linked_afterCalls`).  So are its indexes, as long as owners are named by their
places (`indexed_afterCalls`), and then a look-up finds what a search through the roots or the members finds.
-/
namespace SourceBench.DeclarationTree

open List Option

variable {i n place j : Nat} {p : Int}

structure Call where
  label : String
  info : DeclarationInfo

/-- What was accepted: ids with the places of their owners; a root has none. -/
abbrev Log := List (Nat × Option Nat)

def afterCalls (t : DeclarationTree) (calls : List Call) : DeclarationTree :=
  calls.foldl (fun t c => (t.addLabelled c.label c.info).1) t

/-- What the end of a call puts into the log, in the arena that it left. -/
def entryOf (t : DeclarationTree) : Except AddError Declaration → Log
  | .ok d => [(d.id, d.parent.bind (placeOf t.nodes.length))]
  | .error _ => []

def accepted (t : DeclarationTree) : List Call → Log
  | [] => []
  | c :: calls =>
    let added := t.addLabelled c.label c.info
    entryOf added.1 added.2 ++ accepted added.1 calls

def below (log : Log) (owner : Option Nat) : List Nat := (log.filter (·.2 == owner)).map (·.1)

theorem mem_below {log : Log} {owner : Option Nat} : i ∈ below log owner ↔ (i, owner) ∈ log := by
  simp [below]

theorem below_concat (log : Log) (i : Nat) (o owner : Option Nat) :
    below (log ++ [(i, o)]) owner = below log owner ++ if o = owner then [i] else [] := by
  by_cases ho : o = owner
  · simp [below, filter_append, ho]
  · simp [below, filter_append, ho]

theorem below_sublist (log : Log) (owner : Option Nat) : (below log owner).Sublist (log.map (·.1)) :=
  filter_sublist.map _

/-! ## One call -/

theorem lt_of_placeOf (h : placeOf n p = some place) : place < n := by
  unfold placeOf at h
  split at h <;> simp at h <;> omega

theorem eq_of_placeOf (h : placeOf n p = some place) (hp : 0 ≤ p) : p = place := by
  unfold placeOf at h
  simp [show ¬ p < 0 by omega] at h
  omega

def seated (t : DeclarationTree) (info : DeclarationInfo) : List Declaration :=
  t.nodes ++ [⟨info, t.nodes.length, []⟩]

theorem length_seated (t : DeclarationTree) (info : DeclarationInfo) : (t.seated info).length = t.nodes.length + 1 := by
  rw [seated, length_append, length_singleton]

inductive Added (t : DeclarationTree) (info : DeclarationInfo) : DeclarationTree → Except AddError Declaration →
    Prop where
  | root (hparent : info.parent = none) : Added t info
      { t with
        nodes := t.seated info
        roots := t.roots ++ [t.nodes.length]
        topIndex := indexInsert t.topIndex (info.kind, info.name) t.nodes.length }
      (.ok ⟨info, t.nodes.length, []⟩)
  | member {p : Int} {place : Nat} {owner d : Declaration} (hparent : info.parent = some p)
      (hplace : placeOf (t.nodes.length + 1) p = some place) (howner : (t.seated info)[place]? = some owner)
      (hlo : owner.startLine ≤ info.startLine) (hhi : info.stopLine ≤ owner.stopLine)
      (hid : d.id = t.nodes.length) (hd : d.parent = some p) : Added t info
      { t with
        nodes := (t.seated info).modify place fun o => { o with members := o.members ++ [t.nodes.length] }
        memberIndex := indexInsert t.memberIndex (p, info.kind, info.name) t.nodes.length }
      (.ok d)
  | refused {e : AddError} : Added t info { t with nodes := t.seated info } (.error e)

theorem added (t : DeclarationTree) (info : DeclarationInfo) : Added t info (t.add info).1 (t.add info).2 := by
  unfold add
  dsimp only
  cases hparent : info.parent with
  | none => exact .root hparent
  | some p =>
    dsimp only
    rw [length_append, length_singleton]
    cases hplace : placeOf (t.nodes.length + 1) p with
    | none => exact .refused
    | some place =>
      dsimp only
      cases howner : (t.nodes ++ [(⟨info, t.nodes.length, []⟩ : Declaration)])[place]? with
      | none => exact .refused
      | some owner =>
        dsimp only
        split
        · next hlines =>
          simp only [Bool.and_eq_true, decide_eq_true_eq] at hlines
          -- What is given back stands last; it has a member if it is its own owner.
          rw [getElem?_modify, getElem?_concat_length]
          refine .member hparent hplace howner hlines.1 hlines.2 ?_ ?_
          · by_cases hself : place = t.nodes.length
            · simp [hself]
            · simp [hself]
          · by_cases hself : place = t.nodes.length
            · simp [hself, hparent]
            · simp [hself, hparent]
        · exact .refused

/-- **What every call keeps, a run of calls keeps.**  Calls of an unknown kind do nothing. -/
theorem afterCalls_induction (Keeps : DeclarationTree → List DeclarationInfo → Log → Prop)
    (Fits : DeclarationInfo → Prop)
    (hadd : ∀ {t t' : DeclarationTree} {infos : List DeclarationInfo} {log : Log} {info : DeclarationInfo}
      {r : Except AddError Declaration}, Keeps t infos log → Fits info → Added t info t' r →
        Keeps t' (infos ++ [info]) (log ++ entryOf t' r)) :
    ∀ (calls : List Call) {t : DeclarationTree} {infos : List DeclarationInfo} {log : Log},
      (∀ c ∈ calls, ∀ kind, Fits { c.info with kind }) → Keeps t infos log →
        ∃ infos', Keeps (t.afterCalls calls) infos' (log ++ accepted t calls)
  | [], t, infos, log, _, h => ⟨infos, by simpa [accepted, afterCalls] using h⟩
  | c :: calls, t, infos, log, hfits, h => by
    rw [forall_mem_cons] at hfits
    rw [accepted, afterCalls, foldl_cons, ← append_assoc]
    unfold addLabelled
    cases DeclKind.ofLabel? c.label with
    | none =>
      simp only [entryOf, append_nil]
      exact afterCalls_induction Keeps Fits hadd calls hfits.2 h
    | some kind => exact afterCalls_induction Keeps Fits hadd calls hfits.2 (hadd h (hfits.1 kind) (added t _))

/-! ## Roots and members -/

/-- The declarations that have their places as ids, and the members of a log. -/
def linkUp (infos : List DeclarationInfo) (log : Log) : List Declaration :=
  infos.mapIdx fun i info => ⟨info, i, below log (some i)⟩

/-- The arena holds declarations of which the log says how they hang together. -/
structure Linked (t : DeclarationTree) (infos : List DeclarationInfo) (log : Log) : Prop where
  nodes : t.nodes = linkUp infos log
  roots : t.roots = below log none
  once : (log.map (·.1)).Nodup
  known : ∀ l ∈ log, l.1 < infos.length
  back : ∀ {i j : Nat}, (i, some j) ∈ log → j ≤ i
  inside : ∀ {i j : Nat}, (i, some j) ∈ log → ∀ d a, infos[i]? = some d → infos[j]? = some a →
    a.startLine ≤ d.startLine ∧ d.stopLine ≤ a.stopLine

@[simp] theorem length_linkUp (infos : List DeclarationInfo) (log : Log) :
    (linkUp infos log).length = infos.length := by
  simp [linkUp]

theorem getElem?_linkUp (infos : List DeclarationInfo) (log : Log) (i : Nat) :
    (linkUp infos log)[i]? = infos[i]?.map fun info => ⟨info, i, below log (some i)⟩ := by
  simp [linkUp]

theorem linkUp_concat {infos : List DeclarationInfo} {log : Log} (info : DeclarationInfo)
    (h : below log (some infos.length) = []) :
    linkUp (infos ++ [info]) log = linkUp infos log ++ [⟨info, infos.length, []⟩] := by
  simp [linkUp, mapIdx_concat, h]

theorem linkUp_entry (infos : List DeclarationInfo) (log : Log) (i place : Nat) :
    linkUp infos (log ++ [(i, some place)]) = (linkUp infos log).modify place fun o =>
      { o with members := o.members ++ [i] } := by
  apply ext_getElem?
  intro k
  rw [getElem?_modify, getElem?_linkUp, getElem?_linkUp]
  cases infos[k]? with
  | none => rfl
  | some info =>
    by_cases hk : place = k
    · simp [below_concat, hk]
    · simp [below_concat, hk]

theorem linkUp_root (infos : List DeclarationInfo) (log : Log) (i : Nat) :
    linkUp infos (log ++ [(i, none)]) = linkUp infos log := by
  simp [linkUp, below_concat]

namespace Linked

variable {t t' : DeclarationTree} {infos : List DeclarationInfo} {log : Log} (h : Linked t infos log)
include h

theorem length_nodes : t.nodes.length = infos.length := by rw [h.nodes, length_linkUp]

theorem owner_lt (hl : (i, some j) ∈ log) : j < infos.length :=
  Nat.lt_of_le_of_lt (h.back hl) (h.known _ hl)

theorem below_end : below log (some infos.length) = [] := by
  rw [eq_nil_iff_forall_not_mem]
  intro i hi
  exact absurd (h.owner_lt (mem_below.1 hi)) (Nat.lt_irrefl _)

theorem once_concat (o : Option Nat) : ((log ++ [(infos.length, o)]).map (·.1)).Nodup := by
  rw [map_append, map_singleton, ← concat_eq_append, nodup_concat]
  refine ⟨?_, h.once⟩
  intro hmem
  obtain ⟨l, hl, heq⟩ := mem_map.1 hmem
  exact absurd (h.known l hl) (by omega)

theorem known_concat (info : DeclarationInfo) (o : Option Nat) :
    ∀ l ∈ log ++ [(infos.length, o)], l.1 < (infos ++ [info]).length := by
  intro l hl
  rw [length_append, length_singleton]
  rcases mem_append.1 hl with hl | hl
  · exact Nat.lt_succ_of_lt (h.known l hl)
  · rw [mem_singleton.1 hl]
    exact Nat.lt_succ_self _

theorem inside_concat (info : DeclarationInfo) (hl : (i, some j) ∈ log) (d a : DeclarationInfo)
    (hd : (infos ++ [info])[i]? = some d) (ha : (infos ++ [info])[j]? = some a) :
    a.startLine ≤ d.startLine ∧ d.stopLine ≤ a.stopLine := by
  rw [getElem?_append_left (h.known _ hl)] at hd
  rw [getElem?_append_left (h.owner_lt hl)] at ha
  exact h.inside hl d a hd ha

theorem add {info : DeclarationInfo} {r : Except AddError Declaration} (hadd : Added t info t' r) :
    Linked t' (infos ++ [info]) (log ++ entryOf t' r) := by
  have hlength := h.length_nodes
  have hseated : t.seated info = linkUp (infos ++ [info]) log := by
    rw [linkUp_concat info h.below_end, seated, h.nodes, length_linkUp]
  cases hadd with
  | root hparent =>
    simp only [entryOf, hparent, bind_none, hlength]
    refine ⟨?_, ?_, h.once_concat none, h.known_concat info none, ?_, ?_⟩
    · rw [linkUp_root, hseated]
    · rw [below_concat, if_pos rfl, h.roots]
    · intro i j hl
      simp only [mem_append, mem_singleton, Prod.mk.injEq, reduceCtorEq, and_false, or_false] at hl
      exact h.back hl
    · intro i j hl
      simp only [mem_append, mem_singleton, Prod.mk.injEq, reduceCtorEq, and_false, or_false] at hl
      exact h.inside_concat info hl
  | @member p place owner d hparent hplace howner hlo hhi hid hd =>
    have hle := lt_of_placeOf hplace
    simp only [entryOf, hid, hd, bind_some, length_modify, length_seated, hplace]
    simp only [hlength] at hle ⊢
    refine ⟨?_, ?_, h.once_concat _, h.known_concat info _, ?_, ?_⟩
    · rw [linkUp_entry, hseated]
    · rw [below_concat, if_neg (by simp), append_nil, h.roots]
    · intro i j hl
      rcases mem_append.1 hl with hl | hl
      · exact h.back hl
      · simp only [mem_singleton, Prod.mk.injEq, some.injEq] at hl
        omega
    · intro i j hl
      rcases mem_append.1 hl with hl | hl
      · exact h.inside_concat info hl
      · simp only [mem_singleton, Prod.mk.injEq, some.injEq] at hl
        obtain ⟨rfl, rfl⟩ := hl
        intro d' a hd' ha
        -- The lines of the owner were looked at when it was found.
        rw [hseated, getElem?_linkUp, ha] at howner
        rw [getElem?_concat_length] at hd'
        cases howner
        cases hd'
        exact ⟨hlo, hhi⟩
  | refused =>
    simp only [entryOf, append_nil]
    refine ⟨hseated, h.roots, h.once, ?_, h.back, h.inside_concat info⟩
    intro l hl
    rw [length_append]
    exact Nat.lt_add_right _ (h.known l hl)

end Linked

theorem linked_empty : Linked empty [] [] where
  nodes := rfl
  roots := rfl
  once := .nil
  known := fun _ h => absurd h not_mem_nil
  back := fun h => absurd h not_mem_nil
  inside := fun h => absurd h not_mem_nil

theorem linked_afterCalls (calls : List Call) : ∃ infos, Linked (empty.afterCalls calls) infos (accepted empty calls) :=
  afterCalls_induction Linked (fun _ => True) (fun h _ hadd => h.add hadd) calls (fun _ _ _ => trivial) linked_empty

/-! ## Indexes -/

def isNamed (infos : List DeclarationInfo) (kind : DeclKind) (name : String) (i : Nat) : Bool :=
  infos[i]?.any fun d => d.kind == kind && d.name == name

/-- The indexes hold the first root, and the first member of each owner, of every kind and name. -/
structure Indexed (t : DeclarationTree) (infos : List DeclarationInfo) (log : Log) : Prop where
  top : ∀ kind name, indexFind t.topIndex (kind, name) = (below log none).find? (isNamed infos kind name)
  member : ∀ (owner : Nat) kind name, indexFind t.memberIndex ((owner : Int), kind, name) =
    (below log (some owner)).find? (isNamed infos kind name)

section

variable {t t' : DeclarationTree} {infos : List DeclarationInfo} {log : Log} (h : Linked t infos log)
include h

theorem Linked.find?_seated (info : DeclarationInfo) (kind : DeclKind) (name : String) (owner : Option Nat) :
    (below log owner).find? (isNamed (infos ++ [info]) kind name)
      = (below log owner).find? (isNamed infos kind name) := by
  apply find?_congr
  intro i hi
  unfold isNamed
  rw [getElem?_append_left (h.known _ (mem_below.1 hi))]

theorem Linked.find?_entry (info : DeclarationInfo) (kind : DeclKind) (name : String) (o owner : Option Nat) :
    (below (log ++ [(infos.length, o)]) owner).find? (isNamed (infos ++ [info]) kind name) =
      ((below log owner).find? (isNamed infos kind name)).or
        (if o = owner ∧ info.kind = kind ∧ info.name = name then some infos.length else none) := by
  rw [below_concat, find?_append, h.find?_seated]
  by_cases ho : o = owner
  · simp [ho, isNamed, find?_singleton]
  · simp [ho]

theorem Indexed.add (hindexed : Indexed t infos log) {info : DeclarationInfo} {r : Except AddError Declaration}
    (hadd : Added t info t' r) (hparent : ∀ p, info.parent = some p → 0 ≤ p) :
    Indexed t' (infos ++ [info]) (log ++ entryOf t' r) := by
  have hlength := h.length_nodes
  cases hadd with
  | root hnone =>
    simp only [entryOf, hnone, bind_none, hlength]
    refine ⟨fun kind name => ?_, fun owner kind name => ?_⟩
    · rw [h.find?_entry, indexFind_insert, hindexed.top]
      simp
    · rw [h.find?_entry, hindexed.member]
      simp
  | @member p place owner d hp hplace _ _ _ hid hd =>
    obtain rfl := eq_of_placeOf hplace (hparent p hp)
    simp only [entryOf, hid, hd, bind_some, length_modify, length_seated, hplace]
    simp only [hlength]
    refine ⟨fun kind name => ?_, fun owner kind name => ?_⟩
    · rw [h.find?_entry, hindexed.top]
      simp
    · rw [h.find?_entry, indexFind_insert, hindexed.member]
      simp only [beq_iff_eq, Prod.mk.injEq, Int.ofNat_inj, some.injEq]
  | refused =>
    simp only [entryOf, append_nil]
    refine ⟨fun kind name => ?_, fun owner kind name => ?_⟩
    · rw [h.find?_seated, hindexed.top]
    · rw [h.find?_seated, hindexed.member]

theorem Linked.find?_pick (ids : List Nat) (kind : DeclKind) (name : String) :
    (t.pick ids).find? (fun d => d.kind == kind && d.name == name) =
      (ids.find? (isNamed infos kind name)).bind (t.nodes[·]?) := by
  rw [pick, find?_filterMap]
  congr 2
  funext i
  rw [h.nodes, getElem?_linkUp, isNamed]
  cases infos[i]? <;> rfl

end

theorem indexed_empty : Indexed empty [] [] := ⟨fun _ _ => rfl, fun _ _ _ => rfl⟩

theorem indexed_afterCalls {calls : List Call} (hcalls : ∀ c ∈ calls, ∀ p ∈ c.info.parent, 0 ≤ p) :
    ∃ infos, Linked (empty.afterCalls calls) infos (accepted empty calls) ∧
      Indexed (empty.afterCalls calls) infos (accepted empty calls) :=
  afterCalls_induction (fun t infos log => Linked t infos log ∧ Indexed t infos log)
    (fun info => ∀ p ∈ info.parent, 0 ≤ p) (fun h hfits hadd => ⟨h.1.add hadd, h.2.add h.1 hadd hfits⟩) calls
    (fun c hc _ => hcalls c hc) ⟨linked_empty, indexed_empty⟩

/-! ## Looking up and searching -/

theorem ofLabel?_eq_some {label : String} {kind : DeclKind} :
    DeclKind.ofLabel? label = some kind ↔ kind.label = label := by
  constructor
  · intro h
    have hlabel := find?_some h
    exact beq_iff_eq.1 hlabel
  · rintro rfl
    cases kind <;> rfl

theorem find?_labelled (ds : List Declaration) (label name : String) :
    ds.find? (fun d => d.kind.label == label && d.name == name) =
      (DeclKind.ofLabel? label).bind fun kind => ds.find? fun d => d.kind == kind && d.name == name := by
  cases hlabel : DeclKind.ofLabel? label with
  | none =>
    rw [bind_none, find?_eq_none]
    intro d _ hd
    simp only [Bool.and_eq_true, beq_iff_eq] at hd
    rw [ofLabel?_eq_some.2 hd.1] at hlabel
    cases hlabel
  | some kind =>
    rw [bind_some]
    apply find?_congr
    intro d _
    have hiff : d.kind.label = label ↔ d.kind = kind := by
      rw [← ofLabel?_eq_some, hlabel, some.injEq, eq_comm]
    rw [Bool.eq_iff_iff]
    simp [hiff]

/-- **Looking up is searching.**  After any calls that name owners by their places, refused ones among them, the index
of the top level finds the first of the roots, and the index of members the first of the members of each declaration. -/
theorem lookup_eq_search (calls : List Call) (hcalls : ∀ c ∈ calls, ∀ p ∈ c.info.parent, 0 ≤ p) (label name : String) :
    let t := empty.afterCalls calls
    ((DeclKind.ofLabel? label).bind fun kind => t.find? kind name) =
        t.rootDecls.find? (fun d => d.kind.label == label && d.name == name) ∧
      ∀ owner ∈ t.nodes, ((DeclKind.ofLabel? label).bind fun kind => t.findMember? owner.id kind name) =
        (t.membersOf owner).find? fun d => d.kind.label == label && d.name == name := by
  intro t
  obtain ⟨infos, hlinked, hindexed⟩ := indexed_afterCalls hcalls
  refine ⟨?_, fun owner howner => ?_⟩
  · rw [find?_labelled]
    congr 1
    funext kind
    rw [rootDecls, hlinked.find?_pick, hlinked.roots, ← hindexed.top, find?]
  · obtain ⟨i, hi⟩ := mem_iff_getElem?.1 howner
    rw [hlinked.nodes, getElem?_linkUp, Option.map_eq_some_iff] at hi
    obtain ⟨info, -, rfl⟩ := hi
    rw [find?_labelled]
    congr 1
    funext kind
    rw [membersOf, hlinked.find?_pick, ← hindexed.member, findMember?]

/-- A class with two methods of one name and a third outside its lines; a method of that third one; one that owns
itself; one without an owner; and one of no known kind. -/
def repeatedNames : List Call :=
  let call (label name : String) (startLine stopLine : Int) (parent : Option Int) : Call :=
    ⟨label, { kind := .classDecl, name, startLine, stopLine, parent }⟩
  [call "class" "A" 1 9 none, call "method" "f" 2 3 (some 0), call "method" "f" 8 12 (some 0),
    call "method" "f" 4 5 (some 0),
    call "method" "f" 9 10 (some 2), call "method" "f" 4 5 (some 5), call "method" "f" 4 5 (some 9),
    call "module" "f" 1 2 none]

theorem lookup_eq_search_repeated : (∀ c ∈ repeatedNames, ∀ p ∈ c.info.parent, 0 ≤ p) ∧
    ((DeclKind.ofLabel? "method").bind fun kind => (empty.afterCalls repeatedNames).find? kind "f") =
        (empty.afterCalls repeatedNames).rootDecls.find? (fun d => d.kind.label == "method" && d.name == "f") ∧
      ∀ owner ∈ (empty.afterCalls repeatedNames).nodes,
        ((DeclKind.ofLabel? "method").bind fun kind => (empty.afterCalls repeatedNames).findMember? owner.id kind "f") =
          ((empty.afterCalls repeatedNames).membersOf owner).find? fun d =>
            d.kind.label == "method" && d.name == "f" := by
  have hcalls : ∀ c ∈ repeatedNames, ∀ p ∈ c.info.parent, 0 ≤ p := by decide
  exact ⟨hcalls, lookup_eq_search repeatedNames hcalls "method" "f"⟩

end SourceBench.DeclarationTree
