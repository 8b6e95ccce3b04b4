import SourceBench.Proofs.Edit.Memory
import SourceBench.Proofs.Edit.Substitution

/-!
# The ranges that a renaming rewrites

A renaming in the file goes through all trees, and one of a member through all member accesses.  What it rewrites can be
said by the leaves alone: in the file all variables and types of the old name (`symbolRanges`), for a member its name
and the properties of that name which are taken of something (`memberRanges`).  These ranges lie apart, and what is
written in their places is settled (`symbolRanges_settled`, `memberRanges_settled`), so the result is the text with just
these replaced (`rename_rewrites`).
-/
namespace SourceBench

open Syntax

/-! ## Leaves among all trees -/

namespace Syntax.Tree

variable {α : Type} {f : Tree → Option α}

mutual
theorem filterMap_leaves : ∀ {t : Tree}, (∀ r k s cs, .node r k s cs ∈ t.nodes → f (.node r k s cs) = none) →
    t.leaves.filterMap f = t.nodes.filterMap f
  | .leaf _ _ _ _, _ => rfl
  | .node r k s cs, h => by
    rw [leaves, nodes, List.filterMap_cons_none (h r k s cs (Layout.self_mem_nodes _))]
    exact filterMap_leavesOf fun r' k' s' cs' hmem => h r' k' s' cs' (List.mem_cons_of_mem _ hmem)
theorem filterMap_leavesOf : ∀ {ts : List Tree}, (∀ r k s cs, .node r k s cs ∈ nodesOf ts → f (.node r k s cs) = none) →
    (leavesOf ts).filterMap f = (nodesOf ts).filterMap f
  | [], _ => rfl
  | t :: ts, h => by
    rw [leavesOf, nodesOf, List.filterMap_append, List.filterMap_append,
      filterMap_leaves fun r k s cs hmem => h r k s cs (List.mem_append_left _ hmem),
      filterMap_leavesOf fun r k s cs hmem => h r k s cs (List.mem_append_right _ hmem)]
end

end Syntax.Tree

/-! ## Ranges -/

namespace Renaming

open Reading Splice

/-- What a renaming in the file replaces: the leaves that read the old name and stand for a variable or a type, or are a
shorthand property. -/
def symbolRanges [Recovery] (source : List Char) (op : Rename) : List Splice :=
  (View.ofText source).tree.leaves.filterMap fun u =>
    if textOf source u = op.old.toList then (written op u.kind).map (.replace u.start u.stop ·) else none

/-- What the renaming of a member with the given name replaces: that name, and the properties of the old name that are
taken of something, but for private ones. -/
def memberRanges [Recovery] (source : List Char) (op : Rename) (n : Tree) : List Splice :=
  .replace n.start n.stop op.new.toList ::
    ((accesses source).filter fun p => p.kind == .propertyIdentifier && textOf source p == op.old.toList).map fun p =>
      .replace p.start p.stop op.new.toList

variable {source : List Char} {op : Rename} {p : Plan}

theorem symbolSplices_eq [SoundRecovery] (source : List Char) (op : Rename) :
    symbolSplices source op = symbolRanges source op := by
  have hnode : ∀ r k s cs, .node r k s cs ∈ (View.ofText source).tree.nodes →
      spliceAt source op.old op.new (.node r k s cs) = none := by
    intro r k s cs hmem
    refine Option.eq_none_iff_forall_ne_some.2 fun t ht => ?_
    obtain ⟨-, w, hw, -⟩ := spliceAt_eq_some.1 ht
    have hname : isName (Syntax.Tree.node r k s cs).kind = false := (View.ofText_wellNamed source r k s cs hmem).noName
    rw [isName_of_isOccurrence (isOccurrence_of_written hw)] at hname
    cases hname
  rw [symbolSplices, ← Tree.filterMap_leaves hnode, symbolRanges]
  exact List.filterMap_congr fun u _ => spliceAt_eq u

theorem splicesFor_eq [Recovery] (source : List Char) (op : Rename) (n : Tree) :
    splicesFor source op n = memberRanges source op n := by
  rw [splicesFor, memberRanges, accessSplices, accesses, List.filter_filterMap, List.map_filterMap]
  congr 1
  refine List.filterMap_congr fun u _ => ?_
  unfold accessSplice
  split
  · cases u.child? .property with
    | none => rfl
    | some p => simp [Option.filter]
  · rfl

/-- **What a renaming in the file replaces is settled.**  Only an empty name can stand at one place twice, and only in a
text that breaks the grammar. -/
theorem symbolRanges_settled [SoundRecovery] (hleaves : op.old = "" → parse .typescript source = none →
    ((View.ofText source).tree.leaves.map rangeOf).Nodup) :
    Settled (Utf8.encode source).length (symbolRanges source op) := by
  by_cases hold : op.old = ""
  · rw [← symbolSplices_eq]
    refine ⟨symbolSplices_within, symbolSplices_apart source op, fun s hs t ht hstart hstop => ?_⟩
    have hbroken : parse .typescript source = none := by
      by_contra hparse
      obtain ⟨u, hu, htext, -⟩ := mem_symbolSplices hs
      obtain ⟨hmem, hname⟩ := isName_of_mem hu
      exact View.ne_nil_of_text hmem (fun hk => by rw [hk] at hname; cases hname) htext (absurd · hparse) hold
    rw [symbolSplices_eq] at hs ht
    obtain ⟨u, hu, hs⟩ := List.mem_filterMap.1 hs
    obtain ⟨w, hw, ht⟩ := List.mem_filterMap.1 ht
    obtain ⟨-, hs⟩ := Option.ite_none_right_eq_some.1 hs
    obtain ⟨-, ht⟩ := Option.ite_none_right_eq_some.1 ht
    obtain ⟨x, hx, rfl⟩ := Option.map_eq_some_iff.1 hs
    obtain ⟨y, hy, rfl⟩ := Option.map_eq_some_iff.1 ht
    have hrange : rangeOf u = rangeOf w := Prod.ext (Int.ofNat_inj.1 hstart) (Int.ofNat_inj.1 hstop)
    obtain rfl := List.inj_on_of_nodup_map (hleaves hold hbroken) hu hw hrange
    exact Option.some.inj (hx.symm.trans hy)
  · exact symbolSplices_eq source op ▸ (symbolSplices_tidy source hold).separate.settled

theorem memberRanges_settled [SoundRecovery] {n : Tree} (hn : Names source op n) :
    Settled (Utf8.encode source).length (memberRanges source op n) := by
  have hnew : ∀ s ∈ splicesFor source op n, s.Within (Utf8.encode source).length ∧ s.text = op.new.toList := by
    intro s hs
    obtain ⟨u, hu, -, rfl⟩ := mem_splicesFor hn hs
    exact ⟨View.within_replace hu _, rfl⟩
  rw [← splicesFor_eq]
  exact ⟨fun s hs => (hnew s hs).1, splicesFor_apart hn, fun s hs t ht _ _ => (hnew s hs).2.trans (hnew t ht).2.symm⟩

theorem found_of_ofMember [SoundRecovery] {owner : String} (h : ofMember (View.ofText source) op owner = .ok p) :
    ∃ c m n, (View.ofText source).outline.tree.find? .classDecl owner = some c ∧
      memberNamed (View.ofText source) c op.old = some m ∧ m.nameRange = some (rangeOf n) ∧ Names source op n ∧
      p.edits = splicesFor source op n := by
  obtain ⟨c, m, a, b, hc, hm, hrange, hedits⟩ := ofMember_eq_ok h
  obtain ⟨_, _, n, hr, hedits'⟩ := renames_of_ok h
  rw [hedits, splicesFor, List.cons.injEq, replace, replace, Splice.mk.injEq, Int.natCast_inj, Int.natCast_inj]
    at hedits'
  obtain ⟨⟨rfl, rfl, -⟩, -⟩ := hedits'
  exact ⟨c, m, n, hc, hm, hrange, hr.names, hedits⟩

end Renaming

namespace Document

open Reading Splice Renaming

/-- **A renaming rewrites just the selected ranges** of any document, and these lie apart, if no two leaves are at the
same place where the old name is empty and the text breaks the grammar.  In the file they are the leaves that read the
old name and stand for a variable or a type, which become the new name, or are a shorthand property, behind which the
new name is written.  For a member they are the name of the member that was found and the properties of the old name
that are taken of something, but for private ones; they become the new name. -/
theorem rename_rewrites [SoundRecovery] {source : List Char} {as : List Access} {d : Document} {op : Rename} {p : Plan}
    (hd : d = (ofText source).accessAll as) (h : (d.perform (.rename op)).2 = .ok p) :
    ∃ text, d.text? = some text ∧
      (InFile op →
        (op.old = "" → parse .typescript text = none → ((View.ofText text).tree.leaves.map rangeOf).Nodup) →
          Settled d.bytes.length (symbolRanges text op) ∧
          (d.perform (.rename op)).1.bytes = substitute (symbolRanges text op) d.bytes) ∧
      (¬ InFile op → ∃ owner c m n, op.owner = .str owner ∧
        (View.ofText text).outline.tree.find? .classDecl owner = some c ∧
        memberNamed (View.ofText text) c op.old = some m ∧ m.nameRange = some (rangeOf n) ∧
        n ∈ (View.ofText text).tree.nodes ∧ n.role = .name ∧ textOf text n = op.old.toList ∧
        Settled d.bytes.length (memberRanges text op n) ∧
        (d.perform (.rename op)).1.bytes = substitute (memberRanges text op n) d.bytes) := by
  have hcoherent : d.Coherent := hd ▸ accessAll_coherent as (coherent_ofText source)
  obtain ⟨text, htext, hbytes, hplan, hresult⟩ := plan_of_perform hcoherent rfl h
  refine ⟨text, htext, fun hfile hleaves => ?_, fun hclass => ?_⟩
  · have hsettled := symbolRanges_settled hleaves
    obtain ⟨hedits, -⟩ := ofSymbol_eq_ok ((plan_of_inFile hfile _).symm.trans hplan)
    rw [hresult, hbytes, hedits, symbolSplices_eq, applyAll_eq hsettled]
    exact ⟨hsettled, rfl⟩
  · obtain ⟨owner, howner, hmember⟩ := ofMember_of_plan hplan hclass
    obtain ⟨c, m, n, hc, hm, hrange, hn, hedits⟩ := found_of_ofMember hmember
    have hsettled := memberRanges_settled hn
    refine ⟨owner, c, m, n, howner, hc, hm, hrange, hn.mem, hn.role, hn.text, ?_⟩
    rw [hresult, hbytes, hedits, splicesFor_eq, applyAll_eq hsettled]
    exact ⟨hsettled, rfl⟩

attribute [local instance] SoundRecovery.bare

def computedSource : List Char :=
  "class A \x7b x = 1; ['x'] = this.x; f() \x7b return o.x + o['x']; \x7d \x7d\nfunction x() \x7b\x7d\n".toList

def computedAccesses : List Access := [.perform (.addExport ⟨"x", .bool false, .null⟩), .readTree]

def computedClass : Document := (ofText computedSource).accessAll computedAccesses

def memberToLength : Rename := ⟨"x", "length", .str "class", .str "A"⟩

def computedClassRenamed : List Char :=
  "class A \x7b length = 1; ['x'] = this.length; f() \x7b return o.length + o['x']; \x7d \x7d\n".toList ++
    "function x() \x7b\x7d\nexport \x7b x \x7d;\n".toList

theorem rename_rewrites_member :
    (∃ p, (computedClass.perform (.rename memberToLength)).2 = .ok p) ∧ ¬ InFile memberToLength ∧
      ∃ text n, computedClass.text? = some text ∧ n.role = .name ∧ textOf text n = "x".toList ∧
        Settled computedClass.bytes.length (memberRanges text memberToLength n) ∧
        substitute (memberRanges text memberToLength n) computedClass.bytes = Utf8.encode computedClassRenamed := by
  obtain ⟨⟨p, hp⟩, hbytes⟩ : (∃ p, (computedClass.perform (.rename memberToLength)).2 = .ok p) ∧
      (computedClass.perform (.rename memberToLength)).1.bytes = Utf8.encode computedClassRenamed := by
    rw [computedClass, show computedSource = _ from String.toList_ofList,
      show computedClassRenamed = _ ++ _ from congrArg₂ _ String.toList_ofList String.toList_ofList]
    decide +kernel
  have hclass : ¬ InFile memberToLength := by simp [InFile, memberToLength, Value.truthy]
  have hreached : computedClass = (ofText computedSource).accessAll computedAccesses := rfl
  obtain ⟨text, htext, -, hrewritten⟩ := rename_rewrites hreached hp
  obtain ⟨-, -, -, n, -, -, -, -, -, hrole, hname, hsettled, hsubstitute⟩ := hrewritten hclass
  exact ⟨⟨p, hp⟩, hclass, text, n, htext, hrole, hname, hsettled, hsubstitute.symm.trans hbytes⟩

end Document
end SourceBench
