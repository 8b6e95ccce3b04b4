import SourceBench.Proofs.Edit.Effect
import SourceBench.Proofs.Edit.Views
import SourceBench.Proofs.Outline.Lookup

/-!
# Renaming a declaration

A variable occurs in four kinds of leaves.  Renaming a declaration of the file rewrites three of them: where the old
name is a variable or a type it becomes the new one, and where it is a shorthand property the new one is written behind
it.  What an occurrence is called afterwards is read where the splices move it to (`nameAfter`).  So occurrences are
called alike after the renaming as they were before, exactly if none is a shorthand property of a pattern that takes the
old name (`rename_consistent`).
-/
namespace SourceBench

open List View Option String

namespace Renaming

open Syntax Reading Splice

variable {u : Tree} {k : Kind} {s : Splice}

/-! ## Occurrences -/

def isOccurrence : Kind → Bool
  | .identifier | .typeIdentifier | .shorthandPropertyIdentifier | .shorthandPropertyIdentifierPattern => true
  | _ => false

def occurrences [Recovery] (source : List Char) : List Tree := (ofText source).tree.nodes.filter (isOccurrence ·.kind)

def written (op : Rename) : Kind → Option (List Char)
  | .identifier | .typeIdentifier => some op.new.toList
  | .shorthandPropertyIdentifier => some (op.old.toList ++ ": ".toList ++ op.new.toList)
  | _ => none

def symbolSplices [Recovery] (source : List Char) (op : Rename) : List Splice :=
  (ofText source).tree.nodes.filterMap (spliceAt source op.old op.new)

/-- The occurrence is a shorthand property of a pattern and takes the old name. -/
def Missed (source : List Char) (op : Rename) (u : Tree) : Prop :=
  u.kind = .shorthandPropertyIdentifierPattern ∧ textOf source u = op.old.toList

instance (source : List Char) (op : Rename) (u : Tree) : Decidable (Missed source op u) :=
  inferInstanceAs (Decidable (_ ∧ _))

/-- The name of an occurrence in the result: what stands where it was moved to, less the key of a shorthand property
that was written out. -/
def nameAfter [Recovery] (source result : List Char) (op : Rename) (u : Tree) : Option (List Char) :=
  (Utf8.decode (slicePart (Utf8.encode result) (moved (symbolSplices source op) u.start)
    (moved (symbolSplices source op) u.stop))).map fun text =>
      if u.kind = .shorthandPropertyIdentifier ∧ textOf source u = op.old.toList ∧
          text = op.old.toList ++ ": ".toList ++ op.new.toList then op.new.toList
      else text

/-- The renaming is in the file: its scope is not a class, or it names none. -/
def InFile (op : Rename) : Prop := op.scope ≠ .str "class" ∨ op.owner.truthy = false

variable {source : List Char} {op : Rename}

theorem spliceAt_eq (u : Tree) : spliceAt source op.old op.new u
    = if textOf source u = op.old.toList then (written op u.kind).map (.replace u.start u.stop ·) else none := by
  unfold spliceAt written
  generalize u.kind = k
  split
  case h_4 => split <;> simp_all
  all_goals simp only [beq_iff_eq, map_some]

theorem spliceAt_eq_some : spliceAt source op.old op.new u = some s ↔
    textOf source u = op.old.toList ∧ ∃ w, written op u.kind = some w ∧ .replace u.start u.stop w = s := by
  rw [spliceAt_eq, ite_none_right_eq_some, map_eq_some_iff]

theorem isOccurrence_of_written {w : List Char} (h : written op k = some w) : isOccurrence k := by
  unfold written at h
  split at h <;> first | rfl | cases h

theorem isName_of_isOccurrence (h : isOccurrence k) : isName k := by
  unfold isOccurrence at h
  split at h <;> first | rfl | cases h

theorem written_of_isOccurrence (op : Rename) (h : isOccurrence k) (hk : k ≠ .shorthandPropertyIdentifierPattern) :
    ∃ w, written op k = some w ∧ (k = .shorthandPropertyIdentifier ∧ w = op.old.toList ++ ": ".toList ++ op.new.toList ∨
        k ≠ .shorthandPropertyIdentifier ∧ w = op.new.toList) := by
  unfold isOccurrence at h
  split at h
  · exact ⟨_, rfl, .inr ⟨by decide, rfl⟩⟩
  · exact ⟨_, rfl, .inr ⟨by decide, rfl⟩⟩
  · exact ⟨_, rfl, .inl ⟨rfl, rfl⟩⟩
  · exact absurd rfl hk
  · cases h

/-! ## Splices at names -/

theorem mem_symbolSplices [Recovery] (h : s ∈ symbolSplices source op) :
    ∃ u ∈ occurrences source, textOf source u = op.old.toList ∧ ∃ w, written op u.kind = some w ∧
      .replace u.start u.stop w = s := by
  obtain ⟨u, hu, hs⟩ := mem_filterMap.1 h
  obtain ⟨htext, w, hw, rfl⟩ := spliceAt_eq_some.1 hs
  exact ⟨u, mem_filter.2 ⟨hu, isOccurrence_of_written hw⟩, htext, w, hw, rfl⟩

theorem isName_of_mem [Recovery] (hu : u ∈ occurrences source) : u ∈ (ofText source).tree.nodes ∧ isName u.kind :=
  ⟨(mem_filter.1 hu).1, isName_of_isOccurrence (mem_filter.1 hu).2⟩

theorem symbolSplices_apart [SoundRecovery] (source : List Char) (op : Rename) :
    (symbolSplices source op).Pairwise Apart := by
  -- A name comes before what is below it, which is nothing, and before what is behind it.
  refine pairwise_filterMap.2 ((nodes_pairwise (ofText_coherent source)).imp_of_mem fun {x y}
    hx hy hxy s hs s' hs' => ?_)
  obtain ⟨-, w, hw, rfl⟩ := spliceAt_eq_some.1 hs
  obtain ⟨-, w', hw', rfl⟩ := spliceAt_eq_some.1 hs'
  rcases hxy with hbelow | hle
  · exact absurd hbelow (not_below_name hx (isName_of_isOccurrence (isOccurrence_of_written hw)))
  · exact .inl (Int.ofNat_le.2 hle)

theorem symbolSplices_within [SoundRecovery] : ∀ s ∈ symbolSplices source op, s.Within (Utf8.encode source).length := by
  intro s hs
  obtain ⟨u, hu, -, w, -, rfl⟩ := mem_symbolSplices hs
  exact within_replace (isName_of_mem hu).1 w

theorem symbolSplices_tidy [SoundRecovery] (source : List Char) (hold : op.old ≠ "") :
    Tidy (Utf8.encode source).length (symbolSplices source op) := by
  refine ⟨fun s hs => ?_, symbolSplices_apart source op⟩
  obtain ⟨u, hu, htext, w, -, rfl⟩ := mem_symbolSplices hs
  exact lies_replace (isName_of_mem hu).1 htext hold w

theorem symbolSplices_text [SoundRecovery] (source : List Char) (op : Rename) :
    ∃ result, applyAll (symbolSplices source op) (Utf8.encode source) = Utf8.encode result := by
  refine applyAll_text symbolSplices_within (symbolSplices_apart source op) fun s hs => ?_
  obtain ⟨u, hu, -, w, -, rfl⟩ := mem_symbolSplices hs
  exact (ofText_coherent source u (isName_of_mem hu).1).cut

/-! ## Names after a renaming -/

/-- **What occurrences are called after a renaming**: those of the old name are called by the new one, if they are not
missed, and all others as before. -/
theorem nameAfter_eq [SoundRecovery] (hname : op.old ≠ "") {result : List Char}
    (h : applyAll (symbolSplices source op) (Utf8.encode source) = Utf8.encode result)
    (hu : u ∈ occurrences source) : nameAfter source result op u
      = some (if textOf source u = op.old.toList ∧ ¬ Missed source op u then op.new.toList else textOf source u) := by
  obtain ⟨hmem, hk⟩ := isName_of_mem hu
  have htidy := symbolSplices_tidy source hname
  rw [nameAfter, ← h]
  split
  · rename_i hold
    have hpattern : u.kind ≠ .shorthandPropertyIdentifierPattern := fun hk => hold.2 ⟨hk, hold.1⟩
    obtain ⟨w, hw, hcases⟩ := written_of_isOccurrence op (mem_filter.1 hu).2 hpattern
    have hs : Splice.replace u.start u.stop w ∈ symbolSplices source op :=
      mem_filterMap.2 ⟨u, hmem, spliceAt_eq_some.2 ⟨hold.1, w, hw, rfl⟩⟩
    have hput := applyAll_put htidy hs
    dsimp only [Splice.replace] at hput
    rw [hput, Utf8.decode_encode, map_some]
    rcases hcases with ⟨hk, rfl⟩ | ⟨hk, rfl⟩
    · rw [if_pos ⟨hk, hold.1, rfl⟩]
    · rw [if_neg fun hkey => hk hkey.1]
  · rename_i hkept
    have hout : ∀ s ∈ symbolSplices source op, s.stop ≤ u.start ∨ (u.stop : Int) ≤ s.start := fun s hs => by
      obtain ⟨x, hx, htext, w, hw, rfl⟩ := mem_symbolSplices hs
      obtain ⟨hx', hxname⟩ := isName_of_mem hx
      rcases names_apart hx' hmem hxname hk with rfl | hle | hle
      · refine absurd ⟨htext, fun hmissed => ?_⟩ hkept
        rw [hmissed.1] at hw
        cases hw
      · exact .inl (Int.ofNat_le.2 hle)
      · exact .inr (Int.ofNat_le.2 hle)
    rw [kept_text hmem htidy hout, Utf8.decode_encode, map_some]
    refine congrArg some (if_neg fun hkey => hkept ⟨hkey.2.1, fun hmissed => ?_⟩)
    rw [hmissed.1] at hkey
    cases hkey.1

theorem occurs_of_find? [SoundRecovery] {name : String}
    (h : (renamable.any fun k => ((ofText source).outline.tree.find? k name).isSome)) :
    ∃ u ∈ occurrences source, u.kind ≠ .shorthandPropertyIdentifierPattern ∧ textOf source u = name.toList := by
  obtain ⟨k, hk, hsome⟩ := any_eq_true.1 h
  obtain ⟨d, hd⟩ := Option.isSome_iff_exists.1 hsome
  have hcoherent := ofText_coherent source
  obtain ⟨hd, hparent, hkind, hname⟩ := of_find? hcoherent "transform.ts" hd
  obtain ⟨g, hg, hkind', hname', -⟩ := head_of_mem_layOut hd hparent
  rw [hkind] at hkind'
  have hother : k ≠ .variableDecl ∧ k ≠ .enumeration := by
    constructor <;> rintro rfl <;> simp [renamable] at hk
  obtain ⟨u, hu, hchild, hwanted, -⟩ := named_of_group hcoherent (ofText_wellNamed source) hg (hkind' ▸ hother.1)
    (hkind' ▸ hother.2)
  have htext : textOf source g.item.name = name.toList := by
    rw [← hname, hname', stringOf, toList_ofList]
  have hmem := Layout.nodes_trans hu (mem_nodes_of_child? hchild)
  simp only [mem_cons, not_mem_nil, or_false] at hwanted
  rcases hwanted with hk | hk
  · exact ⟨_, mem_filter.2 ⟨hmem, by rw [hk]; rfl⟩, by rw [hk]; decide, htext⟩
  · exact ⟨_, mem_filter.2 ⟨hmem, by rw [hk]; rfl⟩, by rw [hk]; decide, htext⟩

theorem plan_of_inFile (h : InFile op) (v : View) : plan v op = ofSymbol v op := by
  unfold plan
  rw [if_neg]
  intro hclass
  obtain ⟨hscope, howner⟩ := Bool.and_eq_true_iff.1 hclass
  rcases h with h | h
  · split at hscope
    · rename_i s hs
      exact h (by rw [hs, beq_iff_eq.1 hscope])
    · cases hscope
  · rw [h] at howner
    cases howner

theorem ofSymbol_eq_ok [SoundRecovery] {p : Plan} (h : ofSymbol (ofText source) op = .ok p) :
    p.edits = symbolSplices source op ∧
      ∃ u ∈ occurrences source, u.kind ≠ .shorthandPropertyIdentifierPattern ∧ textOf source u = op.old.toList := by
  unfold ofSymbol at h
  split at h
  · rename_i hfound
    cases h
    exact ⟨rfl, occurs_of_find? hfound⟩
  · cases h

theorem renamed_inj {old new x y : List Char} (hx : x ≠ new) (hy : y ≠ new) :
    (if x = old then new else x) = (if y = old then new else y) ↔ x = y := by
  split <;> split <;> grind

end Renaming

namespace Transformation

open Syntax Reading Renaming

/-- **Renaming in the file**, by a name that no variable has: all occurrences of the old name are called by the new one,
but for shorthand properties of patterns, and all others as they were.  So occurrences are called alike after it as
before exactly if no shorthand property of a pattern takes the old name. -/
theorem rename_consistent [SoundRecovery] {source : List Char} {op : Rename} {t : Transformation}
    (h : run source [.rename op] = .ok t)
    (hs : t.succeeded = true) (hfile : InFile op) (hnew : ∀ u ∈ occurrences source, textOf source u ≠ op.new.toList)
    (hbroken : parse .typescript source = none → op.old ≠ "") :
    ∃ result, t.source? = some result ∧
      (∀ u ∈ occurrences source, nameAfter source result op u
        = some (if textOf source u = op.old.toList ∧ ¬ Missed source op u then op.new.toList else textOf source u)) ∧
      (∀ a ∈ occurrences source, ∀ b ∈ occurrences source, ¬ Missed source op a → ¬ Missed source op b →
        (nameAfter source result op a = nameAfter source result op b ↔ textOf source a = textOf source b)) ∧
      ((∀ a ∈ occurrences source, ∀ b ∈ occurrences source,
          (nameAfter source result op a = nameAfter source result op b ↔ textOf source a = textOf source b)) ↔
        ∀ u ∈ occurrences source, ¬ Missed source op u) := by
  obtain ⟨p, hplan, hbytes⟩ := plan_of_succeeded h hs rfl
  have hsymbol : ofSymbol (View.ofText source) op = .ok p := by
    rw [← plan_of_inFile hfile]
    exact hplan
  obtain ⟨hedits, x, hx, hpattern, htext⟩ := ofSymbol_eq_ok hsymbol
  obtain ⟨hmem, hk⟩ := isName_of_mem hx
  have hold := View.ne_nil_of_text hmem (fun h => by rw [h] at hk; cases hk) htext hbroken
  obtain ⟨result, hresult⟩ := symbolSplices_text source op
  have hname := fun {u} (hu : u ∈ occurrences source) => nameAfter_eq hold hresult hu
  have hpair : ∀ a ∈ occurrences source, ∀ b ∈ occurrences source, ¬ Missed source op a → ¬ Missed source op b →
      (nameAfter source result op a = nameAfter source result op b ↔ textOf source a = textOf source b) := by
    intro a ha b hb hma hmb
    rw [hname ha, hname hb, some.injEq]
    simp only [hma, hmb, not_false_eq_true, and_true]
    exact renamed_inj (hnew a ha) (hnew b hb)
  refine ⟨result, ?_, fun u hu => hname hu, hpair, fun hall u hu hmissed => ?_, fun hnone a ha b hb =>
    hpair a ha b hb (hnone a ha) (hnone b hb)⟩
  · rw [source?, Document.text?, hbytes, hedits, hresult, Utf8.decode_encode]
  · -- The declaration and the pattern were called alike, and only the declaration was renamed.
    have hsame := (hall x hx u hu).2 (by rw [htext, hmissed.2])
    rw [hname hx, hname hu, some.injEq, if_pos ⟨htext, fun hm => hpattern hm.1⟩, if_neg fun hm => hm.2 hmissed]
      at hsame
    exact hnew u hu hsame.symm

attribute [local instance] SoundRecovery.bare

def oldToNu : Rename := ⟨"old", "nu", .str "file", .null⟩

def shorthandUse : List Char := "function old() \x7b return \x7b old \x7d; \x7d\nlet f = (x: old) => old(x);\n".toList

def shorthandUseRenamed : List Char :=
  "function nu() \x7b return \x7b old: nu \x7d; \x7d\nlet f = (x: nu) => nu(x);\n".toList

theorem rename_consistent_shorthand :
    ∃ t, run shorthandUse [.rename oldToNu] = .ok t ∧ t.succeeded = true ∧ t.source? = some shorthandUseRenamed ∧
      (occurrences shorthandUse).map (textOf shorthandUse)
        = ["old".toList, "old".toList, "f".toList, "x".toList, "old".toList, "old".toList, "x".toList] ∧
      ∀ a ∈ occurrences shorthandUse, ∀ b ∈ occurrences shorthandUse,
        (nameAfter shorthandUse shorthandUseRenamed oldToNu a = nameAfter shorthandUse shorthandUseRenamed oldToNu b ↔
          textOf shorthandUse a = textOf shorthandUse b) := by
  obtain ⟨⟨t, hrun, hs, htext⟩, hnew, htexts, hnone⟩ :
      (∃ t, run shorthandUse [.rename oldToNu] = .ok t ∧ t.succeeded = true ∧ t.source? = some shorthandUseRenamed) ∧
      (∀ u ∈ occurrences shorthandUse, textOf shorthandUse u ≠ oldToNu.new.toList) ∧
      (occurrences shorthandUse).map (textOf shorthandUse)
        = ["old".toList, "old".toList, "f".toList, "x".toList, "old".toList, "old".toList, "x".toList] ∧
      ∀ u ∈ occurrences shorthandUse, ¬ Missed shorthandUse oldToNu u := by
    rw [show shorthandUse = _ from toList_ofList, show shorthandUseRenamed = _ from toList_ofList]
    decide +kernel
  obtain ⟨result, hresult, -, -, hconsistent⟩ := rename_consistent hrun hs (.inr rfl) hnew fun _ => by decide
  rw [htext, some.injEq] at hresult
  subst hresult
  exact ⟨t, hrun, hs, htext, htexts, hconsistent.2 hnone⟩

def shorthandPattern : List Char := "function old() \x7b\x7d\nfunction g(\x7b old \x7d) \x7b return old; \x7d\n".toList

/-- The use of the pattern's variable is renamed, but not the pattern. -/
def shorthandPatternRenamed : List Char :=
  "function nu() \x7b\x7d\nfunction g(\x7b old \x7d) \x7b return nu; \x7d\n".toList

/-- **A variable that a pattern binds comes apart from its uses.** -/
theorem rename_parts_pattern :
    (∃ t, run shorthandPattern [.rename oldToNu] = .ok t ∧ t.succeeded = true ∧
      t.source? = some shorthandPatternRenamed) ∧
    (∀ u ∈ occurrences shorthandPattern, textOf shorthandPattern u ≠ oldToNu.new.toList) ∧
    ∃ a ∈ occurrences shorthandPattern, ∃ b ∈ occurrences shorthandPattern,
      textOf shorthandPattern a = textOf shorthandPattern b ∧
        nameAfter shorthandPattern shorthandPatternRenamed oldToNu a
          ≠ nameAfter shorthandPattern shorthandPatternRenamed oldToNu b := by
  rw [show shorthandPattern = _ from toList_ofList, show shorthandPatternRenamed = _ from toList_ofList]
  decide +kernel

end Transformation
end SourceBench
