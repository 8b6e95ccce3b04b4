import SourceBench.Proofs.Edit.ImportOrder
import SourceBench.Proofs.Edit.ImportUndo

/-!
# Imports in order

Adding imports keeps the modules of the import statements in ascending order (`Transformation.imports_stay_sorted`).  A
new statement comes to stand behind those with modules up to its own and before those with later ones
(`modules_around`), and a module that is imported already keeps its statement.

What the syntax has to do for it is `Admits`: it reads what a change writes as an import of the module at its place, and
all other statements as before.
-/
namespace SourceBench

open List Utf8 View Except

open Syntax

namespace Imports

open Reading

/-! ## Modules -/

def modules [Recovery] (text : List Char) : List String := (statements (ofText text)).map (·.2)

def Ascending (ms : List String) : Prop := ms.Pairwise fun m n => m.toList ≤ n.toList

instance (ms : List String) : Decidable (Ascending ms) := inferInstanceAs (Decidable (ms.Pairwise _))

theorem modules_eq [Recovery] (text : List Char) :
    modules text = (ofText text).tree.namedChildren.filterMap (moduleOf text) := by
  rw [modules, statements_eq, map_filterMap]
  refine filterMap_congr fun t _ => ?_
  rw [Option.map_map]
  exact Option.map_id'

theorem mem_statements_iff {v : View} {t : Tree} {m : String} :
    (t, m) ∈ statements v ↔ t ∈ v.tree.namedChildren ∧ moduleOf v.text t = some m := by
  rw [statements_eq, mem_filterMap]
  constructor
  · rintro ⟨u, hu, h⟩
    obtain ⟨n, hn, heq⟩ := Option.map_eq_some_iff.1 h
    cases heq
    exact ⟨hu, hn⟩
  · rintro ⟨ht, hm⟩
    exact ⟨t, ht, by rw [hm]; rfl⟩

variable {text : List Char} {op : AddImport}

theorem joined_eq_none_iff [Recovery] : joined (ofText text) op = none ↔ op.source ∉ modules text := by
  rw [joined, Option.map_eq_none_iff, find?_eq_none, modules, mem_map, not_exists]
  simp only [beq_iff_eq, not_and]

theorem moduleOf_of_joined [Recovery] {t : Tree} (h : joined (ofText text) op = some t) :
    moduleOf text t = some op.source := by
  obtain ⟨⟨u, m⟩, hfind, rfl⟩ := Option.map_eq_some_iff.1 h
  obtain rfl : m = op.source := beq_iff_eq.1 (find?_some hfind :)
  exact (mem_statements_iff.1 (mem_of_find?_eq_some hfind)).2

/-! ## The place of a new module -/

theorem side_of_place {l r : List (Tree × String)} {p q : Tree × String}
    (hplaces : (l ++ p :: r).Pairwise fun u w => u.1.stop ≤ w.1.start) (hlt : ∀ u ∈ l ++ p :: r, u.1.start < u.1.stop)
    (hq : q ∈ l ++ p :: r) : (q.1.stop ≤ p.1.start → q ∈ l) ∧ (p.1.start ≤ q.1.start → q = p ∨ q ∈ r) ∧
      (p.1.stop ≤ q.1.start → q ∈ r) := by
  have hp := hlt p (mem_append_right l mem_cons_self)
  have hq' := hlt q hq
  obtain ⟨-, hright, hacross⟩ := pairwise_append.1 hplaces
  rcases mem_append.1 hq with hleft | hleft
  · have := hacross q hleft p mem_cons_self
    exact ⟨fun _ => hleft, fun _ => by omega, fun _ => by omega⟩
  rcases mem_cons.1 hleft with rfl | hbehind
  · exact ⟨fun _ => by omega, fun _ => .inl rfl, fun _ => by omega⟩
  · have := (pairwise_cons.1 hright).1 q hbehind
    exact ⟨fun _ => by omega, fun _ => .inr hbehind, fun _ => hbehind⟩

/-- **A new import stands in order**: the imports ahead of it are of modules up to its own, and those behind it of later
ones. -/
theorem modules_around [SoundRecovery] (hsorted : Ascending (modules text)) (hnew : joined (ofText text) op = none) :
    (∀ m ∈ (ahead (encode text) (View.ofText text) op).filterMap (moduleOf text), m.toList ≤ op.source.toList) ∧
      ∀ m ∈ (behind (encode text) (View.ofText text) op).filterMap (moduleOf text), op.source.toList ≤ m.toList := by
  have hplaces := statements_pairwise (View.ofText_children text).1
  have hlt : ∀ p ∈ statements (View.ofText text), p.1.start < p.1.stop := fun p hp =>
    (queued_ofText text).2 p.1 (mem_children_of_mem_statements hp)
  have hmem : ∀ {t : Tree} {m : String}, t ∈ (ofText text).tree.namedChildren → moduleOf text t = some m →
      (t, m) ∈ statements (ofText text) := fun ht hm => mem_statements_iff.2 ⟨ht, hm⟩
  have hlate : ∀ {m : String}, Text.before op.source.toList m.toList = false → m.toList ≤ op.source.toList := fun h =>
    not_lt.1 fun hlt => by rw [(Text.before_iff_lt _ _).2 hlt] at h; cases h
  unfold ahead behind seat
  rw [hnew]
  simp only [mem_filterMap, mem_filter, decide_eq_true_eq]
  simp only [Table.gap, tableOf, find?_map, getLast?_map]
  cases hfind : (statements (ofText text)).find? ((fun σ : Standing => σ.isAfter op.source) ∘ fun p =>
      standingOf (ofText text) p.1 p.2) with
  | some p =>
    -- The first statement with a later module parts the others.
    obtain ⟨hp, l, r, hsplit, hl⟩ := find?_eq_some_iff_append.1 hfind
    rw [hsplit] at hplaces hlt hmem
    have hlater : op.source.toList < p.2.toList := (Text.before_iff_lt _ _).1 hp
    constructor
    · rintro m ⟨t, ⟨ht, hle⟩, hm⟩
      exact hlate ((Bool.not_eq_true' _).mp (hl _ ((side_of_place hplaces hlt (hmem ht hm)).1 hle)))
    · rintro m ⟨t, ⟨ht, hle⟩, hm⟩
      rw [Ascending, modules, hsplit, map_append, map_cons, pairwise_append, pairwise_cons] at hsorted
      rcases (side_of_place hplaces hlt (hmem ht hm)).2.1 hle with rfl | hright
      · exact hlater.le
      · exact hlater.le.trans (hsorted.2.1.1 m (mem_map_of_mem hright))
  | none =>
    constructor
    · rintro m ⟨t, ⟨ht, -⟩, hm⟩
      exact hlate (Bool.eq_false_iff.2 (find?_eq_none.1 hfind _ (hmem ht hm)))
    · rintro m ⟨t, ⟨ht, hle⟩, hm⟩
      obtain ⟨p, hlast⟩ := Option.isSome_iff_exists.1 (getLast?_isSome.2 (ne_nil_of_mem (hmem ht hm)))
      rw [hlast] at hle
      have hp := hlt p (mem_of_getLast? hlast)
      have hstop : p.1.stop ≤ t.start := by
        have hle : p.1.start + (p.1.stop - p.1.start) ≤ t.start := hle
        omega
      rw [← dropLast_append_getLast? _ hlast] at hplaces hlt hmem
      exact absurd ((side_of_place hplaces hlt (hmem ht hm)).2.2 hstop) not_mem_nil

theorem Ascending.insert {l r : List String} {m : String} (h : Ascending (l ++ r)) (hl : ∀ n ∈ l, n.toList ≤ m.toList)
    (hr : ∀ n ∈ r, m.toList ≤ n.toList) : Ascending (l ++ m :: r) := by
  obtain ⟨hleft, hright, hacross⟩ := pairwise_append.1 h
  refine pairwise_append.2 ⟨hleft, pairwise_cons.2 ⟨hr, hright⟩, fun a ha b hb => ?_⟩
  rcases mem_cons.1 hb with rfl | hb
  · exact hl a ha
  · exact hacross a ha b hb

/-! ## What the syntax reads -/

def importsIn (text : List Char) (ts : List Tree) : List Tree := ts.filter fun t => (moduleOf text t).isSome

/-- The imports of the result read as those of a text with one of the module among them. -/
def Admits [Recovery] (text result : List Char) (op : AddImport) : Prop :=
  let before := importsIn text (ahead (encode text) (ofText text) op)
  let after := importsIn text (behind (encode text) (ofText text) op)
  let imports := importsIn result (ofText result).tree.namedChildren
  mirrorAll (SameWords text result) before (imports.take before.length) ∧
    imports[before.length]?.bind (moduleOf result) = some op.source ∧
    mirrorAll (SameWords text result) after (imports.drop (before.length + 1))

instance [Recovery] (text result : List Char) (op : AddImport) : Decidable (Admits text result op) :=
  inferInstanceAs (Decidable (_ ∧ _ ∧ _))

def changed [Recovery] (text : List Char) (op : AddImport) : Option (List Char) :=
  match (tableOf (encode text) (ofText text)).ask op with
  | .ok (some e) => decode (e.on (encode text))
  | _ => none

theorem filterMap_importsIn (text : List Char) (ts : List Tree) :
    (importsIn text ts).filterMap (moduleOf text) = ts.filterMap (moduleOf text) := by
  rw [importsIn, filterMap_filter]
  refine filterMap_congr fun t _ => ?_
  cases moduleOf text t <;> rfl

section Admitted

variable {text result : List Char} {op : AddImport}

theorem Admits.exists_import [Recovery] (h : Admits text result op) :
    ∃ l mine r, importsIn result (ofText result).tree.namedChildren = l ++ mine :: r ∧
      moduleOf result mine = some op.source ∧
      Forall₂ (Echo text result) (importsIn text (ahead (encode text) (ofText text) op)) l ∧
      Forall₂ (Echo text result) (importsIn text (behind (encode text) (ofText text) op)) r := by
  obtain ⟨hl, hmine, hr⟩ := h
  obtain ⟨mine, hget, hmodule⟩ := Option.bind_eq_some_iff.1 hmine
  exact ⟨_, mine, _, eq_take_cons_drop hget, hmodule, mirrorAll_iff.1 hl, mirrorAll_iff.1 hr⟩

/-- **One step**: a module that is imported leaves the modules as they are, and a new one is put between them in
order. -/
theorem Admits.step [SoundRecovery] (h : Admits text result op) :
    (op.source ∈ modules text → modules result = modules text) ∧
      (op.source ∉ modules text → ∃ l r, modules text = l ++ r ∧ modules result = l ++ op.source :: r) ∧
      (Ascending (modules text) → Ascending (modules result)) := by
  obtain ⟨l, mine, r, himports, hmodule, hl, hr⟩ := h.exists_import
  have hecho : ∀ {ts us}, Forall₂ (Echo text result) ts us →
      ts.filterMap (moduleOf text) = us.filterMap (moduleOf result) :=
    filterMap_eq_of_forall₂ fun _ _ hab => moduleOf_echo hab
  have hresult : modules result = (ahead (encode text) (ofText text) op).filterMap (moduleOf text)
      ++ op.source :: (behind (encode text) (ofText text) op).filterMap (moduleOf text) := by
    rw [modules_eq, ← filterMap_importsIn, himports, filterMap_append, filterMap_cons_some hmodule,
      ← hecho hl, ← hecho hr, filterMap_importsIn, filterMap_importsIn]
  have htext := modules_eq text
  rw [parted text op, filterMap_append, filterMap_append] at htext
  cases hjoined : joined (ofText text) op with
  | some t =>
    have hsame : modules result = modules text := by
      rw [hresult, htext, hjoined, Option.toList_some, filterMap_cons_some (moduleOf_of_joined hjoined), filterMap_nil,
        append_assoc, singleton_append]
    exact ⟨fun _ => hsame, fun hnew => absurd (hjoined.symm.trans (joined_eq_none_iff.2 hnew)) (by simp),
      fun hsorted => hsame ▸ hsorted⟩
  | none =>
    rw [hjoined, Option.toList_none, filterMap_nil, append_nil] at htext
    refine ⟨fun hold => absurd hold (joined_eq_none_iff.1 hjoined), fun _ => ⟨_, _, htext, hresult⟩, fun hsorted => ?_⟩
    obtain ⟨hbefore, hafter⟩ := modules_around hsorted hjoined
    rw [hresult]
    rw [htext] at hsorted
    exact hsorted.insert hbefore hafter

end Admitted
end Imports

namespace Transformation

open Imports

/-! ## Runs -/

def Reaches [Recovery] (source : List Char) (xs : List AddImport) (text : List Char) : Prop :=
  ∃ t, run source (xs.map .addImport) = .ok t ∧ t.source? = some text

instance [Recovery] (source : List Char) (xs : List AddImport) (text : List Char) :
    Decidable (Reaches source xs text) :=
  decidableExistsOk _

variable {text result source : List Char} {op : AddImport} {t : Transformation}

theorem changed_of_run [SoundRecovery] (h : run text [.addImport op] = .ok t) (hresult : t.source? = some result) :
    (result = text ∧ op.source ∈ modules text) ∨ changed text op = some result := by
  have htable : table? (encode text) = some (tableOf (encode text) (ofText text)) := by
    rw [table?, decode_encode]
    rfl
  obtain ⟨bytes, o, os, heffect, hes, -⟩ := Operation.effects_cons_eq_ok.1 (effects_of_run h)
  obtain rfl : bytes = t.document.bytes := congrArg Prod.fst (ok.inj hes)
  rw [effect_of_table htable] at heffect
  have hquiet : t.document.bytes = encode text → result = text := fun hbytes => by
    rw [source?, Document.text?, hbytes, decode_encode] at hresult
    exact (Option.some.inj hresult).symm
  have hknown : (∀ e, (tableOf (encode text) (ofText text)).ask op ≠ .ok (some e)) →
      (tableOf (encode text) (ofText text)).ask op ≠ .error .wrongType → op.source ∈ modules text := by
    intro hask herror
    by_contra hnew
    have hfind := Option.map_eq_none_iff.1 (joined_eq_none_iff.2 hnew)
    rw [Table.ask, find?_standing, hfind, Option.map_none] at hask herror
    unfold statementText at hask herror
    cases hofValues : ImportStatement.ofValues (.str op.source) (.list op.names)
      op.defaultName op.namespaceName op.isTypeOnly with
    | ok s => exact hask _ (by rw [hofValues]; rfl)
    | error e => exact herror (by rw [hofValues]; rfl)
  unfold changed
  cases hask : (tableOf (encode text) (ofText text)).ask op with
  | ok x =>
    rw [hask] at heffect hknown
    cases x with
    | none => exact .inl ⟨hquiet (congrArg Prod.fst (ok.inj heffect)).symm, hknown (by simp) (by simp)⟩
    | some e =>
      right
      have hbytes : e.on (encode text) = t.document.bytes := congrArg Prod.fst (ok.inj heffect)
      rw [source?, Document.text?, ← hbytes] at hresult
      exact hresult
  | error e =>
    rw [hask] at heffect hknown
    cases e with
    | refused r => exact .inl ⟨hquiet (congrArg Prod.fst (ok.inj heffect)).symm, hknown (by simp) (by simp)⟩
    | wrongType => cases heffect
    | notText => cases heffect

theorem suits_imports [Recovery] (d : Document) (xs : List AddImport) : d.Suits (xs.map .addImport) := by
  intro pre op post text hops _ _ owner c body howner
  have hop : op ∈ xs.map .addImport := hops ▸ mem_append_right _ mem_cons_self
  obtain ⟨x, -, rfl⟩ := mem_map.1 hop
  cases howner

theorem exists_step [SoundRecovery] {pre post : List AddImport}
    (h : run source ((pre ++ op :: post).map .addImport) = .ok t) :
    ∃ before after u, Reaches source pre before ∧
      Reaches source (pre ++ [op]) after ∧ run before [.addImport op] = .ok u ∧ u.source? = some after := by
  rw [append_cons, map_append] at h
  obtain ⟨w, -, after, hw, hafter, -⟩ := exists_run_of_append (suits_imports _ _) h
  have hsplit := hw
  rw [map_append] at hsplit
  obtain ⟨v, u, before, hv, hbefore, hu, hsource, -⟩ := exists_run_of_append (suits_imports _ _) hsplit
  exact ⟨before, after, u, ⟨v, hv, hbefore⟩, ⟨w, hw, hafter⟩, hu, hsource ▸ hafter⟩

theorem Reaches.unique [Recovery] {text' : List Char} {xs : List AddImport} (h : Reaches source xs text)
    (h' : Reaches source xs text') : text = text' := by
  obtain ⟨t, ht, htext⟩ := h
  obtain ⟨u, hu, hutext⟩ := h'
  obtain rfl : t = u := ok.inj (ht.symm.trans hu)
  exact Option.some.inj (htext.symm.trans hutext)

theorem step_of_run [SoundRecovery] (h : run text [.addImport op] = .ok t) (hresult : t.source? = some result)
    (hread : ∀ after ∈ changed text op, Admits text after op) :
    (op.source ∈ modules text → modules result = modules text) ∧
      (op.source ∉ modules text → ∃ l r, modules text = l ++ r ∧ modules result = l ++ op.source :: r) ∧
      (Ascending (modules text) → Ascending (modules result)) := by
  rcases changed_of_run h hresult with ⟨rfl, hmem⟩ | hchanged
  · exact ⟨fun _ => rfl, fun hnew => absurd hmem hnew, id⟩
  · exact (hread result hchanged).step

/-- **Added imports stay in order.**  If the modules of a source ascend and the syntax reads every change of a run back,
they ascend after every step.  A step for a module that is imported already leaves them as they are, and one for a new
module puts it between them and changes nothing else. -/
theorem imports_stay_sorted [SoundRecovery] {source : List Char} {xs : List AddImport} {t : Transformation}
    (hsorted : Ascending (modules source)) (h : run source (xs.map .addImport) = .ok t)
    (hread : ∀ pre op post before, xs = pre ++ op :: post → Reaches source pre before →
      ∀ after ∈ changed before op, Admits before after op) :
    ∀ pre op post, xs = pre ++ op :: post → ∃ before after, Reaches source pre before ∧
      Reaches source (pre ++ [op]) after ∧
      Ascending (modules before) ∧ Ascending (modules after) ∧
      (op.source ∈ modules before → modules after = modules before) ∧
      (op.source ∉ modules before → ∃ l r, modules before = l ++ r ∧ modules after = l ++ op.source :: r) := by
  have hstep : ∀ {pre op post before after}, xs = pre ++ op :: post → Reaches source pre before →
      Reaches source (pre ++ [op]) after → Ascending (modules before) → Ascending (modules after) ∧
        (op.source ∈ modules before → modules after = modules before) ∧
        (op.source ∉ modules before → ∃ l r, modules before = l ++ r ∧ modules after = l ++ op.source :: r) := by
    intro pre op post before after hxs hbefore hafter hascending
    obtain ⟨before', after', u, hbefore', hafter', hu, hsource⟩ := exists_step (hxs ▸ h)
    obtain rfl := hbefore.unique hbefore'
    obtain rfl := hafter.unique hafter'
    obtain ⟨hold, hnew, hkeeps⟩ := step_of_run hu hsource (hread pre op post before hxs hbefore)
    exact ⟨hkeeps hascending, hold, hnew⟩
  -- What holds of the text before a step comes from the step before it.
  have hall : ∀ pre post before, xs = pre ++ post → Reaches source pre before → Ascending (modules before) := by
    intro pre
    induction pre using reverseRecOn with
    | nil =>
      intro post before _ hbefore
      obtain rfl := hbefore.unique ⟨_, rfl, Utf8.decode_encode source⟩
      exact hsorted
    | append_singleton pre op ih =>
      intro post after hxs hafter
      rw [append_assoc] at hxs
      obtain ⟨before, -, -, hbefore, -⟩ := exists_step (hxs ▸ h)
      exact (hstep hxs hbefore hafter (ih _ before hxs hbefore)).1
  intro pre op post hxs
  obtain ⟨before, after, -, hbefore, hafter, -⟩ := exists_step (hxs ▸ h)
  have hascending := hall pre _ before hxs hbefore
  obtain ⟨hkeeps, hold, hnew⟩ := hstep hxs hbefore hafter hascending
  exact ⟨before, after, hbefore, hafter, hascending, hkeeps, hold, hnew⟩

attribute [local instance] SoundRecovery.bare

def onlyB : List Char := "import \x7b b \x7d from 'b';\n".toList

def bBehindA : List Char := "import \x7b a \x7d from 'a';\nimport \x7b b \x7d from 'b';\n".toList

def widerBehindA : List Char := "import \x7b a \x7d from 'a';\nimport \x7b b, c \x7d from 'b';\n".toList

theorem imports_stay_sorted_three : ∃ before after, Reaches onlyB [namesOnly "a" "a", namesOnly "b" "c"] before ∧
    Reaches onlyB [namesOnly "a" "a", namesOnly "b" "c", namesOnly "z" "z"] after ∧ before = widerBehindA ∧
    Ascending (modules after) ∧ ∃ l r, modules before = l ++ r ∧ modules after = l ++ "z" :: r := by
  obtain ⟨hfirst, hsecond, ⟨t, ht, -⟩, hascending, hadmits₀, hadmits₁, hadmits₂, hz⟩ :
      Reaches onlyB [namesOnly "a" "a"] bBehindA ∧ Reaches onlyB [namesOnly "a" "a", namesOnly "b" "c"] widerBehindA ∧
      Reaches onlyB [namesOnly "a" "a", namesOnly "b" "c", namesOnly "z" "z"]
        (widerBehindA ++ "import \x7b z \x7d from 'z';\n".toList) ∧ Ascending (modules onlyB) ∧
      (∀ after ∈ changed onlyB (namesOnly "a" "a"), Admits onlyB after (namesOnly "a" "a")) ∧
      (∀ after ∈ changed bBehindA (namesOnly "b" "c"), Admits bBehindA after (namesOnly "b" "c")) ∧
      (∀ after ∈ changed widerBehindA (namesOnly "z" "z"), Admits widerBehindA after (namesOnly "z" "z")) ∧
      "z" ∉ modules widerBehindA := by
    rw [show onlyB = _ from String.toList_ofList, show bBehindA = _ from String.toList_ofList,
      show widerBehindA = _ from String.toList_ofList]
    decide +kernel
  obtain ⟨before, after, hbefore, hafter, -, hsorted, -, hnew⟩ := imports_stay_sorted hascending ht (by
    intro pre op post before hxs hbefore
    rcases pre with _ | ⟨x, _ | ⟨y, _ | ⟨z, _ | ⟨w, pre⟩⟩⟩⟩ <;> simp only [nil_append, cons_append, cons.injEq,
      nil_eq, reduceCtorEq, and_false] at hxs
    · obtain ⟨rfl, -⟩ := hxs
      obtain rfl := hbefore.unique ⟨_, rfl, Utf8.decode_encode onlyB⟩
      exact hadmits₀
    · obtain ⟨rfl, rfl, -⟩ := hxs
      obtain rfl := hbefore.unique hfirst
      exact hadmits₁
    · obtain ⟨rfl, rfl, rfl, -⟩ := hxs
      obtain rfl := hbefore.unique hsecond
      exact hadmits₂) [namesOnly "a" "a", namesOnly "b" "c"] (namesOnly "z" "z") [] rfl
  obtain rfl := hbefore.unique hsecond
  exact ⟨_, after, hbefore, hafter, rfl, hsorted, hnew hz⟩

/-- A name that ends an import and begins another one. -/
def partingName : AddImport := namesOnly "m" "b \x7d from 'z'; import \x7b c"

theorem imports_out_of_order : ∃ text, Reaches "import \x7b a \x7d from 'm';\n".toList [partingName] text ∧
    modules "import \x7b a \x7d from 'm';\n".toList = ["m"] ∧ modules text = ["z", "m"] ∧ ¬Ascending (modules text) :=
  ⟨"import \x7b a, b \x7d from 'z'; import \x7b c \x7d from 'm';\n".toList, by decide +kernel⟩

end Transformation
end SourceBench
