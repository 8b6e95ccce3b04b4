import Mathlib.Tactic.SplitIfs
import SourceBench.Edit.Transformation
import SourceBench.Proofs.Outcome
import SourceBench.Proofs.Text.Utf8

/-!
# What operations do to bytes

A document remembers what was read from it last, and a transformation threads that memory through its operations.  None
of it can be seen from outside: a coherent document behaves as its bytes alone (`Document.planFor_eq`), and a whole run
is `Operation.effects`, a recursion on bytes that carries no memory (`Transformation.effects_of_run`,
`Transformation.run_of_effects`).  What is proved of `effects` therefore holds of every run.
-/
namespace SourceBench

open Operation Utf8 Option

variable {bytes : Bytes} {d' : Document} {os : List (Operation × Outcome)} {p : Plan}

/-! ## Documents without memory -/

namespace Document

variable [Syntax.Recovery]

/-- What a document remembers is what its bytes show: the tree, and apart from it the outline. -/
structure Coherent (d : Document) : Prop where
  tree : ∀ p, d.seenTree = some p → d.text?.map (fun text => (text, (View.ofText text).tree)) = some p
  outline : ∀ o, d.seenOutline = some o → d.text?.map (fun text => (View.ofText text).outline) = some o

theorem coherent_of_bytes (bytes : Bytes) : Coherent { bytes } := ⟨fun _ h => (by cases h), fun _ h => (by cases h)⟩

theorem coherent_ofText (text : List Char) : (ofText text).Coherent := coherent_of_bytes _

theorem coherent_splice (d : Document) (ss : List Splice) : (d.splice ss).Coherent := coherent_of_bytes _

variable {d : Document} {text : List Char}

variable (hd : d.Coherent)

include hd

/-- **A look at the tree shows the tree of the bytes**, remembered or not, and changes only what is remembered. -/
theorem readTree_eq : d.readTree = (d.text?.map fun text => (text, (View.ofText text).tree)).map fun p =>
    (p, { d with seenTree := some p }) := by
  obtain ⟨bytes, seenTree, seenOutline⟩ := d
  cases seenTree with
  | none => simp [readTree, Function.comp_def]
  | some p =>
    rw [hd.tree p rfl]
    rfl

/-- **A look at the outline shows the outline of the bytes**, remembered or not, and changes only what is remembered. -/
theorem readOutline_eq : d.readOutline = (d.text?.map fun text => (View.ofText text).outline).map fun o =>
    (o, { d with seenOutline := some o }) := by
  obtain ⟨bytes, seenTree, seenOutline⟩ := d
  cases seenOutline with
  | none => simp [readOutline, Function.comp_def]
  | some o =>
    rw [hd.outline o rfl]
    rfl

theorem Coherent.readTree {p : List Char × Syntax.Tree} (h : d.readTree = some (p, d')) :
    d.text?.map (fun text => (text, (View.ofText text).tree)) = some p ∧ d'.bytes = d.bytes ∧ d'.Coherent := by
  rw [readTree_eq hd] at h
  obtain ⟨q, hq, heq⟩ := map_eq_some_iff.1 h
  cases heq
  exact ⟨hq, rfl, ⟨fun q' hq' => by cases hq'; exact hq, hd.outline⟩⟩

theorem Coherent.readOutline {o : Outline} (h : d.readOutline = some (o, d')) :
    d.text?.map (fun text => (View.ofText text).outline) = some o ∧ d'.bytes = d.bytes ∧ d'.Coherent := by
  rw [readOutline_eq hd] at h
  obtain ⟨q, hq, heq⟩ := map_eq_some_iff.1 h
  cases heq
  exact ⟨hq, rfl, ⟨hd.tree, fun o' ho' => by cases ho'; exact hq⟩⟩

theorem readTree_of_text (h : d.text? = some text) :
    ∃ d', d.readTree = some ((text, (View.ofText text).tree), d') ∧ d'.bytes = d.bytes ∧ d'.Coherent := by
  have heq := readTree_eq hd
  simp only [h, map_some] at heq
  exact ⟨_, heq, (hd.readTree heq).2⟩

theorem readOutline_of_text (h : d.text? = some text) :
    ∃ d', d.readOutline = some ((View.ofText text).outline, d') ∧ d'.bytes = d.bytes ∧ d'.Coherent := by
  have heq := readOutline_eq hd
  simp only [h, map_some] at heq
  exact ⟨_, heq, (hd.readOutline heq).2⟩

theorem view_of_text (h : d.text? = some text) :
    ∃ d', d.view = some (View.ofText text, d') ∧ d'.bytes = d.bytes ∧ d'.Coherent := by
  obtain ⟨d₁, hlook₁, hbytes₁, hd₁⟩ := readOutline_of_text hd h
  obtain ⟨d₂, hlook₂, hbytes₂, hd₂⟩ := readTree_of_text hd₁ (by rw [text?, hbytes₁]; exact h)
  refine ⟨d₂, ?_, hbytes₂.trans hbytes₁, hd₂⟩
  simp only [view, hlook₁, hlook₂, map_some]
  rfl

theorem reads_of_no_text (h : d.text? = none) : d.readTree = none ∧ d.readOutline = none := by
  rw [readTree_eq hd, readOutline_eq hd, h]
  exact ⟨rfl, rfl⟩

end Document

/-! ## Plans and effects on bytes -/

theorem of_classNamed {v : View} {name : String} {c : Declaration} {body : Nat × Nat}
    (h : classNamed v name = .ok (c, body)) :
    v.outline.tree.find? .classDecl name = some c ∧ c.bodyRange = some body := by
  unfold classNamed at h
  split at h
  · rename_i hfind
    split at h
    · rename_i hrange
      cases h
      exact ⟨hfind, hrange⟩
    · cases h
  · cases h

namespace Renaming

variable [Syntax.Recovery] {v : View} {op : Rename} {e : PlanError}

theorem ofSymbol_error_of_outline (h : ofSymbol (.ofOutline v.outline) op = .error e) : ofSymbol v op = .error e := by
  unfold ofSymbol at h ⊢
  rw [show (View.ofOutline v.outline).outline = v.outline from rfl] at h
  split at h
  · cases h
  · rename_i hnone
    rw [if_neg hnone]
    exact h

theorem ofMember_error_of_outline {owner : String} (h : ofMember (.ofOutline v.outline) op owner = .error e) :
    ofMember v op owner = .error e := by
  unfold ofMember at h ⊢
  rw [show classNamed (.ofOutline v.outline) owner = classNamed v owner from rfl] at h
  rcases bind_eq_error_iff.1 h with hclass | ⟨⟨c, body⟩, hclass, h⟩
  · exact bind_eq_error_iff.2 (.inl hclass)
  · refine bind_eq_error_iff.2 (.inr ⟨(c, body), hclass, ?_⟩)
    dsimp only at h ⊢
    rw [show memberNamed (.ofOutline v.outline) c op.old = memberNamed v c op.old from rfl] at h
    generalize (memberNamed v c op.old).bind (·.nameRange) = range at h ⊢
    cases range with
    | some range => cases h
    | none => exact h

theorem plan_error_of_outline (h : plan (.ofOutline v.outline) op = .error e) : plan v op = .error e := by
  unfold plan at h ⊢
  split_ifs at h ⊢ with hclass
  · cases howner : op.owner with
    | str owner =>
      rw [howner] at h
      exact ofMember_error_of_outline h
    | _ =>
      rw [howner] at h
      exact h
  · exact ofSymbol_error_of_outline h

end Renaming

namespace Operation

theorem looks_eq (op : Operation) : op.looks = (op.look != .nothing) := by cases op <;> rfl

variable {op : Operation} [Syntax.Recovery]

theorem plan_ofTree (h : op.look = .tree) (bytes : Bytes) (v : View) :
    op.plan bytes (.ofTree (v.text, v.tree)) = op.plan bytes v := by
  cases op with
  | addImport op => rfl
  | removeImport op => rfl
  | _ => cases h

theorem plan_ofOutline (h : op.look = .outline) (bytes : Bytes) (v : View) :
    op.plan bytes (.ofOutline v.outline) = op.plan bytes v := by
  cases op with
  | addProperty op => rfl
  | addMethod op => rfl
  | _ => cases h

theorem plan_ofOutline_error (h : op.look = .outlineThenTree) {v : View} {e : PlanError}
    (he : op.plan bytes (.ofOutline v.outline) = .error e) : op.plan bytes v = .error e := by
  cases op with
  | rename op => exact Renaming.plan_error_of_outline he
  | _ => cases h

def planOn (bytes : Bytes) (op : Operation) : Except PlanError Plan :=
  if op.looks then
    match (decode bytes).map View.ofText with
    | some v => op.plan bytes v
    | none => .error .notText
  else op.blindPlan bytes

/-- What an operation makes of bytes: the bytes after it and its outcome, or the error that ends a transformation. -/
def effect (op : Operation) (bytes : Bytes) : Except PlanError (Bytes × Outcome) :=
  match op.planOn bytes with
  | .ok p => .ok (Splice.applyAll p.edits bytes, .done p)
  | .error (.refused r) => .ok (bytes, .refused r)
  | .error e => .error e

def effects : List Operation → Bytes → Except PlanError (Bytes × List (Operation × Outcome))
  | [], bytes => .ok (bytes, [])
  | op :: ops, bytes =>
    match op.effect bytes with
    | .error e => .error e
    | .ok (bytes', o) =>
      match effects ops bytes' with
      | .error e => .error e
      | .ok (bytes'', os) => .ok (bytes'', (op, o) :: os)

theorem effects_cons_eq_ok {ops : List Operation} {final : Bytes} : effects (op :: ops) bytes = .ok (final, os) ↔
      ∃ bytes' o os', op.effect bytes = .ok (bytes', o) ∧ effects ops bytes' = .ok (final, os') ∧
        os = (op, o) :: os' := by
  constructor
  · intro h
    simp only [effects] at h
    cases he : op.effect bytes with
    | error e => rw [he] at h; cases h
    | ok p =>
      obtain ⟨bytes', o⟩ := p
      simp only [he] at h
      cases hes : effects ops bytes' with
      | error e => rw [hes] at h; cases h
      | ok q =>
        obtain ⟨final', os'⟩ := q
        simp only [hes, Except.ok.injEq, Prod.mk.injEq] at h
        obtain ⟨rfl, rfl⟩ := h
        exact ⟨bytes', o, os', rfl, hes, rfl⟩
  · rintro ⟨bytes', o, os', he, hes, rfl⟩
    simp only [effects, he, hes]

end Operation

/-! ## Runs are effects -/

section Runs

variable [Syntax.Recovery]

namespace Document

variable {d : Document}

/-- **A coherent document plans as its bytes do**, and looks change neither its bytes nor its coherence. -/
theorem planFor_eq (hd : d.Coherent) (op : Operation) :
    (d.planFor op).2 = op.planOn d.bytes ∧ (d.planFor op).1.bytes = d.bytes ∧ (d.planFor op).1.Coherent := by
  unfold planFor planOn
  rw [looks_eq]
  cases htext : d.text? with
  | none =>
    obtain ⟨htree, houtline⟩ := reads_of_no_text hd htext
    have hdecode : decode d.bytes = none := htext
    cases hlook : op.look <;> simp [htree, houtline, hdecode, hd]
  | some text =>
    have hdecode : decode d.bytes = some text := htext
    obtain ⟨d₁, hlook₁, hbytes₁, hd₁⟩ := readTree_of_text hd htext
    obtain ⟨d₂, hlook₂, hbytes₂, hd₂⟩ := readOutline_of_text hd htext
    have htext₂ : d₂.text? = some text := by rw [text?, hbytes₂]; exact htext
    obtain ⟨d₃, hlook₃, hbytes₃, hd₃⟩ := view_of_text hd₂ htext₂
    cases hlook : op.look with
    | nothing => exact ⟨rfl, rfl, hd⟩
    | tree =>
      have hplan := plan_ofTree hlook d.bytes (View.ofText text)
      simp only [hlook₁, hdecode, map_some, hbytes₁]
      exact ⟨hplan, trivial, hd₁⟩
    | outline =>
      have hplan := plan_ofOutline hlook d.bytes (View.ofText text)
      simp only [hlook₂, hdecode, map_some, hbytes₂]
      exact ⟨hplan, trivial, hd₂⟩
    | outlineThenTree =>
      simp only [hlook₂, hdecode, map_some, hbytes₂, hlook₃]
      cases hplan : op.plan d.bytes (.ofOutline (View.ofText text).outline) with
      | error e => exact ⟨(plan_ofOutline_error hlook hplan).symm, hbytes₂, hd₂⟩
      | ok p => exact ⟨by rw [hbytes₃, hbytes₂]; rfl, hbytes₃.trans hbytes₂, hd₃⟩

theorem perform_eq (hd : d.Coherent) (op : Operation) :
    (d.perform op).2 = op.planOn d.bytes ∧ (d.perform op).1.Coherent ∧
      (d.perform op).1.bytes =
        match op.planOn d.bytes with
        | .ok p => Splice.applyAll p.edits d.bytes
        | .error _ => d.bytes := by
  obtain ⟨hplan, hbytes, hcoh⟩ := planFor_eq hd op
  unfold perform
  generalize hq : d.planFor op = q at hplan hbytes hcoh
  obtain ⟨d', r⟩ := q
  simp only at hplan hbytes hcoh
  rw [← hplan, ← hbytes]
  cases r with
  | error e => exact ⟨rfl, hcoh, rfl⟩
  | ok p =>
    cases p with
    | splices ss => exact ⟨rfl, coherent_splice d' ss, rfl⟩
    | nothingToRemove m => exact ⟨rfl, hcoh, rfl⟩

theorem plan_of_perform (hd : d.Coherent) {op : Operation} (hlooks : op.looks)
    (h : (d.perform op).2 = .ok p) : ∃ text, d.text? = some text ∧ d.bytes = encode text ∧
      op.plan (encode text) (View.ofText text) = .ok p ∧
        (d.perform op).1.bytes = Splice.applyAll p.edits (encode text) := by
  obtain ⟨hplan, -, hbytes⟩ := perform_eq hd op
  rw [← hplan, h] at hbytes
  rw [h, planOn, if_pos hlooks] at hplan
  cases htext : decode d.bytes with
  | none =>
    rw [htext] at hplan
    cases hplan
  | some text =>
    have hencode := encode_of_decode htext
    rw [htext, map_some, ← hencode] at hplan
    rw [← hencode] at hbytes
    exact ⟨text, htext, hencode.symm, hplan.symm, hbytes⟩

end Document

namespace Transformation

variable {t : Transformation} {source : List Char} {ops : List Operation} {op : Operation}

theorem step_eq (ht : t.document.Coherent) (op : Operation) : match op.effect t.document.bytes with
    | .error e => t.step op = .error e
    | .ok (bytes, o) =>
      ∃ d : Document, t.step op = .ok ⟨d, t.outcomes ++ [(op, o)]⟩ ∧ d.bytes = bytes ∧ d.Coherent := by
  obtain ⟨hplan, hcoh, hbytes⟩ := Document.perform_eq ht op
  unfold step effect
  generalize hq : t.document.perform op = q at hplan hcoh hbytes
  obtain ⟨d, r⟩ := q
  simp only at hplan hcoh hbytes
  rw [← hplan] at hbytes ⊢
  cases r with
  | ok p => exact ⟨d, rfl, hbytes, hcoh⟩
  | error e =>
    cases e with
    | refused r => exact ⟨d, rfl, hbytes, hcoh⟩
    | wrongType => rfl
    | notText => rfl

theorem foldlM_step_eq : ∀ (ops : List Operation) (t : Transformation), t.document.Coherent →
    match effects ops t.document.bytes with
    | .error e => ops.foldlM step t = .error e
    | .ok (bytes, os) =>
      ∃ d : Document, ops.foldlM step t = .ok ⟨d, t.outcomes ++ os⟩ ∧ d.bytes = bytes ∧ d.Coherent
  | [], t, ht => ⟨t.document, by rw [List.append_nil]; rfl, rfl, ht⟩
  | op :: ops, t, ht => by
    have hstep := step_eq ht op
    simp only [effects, List.foldlM_cons]
    cases he : op.effect t.document.bytes with
    | error e =>
      simp only [he] at hstep
      simp only [hstep]
      rfl
    | ok p =>
      obtain ⟨bytes, o⟩ := p
      simp only [he] at hstep
      obtain ⟨d, hd, rfl, hcoh⟩ := hstep
      have ih := foldlM_step_eq ops ⟨d, t.outcomes ++ [(op, o)]⟩ hcoh
      simp only [hd]
      cases hes : effects ops d.bytes with
      | error e =>
        simp only [hes] at ih
        exact ih
      | ok q =>
        simp only [hes] at ih
        obtain ⟨d', hd', hb', hc'⟩ := ih
        refine ⟨d', ?_, hb', hc'⟩
        rw [List.append_assoc] at hd'
        exact hd'

theorem run_eq (source : List Char) (ops : List Operation) :
    match effects ops (encode source) with
    | .error e => run source ops = .error e
    | .ok (bytes, os) => ∃ d : Document, run source ops = .ok ⟨d, os⟩ ∧ d.bytes = bytes := by
  have hrun := foldlM_step_eq ops ⟨.ofText source, []⟩ (Document.coherent_ofText source)
  simp only [Document.ofText, List.nil_append] at hrun
  cases hes : effects ops (encode source) with
  | error e =>
    simp only [hes] at hrun
    exact hrun
  | ok q =>
    simp only [hes] at hrun
    obtain ⟨d, hd, hb, -⟩ := hrun
    exact ⟨d, hd, hb⟩

theorem effects_of_run (h : run source ops = .ok t) :
    effects ops (encode source) = .ok (t.document.bytes, t.outcomes) := by
  have hrun := run_eq source ops
  cases hes : effects ops (encode source) with
  | error e =>
    simp only [hes, h] at hrun
    cases hrun
  | ok q =>
    obtain ⟨bytes, os⟩ := q
    simp only [hes, h] at hrun
    obtain ⟨d, hd, rfl⟩ := hrun
    cases hd
    rfl

theorem run_of_effects (h : effects ops (encode source) = .ok (bytes, os)) :
    ∃ t, run source ops = .ok t ∧ t.document.bytes = bytes ∧ t.outcomes = os := by
  have hrun := run_eq source ops
  simp only [h] at hrun
  obtain ⟨d, hd, hb⟩ := hrun
  exact ⟨_, hd, hb, rfl⟩

theorem effect_of_succeeded (h : run source [op] = .ok t) (hs : t.succeeded) :
    ∃ p, op.effect (encode source) = .ok (t.document.bytes, .done p) := by
  obtain ⟨bytes, o, os, he, hes, hos⟩ := effects_cons_eq_ok.1 (effects_of_run h)
  cases hes
  cases o with
  | done p => exact ⟨p, he⟩
  | refused r =>
    rw [succeeded, failures, hos] at hs
    cases hs

theorem plan_of_succeeded (h : run source [op] = .ok t) (hs : t.succeeded) (hlooks : op.looks) :
    ∃ p, op.plan (encode source) (View.ofText source) = .ok p ∧
      t.document.bytes = Splice.applyAll p.edits (encode source) := by
  obtain ⟨p, heffect⟩ := effect_of_succeeded h hs
  have hplan : op.planOn (encode source) = op.plan (encode source) (View.ofText source) := by
    rw [planOn, if_pos hlooks, decode_encode, map_some]
  rw [effect, hplan] at heffect
  cases hmade : op.plan (encode source) (View.ofText source) with
  | ok q =>
    simp only [hmade, Except.ok.injEq, Prod.mk.injEq, Outcome.done.injEq] at heffect
    exact ⟨q, rfl, heffect.1.symm⟩
  | error e => cases e <;> simp [hmade] at heffect

theorem run_of_plan (hlooks : op.looks) (h : op.plan (encode source) (View.ofText source) = .ok p) :
    ∃ t, run source [op] = .ok t ∧ t.succeeded ∧ t.document.bytes = Splice.applyAll p.edits (encode source) := by
  have heffect : op.effect (encode source) = .ok (Splice.applyAll p.edits (encode source), .done p) := by
    rw [effect, planOn, if_pos hlooks, decode_encode, map_some]
    simp only [h]
  have heffects : effects [op] (encode source)
      = .ok (Splice.applyAll p.edits (encode source), [(op, .done p)]) :=
    effects_cons_eq_ok.2 ⟨_, _, [], heffect, rfl, rfl⟩
  obtain ⟨t, ht, hbytes, houtcomes⟩ := run_of_effects heffects
  exact ⟨t, ht, by rw [succeeded, failures, houtcomes]; rfl, hbytes⟩

end Transformation
end Runs

namespace Transformation

instance decidableIsOk {ε α : Type} : ∀ x : Except ε α, Decidable (∃ t, x = .ok t)
  | .ok t => .isTrue ⟨t, rfl⟩
  | .error _ => .isFalse (by simp)

instance decidableExistsOk {ε α : Type} {p : α → Prop} [DecidablePred p] :
    ∀ x : Except ε α, Decidable (∃ t, x = .ok t ∧ p t)
  | .ok t => decidable_of_iff (p t) (by simp)
  | .error _ => .isFalse (by simp)

end Transformation
end SourceBench
