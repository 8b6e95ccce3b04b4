import SourceBench.Edit.Wire
import SourceBench.Proofs.Edit.Refusal
import SourceBench.Proofs.Edit.WholeText

/-!
# Values that end a transformation

Fields of an operation that may hold any value are looked at only when the operation is planned.  `Operation.clashes`
says when such a value cannot be used on what is read from a text, without making the plan; then and only then the plan
ends the whole transformation (`Operation.effect_eq_error_iff`), and so a run ends early at the first operation that
clashes with the text it meets (`Operation.effects_eq_error_iff`).
-/
namespace SourceBench

open List Operation Utf8 Except

variable {text : List Char} {op : Operation}

def Value.isText : Value → Bool
  | .str _ => true
  | _ => false

def Value.isFilled : Value → Bool
  | .list vs => !vs.isEmpty
  | .object fs => !fs.isEmpty
  | _ => false

/-! ## When values cannot be used -/

namespace Imports

/-- The names stand on one line, where only texts can stand, and one of them is none. -/
def cannotWrite (names : List Value) : Bool := decide (names.length ≤ maxInlineNames) && names.any (!·.isText)

/-- The statement binds a default or has a list of names, so that new names can be put behind it. -/
def hasSeat (t : Syntax.Tree) : Bool :=
  match childOfKind t .importClause with
  | some c => c.namedChildren.any fun q => q.kind == .namedImports || q.kind == .identifier
  | none => false

/-- Names that a statement is to import as well cannot be put into it. -/
def clashesWith (v : View) (t : Syntax.Tree) (names : List Value) : Bool :=
  match Reading.importRecord v.text t with
  | some record =>
    let fresh := newAmong (record.names.map .str) names
    record.namespaceName.isNone && if hasSeat t then names.any (!·.isText) else cannotWrite fresh
  | none => false

end Imports

/-- The statement that imports from a module not imported yet cannot be written. -/
def AddImport.cannotStand (op : AddImport) : Bool :=
  (op.defaultName.truthy && !op.defaultName.isText) ||
    ((op.defaultName.truthy || !op.namespaceName.truthy) && Imports.cannotWrite op.names)

def Rename.inClass (op : Rename) : Bool :=
  match op.scope with
  | .str s => s == "class"
  | _ => false

def Operation.clashes (v : View) : Operation → Bool
  | .addImport op => match (Imports.statements v).find? (·.2 == op.source) with
    | some (t, _) => Imports.clashesWith v t op.names
    | none => op.cannotStand
  | .rename op => op.inClass && op.owner.isFilled
  | _ => false

/-- The result is an error of a wrong type if and only if `b`, and no error but that and refusals. -/
def ClashIff {α : Type} (b : Bool) : Except PlanError α → Prop
  | .ok _ | .error (.refused _) => b = false
  | .error .wrongType => b = true
  | .error .notText => False

/-! ## Plans -/

theorem ClashIff.bind {α β : Type} {b : Bool} {r : Except PlanError α} (h : ClashIff b r) {f : α → Except PlanError β}
    (hf : ∀ a, ∃ p, f a = .ok p) : ClashIff b (r >>= f) := by
  cases r with
  | ok a =>
    obtain ⟨p, hp⟩ := hf a
    show ClashIff b (f a)
    rw [hp]
    exact h
  | error e => cases e <;> exact h

theorem mapM_textOnly_cases (vs : List Value) : (∃ names, vs.mapM textOnly = .ok names ∧ vs.any (!·.isText) = false) ∨
      vs.mapM textOnly = .error .wrongType ∧ vs.any (!·.isText) := by
  induction vs with
  | nil => exact .inl ⟨[], rfl, rfl⟩
  | cons v vs ih =>
    rw [mapM_cons, any_cons]
    cases v with
    | str s =>
      rcases ih with ⟨names, hnames, hany⟩ | ⟨herror, hany⟩
      · exact .inl ⟨s :: names, by rw [hnames]; rfl, hany⟩
      · exact .inr ⟨by rw [herror]; rfl, hany⟩
    | _ => exact .inr ⟨rfl, rfl⟩

namespace Imports

theorem commaList_clash (vs : List Value) : ClashIff (vs.any (!·.isText)) (commaList vs) := by
  unfold commaList
  rcases mapM_textOnly_cases vs with ⟨names, hnames, hany⟩ | ⟨herror, hany⟩
  · rw [hnames]
    exact hany
  · rw [herror]
    exact hany

theorem writtenNames_eq (vs : List Value) : (∃ names, writtenNames vs = .ok names ∧ cannotWrite vs = false) ∨
      writtenNames vs = .error .wrongType ∧ cannotWrite vs := by
  unfold writtenNames cannotWrite
  by_cases hlength : vs.length ≤ maxInlineNames
  · rw [if_pos hlength, decide_eq_true hlength, Bool.true_and]
    exact mapM_textOnly_cases vs
  · rw [if_neg hlength, decide_eq_false hlength, Bool.false_and]
    exact .inl ⟨_, rfl, rfl⟩

theorem namesIn_list (vs : List Value) : namesIn (.list vs) = .ok vs := by
  cases vs <;> rfl

theorem statementText_clash (source : String) (names : List Value) (default namespace_ typeOnly : Value) :
    ClashIff (AddImport.cannotStand ⟨source, names, default, namespace_, typeOnly⟩)
      (statementText source names default namespace_ typeOnly) := by
  unfold statementText ImportStatement.ofValues AddImport.cannotStand
  rw [namesIn_list]
  simp only [bind, Except.bind]
  cases default.truthy with
  | true =>
    cases default with
    | str d => rcases writtenNames_eq names with ⟨ns, hok, hwrite⟩ | ⟨herror, hwrite⟩ <;>
        simp [*, textOnly, ClashIff, Value.isText, pure, Except.pure]
    | _ => rfl
  | false =>
    cases namespace_.truthy with
    | true => rfl
    | false => rcases writtenNames_eq names with ⟨ns, hok, hwrite⟩ | ⟨herror, hwrite⟩ <;>
        simp [*, ClashIff, pure, Except.pure]

theorem isText_eq_false_of_ratio? {v : Value} {p : Int × Nat} (h : v.ratio? = some p) : v.isText = false := by
  cases v <;> first | rfl | cases h

theorem isText_eq_of_same {v w : Value} (h : v.same w) : v.isText = w.isText := by
  unfold Value.same at h
  split at h
  case h_6 =>
    split at h
    · rename_i hv hw
      rw [isText_eq_false_of_ratio? hv, isText_eq_false_of_ratio? hw]
    · cases h
  all_goals rfl

theorem any_newAmong : ∀ (vs known : List Value), known.all (·.isText) →
    (newAmong known vs).any (!·.isText) = vs.any (!·.isText)
  | [], _, _ => rfl
  | v :: vs, known, hknown => by
    rw [newAmong, any_cons]
    cases htext : v.isText with
    | true =>
      split
      · exact any_newAmong vs known hknown
      · rw [any_cons, htext]
        exact any_newAmong vs (v :: known) (by rw [all_cons, htext]; exact hknown)
    | false =>
      have hnew : v.isAmong known = false := by
        refine any_eq_false.2 fun w hw hsame => ?_
        have hw' := all_eq_true.1 hknown w hw
        rw [← isText_eq_of_same hsame, htext] at hw'
        cases hw'
      rw [hnew, if_neg Bool.false_ne_true, any_cons, htext]
      rfl

theorem hasSeat_eq (t : Syntax.Tree) :
    hasSeat t = (((childOfKind t .importClause).bind (childOfKind · .namedImports)).isSome ||
      ((childOfKind t .importClause).bind (childOfKind · .identifier)).isSome) := by
  unfold hasSeat
  cases childOfKind t .importClause with
  | none => rfl
  | some c =>
    simp only [Option.bind_some, childOfKind, isSome_find?]
    induction c.namedChildren with
    | nil => rfl
    | cons q qs ih =>
      rw [any_cons, any_cons, any_cons, ih]
      cases q.kind == .namedImports <;> cases q.kind == .identifier <;> simp

theorem merge_clash (v : View) (t : Syntax.Tree) (op : AddImport) :
    ClashIff (clashesWith v t op.names) (merge v t op) := by
  unfold merge clashesWith
  cases hrecord : Reading.importRecord v.text t with
  | none => rfl
  | some record =>
    have hany : (newAmong (record.names.map .str) op.names).any (!·.isText) = op.names.any (!·.isText) :=
      any_newAmong _ _ (by rw [all_map]; exact all_eq_true.2 fun _ _ => rfl)
    simp only [← hany, hasSeat_eq]
    generalize newAmong (record.names.map .str) op.names = fresh
    cases fresh with
    | nil => simp [ClashIff, cannotWrite]
    | cons f fs =>
      cases hspace : record.namespaceName with
      | some n => rfl
      | none =>
        simp only [isEmpty_cons, Option.isSome_none, Bool.false_eq_true, if_false, Option.isNone_none, Bool.true_and]
        cases (childOfKind t .importClause).bind (childOfKind · .namedImports) with
        | some named =>
          refine (commaList_clash (f :: fs)).bind fun names => ?_
          split <;> exact ⟨_, rfl⟩
        | none =>
          cases (childOfKind t .importClause).bind (childOfKind · .identifier) with
          | some default => exact (commaList_clash (f :: fs)).bind fun names => ⟨_, rfl⟩
          | none =>
            show ClashIff (cannotWrite (f :: fs)) _
            exact ClashIff.bind (statementText_clash op.source (f :: fs) .null .null (.bool record.isTypeOnly))
              fun names => ⟨_, rfl⟩

theorem add_clash (bytes : Bytes) (v : View) (op : AddImport) :
    ClashIff (clashes v (.addImport op)) (add bytes v op) := by
  unfold add clashes
  dsimp only
  cases (statements v).find? (·.2 == op.source) with
  | some found => exact merge_clash v found.1 op
  | none =>
    refine (statementText_clash op.source op.names op.defaultName op.namespaceName op.isTypeOnly).bind
      fun statement => ?_
    split
    · exact ⟨_, rfl⟩
    · split <;> exact ⟨_, rfl⟩

end Imports

theorem classNamed_clash (v : View) (name : String) : ClashIff false (classNamed v name) := by
  unfold classNamed
  split
  · split <;> rfl
  · rfl

theorem Renaming.ofMember_clash (v : View) (op : Rename) (owner : String) : ClashIff false (ofMember v op owner) := by
  unfold ofMember
  have hclass := classNamed_clash v owner
  cases hfound : classNamed v owner with
  | ok found =>
    simp only [bind, Except.bind]
    split <;> rfl
  | error e =>
    rw [hfound] at hclass
    cases e <;> exact hclass

theorem Renaming.plan_clash (v : View) (op : Rename) : ClashIff (clashes v (.rename op)) (plan v op) := by
  have hsymbol : ClashIff false (ofSymbol v op) := by
    unfold ofSymbol
    split <;> rfl
  show ClashIff (op.inClass && op.owner.isFilled) (if op.inClass && op.owner.truthy then _ else ofSymbol v op)
  split
  · rename_i hclass
    obtain ⟨hscope, htrue⟩ := Bool.and_eq_true_iff.1 hclass
    rw [hscope, Bool.true_and]
    cases howner : op.owner with
    | str owner => exact ofMember_clash v op owner
    | list vs | object fs =>
      rw [howner] at htrue
      simp only [ownerName, howner]
      exact htrue
    | _ =>
      simp only [ownerName, howner]
      rfl
  · rename_i hclass
    have hfilled : (op.inClass && op.owner.isFilled) = false := by
      rw [Bool.and_eq_true] at hclass
      cases hscope : op.inClass with
      | false => rfl
      | true =>
        have hfalse : ¬ op.owner.truthy := fun htrue => hclass ⟨hscope, htrue⟩
        cases howner : op.owner <;> rw [howner] at hfalse <;> first | rfl | exact Bool.eq_false_iff.2 hfalse
    rw [hfilled]
    exact hsymbol

namespace Operation

theorem planOn_clash [Syntax.Recovery] (text : List Char) (op : Operation) :
    ClashIff (op.clashes (.ofText text)) (op.planOn (encode text)) := by
  rw [planOn, decode_encode]
  cases op with
  | addImport op => exact Imports.add_clash _ _ op
  | addProperty op => exact (classNamed_clash _ op.owner).bind fun _ => ⟨_, rfl⟩
  | addMethod op => exact (classNamed_clash _ op.owner).bind fun _ => ⟨_, rfl⟩
  | rename op => exact Renaming.plan_clash _ op
  | _ => rfl

theorem effect_eq_error_iff [Syntax.Recovery] {e : PlanError} :
    op.effect (encode text) = .error e ↔ e = .wrongType ∧ op.clashes (.ofText text) := by
  have hclash := planOn_clash text op
  unfold effect
  generalize op.planOn (encode text) = r at hclash
  cases r with
  | ok p => simp [show op.clashes (.ofText text) = false from hclash]
  | error e' => cases e' with
    | refused r => simp [show op.clashes (.ofText text) = false from hclash]
    | wrongType => simp [show op.clashes (.ofText text) = true from hclash, eq_comm]
    | notText => exact hclash.elim

/-- **A run is ended by the first operation that clashes with the text it meets**, and by nothing else. -/
theorem effects_eq_error_iff [Syntax.SoundRecovery] : ∀ {ops : List Operation} {d : Document} {text : List Char}
    {e : PlanError}, d.Coherent → d.bytes = encode text → d.Suits ops →
    (effects ops (encode text) = .error e ↔ e = .wrongType ∧ ∃ pre op post middle os, ops = pre ++ op :: post ∧
      effects pre (encode text) = .ok (encode middle, os) ∧ op.clashes (.ofText middle))
  | [], _, text, e, _, _, _ => by simp [effects]
  | op :: ops, d, text, e, hd, hbytes, hs => by
    cases heffect : op.effect (encode text) with
    | error e' =>
      obtain ⟨rfl, hclash⟩ := effect_eq_error_iff.1 heffect
      rw [effects, heffect]
      constructor
      · intro h
        cases h
        exact ⟨rfl, [], op, ops, text, [], rfl, rfl, hclash⟩
      · rintro ⟨rfl, -⟩
        rfl
    | ok x =>
      obtain ⟨bytes, o⟩ := x
      obtain ⟨hd', after, hafter⟩ := Document.perform_text hd hbytes (hs.head hbytes)
      obtain rfl : encode after = bytes := hafter.symm.trans (Document.perform_bytes hd (hbytes ▸ heffect))
      have hrest : effects (op :: ops) (encode text) = .error e ↔ effects ops (encode after) = .error e := by
        simp only [effects, heffect]
        cases effects ops (encode after) <;> simp
      rw [hrest, effects_eq_error_iff hd' hafter hs.tail]
      refine and_congr_right fun _ => ⟨?_, ?_⟩
      · rintro ⟨pre, op', post, middle, os, rfl, hpre, hclash⟩
        exact ⟨op :: pre, op', post, middle, (op, o) :: os, rfl,
          effects_cons_eq_ok.2 ⟨_, o, os, heffect, hpre, rfl⟩, hclash⟩
      · rintro ⟨pre, op', post, middle, os, hops, hpre, hclash⟩
        cases pre with
        | nil =>
          cases hops
          simp only [effects, ok.injEq, Prod.mk.injEq] at hpre
          obtain rfl := encode_inj.1 hpre.1
          have herror := effect_eq_error_iff.2 ⟨rfl, hclash⟩
          rw [heffect] at herror
          cases herror
        | cons first pre =>
          cases hops
          obtain ⟨bytes', o', os', hfirst, hpre', rfl⟩ := effects_cons_eq_ok.1 hpre
          rw [heffect] at hfirst
          cases hfirst
          exact ⟨pre, op', post, middle, os', rfl, hpre', hclash⟩

end Operation

/-! ## Values as operations -/

namespace Wire

variable {α β : Type}

theorem bind_ne_error {e : WireError} {r : Except WireError α} {f : α → Except WireError β} (h : r ≠ .error e)
    (hf : ∀ a, f a ≠ .error e) : (r >>= f) ≠ .error e :=
  fun heq => (bind_eq_error_iff.1 heq).elim h fun ⟨a, _, ha⟩ => hf a ha

theorem textField_ne_badTag (kind : OperationKind) (data : Fields) (field default : String) :
    textField kind data field default ≠ .error .badTag := by
  unfold textField
  split <;> exact nofun

theorem listField_ne_badTag (kind : OperationKind) (data : Fields) (field : String) :
    listField kind data field ≠ .error .badTag := by
  unfold listField
  split <;> exact nofun

theorem decodeKnown_ne_badTag (kind : OperationKind) (data : Fields) : decodeKnown kind data ≠ .error .badTag := by
  unfold decodeKnown
  split
  · -- the fields are read one after another
    cases kind <;> repeat' first
      | refine bind_ne_error (textField_ne_badTag _ _ _ _) fun _ => ?_
      | refine bind_ne_error (listField_ne_badTag _ _ _) fun _ => ?_
      | exact nofun
  · exact nofun

/-- The tag of the value is a list or an object with something in it, which no kind of operation could be looked up
by. -/
def hasFilledTag (v : Value) : Bool := ((v.field? "type").map (·.isFilled)).getD false

/-- **A tag is bad if and only if it is a list or an object that is not empty.** -/
theorem decodeItem_eq_badTag_iff (v : Value) : decodeItem v = .error .badTag ↔ hasFilledTag v := by
  unfold decodeItem hasFilledTag
  cases v with
  | object data =>
    show decodeObject data = _ ↔ ((Fields.get? data "type").map (·.isFilled)).getD false
    unfold decodeObject
    cases Fields.get? data "type" with
    | none => simp [Value.truthy]
    | some tag =>
      cases tag with
      | str s =>
        refine iff_of_false (fun hbad => ?_) Bool.false_ne_true
        dsimp only [Option.getD_some] at hbad
        split at hbad
        · cases hbad
        · split at hbad
          · exact decodeKnown_ne_badTag _ data hbad
          · cases hbad
      | list vs => cases vs <;> simp [Value.isFilled]
      | object fs => cases fs <;> simp [Value.isFilled]
      | _ =>
        simp only [Option.getD_some, Option.map_some, Value.isFilled]
        split <;> simp
  | _ => simp [Value.field?]

end Wire

namespace Transformation

/-- Some operation clashes with the text that the operations before it leave of the source. -/
def Clashes [Syntax.Recovery] (source : List Char) (ops : List Operation) : Prop :=
  ∃ pre op post t text, ops = pre ++ op :: post ∧ run source pre = .ok t ∧ t.source? = some text ∧
    op.clashes (.ofText text) = true

theorem clashes_iff [Syntax.SoundRecovery] {source : List Char} {ops : List Operation}
    (hs : (Document.ofText source).Suits ops) :
    Clashes source ops ↔ effects ops (encode source) = .error .wrongType := by
  rw [effects_eq_error_iff (Document.coherent_ofText source) rfl hs]
  constructor
  · rintro ⟨pre, op, post, t, text, rfl, hrun, htext, hclash⟩
    have heffects := effects_of_run hrun
    rw [← encode_of_decode htext] at heffects
    exact ⟨rfl, pre, op, post, text, t.outcomes, rfl, heffects, hclash⟩
  · rintro ⟨-, pre, op, post, middle, os, rfl, hpre, hclash⟩
    obtain ⟨t, hrun, hbytes, -⟩ := run_of_effects hpre
    exact ⟨pre, op, post, t, middle, rfl, hrun, by rw [source?, Document.text?, hbytes, decode_encode], hclash⟩

theorem run_eq_ok_or [Syntax.SoundRecovery] {source : List Char} {ops : List Operation}
    (hs : (Document.ofText source).Suits ops) :
    (∃ t text, run source ops = .ok t ∧ t.source? = some text ∧ ¬ Clashes source ops) ∨
      run source ops = .error .wrongType ∧ Clashes source ops := by
  rw [clashes_iff hs]
  cases heffects : effects ops (encode source) with
  | ok x =>
    obtain ⟨t, hrun, hbytes, -⟩ := run_of_effects heffects
    obtain ⟨text, htext⟩ := effects_text hs heffects
    exact .inl ⟨t, text, hrun, by rw [source?, Document.text?, hbytes, htext, decode_encode], nofun⟩
  | error e =>
    have hrun := run_eq source ops
    rw [heffects] at hrun
    obtain ⟨rfl, -⟩ := (effects_eq_error_iff (Document.coherent_ofText source) rfl hs).1 heffects
    exact .inr ⟨hrun, rfl⟩

/-- **How values given as operations can end.**  They are decoded one by one.  The first that is no operation ends all:
as malformed, unless its tag is a list or an object that is not empty, which is an error of another kind.  Operations
that were all decoded end in a transformation, which has a text, unless one of them clashes with the text it meets; that
again is an error of another kind, and no further kind of error arises.  Operations have to suit texts that break the
grammar. -/
theorem values_end [Syntax.SoundRecovery] (source : List Char) (vs : List Value) :
    (∃ pre v post e, vs = pre ++ v :: post ∧ (∀ u ∈ pre, ∃ op, Wire.decodeItem u = .ok op) ∧
      Wire.decodeItem v = .error e ∧ vs.mapM Wire.decodeItem = .error e ∧ (e = .badTag ↔ Wire.hasFilledTag v = true)) ∨
    ∃ ops, vs.mapM Wire.decodeItem = .ok ops ∧ ((Document.ofText source).Suits ops →
      (∃ t text, run source ops = .ok t ∧ t.source? = some text ∧ ¬ Clashes source ops) ∨
        run source ops = .error .wrongType ∧ Clashes source ops) := by
  cases hdecode : vs.mapM Wire.decodeItem with
  | ok ops => exact .inr ⟨ops, rfl, run_eq_ok_or⟩
  | error e =>
    obtain ⟨pre, v, post, rfl, hpre, hv⟩ := mapM_eq_error hdecode
    refine .inl ⟨pre, v, post, e, rfl, hpre, hv, rfl, ?_⟩
    rw [← Wire.decodeItem_eq_badTag_iff, hv, error.injEq]

attribute [local instance] Syntax.SoundRecovery.bare

/-- A number among the names of an import passes as an operation, and then ends the transformation. -/
theorem number_as_name_ends :
    ∃ ops, [Value.object [("type", .str "add-import"), ("moduleSpecifier", .str "m"),
      ("namedImports", .list [.int 1])]].mapM Wire.decodeItem = .ok ops ∧
        run "x;\n".toList ops = .error .wrongType := by
  refine ⟨[.addImport ⟨"m", [.int 1], .null, .null, .bool false⟩], by rfl, ?_⟩
  have hclash : Clashes "x;\n".toList [.addImport ⟨"m", [.int 1], .null, .null, .bool false⟩] :=
    ⟨[], _, [], ⟨.ofText "x;\n".toList, []⟩, "x;\n".toList, rfl, rfl, decode_encode _, by decide +kernel⟩
  exact ((run_eq_ok_or (Document.suits_bare _ _)).resolve_left fun ⟨_, _, _, _, hnone⟩ => hnone hclash).1

end Transformation
end SourceBench
