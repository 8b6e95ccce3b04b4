import SourceBench.Proofs.Edit.Clash

/-!
# The fields of operations

Each kind of operation has a table of its fields (`OperationKind.schema`): the two keys that a field may have, what it
may hold, and what it is when it is not given.  An object is read as an operation of a kind if and only if it fits the
table of that kind, and then each field of the operation is what the object gives for it (`decodeKnown_eq_ok_iff`).
-/
namespace SourceBench

open OperationKind Operation Fields Option

variable {key tag : String} {v : Value}

/-! ## Tables -/

inductive Holds where
  | text | list | any
deriving DecidableEq

def Holds.admits : Holds → Value → Bool
  | .text, .str _ => true
  | .list, .list _ => true
  | .any, _ => true
  | _, _ => false

/-- A field of an operation.  One without a default has to be given. -/
structure FieldRule where
  snake : String
  camel : String
  holds : Holds
  default : Option Value

def OperationKind.schema : OperationKind → List FieldRule
  | .addImport => [⟨"module_specifier", "moduleSpecifier", .text, none⟩,
      ⟨"named_imports", "namedImports", .list, some (.list [])⟩, ⟨"default_import", "defaultImport", .any, some .null⟩,
      ⟨"namespace_import", "namespaceImport", .any, some .null⟩,
        ⟨"is_type_only", "isTypeOnly", .any, some (.bool false)⟩]
  | .removeImport => [⟨"module_specifier", "moduleSpecifier", .text, none⟩,
      ⟨"named_imports", "namedImports", .list, some (.list [])⟩]
  | .addExport => [⟨"name", "name", .text, none⟩, ⟨"is_default", "isDefault", .any, some (.bool false)⟩,
      ⟨"declaration", "declaration", .any, some .null⟩]
  | .addProperty => [⟨"target_class", "targetClass", .text, none⟩, ⟨"property_name", "propertyName", .text, none⟩,
      ⟨"property_type", "propertyType", .text, none⟩, ⟨"initializer", "initializer", .any, some .null⟩,
      ⟨"is_readonly", "isReadonly", .any, some (.bool false)⟩]
  | .addMethod => [⟨"target_class", "targetClass", .text, none⟩, ⟨"method_name", "methodName", .text, none⟩,
      ⟨"parameters", "parameters", .text, some (.str "")⟩, ⟨"return_type", "returnType", .text, some (.str "void")⟩,
      ⟨"body", "body", .text, some (.str "")⟩]
  | .rename => [⟨"old_name", "oldName", .text, none⟩, ⟨"new_name", "newName", .text, none⟩,
      ⟨"scope", "scope", .any, some (.str "file")⟩, ⟨"target_class", "targetClass", .any, some .null⟩]
  | .wrap => [⟨"target_function", "targetFunction", .text, none⟩, ⟨"wrapper_template", "wrapperTemplate", .text, none⟩]

/-- The object gives the value for the field: under the key in camel case or, if there is nothing but null under that
one, under the key in snake case.  Null is never given. -/
def FieldRule.Given (f : FieldRule) (data : Fields) (v : Value) : Prop :=
  v ≠ .null ∧ (get? data f.camel = some v ∨
    (∀ w, get? data f.camel = some w → w = .null) ∧ get? data f.snake = some v)

/-- The object has all fields that an operation of the kind must have, and no field that holds what it may not hold. -/
structure OperationKind.WellFormed (kind : OperationKind) (data : Fields) : Prop where
  complete : ∀ f ∈ kind.schema, f.default = none →
    ∃ v, v ≠ .null ∧ (get? data f.camel = some v ∨ get? data f.snake = some v)
  admitted : ∀ f ∈ kind.schema, ∀ v, f.Given data v → f.holds.admits v = true

/-- All errors but a tag that cannot be looked up say that an operation is malformed. -/
def WireError.IsMalformed (e : WireError) : Prop := e ≠ .badTag

namespace Wire

theorem camelKey_schema (kind : OperationKind) : ∀ f ∈ kind.schema, camelKey f.snake = f.camel := by
  cases kind <;> decide +kernel

theorem required_eq (kind : OperationKind) : kind.required = (kind.schema.filter (·.default.isNone)).map (·.snake) := by
  cases kind <;> rfl

/-! ## What an object gives -/

variable {data : Fields} {kind : OperationKind}

theorem present_eq_some : present data key = some v ↔ v ≠ .null ∧ get? data key = some v := by
  unfold present
  split
  · next hnull =>
    rw [hnull]
    constructor
    · exact nofun
    · rintro ⟨hv, h⟩
      exact absurd (some.inj h).symm hv
  · next hnull =>
    constructor
    · intro h
      refine ⟨fun hv => ?_, h⟩
      exact hnull (hv ▸ h)
    · exact fun h => h.2

theorem present_eq_none : present data key = none ↔ ∀ w, get? data key = some w → w = .null := by
  rw [eq_none_iff_forall_ne_some]
  simp only [ne_eq, present_eq_some, not_and]
  exact ⟨fun h w hw => by_contra fun hne => h w hne hw, fun h w hne hw => hne (h w hw)⟩

section Schema

variable {kind : OperationKind} {f : FieldRule} (hf : f ∈ kind.schema) (data : Fields)

include hf

theorem chosen_eq_some : chosen data f.snake = some v ↔ f.Given data v := by
  have hchosen : chosen data f.snake = (present data f.camel).or (present data f.snake) := by
    rw [chosen, camelKey_schema kind f hf, orElse_eq_or]
  rw [hchosen, or_eq_some_iff, present_eq_some, present_eq_some, present_eq_none, FieldRule.Given]
  constructor
  · rintro (⟨hv, h⟩ | ⟨hnone, hv, h⟩)
    · exact ⟨hv, .inl h⟩
    · exact ⟨hv, .inr ⟨hnone, h⟩⟩
  · rintro ⟨hv, h | ⟨hnone, h⟩⟩
    · exact .inl ⟨hv, h⟩
    · exact .inr ⟨hnone, hv, h⟩

theorem chosen_isSome : (chosen data f.snake).isSome ↔
    ∃ v, v ≠ .null ∧ (get? data f.camel = some v ∨ get? data f.snake = some v) := by
  rw [isSome_iff_exists]
  simp only [chosen_eq_some hf, FieldRule.Given]
  constructor
  · rintro ⟨v, hv, h | ⟨-, h⟩⟩
    · exact ⟨v, hv, .inl h⟩
    · exact ⟨v, hv, .inr h⟩
  · rintro ⟨v, hv, h | h⟩
    · exact ⟨v, hv, .inl h⟩
    · by_cases hcamel : ∀ w, get? data f.camel = some w → w = .null
      · exact ⟨v, hv, .inr ⟨hcamel, h⟩⟩
      · simp only [not_forall] at hcamel
        obtain ⟨w, hw, hne⟩ := hcamel
        exact ⟨w, hne, .inl hw⟩

end Schema

def fits (data : Fields) (f : FieldRule) : Bool :=
  match chosen data f.snake with
  | some v => f.holds.admits v
  | none => f.default.isSome

theorem wellFormed_iff : kind.WellFormed data ↔ ∀ f ∈ kind.schema, fits data f := by
  constructor
  · intro h f hf
    unfold fits
    split
    · next v hv => exact h.admitted f hf v ((chosen_eq_some hf data).1 hv)
    · next hnone =>
      refine isSome_iff_ne_none.2 fun hdefault => ?_
      have hsome := (chosen_isSome hf data).2 (h.complete f hf hdefault)
      rw [hnone] at hsome
      cases hsome
  · intro h
    constructor
    · intro f hf hdefault
      refine (chosen_isSome hf data).1 (isSome_iff_ne_none.2 fun hnone => ?_)
      have hfits := h f hf
      rw [fits, hnone, hdefault] at hfits
      cases hfits
    · intro f hf v hv
      have hfits := h f hf
      rwa [fits, (chosen_eq_some hf data).2 hv] at hfits

instance (kind : OperationKind) (data : Fields) : Decidable (kind.WellFormed data) :=
  decidable_of_iff _ wellFormed_iff.symm

/-- What a field is in an operation that is read from the object.  Where there is neither a value nor a default, nothing
is read. -/
def valueIn (data : Fields) (f : FieldRule) : Value := (chosen data f.snake).getD (f.default.getD (.str ""))

def valuesIn (kind : OperationKind) (data : Fields) : Fields := kind.schema.map fun f => (f.snake, valueIn data f)

/-! ## Reading the fields of a kind -/

section Reading

variable {kind : OperationKind} {data : Fields} {field : String}

theorem textField_eq_ok {default s : String} :
    textField kind data field default = .ok s ↔ (chosen data field).getD (.str default) = .str s := by
  unfold textField
  split
  · next h => simp [h]
  · next h => simp [h]
  · next v hv h =>
    rw [h]
    exact ⟨nofun, fun heq => absurd heq (hv s)⟩

theorem listField_eq_ok {vs : List Value} :
    listField kind data field = .ok vs ↔ (chosen data field).getD (.list []) = .list vs := by
  unfold listField
  split
  · next h => simp [h]
  · next h => simp [h]
  · next v hv h =>
    rw [h]
    exact ⟨nofun, fun heq => absurd heq (hv vs)⟩

variable {op : Operation}

theorem fields_admitted (h : op.kind? = some kind) :
    List.Forall₂ (fun f e => e.1 = f.snake ∧ f.holds.admits e.2) kind.schema op.fields := by
  cases op <;> cases h <;> simp [schema, fields, Holds.admits]

theorem eq_of_fields {op' : Operation} (h : op.kind? = some kind) (h' : op'.kind? = some kind)
    (hfields : op.fields = op'.fields) : op = op' := by
  cases op <;> cases h <;> cases op' <;> cases h'
  all_goals
    rename_i o o'
    cases o
    cases o'
    simpa [fields] using hfields

theorem of_decodeFields (h : decodeFields kind data = .ok op) :
    op.kind? = some kind ∧ op.fields = valuesIn kind data := by
  cases kind <;> simp only [decodeFields, bind_eq_ok_iff, textField_eq_ok, listField_eq_ok] at h
  case addImport | removeImport | rename | wrap =>
    obtain ⟨first, hfirst, second, hsecond, h⟩ := h
    cases h
    simp [kind?, fields, valuesIn, schema, valueIn, anyField, hfirst, hsecond]
  case addExport =>
    obtain ⟨name, hname, h⟩ := h
    cases h
    simp [kind?, fields, valuesIn, schema, valueIn, anyField, hname]
  case addProperty =>
    obtain ⟨owner, howner, name, hname, type, htype, h⟩ := h
    cases h
    simp [kind?, fields, valuesIn, schema, valueIn, anyField, howner, hname, htype]
  case addMethod =>
    obtain ⟨owner, howner, name, hname, parameters, hparameters, returnType, hreturn, body, hbody, h⟩ := h
    cases h
    simp [kind?, fields, valuesIn, schema, valueIn, howner, hname, hparameters, hreturn, hbody]

theorem exists_textField (default : String) (h : ∀ v, chosen data field = some v → Holds.text.admits v) :
    ∃ s, textField kind data field default = .ok s := by
  simp only [textField_eq_ok]
  cases hchosen : chosen data field with
  | none => exact ⟨default, rfl⟩
  | some v =>
    have hv := h v hchosen
    cases v with
    | str s => exact ⟨s, rfl⟩
    | _ => cases hv

theorem exists_listField (h : ∀ v, chosen data field = some v → Holds.list.admits v) :
    ∃ vs, listField kind data field = .ok vs := by
  simp only [listField_eq_ok]
  cases hchosen : chosen data field with
  | none => exact ⟨[], rfl⟩
  | some v =>
    have hv := h v hchosen
    cases v with
    | list vs => exact ⟨vs, rfl⟩
    | _ => cases hv

theorem exists_decodeFields (h : ∀ f ∈ kind.schema, ∀ v, chosen data f.snake = some v → f.holds.admits v) :
    ∃ op, decodeFields kind data = .ok op := by
  have text {field camel : String} {default' : Option Value} (default : String)
      (hf : ⟨field, camel, .text, default'⟩ ∈ kind.schema) : ∃ s, textField kind data field default = .ok s :=
    exists_textField default (h ⟨field, camel, .text, default'⟩ hf)
  have list {field camel : String} {default' : Option Value} (hf : ⟨field, camel, .list, default'⟩ ∈ kind.schema) :
      ∃ vs, listField kind data field = .ok vs :=
    exists_listField (h ⟨field, camel, .list, default'⟩ hf)
  cases kind with
  | addImport | removeImport =>
    obtain ⟨source, hsource⟩ := text "" (.head _)
    obtain ⟨names, hnames⟩ := list (.tail _ (.head _))
    exact ⟨_, bind_eq_ok_iff.2 ⟨_, hsource, bind_eq_ok_iff.2 ⟨_, hnames, rfl⟩⟩⟩
  | addExport =>
    obtain ⟨name, hname⟩ := text "" (.head _)
    exact ⟨_, bind_eq_ok_iff.2 ⟨_, hname, rfl⟩⟩
  | addProperty =>
    obtain ⟨owner, howner⟩ := text "" (.head _)
    obtain ⟨name, hname⟩ := text "" (.tail _ (.head _))
    obtain ⟨type, htype⟩ := text "" (.tail _ (.tail _ (.head _)))
    exact ⟨_, bind_eq_ok_iff.2 ⟨_, howner, bind_eq_ok_iff.2 ⟨_, hname, bind_eq_ok_iff.2 ⟨_, htype, rfl⟩⟩⟩⟩
  | addMethod =>
    obtain ⟨owner, howner⟩ := text "" (.head _)
    obtain ⟨name, hname⟩ := text "" (.tail _ (.head _))
    obtain ⟨parameters, hparameters⟩ := text "" (.tail _ (.tail _ (.head _)))
    obtain ⟨returnType, hreturn⟩ := text "void" (.tail _ (.tail _ (.tail _ (.head _))))
    obtain ⟨body, hbody⟩ := text "" (.tail _ (.tail _ (.tail _ (.tail _ (.head _)))))
    exact ⟨_, bind_eq_ok_iff.2 ⟨_, howner, bind_eq_ok_iff.2 ⟨_, hname, bind_eq_ok_iff.2 ⟨_, hparameters,
      bind_eq_ok_iff.2 ⟨_, hreturn, bind_eq_ok_iff.2 ⟨_, hbody, rfl⟩⟩⟩⟩⟩⟩
  | rename | wrap =>
    obtain ⟨first, hfirst⟩ := text "" (.head _)
    obtain ⟨second, hsecond⟩ := text "" (.tail _ (.head _))
    exact ⟨_, bind_eq_ok_iff.2 ⟨_, hfirst, bind_eq_ok_iff.2 ⟨_, hsecond, rfl⟩⟩⟩

theorem decodeKnown_eq_ok : decodeKnown kind data = .ok op ↔
    (∀ f ∈ kind.schema, f.default = none → (chosen data f.snake).isSome) ∧ decodeFields kind data = .ok op := by
  have hmissing : kind.required.filter (fun f => (chosen data f).isNone) = [] ↔
      ∀ f ∈ kind.schema, f.default = none → (chosen data f.snake).isSome := by
    rw [required_eq, List.filter_eq_nil_iff]
    simp only [List.mem_map, List.mem_filter, isNone_iff_eq_none, forall_exists_index, and_imp,
      ← isSome_iff_ne_none]
    exact ⟨fun h f hf hnone => h f.snake f hf hnone rfl, fun h _ f hf hnone heq => heq ▸ h f hf hnone⟩
  rw [← hmissing]
  unfold decodeKnown
  split
  · next h => simp [h]
  · next names h => exact ⟨nofun, fun ⟨hnil, _⟩ => absurd hnil h⟩

theorem admitted_of_fields (hkind : op.kind? = some kind) (hfields : op.fields = valuesIn kind data) :
    ∀ f ∈ kind.schema, f.holds.admits (valueIn data f) := by
  have hadmitted := fields_admitted hkind
  rw [hfields, valuesIn, List.forall₂_map_right_iff, List.forall₂_same] at hadmitted
  exact fun f hf => (hadmitted f hf).2

theorem exists_decodeKnown (h : kind.WellFormed data) : ∃ op, decodeKnown kind data = .ok op := by
  obtain ⟨op, hop⟩ := exists_decodeFields fun f hf v hv => h.admitted f hf v ((chosen_eq_some hf data).1 hv)
  exact ⟨op, decodeKnown_eq_ok.2 ⟨fun f hf hnone => (chosen_isSome hf data).2 (h.complete f hf hnone), hop⟩⟩

/-- **An object is an operation of a kind if and only if it is well-formed for that kind**, and the operation has the
values that the object gives for its fields. -/
theorem decodeKnown_eq_ok_iff : decodeKnown kind data = .ok op ↔
    kind.WellFormed data ∧ op.kind? = some kind ∧ op.fields = valuesIn kind data := by
  rw [decodeKnown_eq_ok]
  constructor
  · rintro ⟨hcomplete, h⟩
    obtain ⟨hkind, hfields⟩ := of_decodeFields h
    refine ⟨⟨fun f hf hnone => (chosen_isSome hf data).1 (hcomplete f hf hnone), fun f hf v hv => ?_⟩, hkind, hfields⟩
    have hvalue := admitted_of_fields hkind hfields f hf
    rwa [valueIn, (chosen_eq_some hf data).2 hv] at hvalue
  · rintro ⟨hform, hkind, hfields⟩
    obtain ⟨op', hop'⟩ := exists_decodeKnown hform
    obtain ⟨hkind', hfields'⟩ := of_decodeFields (decodeKnown_eq_ok.1 hop').2
    obtain rfl := eq_of_fields hkind hkind' (hfields.trans hfields'.symm)
    exact decodeKnown_eq_ok.1 hop'

end Reading

/-! ## Reading objects -/

theorem ofTag?_tag (kind : OperationKind) : ofTag? kind.tag = some kind := by
  cases kind <;> decide +kernel

theorem ofTag?_eq_some : ofTag? tag = some kind ↔ kind.tag = tag := by
  constructor
  · intro h
    simpa using List.find?_some h
  · rintro rfl
    exact ofTag?_tag kind

theorem ofTag?_eq_none : ofTag? tag = none ↔ ∀ kind : OperationKind, kind.tag ≠ tag := by
  rw [eq_none_iff_forall_ne_some]
  simp only [ne_eq, ofTag?_eq_some]

theorem tag_ne_empty (kind : OperationKind) : kind.tag ≠ "" := by
  cases kind <;> decide

section Object

variable {data : Fields} {tag : String} (htag : get? data "type" = some (.str tag))

include htag

variable {kind : OperationKind}

theorem decode_known (hkind : kind.tag = tag) : decode (.object data) = decodeKnown kind data := by
  subst hkind
  simp [decode, decodeObject, htag, ofTag?_tag, tag_ne_empty]

theorem decode_unknown (hne : tag ≠ "") (hkinds : ∀ kind : OperationKind, kind.tag ≠ tag) :
    decode (.object data) = .ok (.unknown tag data) := by
  simp [decode, decodeObject, htag, ofTag?_eq_none.2 hkinds, hne]

theorem decode_untagged (hempty : tag = "") : decode (.object data) = .error .noTag := by
  simp [decode, decodeObject, htag, hempty]

theorem decode_eq_ok_known {op : Operation} : decode (.object data) = .ok op ∧ op.kind? = some kind ↔
      kind.tag = tag ∧ kind.WellFormed data ∧ op.kind? = some kind ∧ op.fields = valuesIn kind data := by
  constructor
  · rintro ⟨h, hkind⟩
    by_cases htagged : ∃ kind' : OperationKind, kind'.tag = tag
    · obtain ⟨kind', hkind'⟩ := htagged
      rw [decode_known htag hkind', decodeKnown_eq_ok_iff] at h
      obtain rfl := some.inj (h.2.1.symm.trans hkind)
      exact ⟨hkind', h⟩
    · rw [not_exists] at htagged
      by_cases hempty : tag = ""
      · rw [decode_untagged htag hempty] at h
        cases h
      · rw [decode_unknown htag hempty htagged] at h
        cases h
        cases hkind
  · rintro ⟨hkind, h⟩
    rw [decode_known htag hkind, decodeKnown_eq_ok_iff]
    exact ⟨h, h.2.1⟩

theorem decode_eq_ok_unknown {t : String} {payload : Fields} : decode (.object data) = .ok (.unknown t payload) ↔
      (t = tag ∧ payload = data) ∧ tag ≠ "" ∧ ∀ kind : OperationKind, kind.tag ≠ tag := by
  constructor
  · intro h
    have hkinds : ∀ kind : OperationKind, kind.tag ≠ tag := fun kind hkind => by
      rw [decode_known htag hkind, decodeKnown_eq_ok_iff] at h
      cases h.2.1
    have hne : tag ≠ "" := fun hempty => by
      rw [decode_untagged htag hempty] at h
      cases h
    rw [decode_unknown htag hne hkinds] at h
    cases h
    exact ⟨⟨rfl, rfl⟩, hne, hkinds⟩
  · rintro ⟨⟨rfl, rfl⟩, hne, hkinds⟩
    exact decode_unknown htag hne hkinds

theorem decode_malformed {e : WireError} (h : decode (.object data) = .error e) : e.IsMalformed := by
  rintro rfl
  have hfilled := (decodeItem_eq_badTag_iff (.object data)).1 h
  simp [hasFilledTag, Value.field?, htag, Value.isFilled] at hfilled

/-- **What an object with a text for a tag is read as.**  It is a known operation if and only if its tag is that of a
kind and it is well-formed for that kind, and then the operation has the values that the object gives.  It is an unknown
operation, with the tag and the whole object, if and only if its tag is some text that no kind has.  Any other object is
malformed. -/
theorem decode_outcome : ((∃ op kind, decode (.object data) = .ok op ∧ op.kind? = some kind) ↔
      ∃ kind : OperationKind, kind.tag = tag ∧ kind.WellFormed data) ∧
    (∀ op kind, decode (.object data) = .ok op → op.kind? = some kind →
      kind.tag = tag ∧ op.fields = valuesIn kind data) ∧
    ((∃ t payload, decode (.object data) = .ok (.unknown t payload)) ↔
      tag ≠ "" ∧ ∀ kind : OperationKind, kind.tag ≠ tag) ∧
    (∀ t payload, decode (.object data) = .ok (.unknown t payload) → t = tag ∧ payload = data) ∧
    ((¬ ∃ kind : OperationKind, kind.tag = tag ∧ kind.WellFormed data) →
      (¬ (tag ≠ "" ∧ ∀ kind : OperationKind, kind.tag ≠ tag)) →
      ∃ e, decode (.object data) = .error e ∧ e.IsMalformed) := by
  refine ⟨⟨?_, ?_⟩, ?_, ⟨?_, ?_⟩, ?_, ?_⟩
  · rintro ⟨op, kind, h⟩
    obtain ⟨hkind, hform, -⟩ := (decode_eq_ok_known htag).1 h
    exact ⟨kind, hkind, hform⟩
  · rintro ⟨kind, hkind, hform⟩
    obtain ⟨op, hop⟩ := exists_decodeKnown hform
    exact ⟨op, kind, (decode_eq_ok_known htag).2 ⟨hkind, decodeKnown_eq_ok_iff.1 hop⟩⟩
  · intro op kind h hkind
    obtain ⟨htagged, -, -, hfields⟩ := (decode_eq_ok_known htag).1 ⟨h, hkind⟩
    exact ⟨htagged, hfields⟩
  · rintro ⟨t, payload, h⟩
    exact ((decode_eq_ok_unknown htag).1 h).2
  · exact fun h => ⟨tag, data, (decode_eq_ok_unknown htag).2 ⟨⟨rfl, rfl⟩, h⟩⟩
  · exact fun t payload h => ((decode_eq_ok_unknown htag).1 h).1
  · intro hknown hunknown
    cases h : decode (.object data) with
    | error e => exact ⟨e, rfl, decode_malformed htag h⟩
    | ok op =>
      cases hkind : op.kind? with
      | some kind =>
        obtain ⟨htagged, hform, -⟩ := (decode_eq_ok_known htag).1 ⟨h, hkind⟩
        exact absurd ⟨kind, htagged, hform⟩ hknown
      | none =>
        cases op with
        | unknown t payload => exact absurd ((decode_eq_ok_unknown htag).1 h).2 hunknown
        | _ => cases hkind

end Object

/-- Null under the key in camel case leaves the field to its key in snake case, and zero is a value. -/
theorem decode_outcome_null :
    ∃ data op kind, data = [("type", .str "rename"), ("oldName", .null), ("old_name", .str "a"),
      ("newName", .str "b"), ("scope", .int 0)] ∧ Fields.get? data "type" = some (.str "rename") ∧
    decode (.object data) = .ok op ∧ op.kind? = some kind ∧ kind.tag = "rename" ∧ op.fields = valuesIn kind data := by
  obtain ⟨data, hdata⟩ : ∃ data : Fields, data = [("type", .str "rename"), ("oldName", .null), ("old_name", .str "a"),
      ("newName", .str "b"), ("scope", .int 0)] := ⟨_, rfl⟩
  have htag : Fields.get? data "type" = some (.str "rename") := by
    rw [hdata]
    rfl
  have hform : OperationKind.rename.WellFormed data := by
    rw [hdata]
    decide +kernel
  obtain ⟨op, kind, hop, hkind⟩ := (decode_outcome htag).1.2 ⟨.rename, rfl, hform⟩
  exact ⟨data, op, kind, hdata, htag, hop, hkind, (decode_outcome htag).2.1 op kind hop hkind⟩

end Wire
end SourceBench
