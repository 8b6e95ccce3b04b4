import SourceBench.Proofs.Edit.WireFields
import SourceBench.Proofs.Value.Fields

/-!
# Styles of keys

What an object is read as depends only on what it gives for each field (`decodeKnown_congr`).  It does not depend on the
form that keys are written in (`given_restyle`), nor on null, on keys of no field, or on a key in snake case beside the
same key in camel case (`given_append_idle`).  An operation that is written out is read back (`decode_toValue`).
-/
namespace SourceBench

open List

variable {v : Value} {f : FieldRule}

def FieldRule.HasKey (f : FieldRule) (key : String) : Prop := key = f.camel ∨ key = f.snake

instance (f : FieldRule) (key : String) : Decidable (f.HasKey key) := inferInstanceAs (Decidable (_ ∨ _))

namespace OperationKind

def otherKey (kind : OperationKind) (key : String) : String :=
  match kind.schema.find? (·.HasKey key) with
  | some f => if key = f.camel then f.snake else f.camel
  | none => key

def restyle (kind : OperationKind) (flip : String → Bool) (data : Fields) : Fields :=
  data.map fun e => (if flip e.1 then kind.otherKey e.1 else e.1, e.2)

/-- No field has both of its keys in the object. -/
def OneForm (kind : OperationKind) (data : Fields) : Prop :=
  ∀ f ∈ kind.schema, f.camel ≠ f.snake → f.camel ∈ data.map (·.1) → f.snake ∉ data.map (·.1)

/-- What may be put into an object without a change to what it is read as. -/
inductive Idle (kind : OperationKind) (data : Fields) : String × Value → Prop
  | null {f : FieldRule} {key : String} (hf : f ∈ kind.schema) (hkey : f.HasKey key) : Idle kind data (key, .null)
  | foreign {key : String} (hkey : ∀ f ∈ kind.schema, ¬ f.HasKey key) (v : Value) : Idle kind data (key, v)
  | shadowed {f : FieldRule} {w : Value} (hf : f ∈ kind.schema) (hne : f.camel ≠ f.snake) (hw : w ≠ .null)
    (hmem : (f.camel, w) ∈ data) (v : Value) : Idle kind data (f.snake, v)

/-! ## Keys of a kind -/

theorem schema_nodup (kind : OperationKind) : (kind.schema.map (·.snake) ++ ["type"]).Nodup := by
  cases kind <;> decide

theorem schema_type (kind : OperationKind) : ∀ f ∈ kind.schema, ¬ f.HasKey "type" := by
  cases kind <;> decide

theorem snake_of_camel (kind : OperationKind) : ∀ f ∈ kind.schema, ∀ g ∈ kind.schema,
    f.camel = g.camel ∨ f.camel = g.snake → f.snake = g.snake := by
  cases kind <;> decide

section Keys

variable {kind : OperationKind} {f g : FieldRule} (hf : f ∈ kind.schema) {key : String}

include hf

theorem eq_of_snake_eq (hg : g ∈ kind.schema) (h : f.snake = g.snake) : f = g :=
  inj_on_of_nodup_map (nodup_append.1 kind.schema_nodup).1 hf hg h

theorem eq_of_hasKey (hg : g ∈ kind.schema) (h : f.HasKey key) (h' : g.HasKey key) : f = g := by
  rcases h with rfl | rfl
  · exact eq_of_snake_eq hf hg (kind.snake_of_camel f hf g hg h')
  · rcases h' with h' | h'
    · exact (eq_of_snake_eq hg hf (kind.snake_of_camel g hg f hf (.inr h'.symm))).symm
    · exact eq_of_snake_eq hf hg h'

theorem hasKey_otherKey : f.HasKey (kind.otherKey key) ↔ f.HasKey key := by
  unfold otherKey
  split
  · next g hfind =>
    have hg := mem_of_find?_eq_some hfind
    have hkey : g.HasKey key := by simpa using find?_some hfind
    have hother : g.HasKey (if key = g.camel then g.snake else g.camel) := by
      split
      · exact .inr rfl
      · exact .inl rfl
    exact ⟨fun h => eq_of_hasKey hf hg h hother ▸ hkey, fun h => eq_of_hasKey hf hg h hkey ▸ hother⟩
  · rfl

end Keys

end OperationKind

/-! ## Values of a field -/

def FieldRule.Has (f : FieldRule) (data : Fields) (v : Value) : Prop := ∃ key, f.HasKey key ∧ (key, v) ∈ data

namespace Wire

open OperationKind

section Given

variable {f : FieldRule} {data : Fields} {v : Value} (hkeys : (data.map (·.1)).Nodup)

include hkeys

theorem given_iff_mem : f.Given data v ↔
    v ≠ .null ∧ ((f.camel, v) ∈ data ∨ (∀ w, (f.camel, w) ∈ data → w = .null) ∧ (f.snake, v) ∈ data) := by
  simp only [FieldRule.Given, Fields.get?_eq_some_iff_mem hkeys]

theorem given_iff_has (hone : ∀ v w, f.Has data v → f.Has data w → v = w) :
    f.Given data v ↔ v ≠ .null ∧ f.Has data v := by
  rw [given_iff_mem hkeys]
  constructor
  · rintro ⟨hv, hcamel | ⟨-, hsnake⟩⟩
    · exact ⟨hv, f.camel, .inl rfl, hcamel⟩
    · exact ⟨hv, f.snake, .inr rfl, hsnake⟩
  · rintro ⟨hv, key, rfl | rfl, hmem⟩
    · exact ⟨hv, .inl hmem⟩
    · refine ⟨hv, ?_⟩
      by_cases hcamel : (f.camel, v) ∈ data
      · exact .inl hcamel
      · refine .inr ⟨fun w hw => ?_, hmem⟩
        -- a value under the other key would be the same one
        have heq := hone v w ⟨_, .inr rfl, hmem⟩ ⟨_, .inl rfl, hw⟩
        exact absurd (heq ▸ hw) hcamel

end Given

/-! ## Keys in another form -/

section Restyle

variable {kind : OperationKind} {f : FieldRule} (hf : f ∈ kind.schema) {data : Fields} {flip : String → Bool}

include hf

theorem has_restyle : f.Has (kind.restyle flip data) v ↔ f.Has data v := by
  have hstyle (key : String) : f.HasKey (if flip key then kind.otherKey key else key) ↔ f.HasKey key := by
    split
    · exact hasKey_otherKey hf
    · rfl
  constructor
  · rintro ⟨key, hkey, hmem⟩
    obtain ⟨⟨key', v'⟩, hmem', heq⟩ := mem_map.1 hmem
    cases heq
    exact ⟨key', (hstyle key').1 hkey, hmem'⟩
  · rintro ⟨key, hkey, hmem⟩
    exact ⟨_, (hstyle key).2 hkey, mem_map.2 ⟨_, hmem, rfl⟩⟩

theorem eq_of_oneForm (hkeys : (data.map (·.1)).Nodup) (hform : kind.OneForm data) {w : Value} (hv : f.Has data v)
    (hw : f.Has data w) : v = w := by
  obtain ⟨key, hkey, hv⟩ := hv
  obtain ⟨key', hkey', hw⟩ := hw
  have hone : key = key' := by
    by_contra hne
    have hmem : key ∈ data.map (·.1) := mem_map.2 ⟨_, hv, rfl⟩
    have hmem' : key' ∈ data.map (·.1) := mem_map.2 ⟨_, hw, rfl⟩
    rcases hkey with rfl | rfl <;> rcases hkey' with rfl | rfl
    · exact hne rfl
    · exact hform f hf hne hmem hmem'
    · exact hform f hf (Ne.symm hne) hmem' hmem
    · exact hne rfl
  subst hone
  exact Option.some.inj (((Fields.get?_eq_some_iff_mem hkeys).2 hv).symm.trans
    ((Fields.get?_eq_some_iff_mem hkeys).2 hw))

theorem given_restyle (hkeys : ((kind.restyle flip data).map (·.1)).Nodup) (hdata : (data.map (·.1)).Nodup)
    (hform : kind.OneForm data) : f.Given (kind.restyle flip data) v ↔ f.Given data v := by
  have hone (v w) : f.Has data v → f.Has data w → v = w := eq_of_oneForm hf hdata hform
  rw [given_iff_has hdata hone, given_iff_has hkeys fun v w => ?_, has_restyle hf]
  rw [has_restyle hf, has_restyle hf]
  exact hone v w

end Restyle

/-! ## Idle keys -/

section Idle

variable {kind : OperationKind} {f : FieldRule} (hf : f ∈ kind.schema) {data : Fields} {v : Value}

include hf

theorem idle_camel (h : kind.Idle data (f.camel, v)) : v = .null := by
  generalize hkey : f.camel = key at h
  cases h with
  | null => rfl
  | foreign hforeign => exact absurd (.inl hkey.symm) (hforeign f hf)
  | shadowed hg hne =>
    obtain rfl := eq_of_hasKey hf hg (.inl hkey.symm) (.inr rfl)
    exact absurd hkey hne

theorem idle_snake (h : kind.Idle data (f.snake, v)) : v = .null ∨ ∃ w, w ≠ .null ∧ (f.camel, w) ∈ data := by
  generalize hkey : f.snake = key at h
  cases h with
  | null => exact .inl rfl
  | foreign hforeign => exact absurd (.inr hkey.symm) (hforeign f hf)
  | shadowed hg _ hw hmem =>
    obtain rfl := eq_of_snake_eq hf hg hkey
    exact .inr ⟨_, hw, hmem⟩

theorem given_append_idle {added data' : Fields} (hperm : data'.Perm (data ++ added)) (hkeys : (data'.map (·.1)).Nodup)
    (hdata : (data.map (·.1)).Nodup) (hidle : ∀ e ∈ added, kind.Idle data e) : f.Given data' v ↔ f.Given data v := by
  have hmem (e) : e ∈ data' ↔ e ∈ data ∨ e ∈ added := by rw [hperm.mem_iff, mem_append]
  rw [given_iff_mem hkeys, given_iff_mem hdata]
  refine and_congr_right fun hv => ?_
  constructor
  · rintro (hcamel | ⟨hnull, hsnake⟩)
    · rcases (hmem _).1 hcamel with hcamel | hadded
      · exact .inl hcamel
      · exact absurd (idle_camel hf (hidle _ hadded)) hv
    · rcases (hmem _).1 hsnake with hsnake | hadded
      · exact .inr ⟨fun w hw => hnull w ((hmem _).2 (.inl hw)), hsnake⟩
      · rcases idle_snake hf (hidle _ hadded) with hnone | ⟨w, hne, hw⟩
        · exact absurd hnone hv
        · exact absurd (hnull w ((hmem _).2 (.inl hw))) hne
  · rintro (hcamel | ⟨hnull, hsnake⟩)
    · exact .inl ((hmem _).2 (.inl hcamel))
    · refine .inr ⟨fun w hw => ?_, (hmem _).2 (.inl hsnake)⟩
      rcases (hmem _).1 hw with hw | hadded
      · exact hnull w hw
      · exact idle_camel hf (hidle _ hadded)

end Idle

/-! ## Operations that are read again -/

section Again

variable {kind : OperationKind} {data data' : Fields} {op : Operation}

theorem decodeKnown_congr (h : ∀ f ∈ kind.schema, ∀ v, f.Given data' v ↔ f.Given data v) :
    decodeKnown kind data' = .ok op ↔ decodeKnown kind data = .ok op := by
  have hchosen : ∀ f ∈ kind.schema, chosen data' f.snake = chosen data f.snake := fun f hf =>
    Option.ext fun v => by rw [chosen_eq_some hf, chosen_eq_some hf, h f hf]
  have hvalues : valuesIn kind data' = valuesIn kind data := map_congr_left fun f hf => by
    rw [valueIn, valueIn, hchosen f hf]
  have hform : kind.WellFormed data' ↔ kind.WellFormed data := by
    rw [wellFormed_iff, wellFormed_iff]
    exact forall₂_congr fun f hf => by rw [fits, fits, hchosen f hf]
  rw [decodeKnown_eq_ok_iff, decodeKnown_eq_ok_iff, hvalues, hform]

theorem tag_of_decode (h : decode (.object data) = .ok op) (hkind : op.kind? = some kind) :
    Fields.get? data "type" = some (.str kind.tag) := by
  have htext : ∃ tag, Fields.get? data "type" = some (.str tag) := by
    simp only [decode, decodeObject] at h
    split at h
    · next tag htag => exact ⟨tag, by cases hget : Fields.get? data "type" <;> simp_all⟩
    · cases h
    · cases h
    · split at h
      · cases h
        cases hkind
      · cases h
  obtain ⟨tag, htag⟩ := htext
  rw [htag, ((decode_eq_ok_known htag).1 ⟨h, hkind⟩).1]

theorem valueIn_eq_null (hf : f ∈ kind.schema) (h : valueIn data f = .null) : chosen data f.snake = none := by
  cases hchosen : chosen data f.snake with
  | none => rfl
  | some v =>
    rw [valueIn, hchosen] at h
    exact absurd h ((chosen_eq_some hf data).1 hchosen).1

def written (kind : OperationKind) (data : Fields) : Fields := valuesIn kind data ++ [("type", .str kind.tag)]

theorem written_nodup : ((written kind data).map (·.1)).Nodup := by
  have hkeys : (written kind data).map (·.1) = kind.schema.map (·.snake) ++ ["type"] := by
    simp [written, valuesIn, Function.comp_def]
  rw [hkeys]
  exact kind.schema_nodup

theorem given_written (hf : f ∈ kind.schema) : f.Given (written kind data) v ↔ v ≠ .null ∧ v = valueIn data f := by
  have hhas (v) : f.Has (written kind data) v ↔ v = valueIn data f := by
    constructor
    · rintro ⟨key, hkey, hmem⟩
      rcases mem_append.1 hmem with hmem | hmem
      · obtain ⟨g, hg, heq⟩ := mem_map.1 hmem
        cases heq
        rw [eq_of_hasKey hf hg hkey (.inr rfl)]
      · cases mem_singleton.1 hmem
        exact absurd hkey (kind.schema_type f hf)
    · rintro rfl
      exact ⟨f.snake, .inr rfl, mem_append_left _ (mem_map.2 ⟨f, hf, rfl⟩)⟩
  rw [given_iff_has written_nodup fun v w hv hw => ((hhas v).1 hv).trans ((hhas w).1 hw).symm, hhas]

theorem valueIn_written (hf : f ∈ kind.schema) : valueIn (written kind data) f = valueIn data f := by
  by_cases hnull : valueIn data f = .null
  · have hnone : chosen (written kind data) f.snake = none := by
      rw [Option.eq_none_iff_forall_ne_some]
      intro v hv
      obtain ⟨hne, heq⟩ := (given_written hf).1 ((chosen_eq_some hf _).1 hv)
      exact hne (heq.trans hnull)
    rw [valueIn, valueIn, hnone, valueIn_eq_null hf hnull]
  · rw [valueIn, (chosen_eq_some hf _).2 ((given_written hf).2 ⟨hnull, rfl⟩), Option.getD_some]

theorem wellFormed_written (hform : kind.WellFormed data)
    (hadmitted : ∀ f ∈ kind.schema, f.holds.admits (valueIn data f)) : kind.WellFormed (written kind data) := by
  constructor
  · intro f hf hdefault
    have hsome := (chosen_isSome hf data).2 (hform.complete f hf hdefault)
    have hne : valueIn data f ≠ .null := fun hnull => by
      rw [valueIn_eq_null hf hnull] at hsome
      cases hsome
    have hgiven := (given_written hf).2 ⟨hne, rfl⟩
    exact (chosen_isSome hf _).1 (Option.isSome_iff_exists.2 ⟨_, (chosen_eq_some hf _).2 hgiven⟩)
  · intro f hf v hv
    obtain ⟨-, rfl⟩ := (given_written hf).1 hv
    exact hadmitted f hf

theorem decode_toValue (h : decode (.object data) = .ok op) (hkind : op.kind? = some kind) :
    decode op.toValue = .ok op := by
  obtain ⟨-, hform, -, hfields⟩ := (decode_eq_ok_known (tag_of_decode h hkind)).1 ⟨h, hkind⟩
  have htag : op.tag = kind.tag := by cases op <;> cases hkind <;> rfl
  have hvalue : op.toValue = .object (written kind data) := by
    rw [Operation.toValue, hfields, htag, written]
  have hget : Fields.get? (written kind data) "type" = some (.str kind.tag) :=
    (Fields.get?_eq_some_iff_mem written_nodup).2 (mem_append_right _ (.head _))
  have hvalues : valuesIn kind (written kind data) = valuesIn kind data := map_congr_left fun f hf => by
    rw [valueIn_written hf]
  rw [hvalue]
  refine ((decode_eq_ok_known hget).2 ⟨rfl, ?_, hkind, hfields.trans hvalues.symm⟩).1
  exact wellFormed_written hform (admitted_of_fields hkind hfields)

theorem mem_restyle_type {flip : String → Bool} (h : ("type", v) ∈ data) : ("type", v) ∈ kind.restyle flip data := by
  have hother : kind.otherKey "type" = "type" := by
    have hnone : kind.schema.find? (·.HasKey "type") = none := find?_eq_none.2 fun f hf => by
      simpa using kind.schema_type f hf
    rw [otherKey, hnone]
  refine mem_map.2 ⟨_, h, ?_⟩
  simp only [hother, ite_self]

/-- **Operations and the objects that they are read from.**  An operation that was read is written as an object that is
read as that operation.  If the object that it was read from has each field in one form, the object may have any keys of
fields in their other form, and idle keys besides, anywhere. -/
theorem decode_restyled (h : decode (.object data) = .ok op) (hkind : op.kind? = some kind) :
    decode op.toValue = .ok op ∧
    (kind.OneForm data → ∀ flip added data', data'.Perm (kind.restyle flip data ++ added) → (data'.map (·.1)).Nodup →
      (∀ e ∈ added, kind.Idle (kind.restyle flip data) e) → decode (.object data') = .ok op) := by
  refine ⟨decode_toValue h hkind, fun hform flip added data' hperm hkeys hidle => ?_⟩
  have hnodup := (hperm.map (·.1)).nodup_iff.1 hkeys
  rw [map_append] at hnodup
  have hrestyled := (nodup_append.1 hnodup).1
  have hdata : (data.map (·.1)).Nodup := by
    rw [restyle, map_map] at hrestyled
    exact List.Nodup.of_map (fun key => if flip key then kind.otherKey key else key) (by rwa [map_map])
  have htag := tag_of_decode h hkind
  have htag' : Fields.get? data' "type" = some (.str kind.tag) := by
    rw [Fields.get?_eq_some_iff_mem hdata] at htag
    rw [Fields.get?_eq_some_iff_mem hkeys, hperm.mem_iff]
    exact mem_append_left _ (mem_restyle_type htag)
  rw [decode_known htag rfl] at h
  rw [decode_known htag' rfl]
  refine (decodeKnown_congr fun f hf v => ?_).2 h
  rw [given_append_idle hf hperm hkeys hrestyled hidle, given_restyle hf hrestyled hdata hform]

end Again

/-- Both names in their other form, with null for the class, a key of no field, and a list that the name hides. -/
theorem decode_restyled_rename : ∃ op, decode (.object [("type", .str "rename"), ("oldName", .str "a"),
      ("new_name", .str "b"), ("scope", .bool false)]) = .ok op ∧ op.kind? = some .rename ∧ decode op.toValue = .ok op ∧
    decode (.object [("type", .str "rename"), ("old_name", .str "a"), ("newName", .str "b"), ("scope", .bool false),
      ("note", .bool true), ("new_name", .list []), ("targetClass", .null)]) = .ok op := by
  obtain ⟨data, hdata⟩ : ∃ data : Fields, data
      = [("type", .str "rename"), ("oldName", .str "a"), ("new_name", .str "b"), ("scope", .bool false)] := ⟨_, rfl⟩
  obtain ⟨op, hop⟩ : ∃ op, op = Operation.rename ⟨"a", "b", .bool false, .null⟩ := ⟨_, rfl⟩
  have hread : decode (.object data) = .ok op := by
    rw [hdata, hop]
    rfl
  have hkind : op.kind? = some .rename := by
    rw [hop]
    rfl
  have hform : OperationKind.rename.OneForm data := by
    rw [hdata, OneForm]
    decide
  have hrestyle : OperationKind.rename.restyle (fun _ => true) data = [("type", .str "rename"), ("old_name", .str "a"),
      ("newName", .str "b"), ("scope", .bool false)] := by
    rw [hdata]
    rfl
  obtain ⟨hagain, hrestyled⟩ := decode_restyled hread hkind
  refine ⟨op, hdata ▸ hread, hkind, hagain, hrestyled hform (fun _ => true)
    [("note", .bool true), ("new_name", .list []), ("targetClass", .null)] _ ?_ (by decide) ?_⟩
  · rw [hrestyle]
    exact .refl _
  · rw [hrestyle]
    rintro e (_ | ⟨_, _ | ⟨_, _ | ⟨_, ⟨⟩⟩⟩⟩)
    · exact .foreign (by decide) _
    · exact .shadowed (f := ⟨"new_name", "newName", .text, none⟩) (w := .str "b") (.tail _ (.head _)) (by decide) nofun
        (.tail _ (.tail _ (.head _))) _
    · exact .null (f := ⟨"target_class", "targetClass", .any, some .null⟩) (.tail _ (.tail _ (.tail _ (.head _))))
        (.inl rfl)

end Wire

end SourceBench
