import SourceBench.Proofs.Edit.ParameterLists
import SourceBench.Proofs.Outcome
import SourceBench.Scaffold.TypedName

/-!
# Typed names are read as they were written

An entry has a name, a mark if it may be left out, a colon and a type, with any white space around them
(`Field.Written`).  The first colon parts the two, since names have none, so each entry is read by itself
(`read_written`).  In a text the commas part the entries, and blank ones are passed over (`Listed.read_parts`).
-/
namespace SourceBench.TypedName

open List Text
open Parameters (Trimmed)

variable {es : List (List Char)}

theorem not_mem_blank {c : Char} {e : List Char} (h : ∀ x ∈ e, isSpace x) (hc : isSpace c = false) : c ∉ e :=
  fun hmem => Bool.noConfusion (hc.symm.trans (h c hmem))

/-- A name with its type that can be written as an entry. -/
structure Field where
  name : List Char
  type : List Char
  isOptional : Bool
  name_ne_nil : name ≠ []
  name_plain : ∀ c ∈ name, c ≠ ':' ∧ c ≠ ',' ∧ c ≠ '?' ∧ isSpace c = false
  type_trimmed : Trimmed type
  type_plain : ',' ∉ type

namespace Field

def typedName (f : Field) : TypedName := ⟨.str (String.ofList f.name), .str (String.ofList f.type), f.isOptional⟩

def label (f : Field) : List Char := f.name ++ if f.isOptional then ['?'] else []

inductive Written (f : Field) : List Char → Prop where
  | mk {a b c d : List Char} (ha : ∀ x ∈ a, isSpace x = true) (hb : ∀ x ∈ b, isSpace x = true)
      (hc : ∀ x ∈ c, isSpace x = true) (hd : ∀ x ∈ d, isSpace x = true) :
      Written f (a ++ f.label ++ b ++ ':' :: (c ++ f.type ++ d))

/-! ## Single entries -/

variable {f : Field} {e : List Char}

theorem label_plain (f : Field) : ∀ c ∈ f.label, c ≠ ':' ∧ c ≠ ',' ∧ isSpace c = false := by
  intro c hc
  rcases mem_append.1 hc with hc | hc
  · obtain ⟨hcolon, hcomma, -, hspace⟩ := f.name_plain c hc
    exact ⟨hcolon, hcomma, hspace⟩
  · split at hc
    · rw [mem_singleton.1 hc]
      decide
    · cases hc

theorem label_trimmed (f : Field) : Trimmed f.label where
  ne_nil h := f.name_ne_nil (append_eq_nil_iff.1 h).1
  head c hc := (f.label_plain c (mem_of_mem_head? hc)).2.2
  last c hc := (f.label_plain c (mem_of_getLast? hc)).2.2

theorem getLast?_name (f : Field) : (f.name.getLast? == some '?') = false := by
  rw [beq_eq_false_iff_ne]
  exact fun h => (f.name_plain '?' (mem_of_getLast? h)).2.2.1 rfl

theorem dropMarks_name (f : Field) : dropMarks f.name = f.name := by
  refine rdropWhile_eq_self_iff.2 fun hne hlast => ?_
  exact (f.name_plain _ (getLast_mem hne)).2.2.1 (beq_iff_eq.1 hlast)

theorem read_label (f : Field) : dropMarks f.label = f.name ∧ (f.label.getLast? == some '?') = f.isOptional := by
  unfold label
  cases f.isOptional with
  | false =>
    rw [if_neg (by decide), append_nil]
    exact ⟨f.dropMarks_name, f.getLast?_name⟩
  | true =>
    rw [if_pos rfl, getLast?_concat]
    exact ⟨(rdropWhile_concat_pos (· == '?') f.name '?' rfl).trans f.dropMarks_name, rfl⟩

theorem ofText_written (h : f.Written e) : ofText e = f.typedName := by
  obtain ⟨ha, hb, hc, hd⟩ := h
  rename_i a b c d
  have hcolon : ':' ∉ a ++ f.label ++ b := by
    simp only [mem_append, not_or]
    exact ⟨⟨not_mem_blank ha rfl, fun h => (f.label_plain _ h).1 rfl⟩, not_mem_blank hb rfl⟩
  have hfront : ∀ x ∈ a ++ f.label ++ b, (x != ':') := fun x hx => bne_iff_ne.2 (by rintro rfl; exact hcolon hx)
  have hname : (a ++ f.label ++ b ++ ':' :: (c ++ f.type ++ d)).takeWhile (· != ':') = a ++ f.label ++ b := by
    rw [takeWhile_append_of_pos hfront, takeWhile_cons_of_neg (by decide), append_nil]
  have htype : (a ++ f.label ++ b ++ ':' :: (c ++ f.type ++ d)).dropWhile (· != ':') = ':' :: (c ++ f.type ++ d) := by
    rw [dropWhile_append_of_pos hfront, dropWhile_cons_of_neg (by decide)]
  simp only [ofText, hname, htype, drop_one, tail_cons, f.label_trimmed.trim_padded ha hb,
    f.type_trimmed.trim_padded hc hd, f.read_label]
  rfl

theorem truthy_typedName (f : Field) : (f.typedName.name.truthy && f.typedName.type.truthy) := by
  simp [typedName, Value.truthy, f.name_ne_nil, f.type_trimmed.ne_nil]

theorem read_written (h : f.Written e) : read (.str (String.ofList e)) = .ok f.typedName := by
  have hitem : ofItem (.str (String.ofList e)) = f.typedName := by
    rw [ofItem]
    · exact (congrArg ofText String.toList_ofList).trans (ofText_written h)
    · exact nofun
  rw [read, hitem, if_pos f.truthy_typedName]

theorem Written.not_mem_comma (h : f.Written e) : ',' ∉ e := by
  obtain ⟨ha, hb, hc, hd⟩ := h
  simp only [mem_append, mem_cons, not_or]
  exact ⟨⟨⟨not_mem_blank ha rfl, fun h => (f.label_plain _ h).2.1 rfl⟩, not_mem_blank hb rfl⟩, by decide,
    ⟨not_mem_blank hc rfl, f.type_plain⟩, not_mem_blank hd rfl⟩

theorem Written.trim_ne_nil (h : f.Written e) : trim e ≠ [] := by
  intro hnil
  obtain ⟨ha, hb, hc, hd⟩ := h
  exact not_mem_blank (c := ':') (trim_eq_nil.1 hnil) rfl (by simp)

end Field

/-! ## Lists of entries -/

/-- Entries for fields, with blank ones anywhere between them. -/
inductive Listed : List Field → List (List Char) → Prop where
  | nil : Listed [] []
  | blank {e : List Char} {fs : List Field} {es : List (List Char)} (he : ∀ c ∈ e, isSpace c = true)
      (h : Listed fs es) :
    Listed fs (e :: es)
  | entry {f : Field} {e : List Char} {fs : List Field} {es : List (List Char)} (he : f.Written e) (h : Listed fs es) :
    Listed (f :: fs) (e :: es)

theorem Listed.not_mem_comma {fs : List Field} (h : Listed fs es) : ∀ e ∈ es, ',' ∉ e := by
  induction h with
  | nil => exact nofun
  | blank he _ ih => exact forall_mem_cons.2 ⟨not_mem_blank he rfl, ih⟩
  | entry he _ ih => exact forall_mem_cons.2 ⟨he.not_mem_comma, ih⟩

theorem Listed.read_parts {fs : List Field} (h : Listed fs es) :
    (es.filter fun p => !(trim p).isEmpty).mapM (fun p => read (.str (String.ofList p)))
      = .ok (fs.map Field.typedName) := by
  induction h with
  | nil => rfl
  | blank he _ ih => rwa [filter_cons_of_neg (by rw [trim_eq_nil.2 he]; decide)]
  | entry he _ ih =>
    rw [filter_cons_of_pos (by simpa using he.trim_ne_nil), mapM_cons, Field.read_written he, ih]
    rfl

/-- An item of a list that stands for a field: a text that is its entry, or an object. -/
inductive Field.Given (f : Field) : Value → Prop where
  | text {e : List Char} (h : f.Written e) : Given f (.str (String.ofList e))
  | object {fs : Fields} (hname : Fields.get? fs "name" = some (.str (String.ofList f.name)))
      (htype : Fields.get? fs "type" = some (.str (String.ofList f.type)))
      (hoptional : ((Fields.get? fs "optional").any Value.truthy) = f.isOptional) : Given f (.object fs)

theorem Field.read_given {f : Field} {v : Value} (h : f.Given v) : read v = .ok f.typedName := by
  cases h with
  | text h => exact read_written h
  | @object fs hname htype hoptional =>
    have hitem : ofItem (.object fs) = f.typedName := by
      rw [ofItem, hname, htype, typedName, ← hoptional]
      cases Fields.get? fs "optional" <;> rfl
    rw [read, hitem, if_pos f.truthy_typedName]

/-- **Fields come back from what was written for them**: from a text with commas between their entries and blank entries
anywhere, and from a list of texts and objects. -/
theorem readAll_fields (fs : List Field) :
    (∀ es, Listed fs es → readAll (.str (String.ofList (join [','] es))) = .ok (fs.map Field.typedName)) ∧
      ∀ vs, Forall₂ Field.Given fs vs → readAll (.list vs) = .ok (fs.map Field.typedName) := by
  constructor
  · intro es h
    have hsplit : Text.splitOn ',' (join [','] es) = es ∨ es = [] := by
      by_cases hne : es = []
      · exact .inr hne
      · exact .inl (splitOn_join hne h.not_mem_comma)
    rcases hsplit with hsplit | rfl
    · rw [readAll, String.toList_ofList, commaParts, hsplit]
      exact h.read_parts
    · cases h
      rfl
  · intro vs h
    refine mapM_eq_ok_iff.2 ?_
    induction h with
    | nil => exact .nil
    | cons hv _ ih => exact .cons (Field.read_given hv) ih

def idField : Field :=
  ⟨"id".toList, "string".toList, false, by decide, by simp; decide,
    ⟨by decide, by rintro _ ⟨⟩; rfl, by rintro _ ⟨⟩; rfl⟩, by decide⟩

def pickField : Field :=
  ⟨"pick".toList, "(a: b) => c?".toList, true, by decide, by simp; decide,
    ⟨by decide, by rintro _ ⟨⟩; rfl, by rintro _ ⟨⟩; rfl⟩, by decide⟩

theorem readAll_fields_mixed :
    readAll (.str ",id :string, \t,\u00a0pick?: (a: b) => c?\n") = .ok [idField.typedName, pickField.typedName] ∧
      readAll (.list [.str " id: string ", .object [("type", .str "(a: b) => c?"), ("optional", .int 1),
        ("name", .str "pick")]])
        = .ok [idField.typedName, pickField.typedName] := by
  obtain ⟨htext, hlist⟩ := readAll_fields [idField, pickField]
  constructor
  · refine htext [[], "id :string".toList, " \t".toList, "\u00a0pick?: (a: b) => c?\n".toList] (.blank nofun (.entry ?_
      (.blank (all_eq_true.1 rfl) (.entry ?_ .nil))))
    · exact .mk (a := []) (b := [' ']) (c := []) (d := [])
        (all_eq_true.1 rfl) (all_eq_true.1 rfl) (all_eq_true.1 rfl) (all_eq_true.1 rfl)
    · exact .mk (a := ['\u00a0']) (b := []) (c := [' ']) (d := ['\n'])
        (all_eq_true.1 rfl) (all_eq_true.1 rfl) (all_eq_true.1 rfl) (all_eq_true.1 rfl)
  · refine hlist _ (.cons (.text ?_) (.cons (.object rfl rfl rfl) .nil))
    exact .mk (a := [' ']) (b := []) (c := [' ']) (d := [' '])
      (all_eq_true.1 rfl) (all_eq_true.1 rfl) (all_eq_true.1 rfl) (all_eq_true.1 rfl)

end SourceBench.TypedName
