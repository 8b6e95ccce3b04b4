import SourceBench.Proofs.Edit.ImportSwap
import SourceBench.Proofs.Edit.Refusal

/-!
# Added imports commute

The imports of a list with different modules may be added in any order: the source afterwards is the same, and the same
operations are refused (`Transformation.imports_commute`).  One step is the exchange of two neighbours (`effect_swap`),
and a permutation is made of such steps (`effects_perm`).

What the syntax has to do for it is `ReadsBack`: it reads each change as the statement that the change speaks of.
-/
namespace SourceBench

open List Operation Imports Utf8 Option String

variable {op x : AddImport} {o : Outcome} {default : Value} {t : Transformation}

def Outcome.refusal? : Outcome → Option Refusal
  | done _ => none
  | refused r => some r

def refusals (os : List (Operation × Outcome)) : List (Operation × Refusal) :=
  os.filterMap fun p => p.2.refusal?.map (p.1, ·)

theorem refusals_cons (p : Operation × Outcome) (os : List (Operation × Outcome)) :
    refusals (p :: os) = (p.2.refusal?.map (p.1, ·)).toList ++ refusals os := by
  unfold refusals
  rw [filterMap_cons]
  cases p.2.refusal? <;> rfl

theorem Transformation.failures_eq (t : Transformation) : t.failures = refusals t.outcomes := by
  unfold failures refusals
  refine filterMap_congr fun p _ => ?_
  obtain ⟨op, o⟩ := p
  cases o <;> rfl

namespace Imports

/-! ## One exchange -/

/-- The syntax reads what an operation changes as the statement that it speaks of: the table after the change is the one
before it with that statement added or changed. -/
def ReadsBack [Syntax.Recovery] (bytes : Bytes) (op : AddImport) : Prop :=
  ∀ T e, table? bytes = some T → T.ask op = .ok (some e) → ∃ T', table? (e.on bytes) = some T' ∧ T.Gains op e T'

variable {bytes : Bytes} {xs ys : List AddImport}

theorem readsBack_of_gainsAt [Syntax.Recovery] (e : Change) (T T' : Table) (l : List Standing) (own : Option Standing)
    (r : List Standing) (mine : Standing) (hT : table? bytes = some T) (he : T.ask op = .ok (some e))
    (hT' : table? (e.on bytes) = some T') (h : T.GainsAt op e T' l own r mine) : ReadsBack bytes op := by
  intro T₂ e₂ hT₂ he₂
  obtain rfl : T = T₂ := some.inj (hT.symm.trans hT₂)
  obtain rfl : e = e₂ := some.inj (Except.ok.inj (he.symm.trans he₂))
  exact ⟨T', hT', l, own, r, mine, h⟩

theorem exists_table_of_effect [Syntax.SoundRecovery] {x : Bytes × Outcome} (h : (addImport op).effect bytes = .ok x) :
    ∃ T, table? bytes = some T := by
  rw [effect_addImport] at h
  cases hT : table? bytes with
  | none => rw [hT] at h; cases h
  | some T => exact ⟨T, rfl⟩

theorem settle_quiet {a : Except PlanError (Option Change)} (hquiet : ∀ e, a ≠ .ok (some e)) {bytes' : Bytes}
    (h : settle bytes a = .ok (bytes', o)) : bytes' = bytes ∧ ∀ b, settle b a = .ok (b, o) := by
  cases a with
  | ok c =>
    cases c with
    | some e => exact absurd rfl (hquiet e)
    | none =>
      cases h
      exact ⟨rfl, fun _ => rfl⟩
  | error e =>
    cases e with
    | refused r =>
      cases h
      exact ⟨rfl, fun _ => rfl⟩
    | wrongType => cases h
    | notText => cases h

/-- **Two neighbours may change places**: the bytes after both are the same, and so is what is refused. -/
theorem effect_swap [Syntax.SoundRecovery] {y : AddImport} {b₁ b₂ : Bytes} {o₁ o₂ : Outcome} (hne : x.source ≠ y.source)
    (hx : ReadsBack bytes x) (hy : ReadsBack bytes y) (h₁ : (addImport x).effect bytes = .ok (b₁, o₁))
    (h₂ : (addImport y).effect b₁ = .ok (b₂, o₂)) : ∃ b₁' o₁' o₂', (addImport y).effect bytes = .ok (b₁', o₂') ∧
      (addImport x).effect b₁' = .ok (b₂, o₁') ∧ o₁'.refusal? = o₁.refusal? ∧ o₂'.refusal? = o₂.refusal? := by
  obtain ⟨T, hT⟩ := exists_table_of_effect h₁
  rw [effect_of_table hT] at h₁
  by_cases hqx : ∀ e, T.ask x ≠ .ok (some e)
  · -- The first changes nothing, so the second meets the bytes that it would meet without it.
    obtain ⟨rfl, hsame⟩ := settle_quiet hqx h₁
    refine ⟨b₂, o₁, o₂, h₂, ?_, rfl, rfl⟩
    rw [effect_of_table hT] at h₂
    by_cases hqy : ∀ f, T.ask y ≠ .ok (some f)
    · obtain ⟨rfl, -⟩ := settle_quiet hqy h₂
      rw [effect_of_table hT, hsame]
    · push Not at hqy
      obtain ⟨f, hf⟩ := hqy
      obtain ⟨T'', hT'', hgains⟩ := hy T f hT hf
      rw [hf] at h₂
      cases h₂
      change (addImport x).effect (f.on b₁) = _
      rw [effect_of_table hT'', ask_quiet hne.symm hgains hqx, hsame]
      rfl
  · push Not at hqx
    obtain ⟨e, he⟩ := hqx
    obtain ⟨T', hT', hgains⟩ := hx T e hT he
    have h₁' := h₁
    rw [he] at h₁
    cases h₁
    change (addImport y).effect (e.on bytes) = _ at h₂
    rw [effect_of_table hT'] at h₂
    by_cases hqy : ∀ f, T.ask y ≠ .ok (some f)
    · rw [ask_quiet hne hgains hqy] at h₂
      obtain ⟨rfl, hsame⟩ := settle_quiet hqy h₂
      exact ⟨bytes, _, o₂, by rw [effect_of_table hT, hsame], by rw [effect_of_table hT, h₁']; rfl, rfl, rfl⟩
    · push Not at hqy
      obtain ⟨f, hf⟩ := hqy
      obtain ⟨T'', hT'', hgains'⟩ := hy T f hT hf
      obtain ⟨e', f', hf', he', heq⟩ := ask_swap (table?_fits hT) hne he hf hgains hgains'
      rw [hf'] at h₂
      cases h₂
      refine ⟨f.on bytes, .done (planOf (some e')), .done (planOf (some f)), ?_, ?_, rfl, rfl⟩
      · rw [effect_of_table hT, hf]
        rfl
      · rw [effect_of_table hT'', he']
        exact congrArg (fun b => Except.ok (b, _)) heq.symm

/-! ## All orders -/

/-- The syntax reads every change back, whichever operations of the list were carried out before it. -/
def ReadsAllBack [Syntax.Recovery] (bytes : Bytes) (xs : List AddImport) : Prop :=
  ∀ pre op, (∀ p ∈ pre, p ∈ xs) → op ∈ xs → ((pre ++ [op]).map (·.source)).Nodup →
    ∀ b os, effects (pre.map .addImport) bytes = .ok (b, os) → ReadsBack b op

theorem ReadsAllBack.of_perm [Syntax.Recovery] (h : ReadsAllBack bytes xs) (hp : xs.Perm ys) : ReadsAllBack bytes ys :=
  fun pre op hpre hop => h pre op (fun p hp' => hp.mem_iff.2 (hpre p hp')) (hp.mem_iff.2 hop)

theorem ReadsAllBack.head [Syntax.Recovery] (h : ReadsAllBack bytes xs) (hx : x ∈ xs) : ReadsBack bytes x :=
  h [] x (by simp) hx (by simp) bytes [] rfl

theorem ReadsAllBack.tail [Syntax.Recovery] {b : Bytes} (h : ReadsAllBack bytes (x :: xs))
    (hx : x.source ∉ xs.map (·.source)) (he : (addImport x).effect bytes = .ok (b, o)) : ReadsAllBack b xs := by
  intro pre op hpre hop hnodup b' os hes
  refine h (x :: pre) op ?_ (mem_cons_of_mem x hop) ?_ b' _ (effects_cons_eq_ok.2 ⟨b, o, os, he, hes, rfl⟩)
  · intro p hp
    rcases mem_cons.1 hp with rfl | hp
    · exact mem_cons_self
    · exact mem_cons_of_mem x (hpre p hp)
  · refine nodup_cons.2 ⟨fun hmem => hx ?_, hnodup⟩
    obtain ⟨p, hp, hpx⟩ := mem_map.1 hmem
    refine mem_map.2 ⟨p, ?_, hpx⟩
    rcases mem_append.1 hp with hp | hp
    · exact hpre p hp
    · rw [mem_singleton.1 hp]
      exact hop

/-- **Imports of different modules may be added in any order.** -/
theorem effects_perm [Syntax.SoundRecovery] (hp : xs.Perm ys) : ∀ {bytes final : Bytes}
    {os : List (Operation × Outcome)}, (xs.map (·.source)).Nodup → ReadsAllBack bytes xs →
      effects (xs.map .addImport) bytes = .ok (final, os) →
      ∃ os', effects (ys.map .addImport) bytes = .ok (final, os') ∧ (refusals os').Perm (refusals os) := by
  induction hp with
  | nil => exact fun _ _ h => ⟨_, h, .refl _⟩
  | @cons x xs ys _ ih =>
    intro bytes final os hnodup hread h
    obtain ⟨hx, hnodup⟩ := nodup_cons.1 hnodup
    obtain ⟨b, o, os₁, he, hes, rfl⟩ := effects_cons_eq_ok.1 h
    obtain ⟨os₂, hes₂, hperm⟩ := ih hnodup (hread.tail hx he) hes
    refine ⟨_, effects_cons_eq_ok.2 ⟨b, o, os₂, he, hes₂, rfl⟩, ?_⟩
    rw [refusals_cons, refusals_cons]
    exact hperm.append_left _
  | swap x y zs =>
    intro bytes final os hnodup hread h
    obtain ⟨b₁, o₁, os₁, he₁, hes₁, rfl⟩ := effects_cons_eq_ok.1 h
    obtain ⟨b₂, o₂, os₂, he₂, hes₂, rfl⟩ := effects_cons_eq_ok.1 hes₁
    have hne : y.source ≠ x.source := fun heq => (nodup_cons.1 hnodup).1 (by simp [heq])
    obtain ⟨b₁', o₁', o₂', he₁', he₂', hr₁, hr₂⟩ :=
      effect_swap hne (hread.head (by simp)) (hread.head (by simp)) he₁ he₂
    refine ⟨_, effects_cons_eq_ok.2 ⟨b₁', o₂', _, he₁',
      effects_cons_eq_ok.2 ⟨b₂, o₁', os₂, he₂', hes₂, rfl⟩, rfl⟩, ?_⟩
    simp only [refusals_cons, hr₁, hr₂]
    exact perm_append_comm_assoc _ _ _
  | trans hp₁ _ ih₁ ih₂ =>
    intro bytes final os hnodup hread h
    obtain ⟨os₁, hes₁, hperm₁⟩ := ih₁ hnodup hread h
    obtain ⟨os₂, hes₂, hperm₂⟩ := ih₂ ((hp₁.map _).nodup_iff.1 hnodup) (hread.of_perm hp₁) hes₁
    exact ⟨os₂, hes₂, hperm₂.trans hperm₁⟩

/-! ## Operations of the right types -/

end Imports

/-- The names of the operation are texts, and so is its default name if it has one. -/
structure AddImport.Typed (op : AddImport) : Prop where
  names : ∀ v ∈ op.names, ∃ s, v = .str s
  defaultName : op.defaultName.truthy = true → ∃ s, op.defaultName = .str s

namespace Imports

theorem mapM_textOnly : ∀ {vs : List Value}, (∀ v ∈ vs, ∃ s, v = .str s) → ∃ names, vs.mapM textOnly = .ok names
  | [], _ => ⟨[], rfl⟩
  | v :: vs, h => by
    obtain ⟨s, rfl⟩ := h v mem_cons_self
    obtain ⟨names, hnames⟩ := mapM_textOnly fun w hw => h w (mem_cons_of_mem _ hw)
    refine ⟨s :: names, ?_⟩
    rw [mapM_cons, hnames]
    rfl

theorem writtenNames_eq_ok {vs : List Value} (h : ∀ v ∈ vs, ∃ s, v = .str s) :
    ∃ names, writtenNames vs = .ok names := by
  unfold writtenNames
  split
  · exact mapM_textOnly h
  · exact ⟨_, rfl⟩

variable {names : List Value}

theorem ofValues_eq_ok (source namespace_ typeOnly : Value) (hnames : ∀ v ∈ names, ∃ s, v = .str s)
    (hdefault : default.truthy → ∃ s, default = .str s) :
    ∃ statement, ImportStatement.ofValues source (.list names) default namespace_ typeOnly = .ok statement := by
  obtain ⟨written, hwritten⟩ := writtenNames_eq_ok hnames
  have hin : namesIn (.list names) = .ok names := by
    cases names <;> rfl
  unfold ImportStatement.ofValues
  rw [hin]
  cases hd : default.truthy with
  | true =>
    obtain ⟨d, rfl⟩ := hdefault hd
    simp only [bind, Except.bind, if_true, textOnly, hwritten]
    exact ⟨_, rfl⟩
  | false =>
    simp only [bind, Except.bind, Bool.false_eq_true, if_false, hwritten]
    cases namespace_.truthy <;> exact ⟨_, rfl⟩

theorem statementText_eq_ok (source : String) (namespace_ typeOnly : Value)
    (hnames : ∀ v ∈ names, ∃ s, v = .str s) (hdefault : default.truthy → ∃ s, default = .str s) :
    ∃ text, statementText source names default namespace_ typeOnly = .ok text := by
  obtain ⟨statement, hstatement⟩ := ofValues_eq_ok (.str source) namespace_ typeOnly hnames hdefault
  unfold statementText
  rw [hstatement]
  exact ⟨_, rfl⟩

theorem mem_of_mem_newAmong : ∀ {known vs : List Value} {v : Value}, v ∈ newAmong known vs → v ∈ vs
  | _, [], _, h => h
  | known, w :: vs, v, h => by
    unfold newAmong at h
    split at h
    · exact mem_cons_of_mem w (mem_of_mem_newAmong h)
    · rcases mem_cons.1 h with rfl | h
      · exact mem_cons_self
      · exact mem_cons_of_mem w (mem_of_mem_newAmong h)

theorem extension_typed (h : op.Typed) (σ : Standing) :
    (∃ c, σ.extension op = .ok c) ∨ ∃ r, σ.extension op = .error (.refused r) := by
  unfold Standing.extension
  cases σ.record with
  | none => exact .inl ⟨none, rfl⟩
  | some record =>
    have hfresh : ∀ v ∈ newAmong (record.names.map .str) op.names, ∃ s, v = .str s :=
      fun v hv => h.names v (mem_of_mem_newAmong hv)
    obtain ⟨names, hnames⟩ := mapM_textOnly hfresh
    have hcomma : commaList (newAmong (record.names.map .str) op.names) =
        .ok (Text.join ", ".toList (names.map (·.toList))) := by
      rw [commaList, hnames]
    have hnull : Value.null.truthy → ∃ s, Value.null = .str s := by simp [Value.truthy]
    obtain ⟨text, htext⟩ := statementText_eq_ok op.source .null (.bool record.isTypeOnly) hfresh hnull
    simp only [hcomma, htext]
    split
    · exact .inl ⟨none, rfl⟩
    split
    · exact .inr ⟨_, rfl⟩
    · cases σ.room <;> exact .inl ⟨_, rfl⟩

theorem effect_typed [Syntax.SoundRecovery] (h : op.Typed) {bytes : Bytes} {T : Table} (hT : table? bytes = some T)
    (hread : ReadsBack bytes op) :
    ∃ b o T', (addImport op).effect bytes = .ok (b, o) ∧ table? b = some T' := by
  rw [effect_of_table hT]
  have hanswer : (∃ c, T.ask op = .ok c) ∨ ∃ r, T.ask op = .error (.refused r) := by
    unfold Table.ask
    cases T.standing.find? (·.source == op.source) with
    | some σ =>
      rcases extension_typed h σ with ⟨c, hc⟩ | ⟨r, hr⟩
      · exact .inl ⟨c.map σ.change, by simp only [hc]; rfl⟩
      · exact .inr ⟨r, by simp only [hr]; rfl⟩
    | none =>
      obtain ⟨text, htext⟩ := statementText_eq_ok op.source op.namespaceName op.isTypeOnly h.names h.defaultName
      exact .inl ⟨_, by simp only [htext]; rfl⟩
  rcases hanswer with ⟨c, hc⟩ | ⟨r, hr⟩
  · rw [hc]
    cases c with
    | none => exact ⟨bytes, _, T, rfl, hT⟩
    | some e =>
      obtain ⟨T', hT', -⟩ := hread T e hT hc
      exact ⟨e.on bytes, _, T', rfl, hT'⟩
  · rw [hr]
    exact ⟨bytes, _, T, rfl, hT⟩

theorem effects_typed [Syntax.SoundRecovery] :
    ∀ {xs : List AddImport} {bytes : Bytes} {T : Table}, (∀ op ∈ xs, op.Typed) →
    (xs.map (·.source)).Nodup → ReadsAllBack bytes xs → table? bytes = some T →
      ∃ final os, effects (xs.map .addImport) bytes = .ok (final, os)
  | [], _, _, _, _, _, _ => ⟨_, [], rfl⟩
  | x :: xs, _, T, htyped, hnodup, hread, hT => by
    obtain ⟨hx, hnodup⟩ := nodup_cons.1 hnodup
    obtain ⟨b, o, T', he, hT'⟩ := effect_typed (htyped x mem_cons_self) hT (hread.head mem_cons_self)
    obtain ⟨final, os, hes⟩ := effects_typed (fun op hop => htyped op (mem_cons_of_mem x hop)) hnodup
      (hread.tail hx he) hT'
    exact ⟨final, _, effects_cons_eq_ok.2 ⟨b, o, os, he, hes, rfl⟩⟩

end Imports

/-! ## Runs -/

namespace Transformation

/-- Whichever of the imports were added to a source before it, the syntax reads the next one back. -/
def ReadsImportsBack [Syntax.Recovery] (source : List Char) (xs : List AddImport) : Prop :=
  ∀ pre op, (∀ p ∈ pre, p ∈ xs) → op ∈ xs → ((pre ++ [op]).map (·.source)).Nodup →
    ∀ t, run source (pre.map .addImport) = .ok t → ReadsBack t.document.bytes op

variable {source : List Char} {xs : List AddImport}

theorem ReadsImportsBack.readsAllBack [Syntax.Recovery] (h : ReadsImportsBack source xs) :
    ReadsAllBack (encode source) xs := by
  intro pre op hpre hop hnodup b os hes
  obtain ⟨t, ht, rfl, -⟩ := run_of_effects hes
  exact h pre op hpre hop hnodup t ht

theorem run_perm [Syntax.SoundRecovery] {ys : List AddImport} (hp : xs.Perm ys) (hnodup : (xs.map (·.source)).Nodup)
    (hread : ReadsAllBack (encode source) xs) (h : run source (xs.map .addImport) = .ok t) :
    ∃ u, run source (ys.map .addImport) = .ok u ∧ u.source? = t.source? ∧ u.failures.Perm t.failures := by
  obtain ⟨os, hes, hperm⟩ := effects_perm hp hnodup hread (effects_of_run h)
  obtain ⟨u, hu, hbytes, rfl⟩ := run_of_effects hes
  refine ⟨u, hu, ?_, ?_⟩
  · rw [source?, source?, Document.text?, Document.text?, hbytes]
  · rw [failures_eq, failures_eq]
    exact hperm

/-- **Imports of different modules may be added in any order.**  Where one order comes to an end, every other one does,
with the same source and the same operations refused; and every order comes to an end where names are texts. -/
theorem imports_commute [Syntax.SoundRecovery] (source : List Char) (xs ys : List AddImport) (hperm : xs.Perm ys)
    (hdistinct : (xs.map (·.source)).Nodup) (hread : ReadsImportsBack source xs) :
    (∀ t, run source (xs.map .addImport) = .ok t →
      ∃ u, run source (ys.map .addImport) = .ok u ∧ u.source? = t.source? ∧ u.failures.Perm t.failures) ∧
    (∀ u, run source (ys.map .addImport) = .ok u → ∃ t, run source (xs.map .addImport) = .ok t) ∧
    ((∀ op ∈ xs, op.Typed) → ∃ t, run source (xs.map .addImport) = .ok t) := by
  have hall := hread.readsAllBack
  refine ⟨fun t ht => run_perm hperm hdistinct hall ht, fun u hu => ?_, fun htyped => ?_⟩
  · have hdistinct' := (hperm.map (·.source)).nodup_iff.1 hdistinct
    obtain ⟨t, ht, -⟩ := run_perm hperm.symm hdistinct' (hall.of_perm hperm) hu
    exact ⟨t, ht⟩
  · have htable : Imports.table? (Utf8.encode source)
        = some (Imports.tableOf (Utf8.encode source) (.ofText source)) := by
      rw [Imports.table?, Utf8.decode_encode]
      rfl
    obtain ⟨final, os, hes⟩ := Imports.effects_typed htyped hdistinct hall htable
    obtain ⟨t, ht, -⟩ := run_of_effects hes
    exact ⟨t, ht⟩

/-! ### A new import and one that joins a statement -/

attribute [local instance] Syntax.SoundRecovery.bare

def plainSource : List Char := "// c\nimport \x7b b \x7d from 'b';\n".toList

def joinedSource : List Char := "// c\nimport \x7b b, c \x7d from 'b';\n".toList

def addedSource : List Char := "// c\nimport \x7b a \x7d from 'a';\nimport \x7b b \x7d from 'b';\n".toList

def bothSource : List Char := "// c\nimport \x7b a \x7d from 'a';\nimport \x7b b, c \x7d from 'b';\n".toList

def namesOnly (source name : String) : AddImport := ⟨source, [.str name], .null, .null, .bool false⟩

def entryOf (start length : Nat) (source : String) (names : List String) (place : Nat) : Standing :=
  ⟨start, length, source, some ⟨source, names, none, none, false⟩, .behindNames place⟩

def tableBelowComment (standing : List Standing) : Table := ⟨standing, ⟨4, 4, ['\n', '\n'], []⟩⟩

def addingChange : Change := ⟨5, 5, "import \x7b a \x7d from 'a';\n".toList, 5, 22⟩

def joiningChange (start : Nat) : Change := ⟨start + 10, start + 10, ", c".toList, start, 25⟩

theorem plainSource_evaluated : (table? (encode plainSource) = some (tableBelowComment [entryOf 5 22 "b" ["b"] 10]) ∧
      table? (encode joinedSource) = some (tableBelowComment [entryOf 5 25 "b" ["b", "c"] 13]) ∧
        table? (encode addedSource)
        = some (tableBelowComment [entryOf 5 22 "a" ["a"] 10, entryOf 28 22 "b" ["b"] 10]) ∧ table? (encode bothSource)
        = some (tableBelowComment [entryOf 5 22 "a" ["a"] 10, entryOf 28 25 "b" ["b", "c"] 13])) ∧
    (run plainSource [.addImport (namesOnly "a" "a")]).toOption.map (·.document.bytes) = some (encode addedSource) ∧
    (run plainSource [.addImport (namesOnly "b" "c")]).toOption.map (·.document.bytes) = some (encode joinedSource) ∧
    (run plainSource [.addImport (namesOnly "a" "a"), .addImport (namesOnly "b" "c")]).toOption.map (·.source?)
      = some (some bothSource) := by
  rw [show plainSource = _ from toList_ofList, show joinedSource = _ from toList_ofList,
    show addedSource = _ from toList_ofList, show bothSource = _ from toList_ofList]
  decide +kernel

theorem changes_evaluated : addingChange.on (encode plainSource) = encode addedSource ∧
    (joiningChange 5).on (encode plainSource) = encode joinedSource ∧
    addingChange.on (encode joinedSource) = encode bothSource ∧
    (joiningChange 28).on (encode addedSource) = encode bothSource := by
  rw [show plainSource = _ from toList_ofList, show joinedSource = _ from toList_ofList,
    show addedSource = _ from toList_ofList, show bothSource = _ from toList_ofList]
  decide +kernel

theorem plainSource_readsBack : ReadsBack (encode plainSource) (namesOnly "a" "a") ∧
      ReadsBack (encode plainSource) (namesOnly "b" "c") := by
  obtain ⟨⟨hplain, hjoined, hadded, -⟩, -⟩ := plainSource_evaluated
  obtain ⟨hadding, hjoining, -⟩ := changes_evaluated
  constructor
  · rw [← hadding] at hadded
    exact readsBack_of_gainsAt _ _ _ [] none [entryOf 5 22 "b" ["b"] 10] (entryOf 5 22 "a" ["a"] 10) hplain rfl hadded
      (by decide)
  · rw [← hjoining] at hjoined
    exact readsBack_of_gainsAt _ _ _ [] (some (entryOf 5 22 "b" ["b"] 10)) [] (entryOf 5 25 "b" ["b", "c"] 13)
      hplain rfl
      hjoined (by decide)

theorem joinedSource_readsBack : ReadsBack (encode joinedSource) (namesOnly "a" "a") := by
  obtain ⟨⟨-, hjoined, -, hboth⟩, -⟩ := plainSource_evaluated
  rw [← changes_evaluated.2.2.1] at hboth
  exact readsBack_of_gainsAt _ _ _ [] none [entryOf 5 25 "b" ["b", "c"] 13] (entryOf 5 22 "a" ["a"] 10)
    hjoined rfl hboth
    (by decide)

theorem addedSource_readsBack : ReadsBack (encode addedSource) (namesOnly "b" "c") := by
  obtain ⟨⟨-, -, hadded, hboth⟩, -⟩ := plainSource_evaluated
  rw [← changes_evaluated.2.2.2] at hboth
  exact readsBack_of_gainsAt _ _ _ [entryOf 5 22 "a" ["a"] 10] (some (entryOf 28 22 "b" ["b"] 10)) []
    (entryOf 28 25 "b" ["b", "c"] 13) hadded rfl hboth (by decide)

theorem bytes_of_run [Syntax.Recovery] {ops : List Operation} (text : List Char) (ht : run source ops = .ok t)
    (h : (run source ops).toOption.map (·.document.bytes) = some (encode text)) : t.document.bytes = encode text := by
  rw [ht] at h
  exact some.inj h

theorem plainSource_readsImportsBack : ReadsImportsBack plainSource [namesOnly "a" "a", namesOnly "b" "c"] := by
  intro pre op hpre hop hnodup t ht
  simp only [mem_cons, not_mem_nil, or_false] at hpre hop
  rcases pre with _ | ⟨p, _ | ⟨q, pre⟩⟩
  · rw [bytes_of_run plainSource ht rfl]
    rcases hop with rfl | rfl
    · exact plainSource_readsBack.1
    · exact plainSource_readsBack.2
  · rcases hpre p (by simp) with rfl | rfl <;> rcases hop with rfl | rfl
    · exact absurd hnodup (by decide)
    · rw [bytes_of_run addedSource ht plainSource_evaluated.2.1]
      exact addedSource_readsBack
    · rw [bytes_of_run joinedSource ht plainSource_evaluated.2.2.1]
      exact joinedSource_readsBack
    · exact absurd hnodup (by decide)
  · -- Three imports of two modules cannot all be of different ones.
    exfalso
    rcases hpre p (by simp) with rfl | rfl <;> rcases hpre q (by simp) with rfl | rfl <;> rcases hop with rfl | rfl <;>
      simp [namesOnly] at hnodup

theorem imports_commute_joined :
    ∃ t u, run plainSource [.addImport (namesOnly "a" "a"), .addImport (namesOnly "b" "c")] = .ok t ∧
      run plainSource [.addImport (namesOnly "b" "c"), .addImport (namesOnly "a" "a")] = .ok u ∧
      t.source? = some "// c\nimport \x7b a \x7d from 'a';\nimport \x7b b, c \x7d from 'b';\n".toList ∧
      u.source? = t.source? ∧ u.failures.Perm t.failures := by
  obtain ⟨hsame, -, htyped⟩ := imports_commute plainSource [namesOnly "a" "a", namesOnly "b" "c"]
    [namesOnly "b" "c", namesOnly "a" "a"] (.swap _ _ _) (by decide) plainSource_readsImportsBack
  obtain ⟨t, ht⟩ := htyped (by
    intro op hop
    simp only [mem_cons, not_mem_nil, or_false] at hop
    rcases hop with rfl | rfl <;> exact ⟨by simp [namesOnly], by simp [namesOnly, Value.truthy]⟩)
  obtain ⟨u, hu, hsource, hfailures⟩ := hsame t ht
  have hval := plainSource_evaluated.2.2.2
  refine ⟨t, u, ht, hu, ?_, hsource, hfailures⟩
  rw [show run plainSource [.addImport (namesOnly "a" "a"), .addImport (namesOnly "b" "c")] = .ok t from ht] at hval
  exact some.inj hval

end Transformation
end SourceBench
