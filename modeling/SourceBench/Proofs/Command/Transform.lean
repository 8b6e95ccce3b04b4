import SourceBench.Command.Run
import SourceBench.Proofs.Command.Work
import SourceBench.Proofs.Edit.Refusal
import SourceBench.Proofs.Workspace.Growth

/-!
# Transforming files

A command to transform a file stops before it has changed anything, or comes to the point where all its operations have
been run and their text is known; then it puts the text where it is wanted and reports (`ends_runTransform`).

Where no operation does anything, the text that is put in place of the file is the one that was read.  That text has
plain line ends, so it is the file's own just if the file has no carriage return (`inPlace_idle`).
-/
namespace SourceBench

open List Option

variable {source : List Char} {ops : List Operation} {p : Pathname}

/-! ## Operations that do nothing -/

namespace Transformation

/-- The operation at a place in the list is refused, or leaves the text as the ones before it have left it. -/
def idleAt [Syntax.Recovery] (source : List Char) (ops : List Operation) (k : Nat) : Bool :=
  match run source (ops.take k), run source (ops.take (k + 1)) with
  | .ok before, .ok after => after.outcomes.getLast?.any (!·.2.isDone) || after.source? == before.source?
  | _, _ => true

def Idle [Syntax.Recovery] (source : List Char) (ops : List Operation) : Prop :=
  ∀ k < ops.length, idleAt source ops k = true

instance [Syntax.Recovery] (source : List Char) (ops : List Operation) : Decidable (Idle source ops) :=
  inferInstanceAs (Decidable (∀ k < ops.length, idleAt source ops k = true))

theorem Idle.dropLast [Syntax.Recovery] {op : Operation} (h : Idle source (ops ++ [op])) : Idle source ops := by
  intro k hk
  have hidle := h k (by rw [length_append]; omega)
  rwa [idleAt, take_append_of_le_length hk.le, take_append_of_le_length hk] at hidle

theorem source?_of_idle [Syntax.Recovery] {t : Transformation} (hidle : Idle source ops)
    (h : run source ops = .ok t) : t.source? = some source := by
  induction ops using reverseRecOn generalizing t with
  | nil =>
    cases h
    exact Utf8.decode_encode source
  | append_singleton ops op ih =>
    obtain ⟨before, after, o, hbefore, hafter, ho, hrefused⟩ := run_at h
    obtain rfl : after = t := Except.ok.inj (hafter.symm.trans h)
    have hlast := hidle ops.length (by simp)
    rw [idleAt, take_left, take_of_length_le (by simp), hbefore, hafter] at hlast
    have houtcomes : after.outcomes.getLast? = some (op, o) := by
      have hlength := congrArg length (Operation.effects_operations (effects_of_run h))
      rw [length_map, length_append, length_singleton] at hlength
      rw [getLast?_eq_getElem?, hlength, Nat.add_sub_cancel, ho]
    rw [← ih hidle.dropLast hbefore]
    simp only [houtcomes, any_some, Bool.or_eq_true, Bool.not_eq_true', beq_iff_eq] at hlast
    rcases hlast with hdone | hsame
    · rw [source?, source?, Document.text?, Document.text?, hrefused hdone]
    · exact hsame

end Transformation

namespace Command

open Work

variable {w : Workspace}

/-! ## Operations -/

def valuesIn? (s : Store) (p : Pathname) : Option (List Value) :=
  match s.readText p with
  | .error _ => none
  | .ok cs => match Json.parse (String.ofList cs) with
    | none => none
    | some v => match (v.field? "operations").getD v with
      | .list vs => some vs
      | _ => none

def operationsIn? (s : Store) (p : Pathname) : Option (List Operation) :=
  (valuesIn? s p).bind fun vs => (vs.mapM Wire.decodeItem).toOption

theorem keeps_loadOperations (p : Pathname) :
    Keeps w (loadOperations p) (fun vs => valuesIn? w.store p = some vs) (Unread w p) := by
  have hgrave : Unread w p (.exit 2) := .inl Halt.isGrave_exit
  have hfault : ∀ f, Unread w p (.fault f) := fun f => .inl trivial
  refine Keeps.bind (keeps_readSource p) fun cs hread => ?_
  cases hparse : Json.parse (String.ofList cs) with
  | none => exact keeps_refuse _ hfault hgrave
  | some v =>
    dsimp only
    cases hvalue : (v.field? "operations").getD v with
    | list vs => exact Keeps.pure (by simp only [valuesIn?, hread, hparse, hvalue])
    | _ => exact keeps_refuse _ hfault hgrave

theorem keeps_decodeOperations (vs : List Value) :
    Keeps w (decodeOperations vs) (fun ops => vs.mapM Wire.decodeItem = .ok ops) Halt.IsGrave := by
  unfold decodeOperations
  split
  · next ops hops => exact Keeps.pure hops
  · exact Keeps.fail trivial
  · exact keeps_refuse _ (fun f => trivial) Halt.isGrave_exit

theorem keeps_transformStep [Syntax.Recovery] (t : Transformation) (op : Operation) :
    Keeps w (transformStep t op) (fun t' => t.step op = .ok t') Halt.IsGrave := by
  unfold transformStep
  dsimp only
  refine Keeps.optional (keeps_needGrammar _) ?_
  split
  · exact Keeps.fail trivial
  · exact Keeps.fail trivial
  · next t' ht' =>
    have hlast : Keeps w (Pure.pure t') (fun t'' => t.step op = .ok t'') Halt.IsGrave := Keeps.pure ht'
    split
    · exact Keeps.bind (keeps_log _ _ _) fun _ _ => hlast
    · exact Keeps.bind (keeps_log _ _ _) fun _ _ => hlast
    · exact hlast

theorem keeps_transformSteps [Syntax.Recovery] : ∀ (ops : List Operation) (t : Transformation),
    Keeps w (ops.foldlM transformStep t) (fun t' => ops.foldlM Transformation.step t = .ok t') Halt.IsGrave
  | [], t => Keeps.pure rfl
  | op :: ops, t => by
    rw [foldlM_cons]
    refine Keeps.bind (keeps_transformStep t op) fun t₁ hstep => ?_
    refine Keeps.mono (keeps_transformSteps ops t₁) (fun t' h => ?_) fun _ h => h
    rw [foldlM_cons, hstep]
    exact h

/-! ## The command -/

/-- The command has transformed its file: it has read the text and the operations, and run them. -/
structure Transforms [Syntax.Recovery] (s : Store) (r : TransformRequest) (before : List Char) (ops : List Operation)
    (t : Transformation) (after : List Char) : Prop where
  file : s.readText r.file = .ok before
  operations : operationsIn? s r.operations = some ops
  run : Transformation.run before ops = .ok t
  source : t.source? = some after

def Stops (w : Workspace) (r : TransformRequest) (h : Halt) : Prop := Unread w r.file h ∨ Unread w r.operations h

theorem keeps_reportTransformed (r : TransformRequest) (before after : List Char) (t : Transformation) :
    Keeps w (reportTransformed r before after t) (fun _ => t.succeeded)
      (fun h => (∃ f, h = .fault f) ∨ h = .exit 1 ∧ t.succeeded = false) := by
  have hlast : Keeps w (do
      complain (number t.applied ++ " applied, " ++ number t.failures.length ++ " failed")
      if !t.succeeded then exit 1) (fun _ => t.succeeded)
        (fun h => (∃ f, h = .fault f) ∨ h = .exit 1 ∧ t.succeeded = false) := by
    refine Keeps.bind (keeps_complain _ fun f => .inl ⟨f, rfl⟩) fun _ _ => ?_
    cases hsucceeded : t.succeeded with
    | false => exact Keeps.exit (.inr ⟨rfl, rfl⟩)
    | true => exact Keeps.pure rfl
  unfold reportTransformed
  dsimp only
  by_cases hdiff : r.showDiff
  · rw [if_pos hdiff]
    exact Keeps.bind (keeps_write _) fun _ _ => hlast
  · rw [if_neg hdiff]
    exact Keeps.optional (keeps_write _) hlast

/-- **A transformation stops before it has changed anything, or has run all operations and puts their text where it is
wanted.**  `P` holds where the text has been put in place, and `S` where that came to an end early. -/
theorem ends_runTransform [Syntax.Recovery] (r : TransformRequest) {P : List Char → Workspace → Prop}
    {S : List Char → Halt → Workspace → Prop}
    (hplace : ∀ after, Ends w (placeTransformed r after) (fun _ w' => P after w') (S after)) : Ends w (runTransform r)
      (fun _ w' => ∃ before ops t after, Transforms w.store r before ops t after ∧ t.succeeded ∧ P after w')
      (fun h w' => (w' = w ∧ Stops w r h) ∨ ∃ before ops t after, Transforms w.store r before ops t after ∧
        (S after h w' ∨ P after w' ∧ ((∃ f, h = .fault f) ∨ h = .exit 1 ∧ t.succeeded = false))) := by
  have hgrave : ∀ h : Halt, h.IsGrave → Stops w r h := fun h hh => .inl (.inl hh)
  refine Keeps.andThen (keeps_readSource r.file) (fun h hh => .inl ⟨rfl, .inl hh⟩) fun before hfile => ?_
  refine Keeps.andThen (keeps_loadOperations r.operations) (fun h hh => .inl ⟨rfl, .inr hh⟩) fun vs hvs => ?_
  refine Keeps.andThen (keeps_decodeOperations vs) (fun h hh => .inl ⟨rfl, hgrave h hh⟩) fun ops hops => ?_
  refine Keeps.andThen (keeps_transformSteps ops _) (fun h hh => .inl ⟨rfl, hgrave h hh⟩) fun t hrun => ?_
  dsimp only
  cases hsource : t.source? with
  | none => exact Ends.bind (Ends.fail (.inl ⟨rfl, hgrave _ trivial⟩)) fun _ _ h => False.elim h
  | some after =>
    have ht : Transforms w.store r before ops t after :=
      ⟨hfile, by rw [operationsIn?, hvs, bind_some, hops]; rfl, hrun, hsource⟩
    dsimp only
    rw [pure_bind]
    refine Keeps.andThen (Keeps.forM (fun _ => keeps_complain _ fun f => trivial) t.failures)
      (fun h hh => .inl ⟨rfl, hgrave h hh⟩) fun _ _ => ?_
    refine Ends.bind (Ends.mono (hplace after) (fun _ _ h => h) fun h w' hs =>
      .inr ⟨before, ops, t, after, ht, .inl hs⟩) ?_
    intro _ w' hput
    refine Ends.mono (keeps_reportTransformed r before after t) ?_ ?_
    · rintro _ _ ⟨rfl, hsucceeded⟩
      exact ⟨before, ops, t, after, ht, hsucceeded, hput⟩
    · rintro h _ ⟨rfl, hwhy⟩
      exact .inr ⟨before, ops, t, after, ht, .inr ⟨hput, hwhy⟩⟩

/-! ## In place -/

section

variable {r : TransformRequest} {b : Bytes}

def Holds (p : Pathname) (b : Bytes) (w : Workspace) : Prop := w.store.readBytes p = .ok b

theorem ends_replaceFile (cs : List Char) (verb : String) (hfile : Holds p b w) :
    Ends w (replaceFile p cs verb) (fun _ => Holds p (Utf8.encode cs)) (fun h w' => h.IsGrave ∧ Holds p b w') := by
  have hreplace := Backup.readBytes_replace cs (.str (verb ++ " " ++ p.name)) hfile
  refine ends_replace ?_
  generalize Backup.replace w p cs (.str (verb ++ " " ++ p.name)) true = result at hreplace ⊢
  obtain ⟨w', e | id⟩ := result
  · exact ⟨trivial, hreplace⟩
  · exact hreplace

theorem ends_placeTransformed (hin : r.inPlace) (hout : r.output = none) (hfile : Holds r.file b w)
    (after : List Char) : Ends w (placeTransformed r after) (fun _ => Holds r.file (Utf8.encode after))
      (fun h w' => h.IsGrave ∧ (Holds r.file b w' ∨ Holds r.file (Utf8.encode after) w')) := by
  unfold placeTransformed
  rw [hout]
  dsimp only
  rw [if_pos hin]
  refine Ends.bind (Ends.mono (ends_replaceFile after "transform" hfile) (fun _ _ h => h) fun h w' hh =>
    ⟨hh.1, .inl hh.2⟩) ?_
  intro id w' hput
  have hsay : Keeps w' (complain ("[green]✓[/green] Updated " ++ r.file.text ++ " (backup " ++ id ++ ")"))
      (fun _ => True)
      Halt.IsGrave := keeps_complain _ fun _ => trivial
  exact hsay.ends (fun _ _ => hput) fun h hh => ⟨hh, .inr hput⟩

variable {cs : List Char}

theorem readText_of_decode {s : Store} (hfile : s.readBytes p = .ok b) (htext : Utf8.decode b = some cs) :
    s.readText p = .ok (Store.plainBreaks cs) := by
  simp only [Store.readText, hfile, bind, Except.bind, htext]
  rfl

theorem ends_idle [Syntax.Recovery] (hin : r.inPlace) (hout : r.output = none) (hfile : Holds r.file b w)
    (htext : Utf8.decode b = some cs)
    (hidle : ∀ ops, operationsIn? w.store r.operations = some ops → Transformation.Idle (Store.plainBreaks cs) ops) :
    Ends w (runTransform r) (fun _ => Holds r.file (Utf8.encode (Store.plainBreaks cs)))
      (fun h w' => Holds r.file (Utf8.encode (Store.plainBreaks cs)) w' ∨ Holds r.file b w' ∧
        (h.IsGrave ∨ h = .exit 1 ∧ operationsIn? w.store r.operations = none)) := by
  have hread := readText_of_decode hfile htext
  have hafter : ∀ {before ops t after}, Transforms w.store r before ops t after → after = Store.plainBreaks cs := by
    intro before ops t after ht
    obtain rfl : Store.plainBreaks cs = before := Except.ok.inj (hread.symm.trans ht.file)
    have hsource := Transformation.source?_of_idle (hidle ops ht.operations) ht.run
    exact some.inj (ht.source.symm.trans hsource)
  refine Ends.mono (ends_runTransform r (ends_placeTransformed hin hout hfile)) ?_ ?_
  · rintro _ w' ⟨before, ops, t, after, ht, -, hput⟩
    rwa [hafter ht] at hput
  · rintro h w' (⟨rfl, hstops⟩ | ⟨before, ops, t, after, ht, ⟨hgrave, hkept | hput⟩ | ⟨hput, -⟩⟩)
    · refine .inr ⟨hfile, ?_⟩
      rcases hstops with (hgrave | ⟨-, e, hunread⟩) | hgrave | ⟨hexit, e, hunread⟩
      · exact .inl hgrave
      · rw [hread] at hunread
        cases hunread
      · exact .inl hgrave
      · exact .inr ⟨hexit, by simp only [operationsIn?, valuesIn?, hunread, bind_none]⟩
    · exact .inr ⟨hkept, .inl hgrave⟩
    · exact .inl (hafter ht ▸ hput)
    · exact .inl (hafter ht ▸ hput)

end

end Command

def Halt.ending : Halt → Ending
  | .exit code => .done code
  | .fault f => .failed f

theorem Halt.IsGrave.ending_ne {h : Halt} (hgrave : h.IsGrave) {code : Nat} (hcode : code ≤ 1) :
    h.ending ≠ .done code := by
  cases h with
  | fault f => simp [Halt.ending]
  | exit n =>
    have hn : 1 < n := hgrave
    simp only [Halt.ending, ne_eq, Ending.done.injEq]
    omega

namespace Run

open Command

theorem ofArguments_ends [Syntax.Recovery] {w : Workspace} {args : List String} {verbose : Bool} {c : Command}
    {Q : Unit → Workspace → Prop} {E : Halt → Workspace → Prop} (missing : Option String)
    (hrequest : Request.read w.store args = some (.run verbose c)) (h : Work.Ends w c.run Q E) :
    ((ofArguments w missing args).ending = .done 0 ∧ Q () (ofArguments w missing args).workspace) ∨
      ∃ halt, (ofArguments w missing args).ending = halt.ending ∧ E halt (ofArguments w missing args).workspace := by
  have hends := h.exec { workspace := w, verbose, missingGrammar := missing } rfl
  rw [ofArguments, hrequest]
  unfold Work.exec at hends
  dsimp only
  generalize c.run.run.run { workspace := w, verbose, missingGrammar := missing } = last at hends ⊢
  obtain ⟨result, d⟩ := last
  cases result with
  | ok u => exact .inl ⟨rfl, hends⟩
  | error halt =>
    refine .inr ⟨halt, ?_, hends⟩
    cases halt <;> rfl

/-- **Transforming a file in place with operations that do nothing.**  The file keeps its bytes if it has no carriage
return.  In any case it keeps them or has its own text with plain line ends; and once the command has come to its end,
with 0 or with 1 after operations that could be read, it has kept them just if it had no carriage return. -/
theorem inPlace_idle [Syntax.Recovery] (w : Workspace) (missing : Option String) (args : List String) (verbose : Bool)
    (r : TransformRequest)
    (b : Bytes) (cs : List Char) (hrequest : Request.read w.store args = some (.run verbose (.transform r)))
    (hin : r.inPlace = true) (hout : r.output = none) (hfile : w.store.readBytes r.file = .ok b)
    (htext : Utf8.decode b = some cs)
    (hidle : ∀ ops, operationsIn? w.store r.operations = some ops → Transformation.Idle (Store.plainBreaks cs) ops) :
    ∃ b', (ofArguments w missing args).workspace.store.readBytes r.file = .ok b' ∧
      (b' = b ∨ b' = Utf8.encode (Store.plainBreaks cs)) ∧ ('\r' ∉ cs → b' = b) ∧
      ((ofArguments w missing args).ending = .done 0 ∨
          (ofArguments w missing args).ending = .done 1 ∧ (operationsIn? w.store r.operations).isSome →
        b' = Utf8.encode (Store.plainBreaks cs) ∧ (b' = b ↔ '\r' ∉ cs)) := by
  have hb : Utf8.encode cs = b := Utf8.encode_of_decode htext
  have hsame : Utf8.encode (Store.plainBreaks cs) = b ↔ '\r' ∉ cs := by
    rw [← Store.plainBreaks_eq_self, ← hb, Utf8.encode_inj]
  have hwritten : Command.Holds r.file (Utf8.encode (Store.plainBreaks cs)) (ofArguments w missing args).workspace ∨
      Command.Holds r.file b (ofArguments w missing args).workspace ∧ (ofArguments w missing args).ending ≠ .done 0 ∧
        ((ofArguments w missing args).ending = .done 1 → operationsIn? w.store r.operations = none) := by
    rcases ofArguments_ends missing hrequest (ends_idle hin hout hfile htext hidle) with
      ⟨-, hput⟩ | ⟨halt, hending, hput | ⟨hkept, hwhy⟩⟩
    · exact .inl hput
    · exact .inl hput
    · rw [hending]
      refine .inr ⟨hkept, ?_, fun hone => ?_⟩
      · rcases hwhy with hgrave | ⟨rfl, -⟩
        · exact hgrave.ending_ne (by decide)
        · simp [Halt.ending]
      · rcases hwhy with hgrave | ⟨-, hnone⟩
        · exact absurd hone (hgrave.ending_ne (by decide))
        · exact hnone
  rcases hwritten with hput | ⟨hkept, hzero, hone⟩
  · exact ⟨_, hput, .inr rfl, hsame.2, fun _ => ⟨rfl, hsame⟩⟩
  · refine ⟨b, hkept, .inl rfl, fun _ => rfl, ?_⟩
    rintro (hending | ⟨hending, hsome⟩)
    · exact absurd hending hzero
    · rw [hone hending] at hsome
      cases hsome

def twoFiles (source operations : String) : Workspace :=
  { store := ⟨["w"], [(["a.ts"], .file (Utf8.encode source.toList)),
    (["ops.json"], .file (Utf8.encode operations.toList))]⟩
    clock := ⟨⟨1704067200000000⟩, 1000000⟩ }

def inPlaceLine : List String := ["transform", "a.ts", "ops.json", "--in-place"]

def inPlaceRequest : TransformRequest := ⟨⟨.here, ["a.ts"]⟩, ⟨.here, ["ops.json"]⟩, none, false, true, false⟩

/-- The first operation is of no known kind and refused, and the second finds nothing to remove. -/
def idleOperations : String :=
  "[\x7b\"type\":\"fold\"\x7d,\x7b\"type\":\"remove-import\",\"module_specifier\":\"m\"\x7d]"

theorem inPlace_idle_refused : (ofArguments (twoFiles "import 'n';\n" idleOperations) none inPlaceLine).ending
      = .done 1 ∧
    (ofArguments (twoFiles "import 'n';\n" idleOperations) none inPlaceLine).workspace.store.readBytes
      ⟨.here, ["a.ts"]⟩ = .ok (Utf8.encode "import 'n';\n".toList) := by
  have hall : (operationsIn? (twoFiles "import 'n';\n" idleOperations).store inPlaceRequest.operations).all (fun ops =>
      decide (Transformation.Idle (Store.plainBreaks "import 'n';\n".toList) ops)) = true := by decide +kernel
  obtain ⟨b', hread, -, hkept, -⟩ := inPlace_idle (twoFiles "import 'n';\n" idleOperations) none inPlaceLine false
    inPlaceRequest _ "import 'n';\n".toList (by decide +kernel) rfl rfl rfl (Utf8.decode_encode _)
    (fun ops hops => by rw [hops] at hall; exact of_decide_eq_true hall)
  rw [hkept (by decide)] at hread
  exact ⟨by decide +kernel, hread⟩

/-- A file whose lines end with a carriage return and a line feed loses the carriage returns to no operation at all. -/
theorem inPlace_idle_breaks : Request.read (twoFiles "x;\r\n" "[]").store inPlaceLine =
      some (.run false (.transform inPlaceRequest)) ∧
    operationsIn? (twoFiles "x;\r\n" "[]").store inPlaceRequest.operations = some [] ∧
    (twoFiles "x;\r\n" "[]").store.find? ["a.ts"] = some (.file (Utf8.encode "x;\r\n".toList)) ∧
    (ofArguments (twoFiles "x;\r\n" "[]") none inPlaceLine).ending = .done 0 ∧
    (ofArguments (twoFiles "x;\r\n" "[]") none inPlaceLine).workspace.store.find? ["a.ts"] =
      some (.file (Utf8.encode "x;\n".toList)) :=
  ⟨by decide +kernel, by rfl, rfl, by decide +kernel, by decide +kernel⟩

end Run
end SourceBench
