import SourceBench.Proofs.Command.Transform
import SourceBench.Proofs.Workspace.Footprint

/-!
# How far a transformation reaches

A command to transform a file changes the output file, or the file itself and the folder of its backup, or nothing at
all, as it was asked to, however it ends (`Touches`).  It ends with 2 only before it has changed anything, and with 0
only when all operations were carried out and their text is in the file that was asked for (`Run.transform_reach`).
-/
namespace SourceBench

def TransformRequest.target? (r : TransformRequest) : Option Pathname :=
  match r.output with
  | some p => some p
  | none => if r.inPlace then some r.file else none

namespace Command

open Work

variable {w w' : Workspace} {r : TransformRequest}

/-- The output file is there already and must not be overwritten. -/
def Blocked (w : Workspace) (r : TransformRequest) : Prop :=
  ∃ p, r.output = some p ∧ w.store.has p = true ∧ r.force = false

/-- What may be different after the command: the output file and new folders on the way to it; or the file, and the
folder of the next backup with what is in it; or nothing. -/
def Touches (w : Workspace) (r : TransformRequest) (w' : Workspace) : Prop :=
  match r.output with
  | some p => w.store.Changes (fun q => w'.store.locate p = .ok q) (w'.store.LeadsBy p.parent) w'.store
  | none =>
    if r.inPlace then
      w.store.Changes (fun q => w'.store.locate r.file = .ok q ∨ Backup.nextPlace w <+: q)
        (fun q => q <+: Backup.nextPlace w) w'.store
    else w' = w

theorem touches_refl (w : Workspace) (r : TransformRequest) : Touches w r w := by
  unfold Touches
  split
  · exact Store.Changes.refl ..
  · split
    · exact Store.Changes.refl ..
    · rfl

/-! ## Putting the text in place -/

structure Placed (w : Workspace) (r : TransformRequest) (after : List Char) (w' : Workspace) : Prop where
  touches : Touches w r w'
  free : ¬ Blocked w r
  text : ∀ p, r.target? = some p → w'.store.readBytes p = .ok (Utf8.encode after)

structure Balked (w : Workspace) (r : TransformRequest) (h : Halt) (w' : Workspace) : Prop where
  touches : Touches w r w'
  same : Blocked w r → w' = w
  halt : (∃ f, h = .fault f) ∨ h = .exit 1

theorem Placed.ends_complain {after : List Char} (h : Placed w r after w') (text : String) :
    Ends w' (complain text) (fun _ => Placed w r after) (Balked w r) := by
  have hsay : Keeps w' (complain text) (fun _ => True) (fun h => ∃ f, h = .fault f) :=
    keeps_complain _ fun f => ⟨f, rfl⟩
  exact hsay.ends (fun _ _ => h) fun _ hfault => ⟨h.touches, fun hblocked => absurd hblocked h.free, .inl hfault⟩

section

variable {p : Pathname}

theorem not_blocked_iff (hout : r.output = some p) : ¬ Blocked w r ↔ ¬ (w.store.has p ∧ r.force = false) := by
  simp [Blocked, hout]

theorem create_output (hout : r.output = some p) (after : List Char) : match w.store.create p after r.force with
    | (s, .ok true) => Placed w r after { w with store := s }
    | (s, .ok false) => { w with store := s } = w
    | (s, .error e) => Balked w r (.fault (.file e)) { w with store := s } := by
  have hchanges := Store.changes_create w.store p after r.force
  have hread := @Store.readBytes_of_create w.store p after r.force
  rcases Store.create_cases w.store p after r.force with ⟨-, -, h⟩ | ⟨hfree, ⟨e, h⟩ | ⟨s, -, h⟩⟩
  · rw [h]
  · rw [h] at hchanges ⊢
    refine ⟨?_, fun hblocked => absurd hblocked ((not_blocked_iff hout).2 hfree), .inl ⟨_, rfl⟩⟩
    rw [Touches, hout]
    exact hchanges
  · rw [h] at hchanges hread ⊢
    refine ⟨?_, (not_blocked_iff hout).2 hfree, fun q hq => ?_⟩
    · rw [Touches, hout]
      exact hchanges
    · rw [TransformRequest.target?, hout] at hq
      cases hq
      exact hread rfl

theorem ends_output (hout : r.output = some p) (after : List Char) :
    Ends w (placeTransformed r after) (fun _ => Placed w r after) (Balked w r) := by
  have hcreate := create_output (w := w) hout after
  unfold placeTransformed
  rw [hout]
  dsimp only
  refine Ends.bind (ends_create (Q := fun done w' => if done then Placed w r after w' else w' = w) ?_)
    fun done w' hdone => ?_
  · generalize w.store.create p after r.force = result at hcreate ⊢
    obtain ⟨s, e | _ | _⟩ := result
    · exact hcreate
    · exact hcreate
    · exact hcreate
  · cases done with
    | true => exact Placed.ends_complain hdone _
    | false =>
      obtain rfl : w' = w := hdone
      have hsay (text : String) : Keeps w' (complain text) (fun _ => True) (fun h => ∃ f, h = .fault f) :=
        keeps_complain _ fun f => ⟨f, rfl⟩
      rw [if_pos (show (!false) = true from rfl)]
      refine Keeps.andThen (hsay _) (fun h hfault => ⟨touches_refl w' r, fun _ => rfl, .inl hfault⟩) fun _ _ => ?_
      exact Ends.bind (Ends.exit ⟨touches_refl w' r, fun _ => rfl, .inr rfl⟩) fun _ _ h => False.elim h

end

theorem replace_inPlace (hout : r.output = none) (hin : r.inPlace) (after : List Char) (description : Value) :
    match Backup.replace w r.file after description true with
    | (w', .ok _) => Placed w r after w'
    | (w', .error e) => Balked w r (.fault (.file e)) w' := by
  have hfree : ¬ Blocked w r := by simp [Blocked, hout]
  have hchanges := Backup.changes_replace w r.file after description
  have htouches : Touches w r (Backup.replace w r.file after description true).1 := by
    rw [Touches, hout]
    dsimp only
    rwa [if_pos hin]
  cases h : Backup.replace w r.file after description true with
  | mk w' made =>
    rw [h] at htouches
    cases made with
    | error e => exact ⟨htouches, fun hblocked => absurd hblocked hfree, .inl ⟨_, rfl⟩⟩
    | ok id =>
      refine ⟨htouches, hfree, fun q hq => ?_⟩
      rw [TransformRequest.target?, hout] at hq
      dsimp only at hq
      rw [if_pos hin] at hq
      cases hq
      exact Backup.readBytes_of_replace h

theorem ends_placed (r : TransformRequest) (after : List Char) :
    Ends w (placeTransformed r after) (fun _ => Placed w r after) (Balked w r) := by
  cases hout : r.output with
  | some p => exact ends_output hout after
  | none =>
    unfold placeTransformed
    rw [hout]
    dsimp only
    by_cases hin : r.inPlace
    · rw [if_pos hin]
      refine Ends.bind (ends_replace (Q := Placed w r after) ?_) fun id w' hplaced => hplaced.ends_complain _
      exact replace_inPlace hout hin after _
    · rw [if_neg hin]
      refine Ends.pure ⟨touches_refl w r, by simp [Blocked, hout], fun q hq => ?_⟩
      rw [TransformRequest.target?, hout] at hq
      dsimp only at hq
      rw [if_neg hin] at hq
      cases hq

/-! ## The command -/

/-- The command has come to its end: all operations were carried out, and their text is in the file that was asked
for. -/
def Completed [Syntax.Recovery] (w : Workspace) (r : TransformRequest) (w' : Workspace) : Prop :=
  ∃ before ops t after, Transforms w.store r before ops t after ∧ t.failures = [] ∧ t.applied = ops.length ∧
    Placed w r after w'

theorem applied_of_succeeded [Syntax.Recovery] {source : List Char} {ops : List Operation} {t : Transformation}
    (hrun : Transformation.run source ops = .ok t) (h : t.succeeded) : t.failures = [] ∧ t.applied = ops.length := by
  have hnone : t.failures = [] := List.isEmpty_iff.1 h
  refine ⟨hnone, ?_⟩
  rw [Transformation.applied, hnone, List.length_nil, Nat.sub_zero,
    ← Operation.effects_operations (Transformation.effects_of_run hrun), List.length_map]

/-- **A transformation comes to its end, or ends early with 2 or a fault before it has changed anything, or with 1 or a
fault while it put its text in place or after that.** -/
theorem ends_touches [Syntax.Recovery] (r : TransformRequest) : Ends w (runTransform r) (fun _ => Completed w r)
    (fun h w' => Touches w r w' ∧ (Blocked w r → w' = w) ∧
      (w' = w ∧ h ≠ .exit 0 ∨ (∃ f, h = .fault f) ∨ h = .exit 1)) := by
  refine Ends.mono (ends_runTransform r (ends_placed r)) ?_ ?_
  · rintro _ w' ⟨before, ops, t, after, ht, hsucceeded, hplaced⟩
    obtain ⟨hfailures, happlied⟩ := applied_of_succeeded ht.run hsucceeded
    exact ⟨before, ops, t, after, ht, hfailures, happlied, hplaced⟩
  · rintro h w' (⟨rfl, hstops⟩ | ⟨before, ops, t, after, ht, hbalked | ⟨hplaced, hwhy⟩⟩)
    · refine ⟨touches_refl w' r, fun _ => rfl, .inl ⟨rfl, ?_⟩⟩
      rintro rfl
      rcases hstops with (hgrave | ⟨hexit, -⟩) | hgrave | ⟨hexit, -⟩
      · exact absurd hgrave (Nat.not_lt_zero 1)
      · cases hexit
      · exact absurd hgrave (Nat.not_lt_zero 1)
      · cases hexit
    · exact ⟨hbalked.touches, hbalked.same, .inr hbalked.halt⟩
    · exact ⟨hplaced.touches, fun hblocked => absurd hblocked hplaced.free, .inr (hwhy.imp_right And.left)⟩

end Command

namespace Run

open Command

/-- **A transformation reaches no further than it was asked to.**  A line that asks for nothing changes nothing.  Else
the output file, or the file with its backup, is all that changes; an output file that is there is kept unless it may be
overwritten; what ends with 2 changes nothing at all; and what ends with 0 has carried out all operations and put
exactly their text into the file that was asked for. -/
theorem transform_reach [Syntax.Recovery] (w : Workspace) (missing : Option String) (args : List String) :
    (Request.read w.store args = none →
      (ofArguments w missing args).ending = .misused ∧ (ofArguments w missing args).workspace = w) ∧
    ∀ verbose r, Request.read w.store args = some (.run verbose (.transform r)) →
      Touches w r (ofArguments w missing args).workspace ∧
      (∀ p, r.output = some p → w.store.has p = true → r.force = false →
        (ofArguments w missing args).workspace = w ∧ (ofArguments w missing args).ending ≠ .done 0) ∧
      ((ofArguments w missing args).ending = .done 2 → (ofArguments w missing args).workspace = w) ∧
      ((ofArguments w missing args).ending = .done 0 →
        ∃ before ops t after, Transforms w.store r before ops t after ∧ t.failures = [] ∧ t.applied = ops.length ∧
          ∀ p, r.target? = some p →
            (ofArguments w missing args).workspace.store.readBytes p = .ok (Utf8.encode after)) := by
  refine ⟨fun hnone => by rw [ofArguments, hnone]; exact ⟨rfl, rfl⟩, fun verbose r hrequest => ?_⟩
  rcases ofArguments_ends missing hrequest (ends_touches r) with
    ⟨hending, before, ops, t, after, ht, hfailures, happlied, hplaced⟩ | ⟨halt, hending, htouches, hsame, hhalt⟩
  · rw [hending]
    refine ⟨hplaced.touches, fun p hout hthere hforce => absurd ⟨p, hout, hthere, hforce⟩ hplaced.free, ?_,
      fun _ => ⟨before, ops, t, after, ht, hfailures, happlied, hplaced.text⟩⟩
    intro htwo
    cases htwo
  · have hzero : halt.ending ≠ .done 0 := by
      rintro h
      rcases hhalt with ⟨-, hne⟩ | ⟨f, rfl⟩ | rfl
      · cases halt with
        | exit code => exact hne (by simpa [Halt.ending] using h)
        | fault f => cases h
      · cases h
      · cases h
    rw [hending]
    refine ⟨htouches, fun p hout hthere hforce => ⟨hsame ⟨p, hout, hthere, hforce⟩, hzero⟩, fun htwo => ?_,
      fun h => absurd h hzero⟩
    rcases hhalt with ⟨hw, -⟩ | ⟨f, rfl⟩ | rfl
    · exact hw
    · cases htwo
    · cases htwo

def outputLine : List String := ["transform", "a.ts", "ops.json", "--output", "out/b.ts"]

def outputRequest : TransformRequest :=
  ⟨⟨.here, ["a.ts"]⟩, ⟨.here, ["ops.json"]⟩, some ⟨.here, ["out", "b.ts"]⟩, false, false, false⟩

def removal : String := "[\x7b\"type\":\"remove-import\",\"module_specifier\":\"n\"\x7d]"

theorem transform_reach_output :
    (ofArguments (twoFiles "import 'n';\nx;\n" removal) none outputLine).ending = .done 0 ∧
    (∃ after, (ofArguments (twoFiles "import 'n';\nx;\n" removal) none outputLine).workspace.store.readBytes
      ⟨.here, ["out", "b.ts"]⟩ = .ok (Utf8.encode after)) ∧
    Touches (twoFiles "import 'n';\nx;\n" removal) outputRequest
      (ofArguments (twoFiles "import 'n';\nx;\n" removal) none outputLine).workspace := by
  have hrequest : Request.read (twoFiles "import 'n';\nx;\n" removal).store outputLine =
      some (.run false (.transform outputRequest)) := by decide +kernel
  have hending : (ofArguments (twoFiles "import 'n';\nx;\n" removal) none outputLine).ending = .done 0 := by
    decide +kernel
  obtain ⟨htouches, -, -, hdone⟩ :=
    (transform_reach (twoFiles "import 'n';\nx;\n" removal) none outputLine).2 false outputRequest hrequest
  obtain ⟨-, -, -, after, -, -, -, htext⟩ := hdone hending
  exact ⟨hending, ⟨after, htext _ rfl⟩, htouches⟩

end Run
end SourceBench
