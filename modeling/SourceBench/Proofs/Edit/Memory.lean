import SourceBench.Proofs.Edit.Refusal
import SourceBench.Proofs.Edit.WholeText

/-!
# What documents remember

A document remembers the tree and the outline that were last read from it, each for itself.  Whatever is done to it,
what it remembers is what its bytes show (`Document.accessAll_coherent`): a change forgets both, and a look fills in
only what the bytes show.  So a transformation can be stopped after any of its operations and begun again on the text
reached there (`Transformation.run_append`).
-/
namespace SourceBench

/-! ## Accesses -/

inductive Access where
  | splice (ss : List Splice)
  | readTree
  | readOutline
  | perform (op : Operation)

namespace Document

variable [Syntax.Recovery]

/-- A document after an access.  A look at bytes that are no text leaves it as it is. -/
def access (d : Document) : Access → Document
  | .splice ss => d.splice ss
  | .readTree => match d.readTree with
    | some (_, d) => d
    | none => d
  | .readOutline => match d.readOutline with
    | some (_, d) => d
    | none => d
  | .perform op => (d.perform op).1

def accessAll (d : Document) (as : List Access) : Document := as.foldl access d

theorem access_coherent {d : Document} (hd : d.Coherent) (a : Access) : (d.access a).Coherent := by
  cases a with
  | splice ss => exact coherent_splice d ss
  | readTree =>
    unfold access
    cases h : d.readTree with
    | none => exact hd
    | some p => exact (hd.readTree h).2.2
  | readOutline =>
    unfold access
    cases h : d.readOutline with
    | none => exact hd
    | some p => exact (hd.readOutline h).2.2
  | perform op => exact (perform_eq hd op).2.1

theorem accessAll_coherent : ∀ (as : List Access) {d : Document}, d.Coherent → (d.accessAll as).Coherent
  | [], _, hd => hd
  | a :: as, _, hd => accessAll_coherent as (access_coherent hd a)

theorem shown_of_coherent {d : Document} (hd : d.Coherent) :
    d.readTree.map Prod.fst = d.text?.map (fun text => (text, (View.ofText text).tree)) ∧
      d.readOutline.map Prod.fst = d.text?.map fun text => (View.ofText text).outline := by
  rw [readTree_eq hd, readOutline_eq hd]
  constructor <;> simp [Function.comp_def]

end Document

/-! ## Runs in two parts -/

namespace Operation

theorem effects_append [Syntax.Recovery] (xs ys : List Operation) (bytes : Bytes) : effects (xs ++ ys) bytes =
    match effects xs bytes with
    | .error e => .error e
    | .ok (middle, os) => match effects ys middle with
      | .error e => .error e
      | .ok (final, os') => .ok (final, os ++ os') := by
  induction xs generalizing bytes with
  | nil =>
    simp only [List.nil_append, effects]
    cases effects ys bytes <;> rfl
  | cons x xs ih =>
    simp only [List.cons_append, effects]
    cases x.effect bytes with
    | error e => rfl
    | ok p =>
      simp only [ih]
      cases effects xs p.1 with
      | error e => rfl
      | ok q =>
        cases hys : effects ys q.1 <;> simp only [hys, List.cons_append]

end Operation

namespace Transformation

variable {s t u : Transformation}

theorem failures_of_append (h : s.outcomes = t.outcomes ++ u.outcomes) : s.failures = t.failures ++ u.failures := by
  rw [failures, h, List.filterMap_append]
  rfl

theorem applied_of_append (h : s.outcomes = t.outcomes ++ u.outcomes) : s.applied = t.applied + u.applied := by
  simp only [applied_eq, accepted, h, List.filter_append, List.map_append, List.length_append]

/-- **A run goes on from the text that was reached**: the operations of a run in two parts do what the first ones do on
the source and the others on the text after them, down to the error that ends them. -/
theorem run_append [Syntax.Recovery] (source : List Char) (xs ys : List Operation) :
    match run source xs with
    | .error e => run source (xs ++ ys) = .error e
    | .ok t => ∀ middle, t.source? = some middle →
      match run middle ys with
      | .error e => run source (xs ++ ys) = .error e
      | .ok u => ∃ s, run source (xs ++ ys) = .ok s ∧ s.source? = u.source? ∧ s.applied = t.applied + u.applied ∧
        s.failures = t.failures ++ u.failures := by
  have hwhole := run_eq source (xs ++ ys)
  have hfirst := run_eq source xs
  rw [Operation.effects_append] at hwhole
  cases hxs : Operation.effects xs (Utf8.encode source) with
  | error e =>
    simp only [hxs] at hwhole hfirst
    simp only [hfirst]
    exact hwhole
  | ok p =>
    obtain ⟨bytes, os⟩ := p
    simp only [hxs] at hwhole hfirst
    obtain ⟨d, hd, hbytes⟩ := hfirst
    simp only [hd]
    intro middle hmiddle
    obtain rfl : Utf8.encode middle = bytes := (Utf8.encode_of_decode hmiddle).trans hbytes
    have hsecond := run_eq middle ys
    cases hys : Operation.effects ys (Utf8.encode middle) with
    | error e =>
      simp only [hys] at hwhole hsecond
      simp only [hsecond]
      exact hwhole
    | ok q =>
      obtain ⟨final, os'⟩ := q
      simp only [hys] at hwhole hsecond
      obtain ⟨d', hd', hfinal⟩ := hsecond
      obtain ⟨d'', hd'', hfinal'⟩ := hwhole
      simp only [hd']
      refine ⟨_, hd'', ?_, applied_of_append rfl, failures_of_append rfl⟩
      simp only [source?, Document.text?, hfinal, hfinal']

theorem exists_source [Syntax.SoundRecovery] {source : List Char} {ops : List Operation}
    (hs : (Document.ofText source).Suits ops) (h : run source ops = .ok t) : ∃ text, t.source? = some text := by
  obtain ⟨text, htext⟩ := Operation.effects_text hs (effects_of_run h)
  exact ⟨text, by rw [source?, Document.text?, htext, Utf8.decode_encode]⟩

theorem exists_run_of_append [Syntax.SoundRecovery] {source : List Char} {xs ys : List Operation}
    (hs : (Document.ofText source).Suits xs) (h : run source (xs ++ ys) = .ok s) :
    ∃ t u middle, run source xs = .ok t ∧ t.source? = some middle ∧ run middle ys = .ok u ∧ s.source? = u.source? ∧
      s.applied = t.applied + u.applied ∧ s.failures = t.failures ++ u.failures := by
  have hparts := run_append source xs ys
  split at hparts
  · rw [h] at hparts
    cases hparts
  · next t hfirst =>
    obtain ⟨middle, hmiddle⟩ := exists_source hs hfirst
    have hparts := hparts middle hmiddle
    split at hparts
    · rw [h] at hparts
      cases hparts
    · next u hsecond =>
      obtain ⟨s', hs', hends⟩ := hparts
      obtain rfl : s = s' := Except.ok.inj (h.symm.trans hs')
      exact ⟨t, u, middle, hfirst, hmiddle, hsecond, hends⟩

theorem run_append_of_succeeded [Syntax.Recovery] {source middle : List Char} {xs ys : List Operation}
    (h : run source xs = .ok t) (ht : t.succeeded) (hmiddle : t.source? = some middle) (h' : run middle ys = .ok u)
    (hu : u.succeeded) : ∃ s, run source (xs ++ ys) = .ok s ∧ s.succeeded ∧ s.source? = u.source? := by
  have hparts := run_append source xs ys
  simp only [h] at hparts
  have hparts := hparts middle hmiddle
  simp only [h'] at hparts
  obtain ⟨s, hs, hend, -, hfailures⟩ := hparts
  refine ⟨s, hs, ?_, hend⟩
  rw [succeeded, List.isEmpty_iff] at ht hu ⊢
  rw [hfailures, ht, hu, List.append_nil]

/-- **A document has no hidden state.**  Whatever was done to it, the tree and the outline that a document remembers are
those of its text, and so are those that a look shows.  Hence a run of operations in two parts is a run of the first on
the source and a run of the others on the text that they left: it ends in the same text, as many operations are carried
out in it as in both, and its failures are those of the first and then those of the second.  There is such a text if the
operations suit the texts among them that break the grammar. -/
theorem no_hidden_state [Syntax.SoundRecovery] (source : List Char) :
    (∀ as : List Access, let d := (Document.ofText source).accessAll as
      (∀ p, d.seenTree = some p → d.text?.map (fun text => (text, (View.ofText text).tree)) = some p) ∧
      (∀ o, d.seenOutline = some o → d.text?.map (fun text => (View.ofText text).outline) = some o) ∧
      d.readTree.map Prod.fst = d.text?.map (fun text => (text, (View.ofText text).tree)) ∧
      d.readOutline.map Prod.fst = d.text?.map fun text => (View.ofText text).outline) ∧
    ∀ xs ys : List Operation,
      match run source xs with
      | .error e => run source (xs ++ ys) = .error e
      | .ok t => ((Document.ofText source).Suits xs → ∃ middle, t.source? = some middle) ∧
        ∀ middle, t.source? = some middle →
          match run middle ys with
          | .error e => run source (xs ++ ys) = .error e
          | .ok u => ∃ s, run source (xs ++ ys) = .ok s ∧ s.source? = u.source? ∧ s.applied = t.applied + u.applied ∧
            s.failures = t.failures ++ u.failures := by
  refine ⟨fun as => ?_, fun xs ys => ?_⟩
  · have hd := Document.accessAll_coherent as (Document.coherent_ofText source)
    exact ⟨hd.tree, hd.outline, Document.shown_of_coherent hd⟩
  · have hparts := run_append source xs ys
    cases hfirst : run source xs with
    | error e =>
      rw [hfirst] at hparts
      exact hparts
    | ok t =>
      rw [hfirst] at hparts
      exact ⟨fun hs => exists_source hs hfirst, hparts⟩

attribute [local instance] Syntax.SoundRecovery.bare

def resumedSource : List Char := "class A \x7b\x7d\nfunction f(a) \x7b return a.x; \x7d\n".toList

def firstPart : List Operation := [.addProperty ⟨"A", "x", "number", .null, .bool false⟩, .wrap ⟨"f", ""⟩]

def secondPart : List Operation := [.rename ⟨"B", "C", .str "file", .null⟩, .rename ⟨"x", "y", .str "class", .str "A"⟩]

def resumedResult : List Char := "class A \x7b\n  y: number;\n\x7d\nfunction f(a) \x7b return a.y; \x7d\n".toList

theorem no_hidden_state_resumed :
    (∃ p o, ((Document.ofText resumedSource).accessAll
      ((firstPart ++ secondPart.take 1).map .perform ++ [.readTree])).seenTree
        = some p ∧
      ((Document.ofText resumedSource).accessAll
        ((firstPart ++ secondPart.take 1).map .perform ++ [.readTree])).seenOutline
        = some o ∧
      p = (p.1, (View.ofText p.1).tree) ∧ p.1 ≠ resumedSource) ∧
    ∃ t middle u s, run resumedSource firstPart = .ok t ∧ t.source? = some middle ∧ run middle secondPart = .ok u ∧
      run resumedSource (firstPart ++ secondPart) = .ok s ∧ s.source? = some resumedResult ∧
        u.source? = some resumedResult ∧
      s.failures = t.failures ++ u.failures ∧ s.failures.map Prod.snd = [.wrapping, .noSymbol "B"] ∧
      s.applied = t.applied + u.applied ∧ s.applied = 2 := by
  obtain ⟨hcoherent, -⟩ := no_hidden_state resumedSource
  constructor
  · obtain ⟨htree, -, -⟩ := hcoherent ((firstPart ++ secondPart.take 1).map .perform ++ [.readTree])
    obtain ⟨hseen, houtline⟩ : (((Document.ofText resumedSource).accessAll
        ((firstPart ++ secondPart.take 1).map .perform ++ [.readTree])).seenTree.map fun p => p.1 != resumedSource)
          = some true ∧
        ((Document.ofText resumedSource).accessAll
          ((firstPart ++ secondPart.take 1).map .perform ++ [.readTree])).seenOutline.isSome = true := by
      rw [show resumedSource = _ from String.toList_ofList]
      decide +kernel
    obtain ⟨p, hp, hne⟩ := Option.map_eq_some_iff.1 hseen
    obtain ⟨o, ho⟩ := Option.isSome_iff_exists.1 houtline
    obtain ⟨text, -, hshown⟩ := Option.map_eq_some_iff.1 (htree p hp)
    refine ⟨p, o, hp, ho, ?_, by simpa using hne⟩
    rw [← hshown]
  · obtain ⟨s, hboth, hresult, hreasons, hcount⟩ : ∃ s, run resumedSource (firstPart ++ secondPart) = .ok s ∧
        s.source? = some resumedResult ∧ s.failures.map Prod.snd = [.wrapping, .noSymbol "B"] ∧ s.applied = 2 := by
      rw [show resumedSource = _ from String.toList_ofList, show resumedResult = _ from String.toList_ofList]
      decide +kernel
    obtain ⟨t, u, middle, hfirst, hmiddle, hsecond, hsource, happlied, hfailures⟩ :=
      exists_run_of_append (Document.suits_bare _ _) hboth
    exact ⟨t, middle, u, s, hfirst, hmiddle, hsecond, hboth, hresult, hsource.symm.trans hresult, hfailures, hreasons,
      happlied, hcount⟩

end Transformation
end SourceBench
