import SourceBench.Proofs.Edit.Effect

/-!
# Refused operations leave no trace

A refused operation leaves the bytes as they were, so the operations after it meet the document that they would have met
without it.  Hence a run is the run of its accepted operations alone, which refuses nothing
(`Transformation.run_accepted`); the refused ones are what is left over, in their order.
-/
namespace SourceBench

open List Operation Except

def Outcome.isDone : Outcome → Bool
  | done _ => true
  | refused _ => false

namespace Operation

variable [Syntax.Recovery]

theorem effect_refused {op : Operation} {bytes bytes' : Bytes} {o : Outcome} (h : op.effect bytes = .ok (bytes', o))
    (ho : o.isDone = false) : bytes' = bytes := by
  unfold effect at h
  cases hp : op.planOn bytes with
  | ok p =>
    simp only [hp, ok.injEq, Prod.mk.injEq] at h
    rw [← h.2] at ho
    cases ho
  | error e =>
    rw [hp] at h
    cases e with
    | refused r =>
      simp only [ok.injEq, Prod.mk.injEq] at h
      exact h.1.symm
    | wrongType => cases h
    | notText => cases h

theorem effects_operations : ∀ {ops : List Operation} {bytes final : Bytes} {os : List (Operation × Outcome)},
    effects ops bytes = .ok (final, os) → os.map Prod.fst = ops
  | [], _, _, _, h => by
    simp only [effects, ok.injEq, Prod.mk.injEq] at h
    rw [← h.2]
    rfl
  | op :: ops, _, _, _, h => by
    obtain ⟨bytes', o, os', -, hes, rfl⟩ := effects_cons_eq_ok.1 h
    rw [map_cons, effects_operations hes]

theorem effects_append_eq_ok : ∀ {xs ys : List Operation} {bytes final : Bytes} {os : List (Operation × Outcome)},
    effects (xs ++ ys) bytes = .ok (final, os) ↔
      ∃ middle os₁ os₂, effects xs bytes = .ok (middle, os₁) ∧ effects ys middle = .ok (final, os₂) ∧ os = os₁ ++ os₂
  | [], ys, bytes, final, os => by
    constructor
    · intro h
      exact ⟨bytes, [], os, rfl, h, rfl⟩
    · rintro ⟨middle, os₁, os₂, hx, hy, rfl⟩
      simp only [effects, ok.injEq, Prod.mk.injEq] at hx
      obtain ⟨rfl, rfl⟩ := hx
      exact hy
  | x :: xs, ys, bytes, final, os => by
    rw [cons_append, effects_cons_eq_ok]
    constructor
    · rintro ⟨bytes', o, os', he, hes, rfl⟩
      obtain ⟨middle, os₁, os₂, hx, hy, rfl⟩ := effects_append_eq_ok.1 hes
      exact ⟨middle, (x, o) :: os₁, os₂, effects_cons_eq_ok.2 ⟨bytes', o, os₁, he, hx, rfl⟩, hy, rfl⟩
    · rintro ⟨middle, os₁, os₂, hx, hy, rfl⟩
      obtain ⟨bytes', o, os', he, hx', rfl⟩ := effects_cons_eq_ok.1 hx
      exact ⟨bytes', o, os' ++ os₂, he, effects_append_eq_ok.2 ⟨middle, os', os₂, hx', hy, rfl⟩, rfl⟩

/-- **Leaving out the refused operations changes nothing for the others**: each meets the same bytes. -/
theorem effects_accepted : ∀ {ops : List Operation} {bytes final : Bytes} {os : List (Operation × Outcome)},
    effects ops bytes = .ok (final, os) →
      effects ((os.filter (·.2.isDone)).map Prod.fst) bytes = .ok (final, os.filter (·.2.isDone))
  | [], _, _, _, h => by
    simp only [effects, ok.injEq, Prod.mk.injEq] at h
    obtain ⟨rfl, rfl⟩ := h
    rfl
  | op :: ops, bytes, _, _, h => by
    obtain ⟨bytes', o, os', he, hes, rfl⟩ := effects_cons_eq_ok.1 h
    have ih := effects_accepted hes
    rw [filter_cons]
    cases ho : o.isDone with
    | true => exact effects_cons_eq_ok.2 ⟨bytes', o, _, he, ih, rfl⟩
    | false =>
      rw [effect_refused he ho] at ih
      exact ih

end Operation

namespace Transformation

def accepted (t : Transformation) : List Operation := (t.outcomes.filter (·.2.isDone)).map Prod.fst

def rejected (t : Transformation) : List Operation := (t.outcomes.filter (!·.2.isDone)).map Prod.fst

theorem failures_operations (t : Transformation) : t.failures.map Prod.fst = t.rejected := by
  unfold failures rejected
  induction t.outcomes with
  | nil => rfl
  | cons p os ih =>
    obtain ⟨op, o⟩ := p
    cases o with
    | done plan => exact ih
    | refused r => exact congrArg (op :: ·) ih

theorem accepted_length_add (t : Transformation) : t.accepted.length + t.failures.length = t.outcomes.length := by
  have hfail : t.failures.length = t.rejected.length := by rw [← failures_operations, length_map]
  rw [hfail]
  unfold accepted rejected
  rw [length_map, length_map]
  induction t.outcomes with
  | nil => rfl
  | cons p os ih =>
    simp only [filter_cons, length_cons]
    cases p.2.isDone <;> simp <;> omega

theorem applied_eq (t : Transformation) : t.applied = t.accepted.length := by
  have := accepted_length_add t
  unfold applied
  omega

variable {t : Transformation} {source : List Char}

theorem failures_eq_nil (h : ∀ p ∈ t.outcomes, p.2.isDone) : t.failures = [] := by
  refine filterMap_eq_nil_iff.2 fun p hp => ?_
  obtain ⟨op, o⟩ := p
  cases o with
  | done plan => rfl
  | refused r => cases h _ hp

theorem run_accepted [Syntax.Recovery] {ops : List Operation} (h : run source ops = .ok t) :
    ∃ u, run source t.accepted = .ok u ∧ u.failures = [] ∧ u.applied = t.accepted.length ∧
      u.document.bytes = t.document.bytes := by
  obtain ⟨u, hu, hbytes, houtcomes⟩ := run_of_effects (effects_accepted (effects_of_run h))
  have hdone : ∀ p ∈ u.outcomes, p.2.isDone := by
    rw [houtcomes]
    exact fun p hp => (mem_filter.1 hp).2
  refine ⟨u, hu, failures_eq_nil hdone, ?_, hbytes⟩
  rw [applied_eq, accepted, filter_eq_self.2 hdone, houtcomes, accepted]

theorem run_at [Syntax.Recovery] {pre post : List Operation} {op : Operation}
    (h : run source (pre ++ op :: post) = .ok t) :
    ∃ before after o, run source pre = .ok before ∧ run source (pre ++ [op]) = .ok after ∧
      t.outcomes[pre.length]? = some (op, o) ∧ (o.isDone = false → after.document.bytes = before.document.bytes) := by
  obtain ⟨middle, os₁, os₂, hpre, hrest, hos⟩ := effects_append_eq_ok.1 (effects_of_run h)
  obtain ⟨bytes', o, os', he, -, rfl⟩ := effects_cons_eq_ok.1 hrest
  obtain ⟨before, hbefore, hbytes, -⟩ := run_of_effects hpre
  have hone : effects [op] middle = .ok (bytes', [(op, o)]) := effects_cons_eq_ok.2 ⟨bytes', o, [], he, rfl, rfl⟩
  obtain ⟨after, hafter, hbytes', -⟩ := run_of_effects (effects_append_eq_ok.2 ⟨middle, os₁, _, hpre, hone, rfl⟩)
  have hlen : os₁.length = pre.length := by
    rw [← effects_operations hpre, length_map]
  refine ⟨before, after, o, hbefore, hafter, ?_, fun ho => ?_⟩
  · rw [hos, ← hlen]
    simp
  · rw [hbytes', hbytes, effect_refused he ho]

/-- **Refused operations are invisible.**  In a run that no error ended, each operation that was refused left the bytes
as it found them.  The operations that were not refused, run by themselves, all succeed and give the same source, and
the failures are the other operations in their order. -/
theorem refused_invisible [Syntax.Recovery] (source : List Char) (ops : List Operation) (t : Transformation)
    (h : run source ops = .ok t) :
    (∀ pre op post, ops = pre ++ op :: post →
      ∃ before after o, run source pre = .ok before ∧ run source (pre ++ [op]) = .ok after ∧
        t.outcomes[pre.length]? = some (op, o) ∧
        (o.isDone = false → after.document.bytes = before.document.bytes)) ∧
    (∃ u, run source t.accepted = .ok u ∧ u.succeeded = true ∧ u.applied = t.accepted.length ∧
      u.source? = t.source?) ∧
    t.outcomes.map Prod.fst = ops ∧ t.failures.map Prod.fst = t.rejected ∧
    t.applied + t.failures.length = ops.length := by
  have hops := Operation.effects_operations (effects_of_run h)
  refine ⟨?_, ?_, hops, failures_operations t, ?_⟩
  · rintro pre op post rfl
    exact run_at h
  · obtain ⟨u, hu, hfail, happlied, hbytes⟩ := run_accepted h
    refine ⟨u, hu, by rw [succeeded, hfail]; rfl, happlied, ?_⟩
    rw [source?, source?, Document.text?, Document.text?, hbytes]
  · rw [applied_eq, accepted_length_add, ← hops, length_map]

def mixedOperations : List Operation :=
  [.addProperty ⟨"B", "x", "number", .null, .bool false⟩, .addProperty ⟨"A", "x", "number", .null, .bool false⟩,
    .wrap ⟨"f", ""⟩, .addExport ⟨"A", .bool false, .null⟩]

theorem refused_invisible_mixed :
    ∃ t, run "class A \x7b\x7d".toList mixedOperations = .ok t ∧ t.failures.map Prod.snd = [.noClass "B", .wrapping] ∧
      ∃ u, run "class A \x7b\x7d".toList t.accepted = .ok u ∧ u.succeeded = true ∧ u.applied = 2 ∧
        u.source? = some "class A \x7b\n  x: number;\n\x7d\nexport \x7b A \x7d;\n".toList := by
  obtain ⟨t, hrun, hreasons, hcount, htext⟩ : ∃ t, run "class A \x7b\x7d".toList mixedOperations = .ok t ∧
      t.failures.map Prod.snd = [.noClass "B", .wrapping] ∧ t.accepted.length = 2 ∧
        t.source? = some "class A \x7b\n  x: number;\n\x7d\nexport \x7b A \x7d;\n".toList := by decide +kernel
  obtain ⟨-, ⟨u, hu, hok, happlied, hsource⟩, -⟩ := refused_invisible _ _ t hrun
  exact ⟨t, hrun, hreasons, u, hu, hok, happlied.trans hcount, hsource.trans htext⟩

end Transformation
end SourceBench
