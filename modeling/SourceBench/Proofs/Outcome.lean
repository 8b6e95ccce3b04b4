import Mathlib.Data.List.Forall2

/-!
# Outcomes

A computation comes to its end or to an error.  A chain of them comes to its end if each does, and else to the first
error (`bind_eq_ok_iff`, `bind_eq_error_iff`); so does a computation for each item of a list (`mapM_eq_ok_iff`,
`mapM_eq_error`).
-/
namespace SourceBench

open List Except

variable {α β ε : Type}

theorem bind_eq_ok_iff {x : Except ε α} {f : α → Except ε β} {b : β} :
    (x >>= f) = .ok b ↔ ∃ a, x = .ok a ∧ f a = .ok b := by
  cases x with
  | error e => exact ⟨fun h => (nomatch h), fun ⟨_, h, _⟩ => (nomatch h)⟩
  | ok a => exact ⟨fun h => ⟨a, rfl, h⟩, fun ⟨_, ha, h⟩ => ok.inj ha ▸ h⟩

theorem bind_eq_error_iff {x : Except ε α} {f : α → Except ε β} {e : ε} :
    (x >>= f) = .error e ↔ x = .error e ∨ ∃ a, x = .ok a ∧ f a = .error e := by
  cases x with
  | error e' => simp [bind, Except.bind]
  | ok a => simp [bind, Except.bind]

theorem exists_of_map_eq_ok {x : Except ε α} {f : α → β} {b : β} (h : x.map f = .ok b) : ∃ a, x = .ok a ∧ f a = b := by
  cases x with
  | error e => cases h
  | ok a => exact ⟨a, rfl, ok.inj h⟩

variable {f : α → Except ε β}

theorem mapM_eq_ok_iff : ∀ {xs : List α} {ys : List β}, xs.mapM f = .ok ys ↔ Forall₂ (fun x y => f x = .ok y) xs ys
  | [], ys => by
    rw [mapM_nil, forall₂_nil_left_iff]
    exact ⟨fun h => (ok.inj h).symm, fun h => h ▸ rfl⟩
  | x :: xs, ys => by
    simp only [mapM_cons, forall₂_cons_left_iff, bind_eq_ok_iff, mapM_eq_ok_iff]
    constructor
    · rintro ⟨y, hx, zs, hxs, h⟩
      exact ⟨y, zs, hx, hxs, (ok.inj h).symm⟩
    · rintro ⟨y, zs, hx, hxs, rfl⟩
      exact ⟨y, hx, zs, hxs, rfl⟩

theorem mapM_eq_error {e : ε} : ∀ {xs : List α}, xs.mapM f = .error e →
    ∃ pre x post, xs = pre ++ x :: post ∧ (∀ u ∈ pre, ∃ b, f u = .ok b) ∧ f x = .error e
  | [], h => by cases h
  | x :: xs, h => by
    rw [mapM_cons] at h
    rcases bind_eq_error_iff.1 h with hx | ⟨b, hx, h⟩
    · exact ⟨[], x, xs, rfl, nofun, hx⟩
    · rcases bind_eq_error_iff.1 h with hxs | ⟨bs, -, h⟩
      · obtain ⟨pre, y, post, rfl, hpre, hy⟩ := mapM_eq_error hxs
        exact ⟨x :: pre, y, post, rfl, forall_mem_cons.2 ⟨⟨b, hx⟩, hpre⟩, hy⟩
      · cases h

end SourceBench
