import Mathlib.Data.Char
import Mathlib.Data.List.Lex
import Mathlib.Data.Nat.Digits.Defs
import SourceBench.Text.Order

/-!
# Order of texts

The order of texts is the one of lists (`before_iff_lt`).  Numbers written with the same number of digits, zeros in
front, are in the order of their texts (`before_padded`).
-/
namespace SourceBench.Text

open List

theorem before_iff_lt : ∀ a b : List Char, before a b ↔ a < b
  | [], [] => by simp [before]
  | [], _ :: _ => by simp [before]
  | _ :: _, [] => by simp [before]
  | a :: r, b :: s => by
    rw [cons_lt_cons_iff, ← before_iff_lt r s]
    simp [before, Char.lt_def, UInt32.lt_iff_toNat_lt]

/-! ## Padded digits -/

/-- Digits of a number to a base, at least `width` of them. -/
def padded (base width n : Nat) : List Char :=
  replicate (width - (Nat.toDigits base n).length) '0' ++ Nat.toDigits base n

variable {base width n : Nat}

theorem padded_one (h : n < base) : padded base 1 n = [Nat.digitChar n] := by
  rw [padded, Nat.toDigits_of_lt_base h]
  rfl

theorem padded_succ (hbase : 1 < base) (hwidth : 0 < width) (n : Nat) :
    padded base (width + 1) n = padded base width (n / base) ++ [Nat.digitChar (n % base)] := by
  unfold padded
  rcases Nat.lt_or_ge n base with hlt | hge
  · -- A number of one digit: all digits before it are zeros.
    obtain ⟨w, rfl⟩ : ∃ w, width = w + 1 := ⟨width - 1, by omega⟩
    rw [Nat.toDigits_of_lt_base hlt, Nat.div_eq_of_lt hlt, Nat.mod_eq_of_lt hlt, Nat.toDigits_of_lt_base (by omega)]
    simp only [length_singleton, Nat.add_sub_cancel, append_cancel_right_eq]
    exact replicate_succ'
  · rw [Nat.toDigits_of_base_le hbase hge, length_append, length_singleton, Nat.add_sub_add_right,
      append_assoc]

theorem exists_of_mem_toDigits {c : Char} (hbase : 1 < base) (h : c ∈ Nat.toDigits base n) :
    ∃ d < base, c = Nat.digitChar d := by
  induction n using Nat.strongRecOn with
  | ind n ih =>
    rcases Nat.lt_or_ge n base with hlt | hge
    · rw [Nat.toDigits_of_lt_base hlt, mem_singleton] at h
      exact ⟨n, hlt, h⟩
    · rw [Nat.toDigits_of_base_le hbase hge, mem_append, mem_singleton] at h
      rcases h with h | h
      · exact ih (n / base) (Nat.div_lt_self (by omega) hbase) h
      · exact ⟨n % base, Nat.mod_lt n (by omega), h⟩

theorem exists_of_mem_padded {c : Char} (hbase : 1 < base) (h : c ∈ padded base width n) :
    ∃ d < base, c = Nat.digitChar d := by
  rcases mem_append.1 h with h | h
  · exact ⟨0, by omega, eq_of_mem_replicate h⟩
  · exact exists_of_mem_toDigits hbase h

theorem length_padded (hbase : 1 < base) (hwidth : 0 < width) (h : n < base ^ width) :
    (padded base width n).length = width := by
  have := (Nat.length_toDigits_le_iff hbase hwidth).2 h
  rw [padded, length_append, length_replicate]
  omega

/-! ## Order -/

theorem before_append_same (xs ys zs : List Char) : before (xs ++ ys) (xs ++ zs) = before ys zs := by
  induction xs with
  | nil => rfl
  | cons x xs ih => simp [before, ih]

theorem before_append {xs ys : List Char} (hlength : xs.length = ys.length) (h : before xs ys) (us vs : List Char) :
    before (xs ++ us) (ys ++ vs) := by
  induction xs generalizing ys with
  | nil =>
    cases ys with
    | nil => cases h
    | cons y ys => cases hlength
  | cons x xs ih =>
    cases ys with
    | nil => cases hlength
    | cons y ys =>
      simp only [before, cons_append, Bool.or_eq_true, Bool.and_eq_true] at h ⊢
      exact h.imp_right fun hrest => ⟨hrest.1, ih (Nat.succ.inj hlength) hrest.2⟩

theorem digitChar_lt : ∀ d < 10, ∀ e < 10, d < e → (Nat.digitChar d).toNat < (Nat.digitChar e).toNat := by decide

/-- **Numbers of the same width are in the order of their digits.** -/
theorem before_padded {m n : Nat} (hwidth : 0 < width) (hn : n < 10 ^ width) (h : m < n) :
    before (padded 10 width m) (padded 10 width n) := by
  induction width generalizing m n with
  | zero => omega
  | succ width ih =>
    rcases Nat.eq_zero_or_pos width with rfl | hpos
    · have hm : m < 10 := by omega
      rw [padded_one hm, padded_one (by omega)]
      simp [before, digitChar_lt m hm n (by omega) h]
    · rw [padded_succ (by omega) hpos, padded_succ (by omega) hpos]
      have hn' : n / 10 < 10 ^ width := Nat.div_lt_of_lt_mul (by rwa [Nat.pow_succ, Nat.mul_comm] at hn)
      rcases Nat.lt_or_ge (m / 10) (n / 10) with hlt | hge
      · refine before_append ?_ (ih hpos hn' hlt) _ _
        rw [length_padded (by omega) hpos (by omega), length_padded (by omega) hpos hn']
      · obtain hsame : m / 10 = n / 10 := by omega
        rw [hsame, before_append_same]
        simp [before, digitChar_lt (m % 10) (by omega) (n % 10) (by omega) (by omega)]

end SourceBench.Text
