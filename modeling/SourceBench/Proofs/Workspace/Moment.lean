import SourceBench.Proofs.Text.Order
import SourceBench.Workspace.Moment

/-!
# Moments in order

Dates follow one another in the calendar (`Day.ofNumber_lt`), so the texts of moments before the year 10000 are in the
order of the moments (`Moment.before_text`), with and without parts of a second.
-/
namespace SourceBench

namespace Day

variable {e d n f m : Nat}

/-! ## Years of an era -/

/-- The days of an era without its leap days. -/
def plainDays (e : Nat) : Nat := e - e / 1460 + e / 36524 - e / 146096

def yearStart (y : Nat) : Nat := 365 * y + y / 4 - y / 100

def yearOf (e : Nat) : Nat := plainDays e / 365

theorem plainDays_mono (h : e ≤ f) : plainDays e ≤ plainDays f := by
  unfold plainDays
  omega

theorem plainDays_yearStart : ∀ y < 400, 365 * y ≤ plainDays (yearStart y) := by decide +kernel

theorem plainDays_before_yearStart : ∀ y < 400, 0 < y → plainDays (yearStart y - 1) < 365 * y := by decide +kernel

theorem yearOf_lt (h : e < 146097) : yearOf e < 400 := by
  unfold yearOf plainDays
  omega

theorem yearOf_mono (h : e ≤ f) : yearOf e ≤ yearOf f := Nat.div_le_div_right (plainDays_mono h)

theorem yearStart_le (h : e < 146097) : yearStart (yearOf e) ≤ e := by
  by_contra hlt
  have hy := yearOf_lt h
  have hpos : 0 < yearOf e := by
    rcases Nat.eq_zero_or_pos (yearOf e) with hzero | hpos
    · rw [hzero] at hlt
      exact absurd (Nat.zero_le e) hlt
    · exact hpos
  have hbefore := plainDays_before_yearStart (yearOf e) (by omega) hpos
  have hmono := plainDays_mono (show e ≤ yearStart (yearOf e) - 1 by omega)
  have hdiv : 365 * yearOf e ≤ plainDays e := Nat.mul_div_le _ _
  omega

theorem yearStart_succ_le (y : Nat) : yearStart (y + 1) ≤ yearStart y + 366 := by
  unfold yearStart
  omega

theorem sub_yearStart_le (h : e < 146097) : e - yearStart (yearOf e) ≤ 365 := by
  by_contra hlt
  have hy := yearOf_lt h
  rcases Nat.lt_or_ge (yearOf e + 1) 400 with hnext | hlast
  · have hsucc := yearStart_succ_le (yearOf e)
    have hstart := plainDays_yearStart (yearOf e + 1) hnext
    have hmono := plainDays_mono (show yearStart (yearOf e + 1) ≤ e by omega)
    have hdiv : plainDays e < 365 * (yearOf e + 1) := by
      unfold yearOf
      omega
    omega
  · -- The last year of an era has the leap day that every fourth century keeps.
    obtain hyear : yearOf e = 399 := by omega
    rw [hyear, show yearStart 399 = 145731 from rfl] at hlt
    omega

/-! ## Days of a year -/

/-- The month of a day in its year, from March on. -/
def monthOf (d : Nat) : Nat := (5 * d + 2) / 153

def dayOf (d : Nat) : Nat := d - (153 * monthOf d + 2) / 5 + 1

theorem monthOf_lt (h : d ≤ 365) : monthOf d < 12 := by
  unfold monthOf
  omega

theorem dayOf_pos (d : Nat) : 0 < dayOf d := Nat.succ_pos _

theorem dayOf_lt (d : Nat) : dayOf d < 32 := by
  unfold dayOf monthOf
  omega

theorem monthOf_mono (h : d ≤ e) : monthOf d ≤ monthOf e := by
  unfold monthOf
  omega

theorem dayOf_lt_dayOf (h : d < e) (hmonth : monthOf d = monthOf e) : dayOf d < dayOf e := by
  have hstart : (153 * monthOf e + 2) / 5 ≤ d := by
    rw [← hmonth]
    unfold monthOf
    omega
  unfold dayOf
  rw [hmonth]
  omega

/-! ## Days of the calendar -/

def rank (d : Day) : Nat := 32 * (12 * d.year + d.month) + d.day

theorem ofNumber_eq (n : Nat) :
    let e := (n + 719468) % 146097
    let d := e - yearStart (yearOf e)
    ofNumber n = ⟨yearOf e + (n + 719468) / 146097 * 400 + (if monthOf d < 10 then 0 else 1),
      if monthOf d < 10 then monthOf d + 3 else monthOf d - 9, dayOf d⟩ := by
  intro e d
  have hmonth : monthOf d < 12 := monthOf_lt (sub_yearStart_le (Nat.mod_lt _ (by decide)))
  have hyear : (if (if monthOf d < 10 then monthOf d + 3 else monthOf d - 9) ≤ 2 then 1 else 0) =
      if monthOf d < 10 then 0 else 1 := by
    split_ifs <;> omega
  rw [← hyear]
  rfl

theorem ofNumber_spec (n : Nat) : ∃ e d, e = (n + 719468) % 146097 ∧ d = e - yearStart (yearOf e) ∧
    12 * (ofNumber n).year + (ofNumber n).month = 12 * (yearOf e + (n + 719468) / 146097 * 400) + monthOf d + 3 ∧
    (ofNumber n).day = dayOf d ∧ 0 < (ofNumber n).month ∧ (ofNumber n).month ≤ 12 := by
  refine ⟨_, _, rfl, rfl, ?_⟩
  have hmonth := monthOf_lt (sub_yearStart_le (Nat.mod_lt (n + 719468) (show 146097 > 0 by decide)))
  rw [ofNumber_eq]
  dsimp only
  generalize monthOf _ = m at hmonth ⊢
  split_ifs <;> refine ⟨?_, rfl, ?_, ?_⟩ <;> omega

theorem rank_lt (h : m < n) : rank (ofNumber m) < rank (ofNumber n) := by
  obtain ⟨e, d, he, hd, hmonth, hday, -, -⟩ := ofNumber_spec m
  obtain ⟨e', d', he', hd', hmonth', hday', -, -⟩ := ofNumber_spec n
  have hlt : e < 146097 := by omega
  have hlt' : e' < 146097 := by omega
  have hbound := monthOf_lt (sub_yearStart_le hlt)
  have hbound' := dayOf_lt d
  have hpos := dayOf_pos d'
  rw [← hd] at hbound
  have hyear := yearOf_lt hlt
  have hfar : ∀ {a b : Nat}, a < b → 12 * a + monthOf d + 3 < 12 * b + monthOf d' + 3 := by omega
  unfold rank
  rcases Nat.lt_or_ge ((m + 719468) / 146097) ((n + 719468) / 146097) with hera | hera
  · have := @hfar (yearOf e + (m + 719468) / 146097 * 400) (yearOf e' + (n + 719468) / 146097 * 400) (by omega)
    omega
  -- The same era: a later year, a later month of the year, or a later day of the month.
  have hera : (m + 719468) / 146097 = (n + 719468) / 146097 := by omega
  have hee : e < e' := by omega
  rcases Nat.lt_or_ge (yearOf e) (yearOf e') with hy | hy
  · have := @hfar (yearOf e + (m + 719468) / 146097 * 400) (yearOf e' + (n + 719468) / 146097 * 400) (by omega)
    omega
  have hy : yearOf e = yearOf e' := Nat.le_antisymm (yearOf_mono (Nat.le_of_lt hee)) hy
  have hstart := yearStart_le hlt
  have hdd : d < d' := by
    rw [hd, hd', ← hy]
    omega
  rcases Nat.lt_or_ge (monthOf d) (monthOf d') with hm | hm
  · omega
  have hm : monthOf d = monthOf d' := Nat.le_antisymm (monthOf_mono (Nat.le_of_lt hdd)) hm
  have := dayOf_lt_dayOf hdd hm
  omega

def lastNumber : Nat := 2932896

theorem year_lt (h : n ≤ lastNumber) : (ofNumber n).year < 10000 := by
  obtain ⟨-, -, -, -, -, -, hpos, -⟩ := ofNumber_spec n
  have hrank : rank (ofNumber n) ≤ rank (ofNumber lastNumber) := by
    rcases Nat.lt_or_eq_of_le h with hlt | rfl
    · exact Nat.le_of_lt (rank_lt hlt)
    · exact Nat.le_refl _
  rw [show ofNumber lastNumber = ⟨9999, 12, 31⟩ by decide] at hrank
  unfold rank at hrank
  dsimp only at hrank
  omega

theorem month_lt (n : Nat) : (ofNumber n).month < 100 := by
  obtain ⟨-, -, -, -, -, -, -, hle⟩ := ofNumber_spec n
  omega

theorem day_lt (n : Nat) : (ofNumber n).day < 32 := by
  obtain ⟨-, d, -, -, -, hday, -, -⟩ := ofNumber_spec n
  rw [hday]
  exact dayOf_lt d

theorem lex_of_lt (h : m < n) : (ofNumber m).year < (ofNumber n).year ∨
    (ofNumber m).year = (ofNumber n).year ∧ ((ofNumber m).month < (ofNumber n).month ∨
      (ofNumber m).month = (ofNumber n).month ∧ (ofNumber m).day < (ofNumber n).day) := by
  obtain ⟨-, -, -, -, -, -, hpos, hle⟩ := ofNumber_spec m
  obtain ⟨-, -, -, -, -, -, hpos', hle'⟩ := ofNumber_spec n
  have hday := day_lt m
  have hday' := day_lt n
  have := rank_lt h
  unfold rank at this
  omega

end Day

namespace Moment

open Text

def InCalendar (m : Moment) : Prop := m.seconds / 86400 ≤ Day.lastNumber

instance (m : Moment) : Decidable m.InCalendar := inferInstanceAs (Decidable (_ ≤ _))

theorem toList_digits (width n : Nat) : (digits width n).toList = padded 10 width n := String.toList_ofList

theorem before_field {width a b : Nat} {xs ys : List Char} (hwidth : 0 < width) (ha : a < 10 ^ width)
    (hb : b < 10 ^ width)
    (h : a < b ∨ a = b ∧ before xs ys) : before (padded 10 width a ++ xs) (padded 10 width b ++ ys) := by
  rcases h with hlt | ⟨rfl, hrest⟩
  · exact before_append (by rw [length_padded (by decide) hwidth ha, length_padded (by decide) hwidth hb])
      (before_padded hwidth hb hlt) xs ys
  · rwa [before_append_same]

theorem toList_text (m : Moment) : m.text.toList = padded 10 4 m.day.year ++ '-' :: (padded 10 2 m.day.month ++
    '-' :: (padded 10 2 m.day.day ++ 'T' :: (padded 10 2 (m.seconds / 3600 % 24) ++ ':' ::
      (padded 10 2 (m.seconds / 60 % 60) ++ ':' :: (padded 10 2 (m.seconds % 60) ++ m.fraction.toList))))) := by
  simp only [text, clock, String.toList_append, toList_digits, List.append_assoc]
  rfl

theorem before_cons (c : Char) (xs ys : List Char) : before (c :: xs) (c :: ys) = before xs ys :=
  before_append_same [c] xs ys

theorem before_fraction {m n : Moment} (h : m.micros % 1000000 < n.micros % 1000000) :
    before m.fraction.toList n.fraction.toList := by
  have hn : n.fraction.toList = '.' :: padded 10 6 (n.micros % 1000000) := by
    rw [fraction, if_neg (by omega), String.toList_append, toList_digits]
    rfl
  rw [hn, fraction]
  split
  · rfl
  · rw [String.toList_append, toList_digits]
    exact (before_cons '.' _ _).trans (before_padded (by decide) (Nat.mod_lt _ (by decide)) h)

/-- **The texts of moments are in the order of the moments.** -/
theorem before_text {m n : Moment} (hn : n.InCalendar) (h : m.micros < n.micros) :
    before m.text.toList n.text.toList := by
  have hseconds : m.seconds < n.seconds ∨ m.seconds = n.seconds ∧ m.micros % 1000000 < n.micros % 1000000 := by
    unfold seconds
    omega
  have hdays : m.seconds / 86400 ≤ n.seconds / 86400 := Nat.div_le_div_right (by omega)
  have hm : m.InCalendar := Nat.le_trans hdays hn
  rw [toList_text, toList_text]
  refine before_field (by decide) (Day.year_lt hm) (Day.year_lt hn) ?_
  rw [before_cons]
  rcases Nat.lt_or_eq_of_le hdays with hlt | hsame
  · refine (Day.lex_of_lt hlt).imp_right (And.imp_right fun hmonth => ?_)
    refine before_field (by decide) (Day.month_lt _) (Day.month_lt _) (hmonth.imp_right (And.imp_right fun hday => ?_))
    rw [before_cons]
    have hbound := Day.day_lt (n.seconds / 86400)
    exact before_field (by decide) (Nat.lt_trans hday (Nat.lt_trans hbound (by decide)))
      (Nat.lt_trans hbound (by decide)) (.inl hday)
  · -- On one day the time of day decides.
    have hday : m.day = n.day := congrArg Day.ofNumber hsame
    have hbound := Day.day_lt (n.seconds / 86400)
    rw [hday, before_append_same, before_cons, before_append_same, before_cons]
    refine .inr ⟨rfl, before_field (by decide) (by omega) (by omega) ?_⟩
    rw [before_cons]
    have hclock : m.seconds / 3600 % 24 < n.seconds / 3600 % 24 ∨ m.seconds / 3600 % 24 = n.seconds / 3600 % 24 ∧
        (m.seconds / 60 % 60 < n.seconds / 60 % 60 ∨ m.seconds / 60 % 60 = n.seconds / 60 % 60 ∧
          (m.seconds % 60 < n.seconds % 60 ∨ m.seconds % 60 = n.seconds % 60 ∧
            m.micros % 1000000 < n.micros % 1000000)) := by
      omega
    refine hclock.imp_right (And.imp_right fun hminute => ?_)
    refine before_field (by decide) (by omega) (by omega) (hminute.imp_right (And.imp_right fun hsecond => ?_))
    rw [before_cons]
    exact before_field (by decide) (by omega) (by omega) (hsecond.imp_right (And.imp_right before_fraction))

end Moment
end SourceBench
