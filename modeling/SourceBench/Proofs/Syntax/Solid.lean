import SourceBench.Proofs.Syntax.Derivation
import SourceBench.Text.Blank

/-!
# Solid text

A text is solid when all of it is ink: no character counts as blank between tokens or as white space at a line end.  All
punctuation and keywords are solid, and so is what the classes of words and numbers take (`Lexeme.solid_of_takes`), so
trimming a line takes nothing from such a leaf.
-/
namespace SourceBench.Syntax

open List Bool

/-- The character is seen: neither blank between tokens nor white space at a line end. -/
def isInk (c : Char) : Bool := !isBlank c && !Text.isSpace c

def Solid (text : List Char) : Prop := text.all isInk = true

instance (text : List Char) : Decidable (Solid text) := inferInstanceAs (Decidable (_ = true))

variable {c : Char} {digit : Char → Bool}

theorem isInk_of_ascii (h : 33 ≤ c.toNat) (h' : c.toNat ≤ 126) : isInk c := by
  simp only [isInk, isBlank, Text.isSpace, and_eq_true, not_eq_true', or_eq_false_iff,
    and_eq_false_iff, decide_eq_false_iff_not, beq_eq_false_iff_ne]
  omega

theorem isInk_of_isWordChar (h : isWordChar c) : isInk c := by
  simp only [isWordChar, and_eq_true, decide_eq_true_eq, not_eq_true'] at h
  obtain ⟨⟨hlow, hblank⟩, -⟩ := h
  simp only [isInk, hblank, Bool.not_false, Bool.true_and, not_eq_true']
  simp only [isBlank, or_eq_false_iff, and_eq_false_iff, decide_eq_false_iff_not,
    beq_eq_false_iff_ne] at hblank
  simp only [Text.isSpace, or_eq_false_iff, and_eq_false_iff, decide_eq_false_iff_not, beq_eq_false_iff_ne]
  omega

theorem isInk_of_range {a b : Char} (ha : 33 ≤ a.toNat) (hb : b.toNat ≤ 126) (h : (a ≤ c && c ≤ b)) : isInk c := by
  simp only [and_eq_true, decide_eq_true_eq, Char.le_def, UInt32.le_iff_toNat_le] at h
  exact isInk_of_ascii (Nat.le_trans ha h.1) (Nat.le_trans h.2 hb)

theorem isInk_of_isDigit (h : isDigit c) : isInk c :=
  isInk_of_range (a := '0') (b := '9') (by decide) (by decide) h

theorem isInk_of_isHexDigit (h : isHexDigit c) : isInk c := by
  simp only [isHexDigit, or_eq_true] at h
  rcases h with (h | h) | h
  · exact isInk_of_isDigit h
  · exact isInk_of_range (a := 'a') (b := 'f') (by decide) (by decide) h
  · exact isInk_of_range (a := 'A') (b := 'F') (by decide) (by decide) h

/-! ## Putting solid texts together -/

theorem solid_nil : Solid [] := rfl

theorem solid_cons {r : List Char} : Solid (c :: r) ↔ isInk c ∧ Solid r := by
  simp [Solid]

theorem solid_append {a b : List Char} : Solid (a ++ b) ↔ Solid a ∧ Solid b := by
  simp [Solid, all_append]

theorem solid_take_add {cs : List Char} {m n : Nat} (h : Solid (cs.take m)) (h' : Solid ((cs.drop m).take n)) :
    Solid (cs.take (m + n)) := by
  rw [take_add, solid_append]
  exact ⟨h, h'⟩

theorem solid_takeWhile {p : Char → Bool} (hp : ∀ c, p c → isInk c) (cs : List Char) :
    Solid (cs.take (cs.takeWhile p).length) := by
  rw [← prefix_iff_eq_take.1 (List.takeWhile_prefix p)]
  exact all_eq_true.2 fun c hc => hp c (mem_takeWhile_imp hc)

theorem solid_take_succ {cs : List Char} {m : Nat} (h : Solid (cs.take m)) (hc : (cs.drop m).head? = some c)
    (hink : isInk c) : Solid (cs.take (m + 1)) := by
  refine solid_take_add h ?_
  cases hd : cs.drop m with
  | nil =>
    rw [hd] at hc
    cases hc
  | cons a r =>
    rw [hd, head?_cons, Option.some.injEq] at hc
    rw [hc]
    exact solid_cons.2 ⟨hink, solid_nil⟩

/-! ## Words -/

theorem solid_wordEscape (cs : List Char) : Solid (cs.take (wordEscapeLength cs)) := by
  unfold wordEscapeLength
  split
  · rename_i r
    simp only
    split
    · rename_i h
      rw [and_eq_true, beq_iff_eq] at h
      have hhex := solid_takeWhile (fun _ => isInk_of_isHexDigit) r
      have hall : Solid (r.take ((r.takeWhile isHexDigit).length + 1)) := solid_take_succ hhex h.2 (by decide)
      rw [show (r.takeWhile isHexDigit).length + 4 = (r.takeWhile isHexDigit).length + 1 + 1 + 1 + 1 from rfl]
      simp only [take_succ_cons, solid_cons]
      exact ⟨by decide, by decide, by decide, hall⟩
    · exact solid_nil
  · rename_i r _
    split
    · rename_i h
      rw [and_eq_true, all_eq_true] at h
      simp only [take_succ_cons, solid_cons]
      exact ⟨by decide, by decide, all_eq_true.2 fun c hc => isInk_of_isHexDigit (h.2 c hc)⟩
    · exact solid_nil
  · exact solid_nil

theorem solid_wordTail : ∀ (n : Nat) (cs : List Char), Solid (cs.take (wordTailLength n cs))
  | 0, _ => solid_nil
  | _ + 1, [] => solid_nil
  | n + 1, c :: r => by
    unfold wordTailLength
    split
    · rename_i hc
      rw [Nat.add_comm, take_succ_cons, solid_cons]
      exact ⟨isInk_of_isWordChar hc, solid_wordTail n r⟩
    · split
      · exact solid_nil
      · rename_i k hk
        have hescape := solid_wordEscape (c :: r)
        rw [hk] at hescape
        exact solid_take_add hescape (solid_wordTail n _)

theorem solid_word (cs : List Char) : Solid (cs.take (wordLength cs)) := by
  cases cs with
  | nil => exact solid_nil
  | cons c r =>
    simp only [wordLength]
    split
    · exact solid_wordTail _ _
    · exact solid_nil

/-! ## Numbers -/

theorem solid_digits (hdigit : ∀ c, digit c → isInk c) (cs : List Char) : Solid (cs.take (digitsLength digit cs)) := by
  fun_induction digitsLength digit cs with
  | case1 => exact solid_nil
  | case2 c hc => exact solid_cons.2 ⟨hdigit c hc, solid_nil⟩
  | case3 c hc => exact solid_nil
  | case4 c d r hc => exact solid_nil
  | case5 c d r hc hd ih =>
    rw [and_eq_true, beq_iff_eq] at hd
    rw [Nat.add_comm, take_succ_cons, take_succ_cons, solid_cons, solid_cons, hd.1]
    exact ⟨hdigit c (by simpa using hc), by decide, ih⟩
  | case6 c d r hc hd ih =>
    rw [Nat.add_comm, take_succ_cons, solid_cons]
    exact ⟨hdigit c (by simpa using hc), ih⟩

theorem solid_exponent (cs : List Char) : Solid (cs.take (exponentLength cs)) := by
  unfold exponentLength
  split
  · rename_i c r
    split
    · rename_i hc
      simp only
      split
      · exact solid_nil
      · rename_i n hn
        have hdigits := solid_digits (fun _ => isInk_of_isDigit)
          (r.drop (if r.head? == some '+' || r.head? == some '-' then 1 else 0))
        rw [hn] at hdigits
        have hsign : Solid (r.take (if r.head? == some '+' || r.head? == some '-' then 1 else 0)) := by
          split
          · rename_i hs
            rw [or_eq_true, beq_iff_eq, beq_iff_eq] at hs
            rcases hs with hs | hs
            · exact solid_take_succ (m := 0) solid_nil hs (by decide)
            · exact solid_take_succ (m := 0) solid_nil hs (by decide)
          · exact solid_nil
        rw [Nat.add_comm 1, Nat.add_right_comm, take_succ_cons, solid_cons]
        refine ⟨?_, solid_take_add hsign hdigits⟩
        rw [or_eq_true, beq_iff_eq, beq_iff_eq] at hc
        rcases hc with rfl | rfl
        · decide
        · decide
    · exact solid_nil
  · exact solid_nil

theorem solid_markedDigits (hdigit : ∀ c, digit c → isInk c) (cs : List Char) :
    Solid (cs.take (markedDigitsLength digit cs)) := by
  have hdigits := solid_digits hdigit cs
  unfold markedDigitsLength
  split
  · exact solid_nil
  · rename_i n hn
    rw [hn] at hdigits
    split
    · rename_i hmark
      exact solid_take_succ hdigits (beq_iff_eq.1 hmark) (by decide)
    · exact hdigits

theorem solid_decimal (cs : List Char) : Solid (cs.take (decimalLength cs)) := by
  have hwhole := solid_digits (fun _ => isInk_of_isDigit) cs
  unfold decimalLength
  simp only
  split
  · rename_i r hr
    split
    · exact solid_nil
    · exact solid_take_succ hwhole (by rw [hr]; rfl) (by decide)
  · rename_i s hs
    split
    · exact solid_nil
    · rw [Nat.add_assoc]
      have hdrop : cs.drop (digitsLength isDigit cs + 1) = s := by
        rw [← drop_drop, hs]
        rfl
      refine solid_take_add (solid_take_succ hwhole (by rw [hs]; rfl) (by decide)) ?_
      rw [hdrop]
      exact solid_take_add (solid_digits (fun _ => isInk_of_isDigit) s) (solid_exponent _)
  · split
    · exact solid_nil
    · exact solid_take_add hwhole (solid_exponent _)

theorem solid_number (cs : List Char) : Solid (cs.take (numberLength cs)) := by
  have based {digit : Char → Bool} (hdigit : ∀ c, digit c → isInk c) {r : List Char} {a b : Char}
      (ha : isInk a) (hb : isInk b) {n : Nat} (hn : markedDigitsLength digit r = n + 1) :
      Solid ((a :: b :: r).take (n + 3)) := by
    rw [take_succ_cons, take_succ_cons, solid_cons, solid_cons, ← hn]
    exact ⟨ha, hb, solid_markedDigits hdigit r⟩
  have hbit : ∀ c : Char, (c == '0' || c == '1') → isInk c := by
    intro c hc
    rw [or_eq_true, beq_iff_eq, beq_iff_eq] at hc
    rcases hc with rfl | rfl
    · decide
    · decide
  have hoctal : ∀ c : Char, (('0' ≤ c) && (c ≤ '7')) → isInk c :=
    fun c hc => isInk_of_range (a := '0') (b := '7') (by decide) (by decide) hc
  unfold numberLength
  simp only
  -- A mark of the base that no digit follows leaves a decimal number.
  split
  · split
    exacts [solid_decimal _, based (fun _ => isInk_of_isHexDigit) (by decide) (by decide) ‹_›]
  · split
    exacts [solid_decimal _, based (fun _ => isInk_of_isHexDigit) (by decide) (by decide) ‹_›]
  · split
    exacts [solid_decimal _, based hbit (by decide) (by decide) ‹_›]
  · split
    exacts [solid_decimal _, based hbit (by decide) (by decide) ‹_›]
  · split
    exacts [solid_decimal _, based hoctal (by decide) (by decide) ‹_›]
  · split
    exacts [solid_decimal _, based hoctal (by decide) (by decide) ‹_›]
  · exact solid_decimal cs

/-! ## Classes -/

def Lexeme.solid : Lexeme → Bool
  | exactly text => text.toList.all isInk
  | name | anyWord | looseWord | privateName | number | regexFlags => true
  | _ => false

theorem Lexeme.solid_of_takes {l : Lexeme} {text : List Char} (h : l.Takes text) (hl : l.solid) : Solid text := by
  obtain ⟨hne, cs, rfl⟩ := h
  cases l with
  | exactly text =>
    have hlen : keywordLength text cs ≠ 0 := fun h0 => hne (by rw [Lexeme.length, h0]; rfl)
    rw [Lexeme.length, take_keywordLength hlen]
    exact hl
  | name =>
    simp only [Lexeme.length]
    split
    · exact solid_nil
    · exact solid_word cs
  | anyWord => exact solid_word cs
  | looseWord =>
    simp only [Lexeme.length]
    split
    · exact solid_word cs
    · exact solid_nil
  | privateName =>
    simp only [Lexeme.length]
    split
    · rename_i r
      have hword := solid_word r
      split
      · exact solid_nil
      · rename_i n hn
        rw [hn] at hword
        rw [take_succ_cons, solid_cons]
        exact ⟨by decide, hword⟩
    · exact solid_nil
  | number => exact solid_number cs
  | regexFlags =>
    exact solid_takeWhile (fun c hc => isInk_of_range (a := 'a') (b := 'z') (by decide) (by decide) hc) cs
  | _ => cases hl

end SourceBench.Syntax
