import SourceBench.Proofs.Value.Json
import SourceBench.Text.Search

/-!
# Texts in values

What the JSON text of a value shows of the texts in it.  A text stands there in quotes, however deep in lists and
objects it is (`Json.quote_isInfix_write`), and there its plain characters stand for themselves (`Json.isInfix_quote`).
All others are escaped: what is written is ASCII (`Json.clean_write`).
-/
namespace SourceBench

open List String

/-! ## Occurrences -/

theorem Text.occurs_iff {part : List Char} : ∀ {cs : List Char}, Text.occurs part cs ↔ part <:+: cs
  | [] => by rw [occurs, List.isEmpty_iff, List.infix_nil]
  | c :: cs => by rw [occurs, Bool.or_eq_true, List.isPrefixOf_iff_prefix, occurs_iff, List.infix_cons_iff]

theorem Text.isInfix_append_left {x a : List Char} (h : x <:+: a) (b : List Char) : x <:+: a ++ b :=
  h.trans (prefix_append a b).isInfix

theorem Text.isInfix_append_right {x b : List Char} (h : x <:+: b) (a : List Char) : x <:+: a ++ b :=
  h.trans (suffix_append a b).isInfix

/-! ## Texts of a value -/

namespace Value

mutual
/-- All texts in a value, those in lists and objects too.  Keys are none. -/
def texts : Value → List String
  | .str s => [s]
  | .list vs => textsOf vs
  | .object fs => textsIn fs
  | _ => []
def textsOf : List Value → List String
  | [] => []
  | v :: vs => texts v ++ textsOf vs
def textsIn : List (String × Value) → List String
  | [] => []
  | (_, v) :: fs => texts v ++ textsIn fs
end

end Value

namespace Json

open Text Value

/-! ## A text is written in quotes -/

variable {s : String} (style : Style)

mutual
theorem quote_isInfix_write : ∀ (v : Value) (depth : Nat), s ∈ texts v → quote s.toList <:+: write style depth v
  | .str s', depth, h => by
    rw [texts, mem_singleton] at h
    subst h
    simp only [write, infix_rfl]
  | .list [], _, h => absurd h not_mem_nil
  | .list (v :: vs), depth, h => by
    rw [texts, textsOf, mem_append] at h
    rw [write]
    refine infix_cons (isInfix_append_left (isInfix_append_left ?_ _) _)
    rcases h with h | h
    · exact isInfix_append_left (isInfix_append_right (quote_isInfix_write v (depth + 1) h) _) _
    · exact isInfix_append_right (quote_isInfix_writeItems vs (depth + 1) h) _
  | .object [], _, h => absurd h not_mem_nil
  | .object ((k, v) :: fs), depth, h => by
    rw [texts, textsIn, mem_append] at h
    rw [write]
    refine infix_cons (isInfix_append_right (infix_cons (infix_cons
      (isInfix_append_left (isInfix_append_left ?_ _) _))) _)
    rcases h with h | h
    · exact isInfix_append_left (quote_isInfix_write v (depth + 1) h) _
    · exact isInfix_append_right (quote_isInfix_writeFields fs (depth + 1) h) _
  | .null, _, h => absurd h not_mem_nil
  | .bool _, _, h => absurd h not_mem_nil
  | .int _, _, h => absurd h not_mem_nil
  | .float _, _, h => absurd h not_mem_nil
theorem quote_isInfix_writeItems : ∀ (vs : List Value) (depth : Nat), s ∈ textsOf vs →
    quote s.toList <:+: writeItems style depth vs
  | [], _, h => absurd h not_mem_nil
  | v :: vs, depth, h => by
    rw [textsOf, mem_append] at h
    rw [writeItems]
    rcases h with h | h
    · exact isInfix_append_left (isInfix_append_right (quote_isInfix_write v depth h) _) _
    · exact isInfix_append_right (quote_isInfix_writeItems vs depth h) _
theorem quote_isInfix_writeFields : ∀ (fs : List (String × Value)) (depth : Nat), s ∈ textsIn fs →
    quote s.toList <:+: writeFields style depth fs
  | [], _, h => absurd h not_mem_nil
  | (k, v) :: fs, depth, h => by
    rw [textsIn, mem_append] at h
    rw [writeFields]
    refine isInfix_append_right (infix_cons (infix_cons ?_)) _
    rcases h with h | h
    · exact isInfix_append_left (quote_isInfix_write v depth h) _
    · exact isInfix_append_right (quote_isInfix_writeFields fs depth h) _
end

/-- A character that is written as it is: printable ASCII other than the quote and the backslash. -/
def isPlain (c : Char) : Bool := 32 ≤ c.toNat && c.toNat < 127 && c != '"' && c != '\\'

theorem encodeChar_of_isPlain {c : Char} (h : isPlain c) : encodeChar c = [c] := by
  simp only [isPlain, Bool.and_eq_true, decide_eq_true_eq, bne_iff_ne] at h
  obtain ⟨⟨⟨hlow, hhigh⟩, hquote⟩, hslash⟩ := h
  have hcontrol : ∀ d : Char, d.toNat < 32 → c ≠ d := by
    rintro d hd rfl
    omega
  simp only [encodeChar, beq_iff_eq]
  rw [if_neg hquote, if_neg hslash, if_neg (hcontrol '\n' (by decide)), if_neg (hcontrol '\r' (by decide)),
    if_neg (hcontrol '\t' (by decide)), if_neg (by omega), if_neg (by omega), if_pos (by simp [hlow, hhigh])]

theorem isInfix_quote {name cs : List Char} (hname : ∀ c ∈ name, isPlain c) (h : name <:+: cs) :
    name <:+: quote cs := by
  have hplain : name.flatMap encodeChar = name := by
    rw [flatMap_congr fun c hc => encodeChar_of_isPlain (hname c hc), flatMap_singleton']
  obtain ⟨a, b, rfl⟩ := h
  rw [quote, flatMap_append, flatMap_append, hplain]
  exact infix_cons (isInfix_append_left (infix_append _ _ _) _)

/-! ## What is written is ASCII -/

/-- ASCII, and no carriage return. -/
def Clean (cs : List Char) : Prop := ∀ c ∈ cs, c.toNat < 128 ∧ c ≠ '\r'

instance (cs : List Char) : Decidable (Clean cs) := decidableBAll _ cs

theorem clean_nil : Clean [] := fun _ h => absurd h not_mem_nil

theorem Clean.append {a b : List Char} (ha : Clean a) (hb : Clean b) : Clean (a ++ b) := forall_mem_append.2 ⟨ha, hb⟩

theorem Clean.cons {c : Char} {a : List Char} (hc : c.toNat < 128 ∧ c ≠ '\r') (ha : Clean a) : Clean (c :: a) :=
  forall_mem_cons.2 ⟨hc, ha⟩

theorem clean_toDigits {base : Nat} (h : 1 < base) (hbase : base ≤ 16) (n : Nat) : Clean (Nat.toDigits base n) := by
  intro c hc
  obtain ⟨d, hd, rfl⟩ := exists_of_mem_toDigits h hc
  have hclean : ∀ d < 16, (Nat.digitChar d).toNat < 128 ∧ Nat.digitChar d ≠ '\r' := by decide
  exact hclean d (by omega)

theorem clean_replicate {c : Char} (hc : c.toNat < 128 ∧ c ≠ '\r') (n : Nat) : Clean (replicate n c) := by
  intro x hx
  rwa [eq_of_mem_replicate hx]

theorem clean_escapeUnit (n : Nat) : Clean (escapeUnit n) :=
  .cons (by decide) (.cons (by decide) ((clean_replicate (by decide) _).append
    (clean_toDigits (by decide) (by decide) n)))

theorem clean_encodeChar (c : Char) : Clean (encodeChar c) := by
  unfold encodeChar
  dsimp only
  split_ifs with _ _ _ _ _ _ _ hplain _
  · decide
  · decide
  · decide
  · decide
  · decide
  · decide
  · decide
  · simp only [Bool.and_eq_true, decide_eq_true_eq] at hplain
    exact .cons ⟨by omega, by rintro rfl; revert hplain; decide⟩ (by decide)
  · exact clean_escapeUnit _
  · exact (clean_escapeUnit _).append (clean_escapeUnit _)

theorem clean_quote (cs : List Char) : Clean (quote cs) := by
  refine .cons (by decide) (.append (fun x hx => ?_) (by decide))
  obtain ⟨c, -, hc⟩ := mem_flatMap.1 hx
  exact clean_encodeChar c x hc

theorem clean_digitsOf (n : Nat) : Clean (Binary64.digitsOf n) := clean_toDigits (by decide) (by decide) n

theorem clean_decimalText (t : Nat) (e : Int) : Clean (Binary64.decimalText t e) := by
  have hdigits := clean_digitsOf t
  unfold Binary64.decimalText
  dsimp only
  split
  · refine .append ?_ (.cons (by decide) (.cons ?_ ?_))
    · split
      · rename_i c heq
        rwa [heq] at hdigits
      · rename_i c r _ heq
        rw [heq] at hdigits
        exact .cons (hdigits c mem_cons_self) (.cons (by decide) (forall_mem_cons.1 hdigits).2)
      · decide
    · split
      · decide
      · decide
    · split
      · exact .cons (by decide) (clean_digitsOf _)
      · exact clean_digitsOf _
  · split
    · exact .cons (by decide) (.cons (by decide) ((clean_replicate (by decide) _).append hdigits))
    · split
      · exact (hdigits.append (clean_replicate (by decide) _)).append (by decide)
      · exact .append (fun c hc => hdigits c (mem_of_mem_take hc))
          (.cons (by decide) fun c hc => hdigits c (mem_of_mem_drop hc))

theorem clean_floatText (x : Binary64) : Clean (floatText x) := by
  cases x with
  | nan => decide
  | infinite negative => cases negative <;> decide
  | finite negative m q =>
    have hbody : Clean (if m = 0 then "0.0".toList
        else Binary64.decimalText (Binary64.shortest m q).1 (Binary64.shortest m q).2) := by
      split
      · decide
      · exact clean_decimalText _ _
    cases negative with
    | false => exact hbody
    | true => exact .cons (by decide) hbody

theorem clean_int (n : Int) : Clean (toString n).toList := by
  cases n with
  | ofNat n =>
    have htext : (toString (Int.ofNat n)).toList = Nat.toDigits 10 n := by
      show (Int.ofNat n).repr.toList = _
      rw [Int.repr, Nat.repr, toList_ofList]
    rw [htext]
    exact clean_toDigits (by decide) (by decide) n
  | negSucc n =>
    have htext : (toString (Int.negSucc n)).toList = ['-'] ++ Nat.toDigits 10 (n + 1) := by
      show (Int.negSucc n).repr.toList = _
      rw [Int.repr, Nat.repr, toList_append, toList_ofList, toList_ofList]
    rw [htext]
    exact .append (by decide) (clean_toDigits (by decide) (by decide) (n + 1))

theorem clean_lineBreak (style : Style) (depth : Nat) : Clean (style.lineBreak depth) := by
  cases style with
  | oneLine => exact clean_nil
  | indented k => exact .cons (by decide) (clean_replicate (by decide) _)

theorem clean_comma (style : Style) (depth : Nat) : Clean (style.comma depth) := by
  cases style with
  | oneLine => exact .cons (by decide) (.cons (by decide) clean_nil)
  | indented k => exact .cons (by decide) (.cons (by decide) (clean_replicate (by decide) _))

mutual
/-- **The JSON text of a value is ASCII,** and has no carriage return. -/
theorem clean_write : ∀ (v : Value) (depth : Nat), Clean (write style depth v)
  | .null, _ => by
    rw [write]
    decide
  | .bool b, _ => by
    rw [write]
    cases b <;> decide
  | .int n, _ => clean_int n
  | .float x, _ => clean_floatText x
  | .str s, _ => clean_quote s.toList
  | .list [], _ => by
    rw [write]
    decide
  | .list (v :: vs), depth => by
    rw [write]
    exact .cons (by decide)
      (((((clean_lineBreak style _).append (clean_write v _)).append (clean_writeItems vs _)).append
      (clean_lineBreak style _)).append (by decide))
  | .object [], _ => by
    rw [write]
    decide
  | .object ((k, v) :: fs), depth => by
    rw [write]
    exact .cons (by decide) (((clean_lineBreak style _).append (clean_quote _)).append
      (.cons (by decide) (.cons (by decide)
      ((((clean_write v _).append (clean_writeFields fs _)).append (clean_lineBreak style _)).append (by decide)))))
theorem clean_writeItems : ∀ (vs : List Value) (depth : Nat), Clean (writeItems style depth vs)
  | [], _ => clean_nil
  | v :: vs, depth => by
    rw [writeItems]
    exact ((clean_comma style depth).append (clean_write v depth)).append (clean_writeItems vs depth)
theorem clean_writeFields : ∀ (fs : List (String × Value)) (depth : Nat), Clean (writeFields style depth fs)
  | [], _ => clean_nil
  | (k, v) :: fs, depth => by
    rw [writeFields]
    exact ((clean_comma style depth).append (clean_quote _)).append (.cons (by decide) (.cons (by decide)
      ((clean_write v depth).append (clean_writeFields fs depth))))
end

end Json
end SourceBench
