import Mathlib.Data.List.Basic
import SourceBench.Proofs.Text.Order
import SourceBench.Value.Json

/-!
# JSON is read as it was written

A value made of texts, lists and objects whose keys are distinct is read back from its JSON text, in either style and
whatever stands behind it (`readValue_write`, `parse_write`).
-/
namespace SourceBench.Json

open List

variable {blank r s t u : List Char} {fs : Fields} {k : String}

/-! ## Strings -/

theorem hexValue_digitChar : ∀ d < 16, hexValue (Nat.digitChar d) = some d := by decide

variable {n : Nat} {c : Char} {v : Value}

theorem hex4_eq (h : n < 0x10000) : hex4 n =
    [Nat.digitChar (n / 16 / 16 / 16), Nat.digitChar (n / 16 / 16 % 16), Nat.digitChar (n / 16 % 16),
      Nat.digitChar (n % 16)] := by
  rw [show hex4 n = Text.padded 16 4 n from rfl, Text.padded_succ (by decide) (by decide),
    Text.padded_succ (by decide) (by decide), Text.padded_succ (by decide) (by decide), Text.padded_one (by omega)]
  rfl

theorem readUnit_hex4 (h : n < 0x10000) (rest : List Char) : readUnit (hex4 n ++ rest) = some (n, rest) := by
  rw [hex4_eq h]
  simp only [cons_append, nil_append, readUnit, hexValue_digitChar _ (show n / 16 / 16 / 16 < 16 by omega),
    hexValue_digitChar _ (show n / 16 / 16 % 16 < 16 by omega), hexValue_digitChar _ (show n / 16 % 16 < 16 by omega),
    hexValue_digitChar _ (show n % 16 < 16 by omega)]
  congr 2
  omega

theorem toNat_cases (c : Char) : c.toNat < 0xD800 ∨ 0xE000 ≤ c.toNat ∧ c.toNat < 0x110000 := by
  have := c.valid
  simp only [UInt32.isValidChar, Nat.isValidChar] at this
  rcases this with h | ⟨h, h'⟩
  · exact .inl h
  · exact .inr ⟨h, h'⟩

theorem readEscape_unit (h : c.toNat < 0x10000) (rest : List Char) :
    readEscape (hex4 c.toNat ++ rest) = some (c, rest) := by
  have hcases := toNat_cases c
  rw [readEscape, readUnit_hex4 h]
  dsimp only
  rw [if_neg (by simp only [Bool.and_eq_true, decide_eq_true_eq]; omega), Char.ofNat_toNat]

theorem readEscape_pair (h : 0x10000 ≤ c.toNat) (rest : List Char) :
    readEscape (hex4 (0xD800 + (c.toNat - 0x10000) / 0x400) ++ '\\' :: 'u' ::
      (hex4 (0xDC00 + (c.toNat - 0x10000) % 0x400) ++ rest)) = some (c, rest) := by
  have hcases := toNat_cases c
  rw [readEscape, readUnit_hex4 (by omega)]
  dsimp only
  rw [if_pos (by simp only [Bool.and_eq_true, decide_eq_true_eq]; omega)]
  simp only [readUnit_hex4 (show 0xDC00 + (c.toNat - 0x10000) % 0x400 < 0x10000 by omega)]
  rw [if_pos (by simp only [Bool.and_eq_true, decide_eq_true_eq]; omega)]
  rw [show 0x10000 + (0xD800 + (c.toNat - 0x10000) / 0x400 - 0xD800) * 0x400 +
    (0xDC00 + (c.toNat - 0x10000) % 0x400 - 0xDC00) = c.toNat by omega, Char.ofNat_toNat]

theorem encodeChar_cases (c : Char) : (∃ d, encodeChar c = ['\\', d] ∧ d ≠ '\r' ∧
      ∀ n acc rest, readString (n + 1) acc ('\\' :: d :: rest) = readString n (c :: acc) rest) ∨
    (encodeChar c = [c] ∧ c ≠ '"' ∧ c ≠ '\\' ∧ 32 ≤ c.toNat) ∨ (encodeChar c = escapeUnit c.toNat ∧ c.toNat < 0x10000) ∨
    encodeChar c = escapeUnit (0xD800 + (c.toNat - 0x10000) / 0x400)
      ++ escapeUnit (0xDC00 + (c.toNat - 0x10000) % 0x400) ∧
      0x10000 ≤ c.toNat := by
  generalize heq : encodeChar c = text
  unfold encodeChar at heq
  dsimp only at heq
  iterate 5
    rw [ite_eq_iff] at heq
    rcases heq with ⟨h, heq⟩ | ⟨_, heq⟩
    · rw [beq_iff_eq.1 h]
      exact .inl ⟨_, heq.symm, by decide, fun _ _ _ => rfl⟩
  iterate 2
    rw [ite_eq_iff] at heq
    rcases heq with ⟨h, heq⟩ | ⟨_, heq⟩
    · rw [← Char.ofNat_toNat c, beq_iff_eq.1 h]
      exact .inl ⟨_, heq.symm, by decide, fun _ _ _ => rfl⟩
  split at heq
  · next hquote hslash _ _ _ _ _ hplain =>
    simp only [Bool.and_eq_true, decide_eq_true_eq] at hplain
    exact .inr (.inl ⟨heq.symm, hquote ∘ beq_iff_eq.2, hslash ∘ beq_iff_eq.2, hplain.1⟩)
  · split at heq
    · next hunit => exact .inr (.inr (.inl ⟨heq.symm, hunit⟩))
    · next hunit => exact .inr (.inr (.inr ⟨heq.symm, Nat.le_of_not_lt hunit⟩))

theorem escapeUnit_append (m : Nat) (cs : List Char) : escapeUnit m ++ cs = '\\' :: 'u' :: (hex4 m ++ cs) := rfl

theorem readString_encodeChar (n : Nat) (acc : List Char) (c : Char) (rest : List Char) :
    readString (n + 1) acc (encodeChar c ++ rest) = readString n (c :: acc) rest := by
  rcases encodeChar_cases c with ⟨d, heq, -, hread⟩ | ⟨heq, hquote, hslash, hplain⟩ | ⟨heq, hunit⟩ | ⟨heq, hpair⟩
  · rw [heq]
    exact hread n acc rest
  · rw [heq, singleton_append, readString]
    · rw [if_neg (Nat.not_lt.2 hplain)]
    all_goals simp_all
  · rw [heq, escapeUnit_append, readString, readEscape_unit hunit]
  · rw [heq, append_assoc, escapeUnit_append, escapeUnit_append, readString, readEscape_pair hpair]

theorem encodeChar_ne_nil (c : Char) : encodeChar c ≠ [] := by
  rcases encodeChar_cases c with ⟨d, heq, -⟩ | ⟨heq, -⟩ | ⟨heq, -⟩ | ⟨heq, -⟩ <;> (rw [heq]; exact cons_ne_nil _ _)

theorem length_le_flatMap_encodeChar : ∀ cs : List Char, cs.length ≤ (cs.flatMap encodeChar).length
  | [] => Nat.le_refl _
  | c :: cs => by
    have := length_le_flatMap_encodeChar cs
    have := length_pos_iff.2 (encodeChar_ne_nil c)
    rw [flatMap_cons, length_append, length_cons]
    omega

theorem readString_flatMap (rest : List Char) : ∀ (cs : List Char) (n : Nat) (acc : List Char), cs.length < n →
    readString n acc (cs.flatMap encodeChar ++ '"' :: rest) = some (acc.reverse ++ cs, rest)
  | [], n + 1, acc, _ => by
    rw [append_nil]
    rfl
  | c :: cs, n + 1, acc, h => by
    rw [flatMap_cons, append_assoc, readString_encodeChar,
      readString_flatMap rest cs n (c :: acc) (by simpa using h), reverse_cons, append_assoc]
    rfl

theorem readString_quoted (cs rest : List Char) :
    readString ((cs.flatMap encodeChar ++ '"' :: rest).length + 1) [] (cs.flatMap encodeChar ++ '"' :: rest) =
      some (cs, rest) := by
  refine readString_flatMap rest cs _ [] ?_
  have := length_le_flatMap_encodeChar cs
  rw [length_append]
  omega

theorem quote_append (cs rest : List Char) : quote cs ++ rest = '"' :: (cs.flatMap encodeChar ++ '"' :: rest) := by
  rw [quote, cons_append, append_assoc]
  rfl

/-! ## Blank space -/

theorem skip_append (h : ∀ c ∈ blank, isBlank c) (rest : List Char) :
    skip (blank ++ rest) = skip rest := dropWhile_append_of_pos h

theorem skip_cons (h : isBlank c = false) (rest : List Char) : skip (c :: rest) = c :: rest :=
  dropWhile_cons_of_neg (by simp [h])

theorem isBlank_lineBreak (style : Style) (depth : Nat) : ∀ c ∈ style.lineBreak depth, isBlank c := by
  intro c hc
  cases style with
  | oneLine => cases hc
  | indented k =>
    rcases mem_cons.1 hc with rfl | hc
    · rfl
    · rw [eq_of_mem_replicate hc]
      rfl

theorem comma_eq (style : Style) (depth : Nat) : ∃ blank, style.comma depth = ',' :: blank ∧
    ∀ c ∈ blank, isBlank c := by
  cases style with
  | oneLine => exact ⟨[' '], rfl, forall_mem_singleton.2 rfl⟩
  | indented k => exact ⟨_, rfl, isBlank_lineBreak (.indented k) depth⟩

/-! ## Values made of texts -/

mutual
/-- The value is made of texts, lists and objects with distinct keys. -/
def isTextual : Value → Bool
  | .str _ => true
  | .list vs => areTextual vs
  | .object fs => decide (fs.map (·.1)).Nodup && fieldsTextual fs
  | _ => false
def areTextual : List Value → Bool
  | [] => true
  | v :: vs => isTextual v && areTextual vs
def fieldsTextual : List (String × Value) → Bool
  | [] => true
  | (_, v) :: fs => isTextual v && fieldsTextual fs
end

theorem write_head (h : isTextual v) (style : Style) (depth : Nat) :
    ∃ c cs, write style depth v = c :: cs ∧ isBlank c = false ∧ c ≠ ']' ∧ c ≠ '\x7d' := by
  match v, h with
  | .str _, _ | .list [], _ | .list (_ :: _), _ | .object [], _ | .object ((_, _) :: _), _ =>
    exact ⟨_, _, rfl, by decide, by decide, by decide⟩

theorem skip_write (h : isTextual v) (style : Style) (depth : Nat) (rest : List Char) :
    skip (write style depth v ++ rest) = write style depth v ++ rest := by
  obtain ⟨c, cs, hcs, hblank, -, -⟩ := write_head h style depth
  rw [hcs, cons_append, skip_cons hblank]

/-! ## Reading -/

section

variable {style : Style} {depth m : Nat} {read : List Char → Option (Value × List Char)} {cs rest rest' : List Char}
  {v : Value}

theorem readItems_close (h : skip cs = ']' :: rest) (n : Nat) (acc : List Value) :
    readItems read (n + 1) acc cs = some (acc.reverse, rest) := by
  rw [readItems, h]
  rfl

theorem readItems_comma (h : skip cs = ',' :: rest) (hread : read (skip rest) = some (v, rest')) (n : Nat)
    (acc : List Value) :
    readItems read (n + 1) acc cs = readItems read n (v :: acc) rest' := by
  simp only [readItems, h, hread]

theorem readField_write (htext : isTextual v) (hread : ∀ cs, read (write style depth v ++ cs) = some (v, cs))
    (k : String) (rest : List Char) :
    readField read (quote k.toList ++ ':' :: ' ' :: (write style depth v ++ rest)) = some ((k, v), rest) := by
  have hskip : skip (' ' :: (write style depth v ++ rest)) = write style depth v ++ rest :=
    skip_write htext style depth rest
  rw [quote_append]
  simp only [readField, readString_quoted, skip_cons (show isBlank ':' = false by decide), hskip, hread,
    String.ofList_toList]

theorem set_of_not_mem (h : k ∉ fs.map (·.1)) (v : Value) : Fields.set fs k v = fs ++ [(k, v)] := by
  rw [Fields.set, if_neg]
  simp only [any_eq_true, beq_iff_eq, not_exists, not_and]
  exact fun f hf hk => h (mem_map.2 ⟨f, hf, hk⟩)

theorem readFields_close (h : skip cs = '\x7d' :: rest) (n : Nat) (acc : Fields) :
    readFields read (n + 1) acc cs = some (acc, rest) := by
  rw [readFields, h]
  rfl

theorem readFields_comma (h : skip cs = ',' :: rest) (hread : readField read (skip rest) = some ((k, v), rest'))
    (n : Nat) (acc : Fields) : readFields read (n + 1) acc cs = readFields read n (Fields.set acc k v) rest' := by
  simp only [readFields, h, hread]

variable
  (hread : ∀ v, isTextual v → (write style depth v).length ≤ m → ∀ cs, read (write style depth v ++ cs) = some (v, cs))
  (hblank : ∀ c ∈ blank, isBlank c)

include hread hblank

theorem readItems_write : ∀ (vs : List Value) (n : Nat) (acc : List Value), areTextual vs →
    (writeItems style depth vs).length ≤ m → (writeItems style depth vs).length < n →
      readItems read n acc (writeItems style depth vs ++ (blank ++ ']' :: rest)) = some (acc.reverse ++ vs, rest)
  | [], n + 1, acc, _, _, _ => by
    rw [writeItems, nil_append, append_nil]
    exact readItems_close (by rw [skip_append hblank, skip_cons (by decide)]) n acc
  | v :: vs, n + 1, acc, htext, hm, hn => by
    obtain ⟨gap, hcomma, hgap⟩ := comma_eq style depth
    rw [areTextual, Bool.and_eq_true] at htext
    rw [writeItems, hcomma] at hm hn ⊢
    simp only [length_append, length_cons] at hm hn
    simp only [append_assoc, cons_append]
    rw [readItems_comma (skip_cons (by decide) _)
      (by rw [skip_append hgap, skip_write htext.1, hread v htext.1 (by omega)]),
      readItems_write vs n (v :: acc) htext.2 (by omega) (by omega),
      reverse_cons, append_assoc]
    rfl

theorem readFields_write : ∀ (fs : List (String × Value)) (n : Nat) (acc : Fields), ((acc ++ fs).map (·.1)).Nodup →
    fieldsTextual fs → (writeFields style depth fs).length ≤ m → (writeFields style depth fs).length < n →
      readFields read n acc (writeFields style depth fs ++ (blank ++ '\x7d' :: rest)) = some (acc ++ fs, rest)
  | [], n + 1, acc, _, _, _, _ => by
    rw [writeFields, nil_append, append_nil]
    exact readFields_close (by rw [skip_append hblank, skip_cons (by decide)]) n acc
  | (k, v) :: fs, n + 1, acc, hkeys, htext, hm, hn => by
    obtain ⟨gap, hcomma, hgap⟩ := comma_eq style depth
    rw [fieldsTextual, Bool.and_eq_true] at htext
    have hnew : k ∉ acc.map (·.1) := by
      rw [map_append, nodup_append] at hkeys
      exact fun hk => hkeys.2.2 k hk k mem_cons_self rfl
    have hquote : ∀ cs, skip (quote k.toList ++ cs) = quote k.toList ++ cs := fun cs => skip_cons (by decide) _
    rw [writeFields, hcomma] at hm hn ⊢
    simp only [length_append, length_cons] at hm hn
    simp only [append_assoc, cons_append]
    rw [readFields_comma (skip_cons (by decide) _)
        (by rw [skip_append hgap, hquote, readField_write htext.1 (hread v htext.1 (by omega))]),
      set_of_not_mem hnew, readFields_write fs n (acc ++ [(k, v)]) (by simpa using hkeys) htext.2 (by omega)
        (by omega), append_assoc]
    rfl

end

theorem readValue_list {vs : List Value} (hskip : skip r = c :: s) (hc : c ≠ ']')
    (hv : readValue n (c :: s) = some (v, t)) (hvs : readItems (readValue n) (t.length + 1) [v] t = some (vs, u)) :
    readValue (n + 1) ('[' :: r) = some (.list vs, u) := by
  conv_lhs => whnf
  simp only [hskip]
  split
  · next heq => exact absurd (cons.inj heq).1 hc
  · next heq => simp only [hv, hvs]

theorem readValue_object {f : String × Value} (hskip : skip r = c :: s) (hc : c ≠ '\x7d')
    (hf : readField (readValue n) (c :: s) = some (f, t))
    (hfs : readFields (readValue n) (t.length + 1) [f] t = some (fs, u)) :
    readValue (n + 1) ('\x7b' :: r) = some (.object fs, u) := by
  conv_lhs => whnf
  simp only [hskip]
  split
  · next heq => exact absurd (cons.inj heq).1 hc
  · next heq => simp only [hf, hfs]

theorem readValue_write (style : Style) (n : Nat) : ∀ (v : Value) (depth : Nat), isTextual v →
    (write style depth v).length ≤ n → ∀ rest, readValue n (write style depth v ++ rest) = some (v, rest) := by
  -- The bound on the nesting is no less than the text is long, and what stands inside is shorter.
  induction n with
  | zero =>
    intro v depth htext hn
    obtain ⟨c, cs, hcs, -⟩ := write_head htext style depth
    rw [hcs] at hn
    cases hn
  | succ n ih =>
    intro v depth htext hn rest
    match v, htext with
    | .str s, _ =>
      rw [write, quote_append]
      conv_lhs => whnf
      rw [readString_quoted]
      dsimp only
      rw [String.ofList_toList]
    | .list [], _ => rfl
    | .list (v :: vs), htext =>
      rw [isTextual, areTextual, Bool.and_eq_true] at htext
      rw [write] at hn ⊢
      simp only [length_cons, length_append] at hn
      simp only [cons_append, append_assoc, nil_append]
      have hv := ih v (depth + 1) htext.1 (by omega)
      obtain ⟨c, cs, hcs, -, hc, -⟩ := write_head htext.1 style (depth + 1)
      have hfirst := hv (writeItems style (depth + 1) vs ++ (style.lineBreak depth ++ ']' :: rest))
      have hskip := skip_write htext.1 style (depth + 1)
        (writeItems style (depth + 1) vs ++ (style.lineBreak depth ++ ']' :: rest))
      rw [hcs, cons_append] at hfirst hskip ⊢
      refine readValue_list ((skip_append (isBlank_lineBreak style _) _).trans hskip) hc hfirst ?_
      refine readItems_write (fun w => ih w _) (isBlank_lineBreak style _) vs _ [v] htext.2 (by omega) ?_
      rw [length_append]
      omega
    | .object [], _ => rfl
    | .object ((k, v) :: fs), htext =>
      rw [isTextual, fieldsTextual, Bool.and_eq_true, Bool.and_eq_true, decide_eq_true_eq] at htext
      rw [write] at hn ⊢
      simp only [length_cons, length_append] at hn
      simp only [cons_append, append_assoc, nil_append]
      have hv := ih v (depth + 1) htext.2.1 (by omega)
      have hfirst := readField_write htext.2.1 hv k
        (writeFields style (depth + 1) fs ++ (style.lineBreak depth ++ '\x7d' :: rest))
      rw [quote_append] at hfirst ⊢
      refine readValue_object ((skip_append (isBlank_lineBreak style _) _).trans (skip_cons (by decide) _)) (by decide)
        hfirst ?_
      refine readFields_write (fun w => ih w _) (isBlank_lineBreak style _) fs _ [(k, v)] htext.1 htext.2.2
        (by omega) ?_
      rw [length_append]
      omega

theorem parse_write (style : Style) (h : isTextual v) : parse (String.ofList (write style 0 v)) = some v := by
  have hread := readValue_write style ((write style 0 v).length + 1) v 0 h (Nat.le_succ _) []
  have hskip := skip_write h style 0 []
  rw [append_nil] at hread hskip
  rw [parse, String.toList_ofList, hskip, hread]
  rfl

end SourceBench.Json
