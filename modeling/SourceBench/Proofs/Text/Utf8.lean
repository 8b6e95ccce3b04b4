import Mathlib.Algebra.GroupWithZero.Nat
import Mathlib.Data.List.Basic
import Mathlib.Data.List.Induction
import SourceBench.Text.Utf8

/-!
# Sizes of texts

A text takes as many bytes as its characters do (`length_encode`), so places in a text, which count the bytes of the
characters before them, are places among its bytes.  Decoding undoes encoding (`decode_encode`) and encoding undoes
decoding (`encode_of_decode`), and a text stands in another where its bytes do (`infix_of_encode`).  A `Cut` is a place
between two characters.
-/
namespace SourceBench.Utf8

open List

def byteSize (text : List Char) : Nat := (text.map Char.utf8Size).sum

@[simp] theorem byteSize_nil : byteSize [] = 0 := rfl

@[simp] theorem byteSize_cons (a : Char) (text : List Char) : byteSize (a :: text) = a.utf8Size + byteSize text := by
  simp [byteSize]

@[simp] theorem byteSize_append (a b : List Char) : byteSize (a ++ b) = byteSize a + byteSize b := by
  simp [byteSize]

variable {text front : List Char} {n : Nat} {b : UInt8}

theorem byteSize_pos (h : text ≠ []) : 0 < byteSize text := by
  cases text with
  | nil => exact absurd rfl h
  | cons a text =>
    rw [byteSize_cons]
    have := a.utf8Size_pos
    omega

theorem toNat_ofNat (h : n.isValidChar) : (Char.ofNat n).val.toNat = n := by
  rw [Char.ofNat, dif_pos h]
  rfl

theorem utf8Size_ofNat (h : n.isValidChar) :
    (Char.ofNat n).utf8Size = if n < 0x80 then 1 else if n < 0x800 then 2 else if n < 0x10000 then 3 else 4 := by
  have hn := toNat_ofNat h
  simp only [Char.utf8Size, UInt32.le_iff_toNat_le, hn, UInt32.toNat_ofNatLT]
  grind

theorem isTail_bounds (h : ¬(!isTail b)) : 0x80 ≤ b.toNat ∧ b.toNat < 0xC0 := by
  simpa [isTail, UInt8.le_iff_toNat_le, UInt8.lt_iff_toNat_lt] using h

/-! ## Decoding what was encoded -/

theorem toNat_ofNat_lt (h : n < 256) : (UInt8.ofNat n).toNat = n := by
  rw [UInt8.toNat_ofNat', Nat.mod_eq_of_lt h]

theorem isTail_tail (n : Nat) : isTail (UInt8.ofNat (0x80 + n % 0x40)) := by
  simp (disch := omega) only [isTail, UInt8.lt_iff_toNat_lt, UInt8.le_iff_toNat_le, toNat_ofNat_lt]
  grind

theorem tailBits_tail (n : Nat) : tailBits (UInt8.ofNat (0x80 + n % 0x40)) = n % 0x40 := by
  have h := toNat_ofNat_lt (n := 0x80 + n % 0x40) (by omega)
  unfold tailBits
  omega

theorem decode_one (h : n < 0x80) (r : Bytes) : decode (UInt8.ofNat n :: r) = (decode r).map (Char.ofNat n :: ·) := by
  rw [decode.eq_def]
  simp (disch := omega) only [UInt8.lt_iff_toNat_lt, toNat_ofNat_lt]
  exact if_pos h

theorem decode_two (h : 0x80 ≤ n) (h' : n < 0x800) (r : Bytes) :
    decode (UInt8.ofNat (0xC0 + n / 0x40) :: UInt8.ofNat (0x80 + n % 0x40) :: r)
      = (decode r).map (Char.ofNat n :: ·) := by
  have hn : (0xC0 + n / 0x40 - 0xC0) * 0x40 + n % 0x40 = n := by omega
  rw [decode.eq_def]
  simp (disch := omega) only [UInt8.lt_iff_toNat_lt, UInt8.le_iff_toNat_le, toNat_ofNat_lt, isTail_tail,
    tailBits_tail, hn]
  grind

theorem decode_three (h : 0x800 ≤ n) (h' : n < 0x10000) (hv : n.isValidChar) (r : Bytes) :
    decode (UInt8.ofNat (0xE0 + n / 0x1000) :: UInt8.ofNat (0x80 + n / 0x40 % 0x40) ::
      UInt8.ofNat (0x80 + n % 0x40) :: r) = (decode r).map (Char.ofNat n :: ·) := by
  have hn : (0xE0 + n / 0x1000 - 0xE0) * 0x1000 + n / 0x40 % 0x40 * 0x40 + n % 0x40 = n := by omega
  unfold Nat.isValidChar at hv
  rw [decode.eq_def]
  simp (disch := omega) only [UInt8.lt_iff_toNat_lt, UInt8.le_iff_toNat_le, toNat_ofNat_lt, isTail_tail,
    tailBits_tail, hn]
  grind

theorem decode_four (h : 0x10000 ≤ n) (h' : n < 0x110000) (r : Bytes) :
    decode (UInt8.ofNat (0xF0 + n / 0x40000) :: UInt8.ofNat (0x80 + n / 0x1000 % 0x40) ::
      UInt8.ofNat (0x80 + n / 0x40 % 0x40) :: UInt8.ofNat (0x80 + n % 0x40) :: r)
        = (decode r).map (Char.ofNat n :: ·) := by
  have hn : (0xF0 + n / 0x40000 - 0xF0) * 0x40000 + n / 0x1000 % 0x40 * 0x1000 + n / 0x40 % 0x40 * 0x40
      + n % 0x40 = n := by
    omega
  rw [decode.eq_def]
  simp (disch := omega) only [UInt8.lt_iff_toNat_lt, UInt8.le_iff_toNat_le, toNat_ofNat_lt, isTail_tail,
    tailBits_tail, hn]
  grind

theorem decode_encodeChar_append (c : Char) (r : Bytes) : decode (encodeChar c ++ r) = (decode r).map (c :: ·) := by
  have hv : c.toNat.isValidChar := c.valid
  have hback : Char.ofNat c.toNat = c := Char.ofNat_toNat c
  unfold encodeChar
  generalize c.toNat = n at hv hback
  subst hback
  simp only
  split
  · exact decode_one ‹_› r
  · split
    · exact decode_two (by omega) ‹_› r
    · split
      · exact decode_three (by omega) ‹_› hv r
      · refine decode_four (by omega) ?_ r
        unfold Nat.isValidChar at hv
        omega

theorem decode_encode : ∀ text : List Char, decode (encode text) = some text
  | [] => rfl
  | c :: text => by
    show decode (encodeChar c ++ encode text) = _
    rw [decode_encodeChar_append, decode_encode text]
    rfl

theorem length_encodeChar (c : Char) : (encodeChar c).length = c.utf8Size := by
  have hsize := utf8Size_ofNat (n := c.toNat) c.valid
  rw [Char.ofNat_toNat] at hsize
  rw [hsize]
  unfold encodeChar
  dsimp only
  split
  · rfl
  · split
    · rfl
    · split <;> rfl

@[simp] theorem length_encode (text : List Char) : (encode text).length = byteSize text := by
  simp only [encode, length_flatMap, byteSize, length_encodeChar]

@[simp] theorem encode_append (a b : List Char) : encode (a ++ b) = encode a ++ encode b := flatMap_append

theorem encode_inj {a b : List Char} : encode a = encode b ↔ a = b := by
  refine ⟨fun h => ?_, congrArg encode⟩
  have hdecode := decode_encode a
  rw [h, decode_encode] at hdecode
  exact (Option.some.inj hdecode).symm

/-! ## Encoding what was decoded -/

theorem ofNat_eq (h : n = b.toNat) : UInt8.ofNat n = b := by
  rw [h, UInt8.ofNat_toNat]

theorem encodeChar_ofNat (h : n.isValidChar) : encodeChar (Char.ofNat n) = if n < 0x80 then [UInt8.ofNat n]
    else if n < 0x800 then [UInt8.ofNat (0xC0 + n / 0x40), UInt8.ofNat (0x80 + n % 0x40)]
    else if n < 0x10000 then
      [UInt8.ofNat (0xE0 + n / 0x1000), UInt8.ofNat (0x80 + n / 0x40 % 0x40), UInt8.ofNat (0x80 + n % 0x40)]
    else [UInt8.ofNat (0xF0 + n / 0x40000), UInt8.ofNat (0x80 + n / 0x1000 % 0x40),
      UInt8.ofNat (0x80 + n / 0x40 % 0x40),
        UInt8.ofNat (0x80 + n % 0x40)] := by
  have hn : (Char.ofNat n).toNat = n := toNat_ofNat h
  rw [encodeChar, hn]

theorem encode_of_map {r : Bytes} (h : (decode r).map (Char.ofNat n :: ·) = some text)
    (ih : ∀ {text}, decode r = some text → encode text = r) : encode text = encodeChar (Char.ofNat n) ++ r := by
  obtain ⟨cs, hcs, rfl⟩ := Option.map_eq_some_iff.1 h
  exact congrArg (_ ++ ·) (ih hcs)

/-- **Decoding loses nothing:** no two sequences of bytes stand for the same text. -/
theorem encode_of_decode {bytes : Bytes} (h : decode bytes = some text) : encode text = bytes := by
  fun_induction decode bytes generalizing text with
  | case1 =>
    cases h
    rfl
  | case2 a r ha ih =>
    have ha' : a.toNat < 128 := UInt8.lt_iff_toNat_lt.1 ha
    rw [encode_of_map h ih, encodeChar_ofNat (by left; omega), if_pos ha', UInt8.ofNat_toNat]
    rfl
  | case5 a ha b r hb hab ih =>
    have hb' := isTail_bounds hb
    have hab' : 0xC2 ≤ a.toNat ∧ a.toNat < 0xE0 := by
      simpa [UInt8.le_iff_toNat_le, UInt8.lt_iff_toNat_lt] using hab
    unfold tailBits at h
    rw [encode_of_map h ih, encodeChar_ofNat (by left; omega), if_neg (by omega), if_pos (by omega),
      ofNat_eq (b := a) (by omega), ofNat_eq (b := b) (by omega)]
    rfl
  | case9 a ha b hb hab c r hc hac n hn =>
    rename_i ih
    have hb' := isTail_bounds hb
    have hc' := isTail_bounds hc
    have hac' : 0xE0 ≤ a.toNat ∧ a.toNat < 0xF0 := by
      simpa [UInt8.le_iff_toNat_le, UInt8.lt_iff_toNat_lt] using hac
    simp only [Bool.or_eq_true, Bool.and_eq_true, decide_eq_true_eq, not_or, not_and, Nat.not_lt] at hn
    have hdef : n = (a.toNat - 0xE0) * 0x1000 + (b.toNat - 0x80) * 0x40 + (c.toNat - 0x80) := rfl
    rw [encode_of_map h ih, encodeChar_ofNat (by unfold Nat.isValidChar; omega), if_neg (by omega), if_neg (by omega),
      if_pos (by omega), ofNat_eq (b := a) (by omega), ofNat_eq (b := b) (by omega), ofNat_eq (b := c) (by omega)]
    rfl
  | case13 a ha b hb hab c hc hac d r hd n hn =>
    rename_i ih
    have hb' := isTail_bounds hb
    have hc' := isTail_bounds hc
    rw [Bool.or_eq_true, not_or] at hd
    have hd' := isTail_bounds hd.1
    have ha' : 0xF0 ≤ a.toNat := by
      simpa [UInt8.le_iff_toNat_le, UInt8.lt_iff_toNat_lt] using hd.2
    simp only [Bool.or_eq_true, decide_eq_true_eq, not_or, Nat.not_lt, Nat.not_le] at hn
    have hdef : n = (a.toNat - 0xF0) * 0x40000 + (b.toNat - 0x80) * 0x1000 + (c.toNat - 0x80) * 0x40
        + (d.toNat - 0x80) := rfl
    rw [encode_of_map h ih, encodeChar_ofNat (by unfold Nat.isValidChar; omega), if_neg (by omega), if_neg (by omega),
      if_neg (by omega),
      ofNat_eq (b := a) (by omega), ofNat_eq (b := b) (by omega), ofNat_eq (b := c) (by omega),
        ofNat_eq (b := d) (by omega)]
    rfl
  | case3 | case4 | case6 | case7 | case8 | case10 | case11 | case12 => cases h

/-! ## Texts in texts -/

theorem isTail_of_head (h : n < 0x80 ∨ 0xC0 ≤ n) (h' : n < 256) : isTail (UInt8.ofNat n) = false := by
  simp (disch := omega) only [isTail, UInt8.lt_iff_toNat_lt, UInt8.le_iff_toNat_le, toNat_ofNat_lt]
  grind

theorem encodeChar_eq (c : Char) : ∃ a r, encodeChar c = a :: r ∧ isTail a = false ∧ ∀ b ∈ r, isTail b := by
  have hv : c.toNat < 0x110000 := by
    have hv : c.toNat.isValidChar := c.valid
    unfold Nat.isValidChar at hv
    omega
  unfold encodeChar
  generalize c.toNat = n at hv
  simp only
  split
  · exact ⟨_, _, rfl, isTail_of_head (.inl ‹_›) (by omega), fun b hb => absurd hb not_mem_nil⟩
  · -- The bytes behind the first are all made in the same way.
    split
    case isTrue => exact ⟨_, _, rfl, isTail_of_head (.inr (by omega)) (by omega),
      by simp only [mem_cons, not_mem_nil, or_false, forall_eq, isTail_tail]⟩
    case isFalse =>
      split <;> exact ⟨_, _, rfl, isTail_of_head (.inr (by omega)) (by omega),
        by simp only [mem_cons, not_mem_nil, or_false, forall_eq_or_imp, forall_eq, isTail_tail, and_self]⟩

theorem prefix_of_encode : ∀ {u v : List Char} {z : Bytes}, encode v = encode u ++ z → u <+: v
  | [], v, _, _ => nil_prefix
  | c :: u, [], z, h => by
    obtain ⟨a, r, hc, -⟩ := encodeChar_eq c
    rw [show encode (c :: u) = encodeChar c ++ encode u from rfl, hc] at h
    cases h
  | c :: u, d :: v, z, h => by
    have hdecode : (decode (encode u ++ z)).map (c :: ·) = some (d :: v) := by
      rw [← decode_encodeChar_append, ← append_assoc, ← decode_encode (d :: v)]
      exact congrArg decode h.symm
    obtain ⟨w, hw, hcons⟩ := Option.map_eq_some_iff.1 hdecode
    cases hcons
    exact cons_prefix_cons.2 ⟨rfl, prefix_of_encode (append_cancel_left (h.trans (append_assoc _ _ _)))⟩

/-- **A text whose bytes stand in those of another stands in it**: no character begins within another. -/
theorem infix_of_encode {u : List Char} (hu : u ≠ []) : ∀ {v : List Char}, encode u <:+: encode v → u <:+: v
  | [], h => by
    have := length_encode u ▸ h.length_le
    have := byteSize_pos hu
    simp [encode] at *
    omega
  | c :: v, ⟨x, z, h⟩ => by
    obtain ⟨a, r, hc, -, htails⟩ := encodeChar_eq c
    obtain ⟨c', u', rfl⟩ := exists_cons_of_ne_nil hu
    obtain ⟨a', r', hc', hhead, -⟩ := encodeChar_eq c'
    have h' : x ++ (encode (c' :: u') ++ z) = encodeChar c ++ encode v := (append_assoc _ _ _).symm.trans h
    rcases append_eq_append_iff.1 h' with ⟨y, hy, hrest⟩ | ⟨x', rfl, hrest⟩
    · cases x with
      | nil =>
        have hprefix : encode (c :: v) = encode (c' :: u') ++ z := h'.symm
        exact (prefix_of_encode hprefix).isInfix
      | cons b x =>
        cases y with
        | nil => exact (infix_of_encode hu ⟨[], z, hrest⟩).trans (suffix_cons c v).isInfix
        | cons b' y =>
          -- The other text would begin with a byte that continues a character.
          have hb' : b' = a' := by
            have : a' :: (r' ++ (encode u' ++ z)) = b' :: (y ++ encode v) := by
              rw [← cons_append, ← hc']
              exact (append_assoc _ _ _).symm.trans hrest
            exact (cons.inj this).1.symm
          have hmem : b' ∈ r := by
            have : a :: r = b :: (x ++ b' :: y) := hc.symm.trans hy
            rw [(cons.inj this).2]
            exact mem_append_right _ mem_cons_self
          rw [hb'] at hmem
          rw [htails a' hmem] at hhead
          cases hhead
    · exact (infix_of_encode hu ⟨x', z, by rw [append_assoc, hrest]⟩).trans (suffix_cons c v).isInfix

/-! ## Cuts of a text -/

/-- The place is the beginning of a character, or the end of the text. -/
def Cut (text : List Char) (n : Nat) : Prop := ∃ before after, text = before ++ after ∧ byteSize before = n

instance (text : List Char) (n : Nat) : Decidable (Cut text n) :=
  decidable_of_iff (∃ k ∈ range (text.length + 1), byteSize (text.take k) = n) ⟨fun ⟨k, _, hk⟩ =>
    ⟨text.take k, text.drop k, (take_append_drop k text).symm, hk⟩, fun ⟨before, after, htext, hn⟩ =>
    ⟨before.length, mem_range.2 (by rw [htext, length_append]; omega), by rw [htext, take_left, hn]⟩⟩

theorem cut_zero (text : List Char) : Cut text 0 := ⟨[], text, rfl, rfl⟩

theorem cut_length (text : List Char) : Cut text (encode text).length :=
  ⟨text, [], (append_nil _).symm, (length_encode text).symm⟩

theorem eq_nil_of_byteSize_le {a b : List Char} (h : byteSize (a ++ b) ≤ byteSize a) : b = [] := by
  by_cases hb : b = []
  · exact hb
  · have := byteSize_pos hb
    rw [byteSize_append] at h
    omega

theorem Cut.split {a z : Nat} (ha : Cut text a) (hz : Cut text z) (h : a ≤ z) :
    ∃ before middle after, text = before ++ middle ++ after ∧ byteSize before = a ∧
      byteSize (before ++ middle) = z := by
  obtain ⟨before, rest, hrest, rfl⟩ := ha
  obtain ⟨front, after, hafter, rfl⟩ := hz
  rcases append_eq_append_iff.1 (hrest.symm.trans hafter) with ⟨middle, rfl, -⟩ | ⟨c, rfl, hc⟩
  · exact ⟨before, middle, after, hafter, rfl, rfl⟩
  · obtain rfl := eq_nil_of_byteSize_le h
    refine ⟨front, [], after, ?_, ?_, ?_⟩
    · rw [hafter, append_nil]
    · rw [append_nil]
    · rw [append_nil]

theorem Cut.of_append {rest : List Char} (h : Cut (front ++ rest) n) (hn : n ≤ byteSize front) : Cut front n := by
  obtain ⟨before, after, heq, rfl⟩ := h
  rcases append_eq_append_iff.1 heq with ⟨c, rfl, -⟩ | ⟨c, rfl, -⟩
  · obtain rfl := eq_nil_of_byteSize_le hn
    rw [append_nil]
    exact ⟨front, [], (append_nil _).symm, rfl⟩
  · exact ⟨before, c, rfl, rfl⟩

theorem Cut.append (h : Cut front n) (rest : List Char) : Cut (front ++ rest) n := by
  obtain ⟨before, after, rfl, hn⟩ := h
  exact ⟨before, after ++ rest, append_assoc _ _ _, hn⟩

theorem Cut.sides (h : Cut text n) :
    ∃ before after, text = before ++ after ∧ byteSize before = n ∧ (encode text).take n = encode before ∧
      (encode text).drop n = encode after := by
  obtain ⟨before, after, rfl, rfl⟩ := h
  refine ⟨before, after, rfl, rfl, ?_, ?_⟩
  · rw [encode_append, ← length_encode, take_left]
  · rw [encode_append, ← length_encode, drop_left]

theorem not_isTail_of_lt (h : b < 0x80) : isTail b = false := by
  rw [UInt8.lt_iff_toNat_lt] at h
  simp only [isTail, Bool.and_eq_false_iff, decide_eq_false_iff_not, UInt8.le_iff_toNat_le]
  exact .inl (Nat.not_le.2 h)

theorem Cut.step {rest : Bytes} (h : Cut text n) (hbytes : (encode text).drop n = b :: rest) (hb : b < 0x80) :
    Cut text (n + 1) := by
  obtain ⟨before, after, rfl, rfl, -, hafter⟩ := h.sides
  rw [hbytes] at hafter
  cases after with
  | nil => cases hafter
  | cons c after =>
    refine ⟨before ++ [c], after, (append_cons before c after), ?_⟩
    -- The first byte tells that the character has no other.
    have hsize : c.utf8Size = 1 := by
      have hdecode := decode_encode (c :: after)
      rw [← hafter, decode.eq_def] at hdecode
      simp only [hb, if_true] at hdecode
      obtain ⟨r, -, hcons⟩ := Option.map_eq_some_iff.1 hdecode
      have hbound : b.toNat < 0x80 := UInt8.lt_iff_toNat_lt.1 hb
      rw [← (cons.inj hcons).1, utf8Size_ofNat (.inl (Nat.lt_trans hbound (by decide))), if_pos hbound]
    rw [byteSize_append, byteSize_cons, hsize]
    rfl

theorem encode_eq_concat {y : Bytes} (h : encode text = y ++ [b]) (hb : b < 0x80) :
    ∃ front c, text = front ++ [c] ∧ encode front = y ∧ c.utf8Size = 1 := by
  rcases eq_nil_or_concat' text with rfl | ⟨front, c, rfl⟩
  · exact absurd h (by simp [encode])
  · obtain ⟨a, r, hc, -, htails⟩ := encodeChar_eq c
    have hbytes : encode front ++ a :: r = y ++ [b] := by
      rw [← h, encode_append, ← hc]
      simp [encode]
    rcases eq_nil_or_concat' r with rfl | ⟨r, b', rfl⟩
    · refine ⟨front, c, rfl, (append_inj' hbytes rfl).1, ?_⟩
      rw [← length_encodeChar, hc]
      rfl
    · have hlast : b' = b := by
        rw [← cons_append, ← append_assoc] at hbytes
        exact singleton_inj.1 (append_inj' hbytes rfl).2
      have htail := htails b' (by simp)
      rw [hlast, not_isTail_of_lt hb] at htail
      cases htail

theorem Cut.back (h : Cut text n) {x w : Bytes} (hbytes : (encode text).take n = x ++ w) (hw : ∀ b ∈ w, b < 0x80) :
    Cut text (n - w.length) := by
  obtain ⟨before, after, rfl, rfl, hbefore, -⟩ := h.sides
  rw [hbytes] at hbefore
  suffices hcut : Cut before (byteSize before - w.length) from hcut.append after
  clear hbytes h
  induction w using reverseRecOn generalizing before with
  | nil => exact ⟨before, [], (append_nil _).symm, rfl⟩
  | append_singleton w b ih =>
    obtain ⟨front, c, rfl, hfront, hsize⟩ := encode_eq_concat (y := x ++ w) (by rw [append_assoc]; exact hbefore.symm)
      (hw b (by simp))
    have hcut := ih (fun b' hb' => hw b' (mem_append_left _ hb')) front hfront.symm
    have heq : byteSize (front ++ [c]) - (w ++ [b]).length = byteSize front - w.length := by
      rw [byteSize_append, byteSize_cons, hsize, byteSize_nil, length_append, length_singleton]
      omega
    rw [heq]
    exact hcut.append [c]

end SourceBench.Utf8
