/-!
# UTF-8

Text as bytes.  Only the shortest form of a code point is read, and no surrogates.
-/
namespace SourceBench

abbrev Bytes := List UInt8

namespace Utf8

def encodeChar (c : Char) : Bytes :=
  let n := c.toNat
  if n < 0x80 then [UInt8.ofNat n]
  else if n < 0x800 then [UInt8.ofNat (0xC0 + n / 0x40), UInt8.ofNat (0x80 + n % 0x40)]
  else if n < 0x10000 then
    [UInt8.ofNat (0xE0 + n / 0x1000), UInt8.ofNat (0x80 + n / 0x40 % 0x40), UInt8.ofNat (0x80 + n % 0x40)]
  else
    [UInt8.ofNat (0xF0 + n / 0x40000), UInt8.ofNat (0x80 + n / 0x1000 % 0x40), UInt8.ofNat (0x80 + n / 0x40 % 0x40),
      UInt8.ofNat (0x80 + n % 0x40)]

def encode (cs : List Char) : Bytes := cs.flatMap encodeChar

def isTail (b : UInt8) : Bool := 0x80 ≤ b && b < 0xC0

/-- The six bits that a continuing byte carries. -/
def tailBits (b : UInt8) : Nat := b.toNat - 0x80

/-- The text that bytes stand for, `none` when they are not UTF-8. -/
def decode : Bytes → Option (List Char)
  | [] => some []
  | a :: r₁ =>
    if a < 0x80 then (decode r₁).map (Char.ofNat a.toNat :: ·)
    else match r₁ with
      | [] => none
      | b :: r₂ =>
        if !isTail b then none
        else if 0xC2 ≤ a && a < 0xE0 then
          (decode r₂).map (Char.ofNat ((a.toNat - 0xC0) * 0x40 + tailBits b) :: ·)
        else match r₂ with
          | [] => none
          | c :: r₃ =>
            if !isTail c then none
            else if 0xE0 ≤ a && a < 0xF0 then
              let n := (a.toNat - 0xE0) * 0x1000 + tailBits b * 0x40 + tailBits c
              if n < 0x800 || (0xD800 ≤ n && n < 0xE000) then none else (decode r₃).map (Char.ofNat n :: ·)
            else match r₃ with
              | [] => none
              | d :: r₄ =>
                if !isTail d || a < 0xF0 then none
                else
                  let n := (a.toNat - 0xF0) * 0x40000 + tailBits b * 0x1000 + tailBits c * 0x40 + tailBits d
                  if n < 0x10000 || 0x110000 ≤ n then none else (decode r₄).map (Char.ofNat n :: ·)

end Utf8
end SourceBench
