/-!
# Binary floating point

Numbers with 53 significant bits, held exactly as `m * 2 ^ q`.  Decimal text is rounded to the nearest such number, a
tie to the even one.
-/
namespace SourceBench

/-- A number with 53 significant bits: `m * 2 ^ q` with a sign, or what is beyond all of them, or no number. -/
inductive Binary64 where
  | finite (negative : Bool) (m : Nat) (q : Int)
  | infinite (negative : Bool)
  | nan
deriving DecidableEq, Repr

namespace Binary64

/-- The quotient rounded to the nearest whole number, a tie to the even one. -/
def roundDiv (n d : Nat) : Nat :=
  let k := n / d
  let r := n % d
  if 2 * r < d then k else if d < 2 * r then k + 1 else if k % 2 = 0 then k else k + 1

/-- Numerator and denominator of `(n / d) / 2 ^ q`. -/
def scaled (n d : Nat) (q : Int) : Nat × Nat :=
  if q < 0 then (n * Nat.pow 2 q.natAbs, d) else (n, d * Nat.pow 2 q.natAbs)

def ofRatio (negative : Bool) (n d : Nat) : Binary64 :=
  if n = 0 then finite negative 0 (-1074)
  else
    let guess : Int := (n.log2 : Int) - (d.log2 : Int) - 52
    let small := scaled n d guess
    let guess := if small.1 / small.2 < Nat.pow 2 52 then guess - 1 else guess
    let q := max guess (-1074)
    let (a, b) := scaled n d q
    let m := roundDiv a b
    let (m, q) := if m = Nat.pow 2 53 then (Nat.pow 2 52, q + 1) else (m, q)
    if 971 < q then infinite negative else finite negative m q

def ofDecimal (negative : Bool) (digits : Nat) (exponent : Int) : Binary64 :=
  if digits = 0 then finite negative 0 (-1074)
  else if 400 < exponent then infinite negative
  else if exponent + (digits.log2 : Int) < -1200 then finite negative 0 (-1074)
  else if exponent < 0 then ofRatio negative digits (Nat.pow 10 exponent.natAbs)
  else ofRatio negative (digits * Nat.pow 10 exponent.natAbs) 1

/-- The whole number next to a finite number on the way to zero. -/
def truncate : Binary64 → Option Int
  | finite negative m q =>
    let n : Nat := if q < 0 then m / Nat.pow 2 q.natAbs else m * Nat.pow 2 q.natAbs
    some (if negative then -(n : Int) else n)
  | _ => none

def isZero : Binary64 → Bool
  | finite _ m _ => m == 0
  | _ => false

end Binary64
end SourceBench
