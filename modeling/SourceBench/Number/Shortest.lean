import SourceBench.Number.Binary64

/-!
# Shortest decimal text

The fewest decimal digits that read back as the same number, and of those the nearest.  Small and large numbers are
written with an exponent, all others with a point and at least one digit behind it.
-/
namespace SourceBench.Binary64

/-- The smallest power of ten above `n / d`, as its exponent.  `fuel` steps from `k` up. -/
def decimalExponent (n d : Nat) : Nat → Int → Int
  | 0, k => k
  | fuel + 1, k =>
    let above := if k < 0 then n * Nat.pow 10 k.natAbs < d else n < d * Nat.pow 10 k.natAbs
    if above then k else decimalExponent n d fuel (k + 1)

/-- Digits `t` such that `t * 10 ^ e` reads back: the nearest of the neighbours on the grid of `count` digits, if any
does.  The number is `n / d`, its interval goes from `lo / d` to `hi / d`, ends included if `closed`. -/
def onGrid (n d lo hi : Nat) (closed : Bool) (e : Int) : Option Nat :=
  let unitN := if e < 0 then 1 else Nat.pow 10 e.natAbs
  let unitD := if e < 0 then Nat.pow 10 e.natAbs else 1
  let t := (n * unitD) / (d * unitN)
  let inside (u : Nat) : Bool :=
    let x := u * unitN * d
    let l := lo * unitD
    let h := hi * unitD
    if closed then l ≤ x && x ≤ h else l < x && x < h
  let far := n * unitD - t * unitN * d
  let near := (t + 1) * unitN * d - n * unitD
  match inside t, inside (t + 1) with
  | true, true => some (if far < near then t else if near < far then t + 1 else if t % 2 = 0 then t else t + 1)
  | true, false => some t
  | false, true => some (t + 1)
  | false, false => none

def firstGrid (n d lo hi : Nat) (closed : Bool) (top : Int) : Nat → Nat → Nat × Int
  | 0, count => (n / d, top - count)
  | fuel + 1, count =>
    let e := top - count
    match onGrid n d lo hi closed e with
    | some t => (t, e)
    | none => firstGrid n d lo hi closed top fuel (count + 1)

def dropZeros : Nat → Nat → Int → Nat × Int
  | 0, t, e => (t, e)
  | fuel + 1, t, e => if t != 0 && t % 10 = 0 then dropZeros fuel (t / 10) (e + 1) else (t, e)

/-- Digits and exponent of the shortest decimal that reads back as `m * 2 ^ q`. -/
def shortest (m : Nat) (q : Int) : Nat × Int :=
  let up := if q < 0 then 1 else Nat.pow 2 q.natAbs
  let down := if q < 0 then Nat.pow 2 q.natAbs else 1
  let n := 4 * m * up
  let d := 4 * down
  let hi := n + 2 * up
  let lo := if m = Nat.pow 2 52 && -1074 < q then n - up else n - 2 * up
  let top := decimalExponent n d 800 (-330)
  let (t, e) := firstGrid n d lo hi (m % 2 = 0) top 17 1
  dropZeros 20 t e

def digitsOf (n : Nat) : List Char := Nat.toDigits 10 n

/-- Digits with a point, or with an exponent from `10 ^ 16` up and below `10 ^ -4`. -/
def decimalText (t : Nat) (e : Int) : List Char :=
  let ds := digitsOf t
  let point : Int := ds.length + e
  if point < -3 || 16 < point then
    let x := point - 1
    let mark := if x < 0 then '-' else '+'
    let xs := digitsOf x.natAbs
    let xs := if xs.length < 2 then '0' :: xs else xs
    let mantissa := match ds with
      | [c] => [c]
      | c :: r => c :: '.' :: r
      | [] => []
    mantissa ++ 'e' :: mark :: xs
  else if point ≤ 0 then '0' :: '.' :: (List.replicate point.natAbs '0' ++ ds)
  else if ds.length ≤ point.natAbs then
    ds ++ List.replicate (point.natAbs - ds.length) '0' ++ ['.', '0']
  else ds.take point.natAbs ++ '.' :: ds.drop point.natAbs

def text : Binary64 → List Char
  | nan => "nan".toList
  | infinite negative => (if negative then "-inf" else "inf").toList
  | finite negative m q =>
    let body := if m = 0 then "0.0".toList else decimalText (shortest m q).1 (shortest m q).2
    if negative then '-' :: body else body

end SourceBench.Binary64
