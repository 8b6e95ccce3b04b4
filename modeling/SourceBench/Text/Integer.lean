import SourceBench.Text.Blank
import SourceBench.Text.PrintTable

/-!
# Integers in text

Reads an integer with white space around it, a sign, digits of any script, and single underscores between digits.
-/
namespace SourceBench.Text

def digitValue (c : Char) : Option Nat :=
  let n := c.toNat
  if 48 ≤ n && n ≤ 57 then some (n - 48)
  else (digitZeros.find? fun z => z ≤ n && n < z + 10).map (n - ·)

def readDigits (acc : Nat) : List Char → Option Nat
  | [] => some acc
  | '_' :: c :: r => match digitValue c with
    | some d => readDigits (10 * acc + d) r
    | none => none
  | c :: r => match digitValue c with
    | some d => readDigits (10 * acc + d) r
    | none => none

def readNat : List Char → Option Nat
  | [] => none
  | c :: r => match digitValue c with
    | some d => readDigits d r
    | none => none

/-- White space that may stand around a number: all but the information separators. -/
def isPadding (c : Char) : Bool := isSpace c && !(0x1C ≤ c.toNat && c.toNat ≤ 0x1F)

def readInt (cs : List Char) : Option Int :=
  match ((cs.dropWhile isPadding).reverse.dropWhile isPadding).reverse with
  | '-' :: r => (readNat r).map fun n => -(n : Int)
  | '+' :: r => (readNat r).map fun n => (n : Int)
  | r => (readNat r).map fun n => (n : Int)

end SourceBench.Text
