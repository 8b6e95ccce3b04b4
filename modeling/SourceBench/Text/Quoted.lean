import SourceBench.Text.PrintTable
import SourceBench.Text.Letter

/-!
# Quoted text

Text between quotes with its unprintable characters shown by number.
-/
namespace SourceBench.Text

def isPrintable (c : Char) : Bool :=
  let n := c.toNat
  if n < 128 then 32 ≤ n && n < 127 else !inStretches unprintableStretches n

def hexDigits (width n : Nat) : List Char :=
  let ds := Nat.toDigits 16 n
  List.replicate (width - ds.length) '0' ++ ds

def quoteChar (mark c : Char) : List Char :=
  let n := c.toNat
  if c == mark || c == '\\' then ['\\', c]
  else if c == '\n' then ['\\', 'n']
  else if c == '\r' then ['\\', 'r']
  else if c == '\t' then ['\\', 't']
  else if isPrintable c then [c]
  else if n < 0x100 then '\\' :: 'x' :: hexDigits 2 n
  else if n < 0x10000 then '\\' :: 'u' :: hexDigits 4 n
  else '\\' :: 'U' :: hexDigits 8 n

/-- Text between single quotes, or between double ones when it holds single quotes and no double ones. -/
def quoted (cs : List Char) : List Char :=
  let mark := if cs.contains '\'' && !cs.contains '"' then '"' else '\''
  mark :: (cs.flatMap (quoteChar mark) ++ [mark])

end SourceBench.Text
