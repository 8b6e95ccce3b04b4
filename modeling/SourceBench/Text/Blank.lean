/-!
# White space

The characters that count as white space in text, and text without the white space at its ends.
-/
namespace SourceBench.Text

/-- White space: the Unicode separators, the controls that move the pen, and the information separators. -/
def isSpace (c : Char) : Bool :=
  let n := c.toNat
  (9 ≤ n && n ≤ 13) || (0x1C ≤ n && n ≤ 0x20) || n == 0x85 || n == 0xA0 || n == 0x1680
    || (0x2000 ≤ n && n ≤ 0x200A) || n == 0x2028 || n == 0x2029 || n == 0x202F || n == 0x205F || n == 0x3000

def trimLeft (cs : List Char) : List Char := cs.dropWhile isSpace

def trimRight (cs : List Char) : List Char := (cs.reverse.dropWhile isSpace).reverse

def trim (cs : List Char) : List Char := trimRight (trimLeft cs)

end SourceBench.Text
