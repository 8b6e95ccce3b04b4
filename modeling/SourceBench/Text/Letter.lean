import SourceBench.Text.CaseTable
import SourceBench.Text.Stretch

/-!
# Upper and lower case

Case of characters and texts by the full Unicode rules: one character may become several, and a capital sigma at the end
of a word becomes the final small sigma.
-/
namespace SourceBench.Text

def shiftOf (runs : List (Nat × Nat × Nat × Int)) (n : Nat) : Option Int :=
  (runs.find? fun (first, last, step, _) => first ≤ n && n ≤ last && (n - first) % step == 0).map (·.2.2.2)

/-- A character mapped by tables; a character in none of them stays as it is. -/
def mapChar (runs : List (Nat × Nat × Nat × Int)) (words : List (Nat × List Nat)) (c : Char) : List Char :=
  let n := c.toNat
  match words.find? (·.1 == n) with
  | some (_, ns) => ns.map Char.ofNat
  | none => match shiftOf runs n with
    | some d => [Char.ofNat ((n : Int) + d).toNat]
    | none => [c]

def upperChar (c : Char) : List Char := if c.toNat < 128 then [c.toUpper] else mapChar upperRuns upperWords c

def lowerChar (c : Char) : List Char := if c.toNat < 128 then [c.toLower] else mapChar lowerRuns lowerWords c

def isCapital (c : Char) : Bool :=
  if c.toNat < 128 then c.isUpper else (shiftOf pairRuns c.toNat).isSome || inStretches otherCapitals c.toNat

/-- The first character with regard to case has it. -/
def casedFirst (cs : List Char) : Bool :=
  match cs.dropWhile fun c => inStretches uncasedStretches c.toNat with
  | [] => false
  | c :: _ => inStretches casedStretches c.toNat

def upper (cs : List Char) : List Char := cs.flatMap upperChar

/-- The lower case of a text after the characters `before`, last first. -/
def lowerAfter (before : List Char) : List Char → List Char
  | [] => []
  | c :: r =>
    (if c.toNat == 0x3A3 then [if casedFirst before && !casedFirst r then 'ς' else 'σ'] else lowerChar c)
      ++ lowerAfter (c :: before) r

def lower (cs : List Char) : List Char := lowerAfter [] cs

end SourceBench.Text
