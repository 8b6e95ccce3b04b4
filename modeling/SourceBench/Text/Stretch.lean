/-!
# Stretches

A set of numbers is written as the lengths of the stretches, from zero on, that are outside and inside of it by turns.
-/
namespace SourceBench.Text

def inStretches : List Nat → Nat → Bool
  | gap :: run :: rest, n => gap ≤ n && (n < gap + run || inStretches rest (n - (gap + run)))
  | _, _ => false

end SourceBench.Text
