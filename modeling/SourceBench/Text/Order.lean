/-!
# Order of texts
-/
namespace SourceBench.Text

def before : List Char → List Char → Bool
  | [], b => !b.isEmpty
  | _ :: _, [] => false
  | a :: r, b :: s => a.toNat < b.toNat || (a == b && before r s)

end SourceBench.Text
