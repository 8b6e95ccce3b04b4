/-!
# Arguments of a command line

Options have names with one hyphen and a letter, or with two hyphens and a word.  Letters may be joined behind one
hyphen.  The value of an option follows it, directly or as the next argument, and may look like an option itself.  Two
hyphens end the options.
-/
namespace SourceBench

inductive OptionEffect where
  | turn (on : Bool)
  | take
deriving DecidableEq, Repr

structure OptionRule where
  names : List String
  key : String
  effect : OptionEffect := .turn true
deriving DecidableEq, Repr

inductive Setting where
  | turned (on : Bool)
  | taken (value : String)
deriving DecidableEq, Repr

structure Arguments where
  settings : List (String × Setting) := []
  operands : List String := []
deriving DecidableEq, Repr

namespace Arguments

def ruleOf (rules : List OptionRule) (name : List Char) : Option OptionRule :=
  rules.find? fun r => r.names.contains (String.ofList name)

structure Reading where
  settings : List (String × Setting)
  wants : Option String := none
deriving DecidableEq, Repr

def readLetters (rules : List OptionRule) : List Char → Option Reading
  | [] => some { settings := [] }
  | c :: r => match ruleOf rules ['-', c] with
    | none => none
    | some rule => match rule.effect with
      | .turn b => (readLetters rules r).map fun x => { x with settings := (rule.key, .turned b) :: x.settings }
      | .take =>
        if r.isEmpty then some { settings := [], wants := some rule.key }
        else some { settings := [(rule.key, .taken (String.ofList r))] }

/-- Reads a word behind two hyphens, perhaps with an equals sign and a value. -/
def readWord (rules : List OptionRule) (cs : List Char) : Option Reading :=
  let name := cs.takeWhile (· != '=')
  match ruleOf rules name, cs.dropWhile (· != '=') with
  | none, _ => none
  | some rule, [] => match rule.effect with
    | .turn b => some { settings := [(rule.key, .turned b)] }
    | .take => some { settings := [], wants := some rule.key }
  | some rule, _ :: value => match rule.effect with
    | .turn _ => none
    | .take => some { settings := [(rule.key, .taken (String.ofList value))] }

def readOption (rules : List OptionRule) : List Char → Option Reading
  | '-' :: '-' :: r => readWord rules ('-' :: '-' :: r)
  | '-' :: r => readLetters rules r
  | _ => none

def looksLikeOption : List Char → Bool
  | '-' :: _ :: _ => true
  | _ => false

def after (ss : List (String × Setting)) (a : Arguments) : Arguments := { a with settings := ss ++ a.settings }

/-- Tells options and operands apart, none when an option is wrong.  Options behind the first operand count only if
`mixed`. -/
def read (rules : List OptionRule) (mixed : Bool) : List String → Option Arguments
  | [] => some {}
  | arg :: rest =>
    if arg == "--" then some { operands := rest }
    else if looksLikeOption arg.toList then
      match readOption rules arg.toList, rest with
      | none, _ => none
      | some ⟨ss, none⟩, rest => (read rules mixed rest).map (after ss)
      | some ⟨ss, some key⟩, value :: rest => (read rules mixed rest).map (after (ss ++ [(key, .taken value)]))
      | some ⟨_, some _⟩, [] => none
    else if mixed then (read rules mixed rest).map fun a => { a with operands := arg :: a.operands }
    else some { operands := arg :: rest }

def last? (a : Arguments) (key : String) : Option Setting := (a.settings.reverse.find? (·.1 == key)).map (·.2)

def flag (a : Arguments) (key : String) (default : Bool) : Bool :=
  match a.last? key with
  | some (.turned b) => b
  | _ => default

def value? (a : Arguments) (key : String) : Option String :=
  match a.last? key with
  | some (.taken s) => some s
  | _ => none

end Arguments
end SourceBench
