import SourceBench.Proofs.Syntax.Names

/-!
# Bodies of classes

What is known of the rules for class bodies is known of the trees that they make: the body of a class starts with an
opening brace (`parse_opened`) and ends with its closing one (`parse_embodied`).
-/
namespace SourceBench.Syntax

open List
open Layout (partsOf)

theorem Made.rule {dialect : Dialect} {p : Kind → Maker → Bool} {t : Tree} (h : Made dialect p t)
    (hno : ∀ m, m.rule? = none → p t.kind m = false) (hk : t.kind ≠ .token) (hk' : t.kind ≠ .comment) :
    ∃ r c ts d, p t.kind (.node r) ∧ Derives grammar dialect r c ts d ∧
      t.children = ts.dropWhile (·.kind == .comment) := by
  have hyes : ∀ m, m.rule? = none → p t.kind m ≠ true := fun m hm => by simp [hno m hm]
  cases t with
  | leaf f k s text =>
    rcases h with h | h | h
    · exact absurd h hk
    · exact absurd h hk'
    · exact absurd h (hyes .lexeme rfl)
  | node f k s cs =>
    obtain ⟨m, ts, hm, hmakes, rfl⟩ := h
    cases hmakes with
    | node h => exact ⟨_, _, ts, _, hm, h, rfl⟩
    | link f hacc h => exact absurd hm (hyes _ rfl)

/-! ## Classes -/

def isClass : Kind → Bool
  | .classDeclaration | .abstractClassDeclaration => true
  | _ => false

def endsWithBrace (r : Rule) : Bool :=
  match (partsOf r).reverse with
  | .punct a _ :: _ => a == "\x7d"
  | _ => false

/-- Classes are nodes whose bodies are class bodies, and class bodies are nodes that end with a closing brace. -/
def classCheck (k : Kind) (m : Maker) : Bool :=
  match m.rule? with
  | none => !isClass k && k != .classBody
  | some r => (!isClass k || r.calls .body [.classBody]) && (k != .classBody || endsWithBrace r)

theorem grammar_classCheck (x : Symbol) : (grammar x).checked classCheck := by
  cases x <;> decide +kernel

theorem program_classCheck : Grammar.program.checked classCheck := by decide +kernel

theorem grammar_calls_body (x : Symbol) : (grammar x).calls .body [] := by
  cases x <;> decide +kernel

theorem derives_endsWithBrace {r : Rule} {c d : Cursor} {ts : List Tree} (hr : endsWithBrace r)
    (h : Derives grammar .typescript r c ts d) :
    ∃ us f s, ts.dropWhile (·.kind == .comment) = us ++ [.leaf f .token s ['\x7d']] := by
  obtain ⟨front, a, stops, hparts, ha⟩ : ∃ front a stops, partsOf r = front ++ [.punct a stops] ∧ a = "\x7d" := by
    unfold endsWithBrace at hr
    split at hr
    case h_1 a stops front hrev => exact ⟨_, a, stops, reverse_eq_cons_iff.1 hrev, beq_iff_eq.1 hr⟩
    case h_2 => cases hr
  obtain ⟨us, s, text, hreads, hts⟩ := derives_last hparts (.inl ⟨a, stops, rfl⟩) h
  cases hreads
  exact ⟨us, _, s, by rw [hts, ha]; rfl⟩

def Tree.EndsWithBrace (t : Tree) : Prop := ∃ cs f s, t.children = cs ++ [.leaf f .token s ['\x7d']]

def startsWithBrace (r : Rule) : Bool :=
  match partsOf r with
  | .punct a _ :: _ => a == "\x7b"
  | _ => false

def openCheck (k : Kind) (m : Maker) : Bool := k != .classBody || m.rule?.any startsWithBrace

theorem grammar_openCheck (x : Symbol) : (grammar x).checked openCheck := by
  cases x <;> decide +kernel

theorem program_openCheck : Grammar.program.checked openCheck := by decide +kernel

theorem derives_startsWithBrace {r : Rule} {c d : Cursor} {ts : List Tree} (hr : startsWithBrace r)
    (h : Derives grammar .typescript r c ts d) :
    ∃ f s us, ts.dropWhile (·.kind == .comment) = .leaf f .token s ['\x7b'] :: us := by
  unfold startsWithBrace at hr
  split at hr
  case h_1 a stops rest hparts =>
    obtain ⟨span, us, e, -, hts⟩ := Layout.derives_first hparts h
    exact ⟨.plain, span, us, by rw [hts, beq_iff_eq.1 hr]; rfl⟩
  case h_2 => cases hr

def Tree.StartsWithBrace (t : Tree) : Prop := ∃ f s cs, t.children = .leaf f .token s ['\x7b'] :: cs

section Parsed

variable {source : List Char} {root u b : Tree} (h : parse .typescript source = some root) (hu : u ∈ root.nodes)

include h hu

theorem parse_body_kind (hclass : isClass u.kind) (hb : u.child? .body = some b) : b.kind = .classBody := by
  have hne : ∀ k, isClass k = false → u.kind ≠ k := fun k hk heq => by
    rw [heq, hk] at hclass
    cases hclass
  obtain ⟨r, c, ts, d, hcheck, hderives, hts⟩ :=
    (parse_made h hu grammar_classCheck program_classCheck (hne _ rfl)).rule
    (fun m hm => by rw [classCheck, hm, hclass]; rfl) (hne _ rfl) (hne _ rfl)
  have hrole := find?_some hb
  rw [beq_iff_eq] at hrole
  have hchild : b ∈ ts := (dropWhile_suffix _).subset (hts ▸ mem_of_find?_eq_some hb)
  simp only [classCheck, Maker.rule?, hclass, Bool.and_eq_true] at hcheck
  have := (carries_calls (by decide) grammar_calls_body).derives hderives [.classBody] (by simpa using hcheck.1)
    b hchild hrole
  simpa using this

theorem parse_embodied (hclass : isClass u.kind) (hb : u.child? .body = some b) : b.EndsWithBrace := by
  have hkind := parse_body_kind h hu hclass hb
  have hmem := Layout.nodes_trans hu (Layout.mem_nodes_of_child (mem_of_find?_eq_some hb))
  obtain ⟨r, c, ts, d, hcheck, hderives, hts⟩ := (parse_made h hmem grammar_classCheck program_classCheck
    (by simp [hkind])).rule (fun m hm => by rw [hkind, classCheck, hm]; rfl) (by simp [hkind]) (by simp [hkind])
  rw [Tree.EndsWithBrace, hts]
  exact derives_endsWithBrace (by simpa [classCheck, Maker.rule?, isClass, hkind] using hcheck) hderives

theorem parse_opened (hclass : isClass u.kind) (hb : u.child? .body = some b) : b.StartsWithBrace := by
  have hkind := parse_body_kind h hu hclass hb
  have hmem := Layout.nodes_trans hu (Layout.mem_nodes_of_child (mem_of_find?_eq_some hb))
  obtain ⟨r, c, ts, d, hcheck, hderives, hts⟩ := (parse_made h hmem grammar_openCheck program_openCheck
    (by simp [hkind])).rule (fun m hm => by rw [hkind, openCheck, hm]; rfl) (by simp [hkind]) (by simp [hkind])
  rw [Tree.StartsWithBrace, hts]
  exact derives_startsWithBrace (by simpa [openCheck, Maker.rule?, hkind] using hcheck) hderives

end Parsed

end SourceBench.Syntax
