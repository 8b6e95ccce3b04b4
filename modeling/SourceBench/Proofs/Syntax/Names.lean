import SourceBench.Proofs.Layout.Shape
import SourceBench.Proofs.Syntax.Cover

/-!
# Names in trees

What renaming relies on in the trees of a source (`parse_wellNamed`): names are leaves, what a declaration or a member
is called by and what a member access takes is of a few kinds only, and a name that is no leaf ends with punctuation.
Each is a check of the rules of the grammar, carried over to the trees by induction over derivations: each tree of a
source is a leaf or was made by a rule or a link that passes the check (`carries_made`).
-/
namespace SourceBench.Syntax

open List Bool
open Layout (mem_wrap forall_assign forall_wrap forall_dropWhile forall_nodes_leaf forall_nodes_node partsOf
  derives_parts)

variable {t root u : Tree} {ks : List Kind} {k : Kind} {text source : List Char}

/-! ## Well-named trees -/

def isName : Kind → Bool
  | .identifier | .typeIdentifier | .shorthandPropertyIdentifier | .shorthandPropertyIdentifierPattern
  | .propertyIdentifier | .privatePropertyIdentifier | .number => true
  | _ => false

def memberNames : List Kind :=
  [.propertyIdentifier, .privatePropertyIdentifier, .string, .number, .computedPropertyName]

/-- The kinds that the children with a role may have in a node of a kind. -/
def wanted : Kind → Option (Role × List Kind)
  | .functionDeclaration | .generatorFunctionDeclaration | .classDeclaration | .abstractClassDeclaration
  | .interfaceDeclaration | .typeAliasDeclaration => some (.name, [.identifier, .typeIdentifier])
  | .methodDefinition | .methodSignature | .abstractMethodSignature | .publicFieldDefinition | .propertySignature =>
    some (.name, memberNames)
  | .memberExpression => some (.property, [.propertyIdentifier, .privatePropertyIdentifier])
  | _ => none

/-- The kinds of nodes that name a member; punctuation ends them. -/
def isBracketed : Kind → Bool
  | .string | .computedPropertyName => true
  | _ => false

/-- Names are where they may be in a node with the children. -/
structure Names (k : Kind) (cs : List Tree) : Prop where
  noName : isName k = false
  kinds : ∀ f ks, wanted k = some (f, ks) → ∀ c ∈ cs, c.role = f → c.kind ∈ ks
  bracket : isBracketed k = true → ∃ r f s text, cs = r ++ [.leaf f .token s text]

def WellNamed (t : Tree) : Prop := ∀ r k s cs, .node r k s cs ∈ t.nodes → Names k cs

variable {f : Role}

theorem WellNamed.kind_of_child? {c : Tree} (h : WellNamed root) (hu : u ∈ root.nodes)
    (hk : wanted u.kind = some (f, ks)) (hc : u.child? f = some c) : c.kind ∈ ks := by
  have hrole := find?_some hc
  cases u with
  | leaf r k s w => cases hc
  | node r k s cs => exact (h r k s cs hu).kinds f ks hk c (mem_of_find?_eq_some hc) (beq_iff_eq.1 hrole)

/-! ## Checks of rules -/

def madeBy : Symbol → List Kind
  | .propertyName | .string => memberNames
  | .classBody => [.classBody]
  | _ => []

mutual
def Rule.makes (ks : List Kind) : Rule → Bool
  | .lexeme k _ | .piece k _ | .node k _ => ks.contains k
  | .alt rs => makesAll ks rs
  | .ref x => madeBy x != [] && (madeBy x).all ks.contains
  | _ => false
def makesAll (ks : List Kind) : List Rule → Bool
  | [] => true
  | r :: rs => r.makes ks && makesAll ks rs
end

mutual
def Rule.calls (f : Role) (ks : List Kind) : Rule → Bool
  | .role f' r => f' != f || r.makes ks
  | .seq rs | .alt rs => callsAll f ks rs
  | .opt r | .many r | .under _ r | .only _ r | .among _ r | .chain _ r _ => r.calls f ks
  | _ => true
def callsAll (f : Role) (ks : List Kind) : List Rule → Bool
  | [] => true
  | r :: rs => r.calls f ks && callsAll f ks rs
end

def endsWithMark (r : Rule) : Bool :=
  match (partsOf r).reverse with
  | .glued _ :: _ | .punct _ _ :: _ => true
  | _ => false

def meetsWanted (k : Kind) (r : Rule) : Bool :=
  match wanted k with
  | some (f, ks) => r.calls f ks
  | none => true

/-- What makes a tree: a lexeme, the rule for what is in a node, or a link that puts an operand in a role. -/
inductive Maker where
  | lexeme
  | node (r : Rule)
  | link (f : Role) (r : Rule)

def Maker.rule? : Maker → Option Rule
  | .node r => some r
  | _ => none

mutual
/-- The check holds of all that the rule can make. -/
def Rule.checked (p : Kind → Maker → Bool) : Rule → Bool
  | .lexeme k _ | .piece k _ => p k .lexeme
  | .node k r => p k (.node r) && r.checked p
  | .seq rs | .alt rs => checkedAll p rs
  | .opt r | .many r | .role _ r | .under _ r | .only _ r | .among _ r => r.checked p
  | .chain _ base links => base.checked p && checkedLinks p links
  | _ => true
def checkedAll (p : Kind → Maker → Bool) : List Rule → Bool
  | [] => true
  | r :: rs => r.checked p && checkedAll p rs
def checkedLinks (p : Kind → Maker → Bool) : List (Link Rule) → Bool
  | [] => true
  | l :: ls => checkedLink p l && checkedLinks p ls
def checkedLink (p : Kind → Maker → Bool) : Link Rule → Bool
  | ⟨k, f, _, _, r⟩ => p k (.link f r) && r.checked p
end

def namedCheck (k : Kind) : Maker → Bool
  | .lexeme => true
  | .node r => !isName k && meetsWanted k r && (!isBracketed k || endsWithMark r)
  | .link f r =>
    !isName k && !isBracketed k && f != .property && (k == .memberExpression || (wanted k).isNone) && meetsWanted k r

theorem grammar_namedCheck (x : Symbol) : (grammar x).checked namedCheck := by
  cases x <;> decide +kernel

theorem program_namedCheck : Grammar.program.checked namedCheck := by decide +kernel

theorem grammar_calls (x : Symbol) : (grammar x).calls .name [] ∧ (grammar x).calls .property [] := by
  cases x <;> decide +kernel

theorem grammar_makes {x : Symbol} (h : madeBy x ≠ []) : (grammar x).makes (madeBy x) := by
  cases x <;> first | exact absurd rfl h | decide +kernel

/-! ## Derived trees -/

section Derived

variable {dialect : Dialect} {r : Rule} {c d : Cursor} {ts : List Tree}

theorem kind_of_makes (hr : r.Reads k text) (h : r.makes ks) : k ∈ ks := by
  cases hr with
  | lexeme k _ => exact contains_iff_mem.1 h
  | piece k _ => exact contains_iff_mem.1 h
  | _ => cases h

theorem carries_makes : Carries grammar dialect (fun ks r => r.makes ks) fun ks t => t.kind = .comment ∨
    t.kind ∈ ks where
  comment := by
    rintro ks t ⟨span, text, rfl, -⟩
    exact .inl rfl
  leaf hr hks := .inr (kind_of_makes hr hks)
  parts {ks r} hks := by
    fun_cases Rule.parts grammar dialect r with
    | case1 x =>
      simp only [Rule.makes, and_eq_true, bne_iff_ne] at hks
      exact forall_mem_singleton.2 ⟨madeBy x, grammar_makes hks.1,
        fun t ht => ht.imp id fun hk => contains_iff_mem.1 (all_eq_true.1 hks.2 _ hk)⟩
    | case3 rs => exact fun r' hr' => ⟨ks, check_of_mem (makesAll.eq_2 ks) hks hr', fun _ => id⟩
    | case11 => exact forall_mem_nil _
    | _ => cases hks
  role hks := by cases hks
  node hks _ _ := forall_wrap (fun t _ hk => .inl hk) fun span => .inr (contains_iff_mem.1 hks)
  link hks := by cases hks

theorem role_of_isComment (h : t.IsComment) : t.role = .plain := by
  obtain ⟨span, text, rfl, -⟩ := h
  rfl

theorem Tree.role_withRole (f : Role) (t : Tree) : (t.withRole f).role = f := by cases t <;> rfl

theorem Tree.kind_withRole (f : Role) (t : Tree) : (t.withRole f).kind = t.kind := by cases t <;> rfl

theorem role_of_mem_assign (h : t ∈ assign f ts) :
    (t ∈ ts ∧ t.kind = .comment) ∨ (t.role = f ∧ t.kind ≠ .comment ∧ ∃ u ∈ ts, t = u.withRole f) := by
  obtain ⟨u, hu, rfl⟩ := mem_map.1 h
  by_cases hk : u.kind = .comment
  · rw [if_pos (beq_iff_eq.2 hk)]
    exact .inl ⟨hu, hk⟩
  · rw [if_neg (by simpa using hk)]
    exact .inr ⟨u.role_withRole f, by rwa [u.kind_withRole f], u, hu, rfl⟩

theorem forall_assign_comments (h : ∀ t ∈ ts, t.kind = .comment → t.role = .plain) :
    ∀ t ∈ assign f ts, t.kind = .comment → t.role = .plain := by
  intro t ht hk
  rcases role_of_mem_assign ht with ⟨ht, -⟩ | ⟨-, hne, -⟩
  · exact h t ht hk
  · exact absurd hk hne

theorem carries_comments :
    Carries grammar dialect (fun (_ : Unit) _ => True) fun _ t => t.kind = .comment → t.role = .plain where
  comment ht _ := role_of_isComment ht
  leaf _ _ _ := rfl
  parts _ _ _ := ⟨(), trivial, fun _ => id⟩
  role _ _ ih := forall_assign_comments (ih () trivial)
  node _ _ ih := forall_wrap (fun t ht _ => ih () trivial t ht) fun _ _ => rfl
  link _ _ _ _ ihacc ih :=
    forall_wrap (fun t ht _ => forall_mem_append.2 ⟨forall_assign_comments ihacc, ih () trivial⟩ t ht) fun _ _ => rfl

theorem derives_comments (h : Derives grammar dialect r c ts d) : ∀ t ∈ ts, t.kind = .comment → t.role = .plain :=
  carries_comments.derives h () trivial

theorem kind_of_plain (hf : f ≠ .plain) (h : t.role = .plain) (hrole : t.role = f) : t.kind ∈ ks :=
  absurd (hrole.symm.trans h) hf

theorem carries_calls (hf : f ≠ .plain) (hg : ∀ x, (grammar x).calls f []) :
    Carries grammar dialect (fun ks r => r.calls f ks) fun ks t => t.role = f → t.kind ∈ ks where
  comment ht := kind_of_plain hf (role_of_isComment ht)
  leaf _ _ := kind_of_plain hf rfl
  parts {ks r} hks := by
    fun_cases Rule.parts grammar dialect r with
    | case1 x => exact forall_mem_singleton.2 ⟨[], hg x, fun t ht hrole => absurd (ht hrole) not_mem_nil⟩
    | case3 rs => exact fun r' hr' => ⟨ks, check_of_mem (callsAll.eq_2 f ks) hks hr', fun _ => id⟩
    | case10 | case11 => exact forall_mem_nil _
    | _ =>
      refine fun r' hr' => ⟨ks, ?_, fun _ => id⟩
      revert r'
      simpa [Rule.calls, callsAll] using hks
  role hks h _ t ht hrole := by
    simp only [Rule.calls, or_eq_true, bne_iff_ne] at hks
    rcases role_of_mem_assign ht with ⟨ht, hk⟩ | ⟨hrole', hne, u, hu, rfl⟩
    · exact kind_of_plain hf (derives_comments h t ht hk) hrole
    · have hmakes := hks.resolve_left fun hff => hff (hrole'.symm.trans hrole)
      rw [u.kind_withRole] at hne ⊢
      exact (carries_makes.derives h _ hmakes u hu).resolve_left hne
  node _ h _ :=
    forall_wrap (fun t ht hk => kind_of_plain hf (derives_comments h t ht hk)) fun _ => kind_of_plain hf rfl
  link _ hl hacc h _ _ t ht := by
    rcases mem_wrap ht with ⟨-, hk⟩ | ⟨span, rfl⟩
    · exact kind_of_plain hf (derives_comments (.link _ hacc hl h) t ht hk)
    · exact kind_of_plain hf rfl

/-! ## Made trees -/

/-- The trees that a maker puts into a node. -/
inductive Maker.Makes (dialect : Dialect) : Maker → List Tree → Prop
  | node {r : Rule} {c d : Cursor} {ts : List Tree} (h : Derives grammar dialect r c ts d) : Makes dialect (.node r) ts
  | link {r chain : Rule} {c d e : Cursor} {acc ts : List Tree} (f : Role)
      (hacc : Derives grammar dialect chain c acc d)
    (h : Derives grammar dialect r d ts e) : Makes dialect (.link f r) (assign f acc ++ ts)

def Made (dialect : Dialect) (p : Kind → Maker → Bool) : Tree → Prop
  | .leaf _ k _ _ => k = .token ∨ k = .comment ∨ p k .lexeme = true
  | .node _ k _ cs => ∃ m ts, p k m = true ∧ m.Makes dialect ts ∧ cs = ts.dropWhile (·.kind == .comment)

def MadeThroughout (dialect : Dialect) (p : Kind → Maker → Bool) (t : Tree) : Prop := ∀ u ∈ t.nodes, Made dialect p u

section Made

variable {p : Kind → Maker → Bool}

theorem MadeThroughout.withRole (h : MadeThroughout dialect p t) (f : Role) : MadeThroughout dialect p (t.withRole f) :=
  Layout.forall_nodes_withRole (fun t ht => by cases t <;> exact ht) h

theorem madeThroughout_of_isComment (h : t.IsComment) : MadeThroughout dialect p t := by
  obtain ⟨span, text, rfl, -⟩ := h
  exact forall_nodes_leaf.2 (.inr (.inl rfl))

theorem made_of_reads {span : Span} (hr : r.Reads k text) (h : r.checked p) :
    Made dialect p (.leaf .plain k span text) := by
  cases hr with
  | lexeme k _ => exact .inr (.inr h)
  | piece k _ => exact .inr (.inr h)
  | _ => exact .inl rfl

/-- **What a checked rule derives passes the check throughout**, in a grammar that is checked. -/
theorem carries_made (hg : ∀ x, (grammar x).checked p) :
    Carries grammar dialect (fun (_ : Unit) r => r.checked p) fun _ => MadeThroughout dialect p where
  comment := madeThroughout_of_isComment
  leaf hr hp := forall_nodes_leaf.2 (made_of_reads hr hp)
  parts {_ r} hp := by
    fun_cases Rule.parts grammar dialect r with
    | case1 x => exact forall_mem_singleton.2 ⟨(), hg x, fun _ => id⟩
    | case3 rs => exact fun r' hr' => ⟨(), check_of_mem (checkedAll.eq_2 p) hp hr', fun _ => id⟩
    | case8 => exact forall_mem_singleton.2 ⟨(), (Bool.and_eq_true_iff.1 hp).1, fun _ => id⟩
    | case10 | case11 => exact forall_mem_nil _
    | _ =>
      refine fun r' hr' => ⟨(), ?_, fun _ => id⟩
      revert r'
      simpa [Rule.checked, checkedAll] using hp
  role hp _ ih := forall_assign (fun t ht => ht.withRole _) (ih () hp)
  node hp h ih := by
    simp only [Rule.checked, and_eq_true] at hp
    exact forall_wrap (fun t ht _ => ih () hp.2 t ht) fun span =>
      forall_nodes_node.2 ⟨⟨_, _, hp.1, .node h, rfl⟩, forall_dropWhile _ (ih () hp.2)⟩
  link {_ _ _ _ l _ acc _ ts _ _} hp hl hacc h ihacc ih := by
    have hlink : p l.kind (.link l.role l.rule) ∧ l.rule.checked p := by
      simp only [Rule.checked, and_eq_true] at hp
      have hlink := check_of_mem (checkedLinks.eq_2 p) hp.2 hl
      obtain ⟨k, f, level, only, r⟩ := l
      simpa only [checkedLink, and_eq_true] using hlink
    have hall : ∀ t ∈ assign l.role acc ++ ts, MadeThroughout dialect p t := forall_mem_append.2
      ⟨forall_assign (fun t ht => ht.withRole _) ihacc, ih () hlink.2⟩
    exact forall_wrap (fun t ht _ => hall t ht) fun span =>
      forall_nodes_node.2 ⟨⟨_, _, hlink.1, .link _ hacc h, rfl⟩, forall_dropWhile _ hall⟩

theorem parse_made (h : parse dialect source = some root) (hu : u ∈ root.nodes)
    (hg : ∀ x, (grammar x).checked p) (hp : Grammar.program.checked p) (hk : u.kind ≠ .program) : Made dialect p u := by
  obtain ⟨items, e, rfl, hd⟩ := parse_derives h
  rcases Layout.mem_nodes_node.1 hu with rfl | ⟨c, hc, hu⟩
  · exact absurd rfl hk
  · exact (carries_made hg).derives hd () hp c hc u hu

end Made

/-! ## Well-named trees of sources -/

theorem kind_of_wanted (hk : wanted k = some (f, ks)) (hr : meetsWanted k r)
    (h : Derives grammar dialect r c ts d) : ∀ t ∈ ts, t.role = f → t.kind ∈ ks := by
  have hcalls : r.calls f ks := by
    rw [meetsWanted, hk] at hr
    exact hr
  have hf : f = .name ∨ f = .property := by
    unfold wanted at hk
    split at hk <;> cases hk
    case h_12 => exact .inr rfl
    all_goals exact .inl rfl
  rcases hf with rfl | rfl
  · exact (carries_calls (by decide) fun x => (grammar_calls x).1).derives h ks hcalls
  · exact (carries_calls (by decide) fun x => (grammar_calls x).2).derives h ks hcalls

theorem derives_last {front : List Rule} {x : Rule} (hparts : partsOf r = front ++ [x])
    (hx : (∃ a stops, x = .punct a stops) ∨ ∃ a, x = .glued a) (h : Derives grammar .typescript r c ts d) :
    ∃ us s text, x.Reads .token text ∧ ts.dropWhile (·.kind == .comment) = us ++ [.leaf .plain .token s text] := by
  have hseq := derives_parts h
  rw [hparts] at hseq
  obtain ⟨us, vs, e, rfl, -, hvs⟩ := hseq.of_seq_append
  obtain ⟨vs, ws, e', rfl, hleaf, hnil⟩ := hvs.of_seq_cons
  obtain ⟨comments, k, span, text, rfl, hreads, -⟩ := hleaf.of_reads (hx.imp id .inl)
  obtain rfl : k = .token := by
    rcases hx with ⟨a, stops, rfl⟩ | ⟨a, rfl⟩ <;> cases hreads <;> rfl
  rw [hnil.of_seq_nil.1, append_nil, ← append_assoc, dropWhile_append]
  split
  · exact ⟨[], _, _, hreads, rfl⟩
  · exact ⟨_, _, _, hreads, rfl⟩

theorem derives_endsWithMark (hr : endsWithMark r) (h : Derives grammar .typescript r c ts d) :
    ∃ us f s text, ts.dropWhile (·.kind == .comment) = us ++ [.leaf f .token s text] := by
  have hmark : ∃ front x, partsOf r = front ++ [x] ∧ ((∃ a stops, x = .punct a stops) ∨ ∃ a, x = .glued a) := by
    unfold endsWithMark at hr
    split at hr
    case h_1 a front hrev => exact ⟨_, _, reverse_eq_cons_iff.1 hrev, .inr ⟨a, rfl⟩⟩
    case h_2 a stops front hrev => exact ⟨_, _, reverse_eq_cons_iff.1 hrev, .inl ⟨a, stops, rfl⟩⟩
    case h_3 => cases hr
  obtain ⟨front, x, hparts, hx⟩ := hmark
  obtain ⟨us, s, text, -, hts⟩ := derives_last hparts hx h
  exact ⟨us, _, s, text, hts⟩

theorem names_of_made {s : Span} {cs : List Tree} (h : Made .typescript namedCheck (.node f k s cs)) : Names k cs := by
  obtain ⟨m, ts, hcheck, hmakes, rfl⟩ := h
  cases hmakes with
  | node h =>
    simp only [namedCheck, and_eq_true, not_eq_true', or_eq_true] at hcheck
    obtain ⟨⟨hname, hwanted⟩, hbracket⟩ := hcheck
    refine ⟨hname, fun f ks hk => forall_dropWhile _ (kind_of_wanted hk hwanted h), fun hk => ?_⟩
    exact derives_endsWithMark (hbracket.resolve_left (by simp [hk])) h
  | link f hacc h =>
    simp only [namedCheck, and_eq_true, not_eq_true', bne_iff_ne, or_eq_true, beq_iff_eq,
      Option.isNone_iff_eq_none] at hcheck
    obtain ⟨⟨⟨⟨hname, hbracket⟩, hf⟩, hmember⟩, hwanted⟩ := hcheck
    refine ⟨hname, fun f' ks hk => forall_dropWhile _ (forall_mem_append.2
      ⟨fun c hc hrole => ?_, kind_of_wanted hk hwanted h⟩), fun hk => ?_⟩
    · -- The operand has another role than the one that is asked for.
      obtain rfl := hmember.resolve_right (by rw [hk]; exact Option.some_ne_none _)
      cases hk
      rcases role_of_mem_assign hc with ⟨hc, hcomment⟩ | ⟨hrole', -⟩
      · rw [derives_comments hacc c hc hcomment] at hrole
        cases hrole
      · exact absurd (hrole'.symm.trans hrole) hf
    · rw [hbracket] at hk
      cases hk

theorem names_program (cs : List Tree) : Names .program cs := ⟨rfl, nofun, nofun⟩

end Derived

theorem parse_wellNamed (h : parse .typescript source = some t) : WellNamed t := by
  intro f k s cs hmem
  by_cases hk : k = .program
  · rw [hk]
    exact names_program cs
  · exact names_of_made (parse_made h hmem grammar_namedCheck program_namedCheck hk)

end SourceBench.Syntax
