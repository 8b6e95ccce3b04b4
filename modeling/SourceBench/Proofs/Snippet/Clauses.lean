import SourceBench.Outline
import SourceBench.Proofs.Layout.Tokens
import SourceBench.Proofs.Syntax.KnownText
import SourceBench.Snippet.Statement

/-!
# Reading clauses

The clauses of written import and export statements: a list of names in braces, on one line or on many, is read as its
names in order (`takes_nameList`), and a module in quotes as the module (`takes_fromClause`, `literalText_stringAt`).
-/
namespace SourceBench.Snippet

open Syntax Reading List Pos Outline Grammar

open Rule (alt seq ahead role word punct)

variable {ts : List Tree}

/-! ## One name -/

def specifierAt (k : Kind) (p : Pos) (w : List Char) : Tree := nodeOf k [(leafAt .identifier p w).withRole .name]

variable {c : Context} {k : Kind} {renamed : Rule} {gap last w m rest : List Char}

theorem takes_specifier (hgap : ∀ x ∈ gap, isBlank x) (hlast : ∀ x ∈ last, isBlank x) (hw : isWord w)
    {a : Char} (ha : a = ',' ∨ a = '\x7d') :
    Takes c (.node k (specifier renamed)) (gap ++ w) (last ++ a :: rest) fun p =>
      [specifierAt k (p.afterAll gap) w] := by
  have hmark : isMark a := by rcases ha with rfl | rfl <;> decide
  have hname : Takes c (role .name moduleName) (gap ++ w) (last ++ a :: rest) fun p =>
      [(leafAt .identifier (p.afterAll gap) w).withRole .name] :=
    (takes_anyWord hgap hw (endsWord_of_mark hlast hmark rest)).alt_head.role
  have has : Fails c (word "as") (last ++ a :: rest) := by
    rcases ha with rfl | rfl <;> exact fails_at_mark hlast hmark (by decide) rest
  have hdone : Takes c (ahead (alt [p ",", p "\x7d"])) [] (last ++ a :: rest) fun _ => [] := by
    rcases ha with rfl | rfl
    · have hcomma : TakesLeaf c (p ",") .token last [','] rest := takes_punct hlast rfl (by decide)
      rw [append_cons]
      exact hcomma.alt_head.ahead
    · have hbrace : TakesLeaf c (p "\x7d") .token last ['\x7d'] rest := takes_punct hlast rfl (by decide)
      have hcomma : Fails c (p ",") (last ++ ['\x7d'] ++ rest) := by
        rw [← append_cons]
        exact fails_at_mark hlast hmark (by decide) rest
      rw [append_cons]
      exact (hbrace.alt_head.alt_tail hcomma).ahead
  have hmoved : Fails c (seq [seq [role .name moduleName, word "as", role .newName renamed],
      ahead (alt [p ",", p "\x7d"])]) (gap ++ w ++ (last ++ a :: rest)) :=
    (Fails.seq_tail hname has.seq_head).seq_head
  exact ((hname.seq_done hdone.seq_single).alt_head.alt_tail hmoved).node fun _ => rfl

/-! ## More names -/

def specifiersAt (k : Kind) (gap : List Char) : Pos → List (List Char) → List Tree
  | _, [] => []
  | p, w :: ws => leafAt .token p [','] :: specifierAt k (p.afterAll (',' :: gap)) w ::
      specifiersAt k gap (p.afterAll (',' :: gap ++ w)) ws

def furtherNames (gap : List Char) (ws : List (List Char)) : List Char := ws.flatMap (',' :: gap ++ ·)

theorem takes_listedName (hgap : ∀ x ∈ gap, isBlank x) (hlast : ∀ x ∈ last, isBlank x) {a : Char}
    (ha : a = ',' ∨ a = '\x7d') (hw : isWord w) (ws : List (List Char)) :
    Takes c (.node k (specifier renamed)) (gap ++ w) (furtherNames gap ws ++ (last ++ a :: rest)) fun p =>
      [specifierAt k (p.afterAll gap) w] := by
  cases ws with
  | nil => exact takes_specifier hgap hlast hw ha
  | cons v ws => exact @takes_specifier c k renamed gap [] w _ hgap (by simp) hw _ (.inl rfl)

theorem takes_furtherNames (hgap : ∀ x ∈ gap, isBlank x) (hlast : ∀ x ∈ last, isBlank x) {a : Char}
    (ha : a = ',' ∨ a = '\x7d') (hend : Fails c (seq [p ",", .node k (specifier renamed)]) (last ++ a :: rest)) :
    ∀ {ws : List (List Char)}, (∀ w ∈ ws, isWord w) →
      TakesMany c (seq [p ",", .node k (specifier renamed)]) (furtherNames gap ws) (last ++ a :: rest)
        fun p => specifiersAt k gap p ws
  | [], _ => .nil hend
  | w :: ws, hws => by
    obtain ⟨hw, hws⟩ := forall_mem_cons.1 hws
    have hcomma : TakesHere c (p ",") .token [','] (gap ++ w ++ (furtherNames gap ws ++ (last ++ a :: rest))) :=
      takes_punct_here rfl (by decide)
    exact TakesMany.cons (cons_ne_nil _ _) (hcomma.seq_cons (takes_listedName hgap hlast ha hw ws).seq_single)
      (takes_furtherNames hgap hlast ha hend hws)

/-! ## Whole lists -/

/-- A list of names in braces: `gap` stands before each name, `trail` behind the last one and `last` before the
brace. -/
def listText (gap trail last w : List Char) (ws : List (List Char)) : List Char :=
  '\x7b' :: (gap ++ w ++ (furtherNames gap ws ++ (trail ++ (last ++ ['\x7d']))))

theorem flatMap_between {α : Type} (f : α → List Char) (before behind : List Char) : ∀ (x : α) (xs : List α),
    (x :: xs).flatMap (fun y => before ++ f y ++ behind) = before ++ f x
      ++ xs.flatMap (fun y => behind ++ before ++ f y) ++ behind
  | x, [] => by simp
  | x, y :: ys => by
    rw [flatMap_cons, flatMap_between f before behind y ys]
    simp

theorem nameList_cons (w : String) (ws : List String) : nameList (w :: ws) =
    if ws.length < 3 then listText [' '] [] [' '] w.toList (ws.map (·.toList))
    else listText ['\n', ' ', ' '] [','] ['\n'] w.toList (ws.map (·.toList)) := by
  unfold nameList
  by_cases h : ws.length < 3
  · rw [if_pos h, if_pos (by rw [length_cons, maxInlineNames]; omega), map_cons, Text.join_cons]
    simp [listText, furtherNames]
  · rw [if_neg h, if_neg (by rw [length_cons, maxInlineNames]; omega), flatMap_between]
    simp [listText, furtherNames, indentStep, flatMap_map]

/-- The trees of a list of names in braces, without those for its end. -/
def listTrees (k : Kind) (gap : List Char) (p : Pos) (w : List Char) (ws : List (List Char)) : List Tree :=
  leafAt .token p ['\x7b'] :: specifierAt k (p.afterAll ('\x7b' :: gap)) w ::
    specifiersAt k gap (p.afterAll ('\x7b' :: gap ++ w)) ws

/-- What may stand between the names and the closing brace: a last comma or none. -/
theorem takes_trail (hlast : ∀ x ∈ last, isBlank x) {trail : List Char} (htrail : trail = [] ∨ trail = [',']) :
    (∃ ends : Pos → List Tree, (∀ p, ∀ t ∈ ends p, t.kind = .token) ∧
      Takes c (.opt (p ",")) trail (last ++ ['\x7d'] ++ rest) ends) ∧
    ∃ l a r, trail ++ (last ++ ['\x7d'] ++ rest) = l ++ a :: r ∧ (∀ x ∈ l, isBlank x) ∧ (a = ',' ∨ a = '\x7d') ∧
      Fails c (seq [p ",", .node k (specifier renamed)]) (l ++ a :: r) := by
  rcases htrail with rfl | rfl
  · have hnone : Fails c (p ",") (last ++ '\x7d' :: rest) := fails_at_mark hlast (by decide) (by decide) rest
    rw [← append_cons]
    exact ⟨⟨fun _ => [], by simp, .opt_none hnone⟩, last, '\x7d', rest, rfl, hlast, .inr rfl, hnone.seq_head⟩
  · have hcomma : TakesHere c (p ",") .token [','] (last ++ '\x7d' :: rest) := takes_punct_here rfl (by decide)
    have hname : Fails c (.node k (specifier renamed)) (last ++ '\x7d' :: rest) :=
      fails_at_mark hlast (by decide) rfl rest
    rw [← append_cons]
    have hboth : Fails c (seq [p ",", .node k (specifier renamed)]) ([','] ++ (last ++ '\x7d' :: rest)) :=
      .seq_tail hcomma hname.seq_head
    refine ⟨⟨_, fun p t ht => ?_, hcomma.opt⟩, [], ',', last ++ '\x7d' :: rest, rfl, by simp, .inl rfl, hboth⟩
    rw [mem_singleton.1 ht]
    rfl

theorem takes_list (hgap : ∀ x ∈ gap, isBlank x) (hlast : ∀ x ∈ last, isBlank x) (hw : isWord w)
    {ws : List (List Char)} (hws : ∀ w ∈ ws, isWord w) {trail : List Char} (htrail : trail = [] ∨ trail = [',']) :
    ∃ ends : Pos → List Tree, (∀ p, ∀ t ∈ ends p, t.kind = .token) ∧
      Takes c (Grammar.nameList (.node k (Grammar.specifier renamed))) ([' '] ++ listText gap trail last w ws) rest
        fun p => listTrees k gap (p.afterAll [' ']) w ws ++ ends p := by
  obtain ⟨⟨ends, hends, hcomma⟩, l, a, r, heq, hl, ha, hend⟩ :=
    @takes_trail (c.shift .bracketed) k renamed last rest hlast trail htrail
  have hfirst : Takes (c.shift .bracketed) (.node k (Grammar.specifier renamed)) (gap ++ w)
      (furtherNames gap ws ++ (l ++ a :: r)) fun p => [specifierAt k (p.afterAll gap) w] :=
        takes_listedName hgap hl ha hw ws
  have hnames := (hfirst.seq_cons (takes_furtherNames hgap hl ha hend hws).many.seq_single).opt
  rw [← heq, ← append_assoc trail] at hnames
  have hopen : ∀ rest, TakesLeaf (c.shift .bracketed) (p "\x7b") .token [' '] ['\x7b'] rest := fun _ =>
    takes_punct blank_space rfl (by decide)
  have hclose : TakesLeaf (c.shift .bracketed) (p "\x7d") .token last ['\x7d'] rest := takes_punct hlast rfl (by decide)
  have hall := ((hopen _).seq_cons (hnames.seq_cons (hcomma.seq_cons hclose.seq_single))).under
  refine ⟨fun p => ends ((p.afterAll [' ', '\x7b']).afterAll (gap ++ w ++ furtherNames gap ws)) ++ [leafAt .token
    ((((p.afterAll [' ', '\x7b']).afterAll (gap ++ w ++ furtherNames gap ws)).afterAll trail).afterAll last) ['\x7d']],
    fun p t ht => ?_, hall.cast ?_ fun p => ?_⟩
  · rcases mem_append.1 ht with ht | ht
    · exact hends _ t ht
    · rw [mem_singleton.1 ht]
      rfl
  · simp [listText]
  · rfl

/-! ## The names that are read -/

def Spells (source : List Char) (t : Tree) (name : String) : Prop :=
  t.child? .newName = none ∧ ∃ u, t.child? .name = some u ∧ stringOf source u = name

variable {source before behind : List Char} {name : String} {names : List String}

theorem slice_afterAll {text : List Char} (h : source = before ++ (text ++ behind)) :
    slice source ⟨origin.afterAll before, (origin.afterAll before).afterAll text⟩ = text :=
  @Layout.slice_of_passes source text ⟨text ++ behind, _⟩ ⟨behind, _⟩ ⟨before, h, rfl⟩ ⟨rfl, rfl⟩

theorem stringOf_leafAt (h : source = before ++ (name.toList ++ behind)) (k : Kind) :
    stringOf source (leafAt k (origin.afterAll before) name.toList) = name := by
  rw [stringOf, textOf]
  show String.ofList (slice source ⟨_, _⟩) = name
  rw [slice_afterAll h, String.ofList_toList]

theorem spells_specifierAt (h : source = before ++ (name.toList ++ behind)) (k : Kind) :
    Spells source (specifierAt k (origin.afterAll before) name.toList) name :=
  ⟨rfl, _, rfl, stringOf_leafAt h .identifier⟩

/-- Behind an opening mark or a comma, names are read in their order. -/
theorem filter_listed (hk : k ≠ .token) (o : Char) : ∀ {name : String} {names : List String} {before : List Char},
    source = before ++ (o :: (gap ++ name.toList ++ (furtherNames gap (names.map (·.toList)) ++ behind))) →
      List.Forall₂ (Spells source) ((leafAt .token (origin.afterAll before) [o] ::
        specifierAt k ((origin.afterAll before).afterAll (o :: gap)) name.toList :: specifiersAt k gap
          ((origin.afterAll before).afterAll (o :: gap ++ name.toList)) (names.map (·.toList))).filter (·.kind == k))
            (name :: names)
  | name, names, before, h => by
    have hmark : ((leafAt .token (origin.afterAll before) [o]).kind == k) = false := beq_eq_false_iff_ne.2 hk.symm
    have hspecifier : ∀ p, ((specifierAt k p name.toList).kind == k) := fun _ => beq_self_eq_true k
    have hname : source = (before ++ (o :: gap))
        ++ (name.toList ++ (furtherNames gap (names.map (·.toList)) ++ behind)) := by
      rw [h]
      simp
    rw [filter_cons, if_neg (by rw [hmark]; decide), filter_cons, if_pos (hspecifier _), ← afterAll_append]
    refine .cons (spells_specifierAt hname k) ?_
    cases names with
    | nil => exact .nil
    | cons next names =>
      have hnext : source = (before ++ (o :: gap ++ name.toList)) ++ (',' :: (gap ++ next.toList ++
          (furtherNames gap (names.map (·.toList)) ++ behind))) := by
        rw [h]
        simp [furtherNames]
      have htail := filter_listed hk ',' hnext
      rwa [afterAll_append] at htail

/-- **A written name list is read**, and the names in it are those that were written, in their order. -/
theorem takes_nameList (c : Context) (renamed : Rule) (rest : List Char) (hk : k ≠ .token)
    (hnames : ∀ v ∈ name :: names, isWord v.toList) : ∃ trees : Pos → List Tree,
      Takes c (Grammar.nameList (.node k (Grammar.specifier renamed))) ([' '] ++ nameList (name :: names)) rest trees ∧
      (∀ p, (trees p).head?.any (·.kind != .comment)) ∧
      ∀ source before behind, source = before ++ ([' '] ++ nameList (name :: names) ++ behind) →
        List.Forall₂ (Spells source) ((trees (origin.afterAll before)).filter (·.kind == k)) (name :: names) := by
  obtain ⟨gap, trail, last, hgap, hlast, htrail, htext⟩ : ∃ gap trail last : List Char, (∀ x ∈ gap, isBlank x) ∧
      (∀ x ∈ last, isBlank x) ∧ (trail = [] ∨ trail = [',']) ∧
        nameList (name :: names) = listText gap trail last name.toList (names.map (·.toList)) := by
    rw [nameList_cons]
    by_cases h : names.length < 3
    · exact ⟨[' '], [], [' '], blank_space, blank_space, .inl rfl, if_pos h⟩
    · exact ⟨['\n', ' ', ' '], [','], ['\n'], all_eq_true.1 rfl, all_eq_true.1 rfl, .inr rfl, if_neg h⟩
  obtain ⟨hname, hothers⟩ := forall_mem_cons.1 hnames
  have hothers' : ∀ w ∈ names.map (·.toList), isWord w := by
    intro w hw
    obtain ⟨v, hv, rfl⟩ := mem_map.1 hw
    exact hothers v hv
  obtain ⟨ends, hends, htakes⟩ := @takes_list c k renamed gap last name.toList rest hgap hlast hname _ hothers'
    trail htrail
  rw [htext]
  refine ⟨_, htakes, fun p => rfl, fun source before behind hsource => ?_⟩
  have hnone : (ends (origin.afterAll before)).filter (·.kind == k) = [] := by
    refine filter_eq_nil_iff.2 fun t ht => ?_
    rw [hends _ t ht]
    simpa using hk.symm
  rw [filter_append, hnone, append_nil, ← afterAll_append]
  have hlist : source = (before ++ [' '])
      ++ ('\x7b' :: (gap ++ name.toList ++ (furtherNames gap (names.map (·.toList)) ++
      (trail ++ (last ++ ['\x7d']) ++ behind)))) := by
    rw [hsource]
    simp [listText]
  exact filter_listed hk '\x7b' hlist

theorem names_of_spells {f : Tree → Option Tree} (hf : ∀ t, t.child? .newName = none → f t = t.child? .name)
    (h : List.Forall₂ (Spells source) ts names) : (ts.filterMap f).map (stringOf source) = names := by
  induction h with
  | nil => rfl
  | cons h _ ih =>
    obtain ⟨hnew, u, hu, hname⟩ := h
    rw [filterMap_cons, hf _ hnew, hu, map_cons, ih, hname]

theorem filter_namedChildren (hk : k ≠ .token) (k' : Kind) (ts : List Tree) :
    (nodeOf k' ts).namedChildren.filter (·.kind == k) = ts.filter (·.kind == k) := by
  rw [Tree.namedChildren, filter_filter]
  refine filter_congr fun t _ => ?_
  by_cases h : t.kind = k
  · simp [Tree.isNamed, h, hk]
  · simp [h]

theorem nameList_head (name : String) (names : List String) : ∃ cs, nameList (name :: names) = '\x7b' :: cs := by
  rw [nameList_cons]
  split <;> exact ⟨_, rfl⟩

/-! ## Type marks -/

def typeMark (typeOnly : Bool) : List Char := if typeOnly then [' '] ++ "type".toList else []

def typeMarkAt (typeOnly : Bool) (p : Pos) : List Tree :=
  if typeOnly then [leafAt .token (p.afterAll [' ']) "type".toList] else []

/-! ## Modules -/

def fromText (m : List Char) : List Char := [' '] ++ "from".toList ++ ([' '] ++ inQuotes m)

theorem takes_fromClause (hm : isQuotable m) : Takes c fromClause (fromText m) rest fun p =>
      [leafAt .token (p.afterAll [' ']) "from".toList, (stringAt (p.afterAll " from ".toList) m).withRole .source] := by
  have hfrom : TakesLeaf c (word "from") .token [' '] "from".toList ([' '] ++ inQuotes m ++ rest) :=
    takes_word blank_space (by decide) rfl
  have hstring : Takes c (role .source (.ref .string)) ([' '] ++ inQuotes m) rest fun p =>
      [(stringAt (p.afterAll [' ']) m).withRole .source] := (takes_string blank_space hm).role
  exact hfrom.seq_cons hstring.seq_single

theorem unquote_inQuotes (m : List Char) : unquote (inQuotes m) = m := by
  have hlast : ('\'' :: (m ++ ['\''])).getLast? = some '\'' := by rw [← cons_append, getLast?_concat]
  simp only [inQuotes, unquote, hlast]
  simp

theorem literalText_stringAt (h : source = before ++ (inQuotes m ++ behind)) (f : Role) :
    literalText source ((stringAt (origin.afterAll before) m).withRole f) = String.ofList m := by
  have hspan : ((stringAt (origin.afterAll before) m).withRole f).span =
      ⟨origin.afterAll before, (origin.afterAll before).afterAll (inQuotes m)⟩ := by
    show (stringAt _ m).span = _
    rw [stringAt, span_nodeOf, ← afterAll_append, ← afterAll_append]
    show Span.mk (origin.afterAll before) ((origin.afterAll _).afterAll _) = _
    rw [← afterAll_append, ← afterAll_append, inQuotes]
    simp
  rw [literalText, textOf, hspan, slice_afterAll h, unquote_inQuotes]

/-! ## Values -/

theorem namesIn_texts (names : List String) : namesIn (.list (names.map .str)) = .ok (names.map .str) := by
  cases names <;> rfl

theorem mapM_textOnly_texts (names : List String) : (names.map Value.str).mapM textOnly = .ok names := by
  induction names with
  | nil => rfl
  | cons name names ih =>
    rw [map_cons, mapM_cons, ih]
    rfl

theorem writtenNames_texts (names : List String) : writtenNames (names.map .str) = .ok names := by
  rw [writtenNames]
  split
  · exact mapM_textOnly_texts names
  · rw [map_map]
    exact congrArg Except.ok (map_id names)

theorem truthy_of_isPlainName (h : isPlainName name) : (Value.str name).truthy := by
  have hword := isWord_of_isPlainName h
  rw [Value.truthy, Bool.not_eq_true', String.isEmpty_eq_false_iff]
  rintro rfl
  cases hword

/-! ## Sources of one statement -/

variable [Recovery]

/-- The source reads, declares nothing and has the imports. -/
def ReadsImports (dialect : Dialect) (path : String) (source : List Char) (records : List ImportRecord) : Prop :=
  (parse dialect source).isSome = true ∧ (ofSource dialect path source).tree.nodes = [] ∧
    (ofSource dialect path source).imports = records

/-- The source reads, declares nothing and has the exports. -/
def ReadsExports (dialect : Dialect) (path : String) (source : List Char) (records : List ExportRecord) : Prop :=
  (parse dialect source).isSome = true ∧ (ofSource dialect path source).tree.nodes = [] ∧
    (ofSource dialect path source).exports = records

abbrev inStatement (dialect : Dialect) : Context := (Context.start dialect).shift .closable

theorem outline_single {dialect : Dialect} {e : Pos} {t : Tree}
    (hparse : parse dialect source = some (.node .plain .program ⟨.origin, e⟩ [t])) (hnamed : t.isNamed)
    (hgroups : groupsIn source none t = []) (path : String) :
    (parse dialect source).isSome ∧ (ofSource dialect path source).tree.nodes = [] ∧
      (ofSource dialect path source).imports = ([t].filter (·.kind == .importStatement)).filterMap
      (importRecord source) ∧
      (ofSource dialect path source).exports = ([t].filter (·.kind == .exportStatement)).flatMap
      (exportRecords source) := by
  have hstatements : (Syntax.Tree.node .plain .program ⟨.origin, e⟩ [t]).namedChildren = [t] := by
    simp [Tree.namedChildren, Tree.children, hnamed]
  have hnone : groupsAfter source none [t] = [] := by simp [groupsAfter, withPrevious, hgroups]
  rw [ofSource, treeOf_of_parse hparse, hparse]
  refine ⟨rfl, ?_, ?_, ?_⟩
  · show (markExported ((groupsAfter source none (Tree.namedChildren _)).foldl _ _) _).nodes = []
    rw [hstatements, hnone]
    rfl
  · show ((Tree.namedChildren _).filter _).filterMap _ = _
    rw [hstatements]
  · show ((Tree.namedChildren _).filter _).flatMap _ = _
    rw [hstatements]

end SourceBench.Snippet
