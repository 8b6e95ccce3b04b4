import SourceBench.Proofs.Outline.Moved
import SourceBench.Proofs.Snippet.Clauses

/-!
# Written imports are read back

The text of an import statement is read as one import, which binds what the statement binds (`outline_of_binds`).
-/
namespace SourceBench

open List

namespace Snippet

open Syntax Reading Grammar
open Rule (alt seq role word punct node opt close steady)

variable {c : Context} {a m : List Char} {trees : Pos → List Tree} {d : String} {s : ImportStatement}

/-! ## Statements -/

def importSubject : Rule :=
  alt [seq [importClause, fromClause],
    node .importRequireClause
      (seq [ident, punct "=" "=>", word "require", p "(", role .source (.ref .string), p ")"]),
    role .source (.ref .string)]

def importRest : Rule := seq [importSubject, opt (seq [steady, importAttribute]), close]

def typeWord : Rule := alt [word "type", word "typeof"]

theorem importStatement_eq : importStatement = node .importStatement (closableBy
    (alt [seq [word "import", typeWord, importRest], seq [word "import", importRest]])) := rfl

theorem takes_importRest (h : Takes c importSubject a [';'] trees) :
    Takes c importRest (a ++ [';']) [] fun p => trees p ++ [leafAt .token (p.afterAll a) [';']] := by
  have hnone : Fails c (seq [steady, importAttribute]) [';'] := fails_at_mark_here (by decide) (by decide) []
  have hclose : TakesHere c close .token [';'] [] := takes_close
  exact h.seq_cons (b := [';']) (.seq_idle (.opt_none hnone) hclose.seq_single)

/-- The tree of an import statement with the trees of its subject, whose text is `a` behind a blank. -/
def importAt (typeOnly : Bool) (a : List Char) (trees : Pos → List Tree) (p : Pos) : Tree :=
  nodeOf .importStatement (leafAt .token p "import".toList :: (typeMarkAt typeOnly (p.afterAll "import".toList) ++
    (trees (p.afterAll ("import".toList ++ typeMark typeOnly)) ++
      [leafAt .token (p.afterAll ("import".toList ++ typeMark typeOnly ++ ([' '] ++ a))) [';']])))

theorem parse_import {dialect : Dialect} (typeOnly : Bool)
    (h : Takes (inStatement dialect) importSubject ([' '] ++ a) [';'] trees)
    (hmark : Fails (inStatement dialect) typeWord ([' '] ++ a ++ [';'])) :
    ∃ e, parse dialect ("import".toList ++ (typeMark typeOnly ++ ([' '] ++ a ++ [';']))) =
      some (.node .plain .program ⟨.origin, e⟩ [importAt typeOnly a trees .origin]) := by
  have hnext : endsWord (typeMark typeOnly ++ ([' '] ++ a ++ [';'])) := by cases typeOnly <;> rfl
  have hother : ∀ {r : Rule}, (Head.exactly "import").refuses 40 r → Fails (.start dialect) r
      ("import".toList ++ (typeMark typeOnly ++ ([' '] ++ a ++ [';']))) := fun hr => fails_at_word (by decide) hnext hr
  have himport : TakesHere (inStatement dialect) (word "import") .token "import".toList
      (typeMark typeOnly ++ ([' '] ++ a ++ [';']) ++ []) := by
    rw [append_nil]
    exact takes_word_here (by decide) hnext
  have hrest := takes_importRest h
  suffices hstatement : Takes (.start dialect) importStatement
      ("import".toList ++ (typeMark typeOnly ++ ([' '] ++ a ++ [';']))) [] fun p => [importAt typeOnly a trees p] by
    refine parse_of_takes (takes_program (cons_ne_nil _ _) (hother (by decide)) (hstatement.alt_head.alt_tail ?_).ref)
    rw [append_nil]
    exact hother (by decide +kernel)
  rw [importStatement_eq]
  refine Takes.node (Takes.under ?_) fun _ => rfl
  cases typeOnly with
  | true =>
    have htype : TakesLeaf (inStatement dialect) typeWord .token [' '] "type".toList ([' '] ++ a ++ [';'] ++ []) :=
      (takes_word blank_space (by decide) rfl).alt_head
    exact (himport.seq_cons (htype.seq_cons hrest.seq_single)).alt_head
  | false =>
    have hnone : Fails (inStatement dialect) (seq [word "import", typeWord, importRest])
        ("import".toList ++ ([' '] ++ a ++ [';'] ++ [])) :=
      .seq_tail himport (Fails.seq_head (by rwa [append_nil]))
    rw [← append_assoc] at hnone
    exact Takes.alt_tail hnone (himport.seq_cons hrest.seq_single).alt_head

/-! ## Bindings -/

def Binds (b : List Char) (names : List String) (default namespace_ : Option String) : Prop :=
  ∀ c m, Fails c typeWord ([' '] ++ b ++ (fromText m ++ [';'])) ∧
    ∃ parts : Pos → List Tree,
      Takes c importClause ([' '] ++ b) (fromText m ++ [';']) (fun p => [nodeOf .importClause (parts p)]) ∧
      ∀ source before behind, source = before ++ ([' '] ++ b ++ behind) → ∀ (t : Tree) (typeOnly : Bool),
        recordOf source t ((parts (Pos.origin.afterAll before)).filter Tree.isNamed) typeOnly =
          ⟨literalText source t, names, default, namespace_, typeOnly⟩

theorem binds_namespace {n : String} (hn : isPlainName n) : Binds ("* as ".toList ++ n.toList) [] none (some n) := by
  intro c m
  have htype : Fails c typeWord (' ' :: '*' :: (" as ".toList ++ n.toList ++ (fromText m ++ [';']))) :=
    fails_behind_space (by decide) (by decide) _
  have hstar : TakesLeaf c (p "*") .token [' '] ['*']
      ([' '] ++ "as".toList ++ ([' '] ++ n.toList) ++ (fromText m ++ [';'])) :=
    takes_punct blank_space rfl (by decide)
  have has : TakesLeaf c (word "as") .token [' '] "as".toList ([' '] ++ n.toList ++ (fromText m ++ [';'])) :=
    takes_word blank_space (by decide) rfl
  have hname : TakesLeaf c ident .identifier [' '] n.toList (fromText m ++ [';']) := takes_plainName blank_space hn rfl
  have hspace := (hstar.seq_cons (has.seq_cons hname.seq_single)).node (k := .namespaceImport) fun _ => rfl
  refine ⟨htype, _, hspace.alt_head.node fun _ => rfl, fun source before behind hsource t typeOnly => ?_⟩
  have hn' : source = (before ++ " * as ".toList) ++ (n.toList ++ behind) := by
    rw [hsource]
    simp
  have hstring := stringOf_leafAt hn' .identifier
  rw [Pos.afterAll_append] at hstring
  exact congrArg (fun name => (⟨literalText source t, [], none, some name, typeOnly⟩ : ImportRecord)) hstring

variable {source : List Char} {parts : List Tree} {names : List String}

theorem recordOf_concat (hparts : ∀ q ∈ parts, q.kind = .identifier) (t : Tree) (ts : List Tree) (typeOnly : Bool) :
    recordOf source t (parts ++ [nodeOf .namedImports ts]) typeOnly =
      ⟨literalText source t, ((ts.filter (·.kind == .importSpecifier)).filterMap (·.child? .name)).map
        (stringOf source), parts.getLast?.map (stringOf source), none, typeOnly⟩ := by
  have hnone : ∀ k : Kind, k ≠ .identifier → parts.filter (·.kind == k) = [] := fun k hk =>
    filter_eq_nil_iff.2 fun q hq => by rw [hparts q hq]; simpa using hk.symm
  have hall : parts.filter (·.kind == .identifier) = parts := filter_eq_self.2 fun q hq => by rw [hparts q hq]; rfl
  have hlist : ∀ k : Kind, [nodeOf .namedImports ts].filter (·.kind == k) =
      if k = .namedImports then [nodeOf .namedImports ts] else [] := fun k => by
    cases k <;> rfl
  rw [recordOf]
  simp only [filter_append, hlist, hnone .namedImports (by decide), hnone .namespaceImport (by decide), hall, if_true]
  simp [filter_namedChildren]

theorem binds_names {name : String} (hnames : ∀ v ∈ name :: names, isWord v.toList) :
    Binds (nameList (name :: names)) (name :: names) none none := by
  intro c m
  obtain ⟨cs, hcs⟩ := nameList_head name names
  have hbrace : ∀ {r : Rule}, (Head.mark (some '\x7b')).refuses 40 r →
      Fails c r ([' '] ++ nameList (name :: names) ++ (fromText m ++ [';'])) := fun hr => by
    rw [hcs]
    exact fails_behind_space (by decide) hr _
  obtain ⟨trees, htakes, hfirst, hspells⟩ := takes_nameList (k := .importSpecifier) c ident (fromText m ++ [';'])
    (by decide) hnames
  have hclause : Takes c importClause ([' '] ++ nameList (name :: names)) (fromText m ++ [';']) fun p =>
      [nodeOf .importClause [nodeOf .namedImports (trees p)]] :=
    ((htakes.node hfirst).alt_head.alt_tail (hbrace (by decide))).node fun _ => rfl
  refine ⟨hbrace (by decide), _, hclause, fun source before behind hsource t typeOnly => ?_⟩
  rw [show [nodeOf .namedImports _].filter Tree.isNamed = [] ++ [nodeOf .namedImports _] from rfl,
    recordOf_concat (by simp), names_of_spells (fun _ _ => rfl) (hspells source before behind hsource)]
  rfl

theorem takes_default (hd : isPlainName d) {tail follow : List Char} (hends : endsWord (tail ++ follow))
    {more : Pos → List Tree} (hmore : Takes c (opt (seq [p ",", alt [namespaceImport, namedImports]]))
      tail follow more) :
    Fails c typeWord ([' '] ++ (d.toList ++ tail) ++ follow) ∧
    Takes c importClause ([' '] ++ (d.toList ++ tail)) follow fun p =>
      [nodeOf .importClause (leafAt .identifier (p.afterAll [' ']) d.toList :: more (p.afterAll ([' '] ++ d.toList)))]
        := by
  have hname : ∀ {r : Rule}, Head.plainName.refuses 40 r → Fails c r ([' '] ++ (d.toList ++ tail) ++ follow) :=
    fun hr => by
    rw [append_assoc, append_assoc]
    exact Head.fails (plainName_at hd hends) blank_space hr
  have hident : TakesLeaf c ident .identifier [' '] d.toList (tail ++ follow) := takes_plainName blank_space hd hends
  have hboth := hident.seq_cons hmore.seq_single
  rw [append_assoc] at hboth
  exact ⟨hname (by decide), ((hboth.alt_head.alt_tail (hname (by decide))).alt_tail (hname (by decide))).node fun _ =>
    rfl⟩

theorem binds_default (hd : isPlainName d) (hnames : ∀ v ∈ names, isWord v.toList) :
    Binds (d.toList ++ if names.isEmpty then [] else ", ".toList ++ nameList names) names (some d) none := by
  intro c m
  have hstring : ∀ source before behind tail : List Char, source = before ++ ([' '] ++ (d.toList ++ tail) ++ behind) →
      stringOf source (leafAt .identifier ((Pos.origin.afterAll before).afterAll [' ']) d.toList) = d := by
    intro source before behind tail hsource
    have hd' : source = (before ++ [' ']) ++ (d.toList ++ (tail ++ behind)) := by
      rw [hsource]
      simp
    rw [← Pos.afterAll_append]
    exact stringOf_leafAt hd' .identifier
  cases names with
  | nil =>
    have hnone : Fails c (seq [p ",", alt [namespaceImport, namedImports]]) (fromText m ++ [';']) :=
      @Head.fails c _ _ (.exactly "from") [' '] (exactly_at (by decide) rfl) blank_space (by decide)
    obtain ⟨htype, hclause⟩ := @takes_default c d hd [] _ rfl _ (.opt_none hnone)
    refine ⟨htype, _, hclause, fun source before behind hsource t typeOnly => ?_⟩
    exact congrArg (fun name => (⟨literalText source t, [], some name, none, typeOnly⟩ : ImportRecord))
      (hstring source before behind [] hsource)
  | cons name names =>
    obtain ⟨cs, hcs⟩ := nameList_head name names
    obtain ⟨trees, htakes, hfirst, hspells⟩ :=
      takes_nameList (k := .importSpecifier) c ident (fromText m ++ [';']) (by decide) hnames
    have hcomma : TakesHere c (p ",") .token [','] ([' '] ++ nameList (name :: names) ++ (fromText m ++ [';'])) :=
      takes_punct_here rfl (by decide)
    have hspace : Fails c namespaceImport ([' '] ++ nameList (name :: names) ++ (fromText m ++ [';'])) := by
      rw [hcs]
      exact fails_behind_space (by decide) (by decide) _
    have hlist : Takes c (alt [namespaceImport, namedImports]) ([' '] ++ nameList (name :: names)) (fromText m ++ [';'])
        fun p => [nodeOf .namedImports (trees p)] := (htakes.node hfirst).alt_head.alt_tail hspace
    obtain ⟨htype, hclause⟩ := takes_default hd rfl (hcomma.seq_cons hlist.seq_single).opt
    refine ⟨htype, _, hclause, fun source before behind hsource t typeOnly => ?_⟩
    have hlist' : source = (before ++ (([' '] ++ d.toList) ++ [',']))
        ++ ([' '] ++ nameList (name :: names) ++ behind) := by
      rw [hsource]
      simp
    have hread := names_of_spells (fun _ _ => rfl) (hspells source _ behind hlist')
    rw [Pos.afterAll_append, Pos.afterAll_append _ ([' '] ++ d.toList)] at hread
    show recordOf source t ([leafAt .identifier _ d.toList] ++ [nodeOf .namedImports _]) typeOnly = _
    rw [recordOf_concat (by simp [leafAt, Tree.kind]), hread, getLast?_singleton, Option.map_some,
      hstring source before behind _ hsource]

/-! ## Outlines -/

theorem importRecord_clause {q f : Pos → Pos} (typeOnly : Bool) (a m : List Char) (ps : Pos → List Tree) (p : Pos) :
    importRecord source (importAt typeOnly a (fun p => [nodeOf .importClause (ps p)] ++
      [leafAt .token (f p) "from".toList, (stringAt (q p) m).withRole .source]) p) =
      some (recordOf source ((stringAt (q (p.afterAll ("import".toList ++ typeMark typeOnly))) m).withRole .source)
        ((ps (p.afterAll ("import".toList ++ typeMark typeOnly))).filter Tree.isNamed) typeOnly) := by
  rw [importRecord_eq_map]
  cases typeOnly <;> rfl

/-- **An import of what a text binds** is read as one import record, which has the bindings. -/
theorem outline_of_binds [Recovery] {b : List Char} {default namespace_ : Option String}
    (hb : Binds b names default namespace_) (hm : isQuotable m) (dialect : Dialect) (path : String) (typeOnly : Bool)
    (hsource : source = "import".toList ++ (typeMark typeOnly ++ ([' '] ++ (b ++ fromText m) ++ [';']))) :
    ReadsImports dialect path source [⟨String.ofList m, names, default, namespace_, typeOnly⟩] := by
  obtain ⟨hmark, parts, hclause, hread⟩ := hb (inStatement dialect) m
  have hsubject : Takes (inStatement dialect) importSubject ([' '] ++ (b ++ fromText m)) [';'] fun p =>
      [nodeOf .importClause (parts p)] ++ [leafAt .token ((p.afterAll ([' '] ++ b)).afterAll [' ']) "from".toList,
        (stringAt ((p.afterAll ([' '] ++ b)).afterAll " from ".toList) m).withRole .source] := by
    rw [← append_assoc]
    exact (hclause.seq_cons (takes_fromClause hm).seq_single).alt_head
  have hmark' : Fails (inStatement dialect) typeWord
      ([' '] ++ (b ++ fromText m) ++ [';']) := by
    rwa [← append_assoc, append_assoc]
  obtain ⟨e, hparse⟩ := parse_import typeOnly hsubject hmark'
  rw [← hsource] at hparse
  have hclause' : source = ("import".toList ++ typeMark typeOnly) ++ ([' '] ++ b ++ (fromText m ++ [';'])) := by
    rw [hsource]
    simp
  have hstring : source = (("import".toList ++ typeMark typeOnly) ++ ([' '] ++ b) ++ " from ".toList)
      ++ (inQuotes m ++ [';']) := by
    rw [hsource]
    simp [fromText]
  have hliteral := literalText_stringAt hstring .source
  rw [Pos.afterAll_append, Pos.afterAll_append] at hliteral
  obtain ⟨hsome, hnodes, himports, -⟩ := outline_single hparse rfl rfl path
  refine ⟨hsome, hnodes, himports.trans ?_⟩
  show [_].filterMap (importRecord source) = _
  rw [filterMap_cons, importRecord_clause, hread source _ _ hclause', hliteral]
  rfl

theorem outline_of_bare [Recovery] (hm : isQuotable m) (dialect : Dialect) (path : String)
    (hsource : source = "import".toList ++ ([' '] ++ inQuotes m ++ [';'])) :
    ReadsImports dialect path source [⟨String.ofList m, [], none, none, false⟩] := by
  have hquote : ∀ {c : Context} {r : Rule}, (Head.mark (some '\'')).refuses 40 r →
      Fails c r ([' '] ++ inQuotes m ++ [';']) := fun hr => fails_behind_space (by decide) hr _
  have hstring : Takes (inStatement dialect) importSubject ([' '] ++ inQuotes m) [';'] fun p =>
      [(stringAt (p.afterAll [' ']) m).withRole .source] :=
    ((takes_string blank_space hm).role.alt_head.alt_tail (hquote (by decide))).alt_tail (hquote (by decide))
  obtain ⟨e, hparse⟩ := parse_import false hstring (hquote (by decide))
  have hsource' : "import".toList ++ (typeMark false ++ ([' '] ++ inQuotes m ++ [';'])) = source := hsource.symm
  rw [hsource'] at hparse
  have hplace : source = "import ".toList ++ (inQuotes m ++ [';']) := hsource
  have hliteral := literalText_stringAt hplace .source
  obtain ⟨hsome, hnodes, himports, -⟩ := outline_single hparse rfl rfl path
  refine ⟨hsome, hnodes, himports.trans ?_⟩
  rw [← hliteral]
  rfl

theorem render_some {b : List Char} (h : s.bindings = some b) : s.render =
    "import".toList ++ (typeMark s.isTypeOnly ++ ([' '] ++ (b ++ fromText s.source.toList) ++ [';'])) := by
  rw [ImportStatement.render, h]
  cases s.isTypeOnly <;> simp [typeMark, fromText, inQuotes]

theorem render_none (h : s.bindings = none) :
    s.render = "import".toList ++ ([' '] ++ inQuotes s.source.toList ++ [';']) := by
  rw [ImportStatement.render, h]
  simp [inQuotes]

/-- **Written imports are read back**: the text of an import of any names, default, namespace and type mark is a source
that declares nothing and has one import record, with the module and the default and the names if there is a default,
else the namespace if there is one, else the names; it is for types only if the mark is set and something is bound. -/
theorem written_import_read_back [Recovery] (dialect : Dialect) (path module_ : String) (names : List String)
    (default namespace_ : Option String) (typeOnly : Bool) (hmodule : isQuotable module_.toList = true)
    (hnames : ∀ n ∈ names, isPlainName n = true) (hdefault : ∀ d ∈ default, isPlainName d = true)
    (hnamespace : ∀ n ∈ namespace_, isPlainName n = true) :
    ∃ s, ImportStatement.ofValues (.str module_) (.list (names.map .str)) (.ofOption default) (.ofOption namespace_)
        (.bool typeOnly) = .ok s ∧
      (parse dialect s.render).isSome = true ∧ (Outline.ofSource dialect path s.render).tree.nodes = [] ∧
      (Outline.ofSource dialect path s.render).imports = [
        if default.isSome then ⟨module_, names, default, none, typeOnly⟩
        else if namespace_.isSome then ⟨module_, [], none, namespace_, typeOnly⟩
        else if names.isEmpty then ⟨module_, [], none, none, false⟩
        else ⟨module_, names, none, none, typeOnly⟩] := by
  have hwords : ∀ n ∈ names, isWord n.toList = true := fun n hn => isWord_of_isPlainName (hnames n hn)
  -- the cases are those of the bindings of a statement
  cases default with
  | some d =>
    have hd := hdefault d rfl
    let s : ImportStatement := { source := module_, names := names, defaultName := some d, isTypeOnly := typeOnly }
    refine ⟨s, ?_, ?_⟩
    · simp only [ImportStatement.ofValues, namesIn_texts, Value.ofOption, truthy_of_isPlainName hd, if_true, bind,
        Except.bind, textOnly, writtenNames_texts]
      rfl
    · have hread := outline_of_binds (binds_default hd hwords) hmodule dialect path typeOnly (@render_some s _ rfl)
      rwa [String.ofList_toList] at hread
  | none =>
    cases namespace_ with
    | some n =>
      have hn := hnamespace n rfl
      let s : ImportStatement := { source := module_, namespaceName := some n, isTypeOnly := typeOnly }
      refine ⟨s, ?_, ?_⟩
      · simp only [ImportStatement.ofValues, namesIn_texts, Value.ofOption, truthy_of_isPlainName hn, if_true, bind,
          Except.bind]
        rfl
      · have hread := outline_of_binds (binds_namespace hn) hmodule dialect path typeOnly (@render_some s _ rfl)
        rwa [String.ofList_toList] at hread
    | none =>
      let s : ImportStatement := { source := module_, names := names, isTypeOnly := typeOnly }
      refine ⟨s, ?_, ?_⟩
      · simp only [ImportStatement.ofValues, namesIn_texts, Value.ofOption, bind, Except.bind, writtenNames_texts]
        rfl
      · cases names with
        | nil =>
          have hread := outline_of_bare hmodule dialect path (@render_none s rfl)
          rwa [String.ofList_toList] at hread
        | cons name names =>
          have hread := outline_of_binds (binds_names hwords) hmodule dialect path typeOnly (@render_some s _ rfl)
          rwa [String.ofList_toList] at hread

theorem written_import_read_back_four_names :
    (∀ n ∈ ["a", "b", "c", "d"], isPlainName n = true) ∧ isPlainName "Main" = true ∧
    ∃ s, ImportStatement.ofValues (.str "./x") (.list (["a", "b", "c", "d"].map .str)) (.str "Main") .null
      (.bool true) = .ok s ∧
      s.render = "import type Main, \x7b\n  a,\n  b,\n  c,\n  d,\n\x7d from './x';".toList ∧
      (Outline.ofSource .typescript "m.ts" s.render).imports
        = [⟨"./x", ["a", "b", "c", "d"], some "Main", none, true⟩] := by
  have hnames : ∀ n ∈ ["a", "b", "c", "d"], isPlainName n = true := by decide +kernel
  have hdefault : ∀ d ∈ some "Main", isPlainName d = true := by decide +kernel
  obtain ⟨s, hs, -, -, himports⟩ := written_import_read_back .typescript "m.ts" "./x" ["a", "b", "c", "d"]
    (some "Main") none true
    (by decide +kernel) hnames hdefault (by simp)
  refine ⟨hnames, hdefault "Main" rfl, s, hs, ?_, himports⟩
  cases hs
  rfl

end Snippet
end SourceBench
