import SourceBench.Proofs.Snippet.Clauses

/-!
# Written exports are read back

The text of an export statement is read as the exports that the statement makes (`outline_exportDefault`,
`outline_exportNames`).
-/
namespace SourceBench.Snippet

open Syntax Reading List Takes Grammar

open Rule (alt seq role word punct node opt close steady)

variable {c : Context} {a m rest b source : List Char} {trees ts : Pos → List Tree} {d : String}

/-! ## Statements -/

def exportSubject : Rule :=
  alt [seq [p "*", fromClause],
    seq [node .namespaceExport (seq [p "*", word "as", moduleName]), fromClause],
    seq [opt (word "type"), exportClause, opt (seq [steady, fromClause])]]

def exportOfMain : Rule :=
  seq [decorators, word "export",
    alt [seq [word "default", alt [role .declaration (.ref .declaration), seq [role .value expr, close]]],
      role .declaration (.ref .declaration)]]

def exportForms : List Rule :=
  [seq [word "export", exportSubject, close],
    seq [word "export", word "import", word "type", ident, punct "=" "=>", namespaceName, close],
    seq [word "export", importAlias],
    seq [word "export", punct "=" "=>", expr, close],
    seq [word "export", word "as", word "namespace", ident, close],
    exportOfMain]

theorem exportStatement_eq : exportStatement = node .exportStatement (closableBy (alt exportForms)) := rfl

theorem reads_export [Recovery] {dialect : Dialect} {records : List ExportRecord} (ha : goesOn a)
    (h : Takes (inStatement dialect) (alt exportForms) ("export".toList ++ ([' '] ++ a)) [] trees)
    (hfirst : ∀ p, (trees p).head?.any (·.kind != .comment)) (hsource : source = "export".toList ++ ([' '] ++ a))
    (hgroups : groupsIn source none (nodeOf .exportStatement (trees .origin)) = [])
    (hrecords : exportRecords source (nodeOf .exportStatement (trees .origin)) = records) (path : String) :
    ReadsExports dialect path source records := by
  have hnext : endsWord ([' '] ++ a) := rfl
  have hbang : Fails (.start dialect) (.lexeme .hashBangLine .hashBang) ("export".toList ++ ([' '] ++ a)) :=
    fails_at_word (by decide) hnext (by decide)
  have himport : Fails (.start dialect) importStatement ("export".toList ++ ([' '] ++ a) ++ []) := by
    rw [append_nil]
    exact fails_at_word (by decide) hnext (by decide)
  -- `export` alone would be a name, but the statement goes on behind it
  have hword : TakesLeaf (inStatement dialect) (.lexeme .identifier .looseWord) .identifier [] "export".toList
      ([' '] ++ a) :=
    takes_looseWord (by simp) (by decide) (by decide) hnext
  have hclosing : Fails (inStatement dialect) (seq [.operandEnd, .closing, close]) ([] ++ ([' '] ++ a)) :=
    .seq_tail .operandEnd (Fails.closing (by simp) ha).seq_head
  have hlone : Fails (.start dialect) (node .expressionStatement (closableBy
      (seq [.lexeme .identifier .looseWord, .operandEnd, .closing, close]))) ("export".toList ++ ([' '] ++ a)
        ++ []) := by
    rw [append_nil]
    exact (Fails.seq_tail hword hclosing).under.node
  have hexport : Takes (.start dialect) exportStatement ("export".toList ++ ([' '] ++ a)) [] fun p =>
      [nodeOf .exportStatement (trees p)] := by
    rw [exportStatement_eq]
    exact h.under.node hfirst
  have hne : "export".toList ++ ([' '] ++ a) ≠ [] := cons_ne_nil _ _
  obtain ⟨e, hparse⟩ :=
    parse_of_takes (takes_program hne hbang ((hexport.alt_head.alt_tail himport).alt_tail hlone).ref)
  rw [← hsource] at hparse
  obtain ⟨hsome, hnodes, -, hexports⟩ := outline_single hparse rfl hgroups path
  refine ⟨hsome, hnodes, hexports.trans ?_⟩
  show [_].flatMap (exportRecords source) = _
  rw [flatMap_singleton, hrecords]

/-! ## Defaults -/

/-- The rule takes a name behind a blank. -/
abbrev TakesName (c : Context) (r : Rule) (d : String) : Prop := TakesLeaf c r .identifier [' '] d.toList [';']

theorem takes_expr (hd : isPlainName d) : TakesName c expr d := by
  have hat : Head.plainName.At (d.toList ++ [';']) := plainName_at hd rfl
  have htext : [' '] ++ d.toList ++ [';'] = [' '] ++ (d.toList ++ [';']) := append_assoc _ _ _
  have hname : ∀ {c : Context} {r : Rule}, Head.plainName.refuses 40 r → Fails c r ([' '] ++ d.toList ++ [';']) :=
    fun hr => by
      rw [htext]
      exact Head.fails hat blank_space hr
  have hident : ∀ c : Context, TakesName c ident d := fun _ => takes_plainName blank_space hd rfl
  have hsemicolon : (Head.mark (some ';')).At [';'] := ⟨by decide, rfl⟩
  -- an arrow function would begin with the name, too, but no arrow follows
  have harrow : Fails (c.shift (.level 0)) (.ref .arrow) ([' '] ++ d.toList ++ [';']) := by
    have hnone : Fails (c.shift (.level 0)) (seq [p "=>", arrowBody]) [';'] :=
      fails_at_mark_here (by decide) (by decide) []
    exact (Fails.alt_cons (.seq_tail (hident _).role hnone) (.alt_cons (hname (by decide +kernel))
      (.alt_cons (hname (by decide +kernel)) .alt_nil))).node.ref
  have hprimary : TakesName (c.shift (.level 0)) (.ref .primary) d :=
    (alt_drop hat blank_space htext 20 (by decide +kernel) (hident _).alt_head).ref
  have hsuffixed : TakesName (c.shift (.level 0)) (.ref .suffixed) d :=
    (@Takes.chain _ _ _ _ [';'] (.mark (some ';')) [] hsemicolon (by simp) false _ (by decide +kernel) hprimary).ref
  have hoperand : TakesName (c.shift (.level 0)) (.ref .operand) d := by
    refine ref (alt_tail (hname (by decide +kernel)) (alt_tail harrow ?_))
    exact alt_drop hat blank_space htext 6 (by decide +kernel) hsuffixed.alt_head
  exact (@Takes.chain _ _ _ _ [';'] (.mark (some ';')) [] hsemicolon (by simp) false _
    (by decide +kernel) hoperand).ref.under

theorem takes_exportWord (cs : List Char) : TakesHere c (word "export") .token "export".toList ([' '] ++ cs) :=
  takes_word_here (by decide) rfl

theorem takes_exportDefault (hd : isPlainName d) :
    Takes c (alt exportForms) ("export".toList ++ ([' '] ++ ("default ".toList ++ d.toList ++ [';']))) [] fun p =>
      [leafAt .token p "export".toList, leafAt .token (p.afterAll "export ".toList) "default".toList,
        (leafAt .identifier (p.afterAll "export default ".toList) d.toList).withRole .value,
        leafAt .token ((p.afterAll "export default ".toList).afterAll d.toList) [';']] := by
  have hother : ∀ {rs : List Rule}, (Head.exactly "default").refuses 40 (seq rs) → Fails c (seq (word "export" :: rs))
      ("export".toList ++ ([' '] ++ ("default ".toList ++ d.toList ++ [';'])) ++ []) := fun hr => by
    have hrest : Fails c (seq _) ([' '] ++ ("default".toList ++ ([' '] ++ d.toList ++ [';']))) :=
      Head.fails (exactly_at (by decide) rfl) blank_space hr
    rw [append_nil]
    exact .seq_tail (takes_exportWord _) hrest
  have hdefault : TakesLeaf c (word "default") .token [' '] "default".toList ([' '] ++ d.toList ++ [';'] ++ []) :=
    takes_word blank_space (by decide) rfl
  have hdeclaration : Fails c (role .declaration (.ref .declaration)) ([' '] ++ d.toList ++ [';'] ++ []) := by
    rw [append_nil, append_assoc]
    exact Head.fails (plainName_at hd rfl) blank_space (by decide +kernel)
  have hvalue : Takes c (alt [role .declaration (.ref .declaration), seq [role .value expr, close]])
      ([' '] ++ d.toList ++ [';']) [] fun p => [(leafAt .identifier (p.afterAll [' ']) d.toList).withRole .value,
        leafAt .token (p.afterAll ([' '] ++ d.toList)) [';']] :=
    ((takes_expr hd).role.seq_cons (b := [';']) takes_close.seq_single).alt_head.alt_tail hdeclaration
  have hdecorators : Takes c decorators [] ("export".toList
      ++ ([' '] ++ "default".toList ++ ([' '] ++ d.toList ++ [';']))
      ++ []) fun _ => [] := by
    rw [append_nil]
    exact (TakesMany.nil (fails_at_word (by decide) rfl (by decide))).many
  have hmain : Takes c exportOfMain ("export".toList ++ ([' '] ++ "default".toList ++ ([' '] ++ d.toList ++ [';']))) []
      _ :=
    hdecorators.seq_idle (seq_cons (takes_exportWord _) (hdefault.seq_cons hvalue.seq_single).alt_head.seq_single)
  refine alt_tail (hother (by decide)) (alt_tail (hother (by decide)) (alt_tail (hother (by decide))
    (alt_tail (hother (by decide)) (alt_tail (hother (by decide)) (alt_head (hmain.cast ?_ fun p => ?_))))))
  · simp
  · simp [← Pos.afterAll_append]

/-! ## Clauses -/

def fromPart : Option String → List Char
  | some m => fromText m.toList
  | none => []

def fromPartAt (p : Pos) : Option String → List Tree
  | some m => [leafAt .token (p.afterAll [' ']) "from".toList,
      (stringAt (p.afterAll " from ".toList) m.toList).withRole .source]
  | none => []

variable {given : Option String} {names : List String}

theorem takes_fromPart (hgiven : ∀ m ∈ given, isQuotable m.toList) :
    Takes c (opt (seq [steady, fromClause])) (fromPart given) [';'] fun p => fromPartAt p given := by
  cases given with
  | none => exact .opt_none (fails_at_mark_here (by decide) (by decide) [])
  | some m =>
    have hsteady : Takes c steady [] (fromText m.toList ++ [';']) fun _ => [] := @Takes.steady c _ [' '] (by simp) rfl
    exact (hsteady.seq_idle (takes_fromClause (hgiven m rfl)).seq_single).opt

/-- The tree of an export statement with a clause, whose text is `b` behind an opening brace. -/
def exportAt (typeOnly : Bool) (given : Option String) (b : List Char) (ts : Pos → List Tree) (p : Pos) : List Tree :=
  leafAt .token p "export".toList :: (typeMarkAt typeOnly (p.afterAll "export".toList) ++
    ([nodeOf .exportClause (ts (p.afterAll ("export".toList ++ typeMark typeOnly)))] ++
      (fromPartAt (p.afterAll ("export".toList ++ typeMark typeOnly ++ ([' '] ++ '\x7b' :: b))) given ++
        [leafAt .token (p.afterAll ("export".toList ++ typeMark typeOnly ++ ([' '] ++ '\x7b' :: b) ++ fromPart given))
          [';']])))

theorem takes_exportClause (typeOnly : Bool) (hgiven : ∀ m ∈ given, isQuotable m.toList)
    (hclause : Takes c exportClause ([' '] ++ '\x7b' :: b) (fromPart given ++ [';']) fun p =>
      [nodeOf .exportClause (ts p)]) :
    Takes c (alt exportForms) ("export".toList
      ++ (typeMark typeOnly ++ (([' '] ++ '\x7b' :: b) ++ (fromPart given ++ [';'])))) []
      (exportAt typeOnly given b ts) := by
  have hmark : Takes c (opt (word "type")) (typeMark typeOnly)
      (([' '] ++ '\x7b' :: b) ++ fromPart given ++ [';']) fun p =>
      typeMarkAt typeOnly p := by
    cases typeOnly with
    | true => exact (takes_word blank_space (by decide) rfl).opt
    | false => exact .opt_none (fails_behind_space (by decide) (by decide) _)
  -- neither a star nor what a star could begin stands here
  have hstar : ∀ {r : Rule}, (Head.exactly "type").refuses 40 r → (Head.mark (some '\x7b')).refuses 40 r →
      Fails c r (typeMark typeOnly ++ (([' '] ++ '\x7b' :: b) ++ fromPart given) ++ [';']) := by
    intro r hword hbrace
    cases typeOnly with
    | true => exact @Head.fails c r _ (.exactly "type") [' '] (exactly_at (by decide) rfl) blank_space hword
    | false => exact fails_behind_space (by decide) hbrace _
  have hparts := hmark.seq_cons (hclause.seq_cons (takes_fromPart hgiven).seq_single)
  have hsubject : Takes c exportSubject (typeMark typeOnly ++ (([' '] ++ '\x7b' :: b) ++ fromPart given)) [';'] _ :=
    (hparts.alt_head.alt_tail (hstar (by decide) (by decide))).alt_tail (hstar (by decide) (by decide))
  have hclose : TakesHere c close .token [';'] [] := takes_close
  have hexport : TakesHere c (word "export") .token "export".toList
      (typeMark typeOnly ++ (([' '] ++ '\x7b' :: b) ++ fromPart given) ++ [';'] ++ []) :=
    takes_word_here (by decide) (by cases typeOnly <;> rfl)
  refine (hexport.seq_cons (hsubject.seq_cons hclose.seq_single)).alt_head.cast ?_ fun p => ?_
  · simp
  · simp [exportAt, ← Pos.afterAll_append]

theorem takes_exportAll (hm : isQuotable m) :
    Takes c (alt exportForms) ("export".toList ++ ([' '] ++ ('*' :: (fromText m ++ [';'])))) [] fun p =>
      [leafAt .token p "export".toList, leafAt .token (p.afterAll "export ".toList) ['*'],
        leafAt .token (p.afterAll "export * ".toList) "from".toList,
        (stringAt (p.afterAll "export * from ".toList) m).withRole .source,
        leafAt .token ((p.afterAll "export *".toList).afterAll (fromText m)) [';']] := by
  have hstar : TakesLeaf c (p "*") .token [' '] ['*'] (fromText m ++ [';']) := takes_punct blank_space rfl (by decide)
  have hsubject : Takes c exportSubject ([' '] ++ ['*'] ++ fromText m) [';'] _ :=
    (hstar.seq_cons (takes_fromClause hm).seq_single).alt_head
  have hclose : TakesHere c close .token [';'] [] := takes_close
  have hexport : TakesHere c (word "export") .token "export".toList ([' '] ++ ['*'] ++ fromText m ++ [';'] ++ []) :=
    takes_exportWord _
  refine (hexport.seq_cons (hsubject.seq_cons hclose.seq_single)).alt_head.cast ?_ fun p => ?_
  · simp
  · simp [← Pos.afterAll_append]

/-! ## Names -/

def exportList (names : List String) : List Char := if names.isEmpty then ['\x7b', '\x7d'] else nameList names

theorem exportList_head (names : List String) : ∃ b, exportList names = '\x7b' :: b := by
  cases names with
  | nil => exact ⟨_, rfl⟩
  | cons name names => exact nameList_head name names

theorem takes_exportList (c : Context) (rest : List Char) (hnames : ∀ v ∈ names, isWord v.toList) :
    ∃ ts : Pos → List Tree,
      Takes c exportClause ([' '] ++ exportList names) rest (fun p => [nodeOf .exportClause (ts p)]) ∧
      ∀ source before behind, source = before ++ ([' '] ++ exportList names ++ behind) →
        List.Forall₂ (Spells source) ((ts (Pos.origin.afterAll before)).filter (·.kind == .exportSpecifier)) names := by
  cases names with
  | nil =>
    have hopen : TakesLeaf (c.shift .bracketed) (p "\x7b") .token [' '] ['\x7b'] (['\x7d'] ++ rest) :=
      takes_punct blank_space rfl (by decide)
    have hnone : ∀ {r : Rule}, (Head.mark (some '\x7d')).refuses 40 r →
        Fails (c.shift .bracketed) r (['\x7d'] ++ rest) :=
      fun hr => fails_at_mark_here (by decide) hr rest
    have hclose : TakesHere (c.shift .bracketed) (p "\x7d") .token ['\x7d'] rest := takes_punct_here rfl (by decide)
    have hlist : Takes c (Grammar.nameList (node .exportSpecifier (Grammar.specifier Grammar.moduleName)))
        ([' '] ++ ['\x7b'] ++ ['\x7d']) rest _ :=
      (hopen.seq_cons (seq_idle (.opt_none (hnone (by decide)))
        (seq_idle (.opt_none (hnone (by decide))) hclose.seq_single))).under
    exact ⟨_, hlist.node fun _ => rfl, fun _ _ _ _ => .nil⟩
  | cons name names =>
    obtain ⟨ts, htakes, hfirst, hspells⟩ := takes_nameList (k := .exportSpecifier) c moduleName rest (by decide) hnames
    exact ⟨ts, htakes.node hfirst, hspells⟩

/-! ## Records -/

theorem exportRecords_clause (typeOnly : Bool) (p : Pos) (hnames : List.Forall₂ (Spells source)
      ((ts (p.afterAll ("export".toList ++ typeMark typeOnly))).filter (·.kind == .exportSpecifier)) names)
    (hgiven : ∀ m ∈ given, literalText source ((stringAt ((p.afterAll ("export".toList ++ typeMark typeOnly ++
      ([' '] ++ '\x7b' :: b))).afterAll " from ".toList) m.toList).withRole .source) = m) :
    exportRecords source (nodeOf .exportStatement (exportAt typeOnly given b ts p)) =
        names.map fun n => ⟨n, false, typeOnly, given.isSome, given⟩ := by
  generalize hq : p.afterAll ("export".toList ++ typeMark typeOnly ++ ([' '] ++ '\x7b' :: b)) = q at hgiven
  generalize hts : ts (p.afterAll ("export".toList ++ typeMark typeOnly)) = ts at hnames
  rw [exportAt, hq, hts]
  have hwritten : ((ts.filter (·.kind == .exportSpecifier)).filterMap fun s => (s.child? .newName).orElse fun _ =>
      s.child? .name).map (stringOf source) = names := names_of_spells (fun t ht => by rw [ht]; rfl) hnames
  have hread : ∀ from? : Option String,
      ((((nodeOf .exportClause ts).namedChildren.filter (·.kind == .exportSpecifier)).filterMap
      fun s => (s.child? .newName).orElse fun _ => s.child? .name).map fun n =>
        (⟨stringOf source n, false, typeOnly, from?.isSome, from?⟩ : ExportRecord)) =
          names.map fun n => ⟨n, false, typeOnly, from?.isSome, from?⟩ := fun from? => by
    rw [filter_namedChildren (by decide)]
    conv_rhs => rw [← hwritten, map_map]
    rfl
  have hplain : ∀ (l star : List ExportRecord), (if (l ++ []).isEmpty && false then star else l ++ []) = l :=
    fun l star => by
    rw [Bool.and_false, append_nil]
    rfl
  cases given with
  | none => cases typeOnly <;> exact (hplain _ _).trans (hread none)
  | some m =>
    have hfrom := hread (some (literalText source ((stringAt (q.afterAll " from ".toList) m.toList).withRole .source)))
    refine Eq.trans ?_ (hfrom.trans (by rw [hgiven m rfl]))
    cases typeOnly <;> exact hplain _ _

theorem groupsIn_clause (typeOnly : Bool) (given : Option String) (b : List Char) (ts : Pos → List Tree) (p : Pos) :
    groupsIn source none (nodeOf .exportStatement (exportAt typeOnly given b ts p)) = [] := by
  cases typeOnly <;> cases given <;> rfl

/-! ## Outlines -/

theorem outline_exportDefault [Recovery] (hd : isPlainName d) (dialect : Dialect) (path : String)
    (hsource : source = "export".toList ++ ([' '] ++ ("default ".toList ++ d.toList ++ [';']))) :
    ReadsExports dialect path source [⟨d, true, false, false, none⟩] := by
  have hd' : source = "export default ".toList ++ (d.toList ++ [';']) := by
    rw [hsource]
    simp
  refine reads_export rfl (takes_exportDefault hd) (fun _ => rfl) hsource rfl ?_ path
  exact congrArg (fun name => [(⟨name, true, false, false, none⟩ : ExportRecord)]) (stringOf_leafAt hd' .identifier)

theorem outline_exportAll [Recovery] (hm : isQuotable m) (dialect : Dialect) (path : String)
    (hsource : source = "export".toList ++ ([' '] ++ ('*' :: (fromText m ++ [';'])))) :
    ReadsExports dialect path source [⟨"*", false, false, true, some (String.ofList m)⟩] := by
  have hm' : source = "export * from ".toList ++ (inQuotes m ++ [';']) := by
    rw [hsource]
    simp [fromText]
  refine reads_export rfl (takes_exportAll hm) (fun _ => rfl) hsource rfl ?_ path
  exact congrArg (fun m => [(⟨"*", false, false, true, some m⟩ : ExportRecord)]) (literalText_stringAt hm' .source)

theorem outline_exportClause [Recovery] (hnames : ∀ v ∈ names, isWord v.toList)
    (hgiven : ∀ m ∈ given, isQuotable m.toList) (dialect : Dialect) (path : String) (typeOnly : Bool)
    (hsource : source = "export".toList ++ (typeMark typeOnly
      ++ (([' '] ++ exportList names) ++ (fromPart given ++ [';'])))) :
    ReadsExports dialect path source (names.map fun n => ⟨n, false, typeOnly, given.isSome, given⟩) := by
  obtain ⟨ts, hclause, hspells⟩ := takes_exportList (inStatement dialect) (fromPart given ++ [';']) hnames
  have hplace : source = ("export".toList ++ typeMark typeOnly)
      ++ ([' '] ++ exportList names ++ (fromPart given ++ [';'])) := by
    rw [hsource]
    simp
  have hread := hspells source _ _ hplace
  have hmodule : ∀ m ∈ given, literalText source
      ((stringAt ((Pos.origin.afterAll ("export".toList ++ typeMark typeOnly ++
      ([' '] ++ exportList names))).afterAll " from ".toList) m.toList).withRole .source) = m := by
    rintro m rfl
    have hm : source = (("export".toList ++ typeMark typeOnly ++ ([' '] ++ exportList names)) ++ " from ".toList) ++
        (inQuotes m.toList ++ [';']) := by
      rw [hsource]
      simp [fromPart, fromText]
    rw [← Pos.afterAll_append, literalText_stringAt hm, String.ofList_toList]
  obtain ⟨b, hb⟩ := exportList_head names
  rw [hb] at hclause hmodule hsource
  have hforms := takes_exportClause typeOnly hgiven hclause
  obtain ⟨a, ha, htext⟩ : ∃ a, goesOn a ∧
      typeMark typeOnly ++ (([' '] ++ '\x7b' :: b) ++ (fromPart given ++ [';'])) = [' '] ++ a := by
    cases typeOnly <;> exact ⟨_, rfl, rfl⟩
  rw [htext] at hsource hforms
  exact reads_export ha hforms (fun _ => rfl) hsource (groupsIn_clause typeOnly given b ts .origin)
    (exportRecords_clause typeOnly .origin hread hmodule) path

/-! ## Statements from values -/

theorem shownIfTrue_ofOption (source : Option String) :
    shownIfTrue (.ofOption source) = source.filter (!·.isEmpty) := by
  cases source <;> rfl

theorem render_clause (h : names ≠ [] ∨ given = none) (typeOnly : Bool) :
    ({ names := names, source := given, isTypeOnly := typeOnly } : ExportStatement).render =
      "export".toList ++ (typeMark typeOnly ++ (([' '] ++ exportList names) ++ (fromPart given ++ [';']))) := by
  have hclause : ({ names := names, source := given, isTypeOnly := typeOnly } : ExportStatement).clause
      = exportList names := by
    cases names with
    | nil =>
      obtain rfl := h.resolve_left (· rfl)
      rfl
    | cons name names => rfl
  rw [ExportStatement.render]
  simp only [hclause]
  cases given <;> cases typeOnly <;> simp [typeMark, fromPart, fromText, inQuotes]

theorem outline_exportNames [Recovery] (hnames : ∀ v ∈ names, isWord v.toList)
    (hgiven : ∀ m ∈ given, isQuotable m.toList)
    (dialect : Dialect) (path : String) (typeOnly : Bool) (htype : typeOnly → names ≠ []) :
    ReadsExports dialect path ({ names := names, source := given, isTypeOnly := typeOnly } : ExportStatement).render
      (if names.isEmpty then (given.map fun m => ⟨"*", false, false, true, some m⟩).toList
        else names.map fun n => ⟨n, false, typeOnly, given.isSome, given⟩) := by
  cases names with
  | cons name names =>
    exact outline_exportClause hnames hgiven dialect path typeOnly (render_clause (.inl (cons_ne_nil _ _)) typeOnly)
  | nil =>
    -- without names there is no type mark
    obtain rfl : typeOnly = false := Bool.eq_false_iff.2 fun h => htype h rfl
    cases given with
    | none => exact outline_exportClause hnames hgiven dialect path false (render_clause (.inr rfl) false)
    | some m =>
      have hrender : ({ names := [], source := some m, isTypeOnly := false } : ExportStatement).render =
          "export".toList ++ ([' '] ++ ('*' :: (fromText m.toList ++ [';']))) := by
        simp [ExportStatement.render, ExportStatement.clause, fromText, inQuotes]
      have hall := outline_exportAll (hgiven m rfl) dialect path hrender
      rwa [String.ofList_toList] at hall

/-- **Written exports are read back**: the text of an export of any names, default, module and type mark is a source
that declares nothing, and its exports are the default if there is one, else the names in their order, each from the
module if one is given, else all names of the module, else none.  The empty text as a module gives none. -/
theorem written_export_read_back [Recovery] (dialect : Dialect) (path : String) (names : List String)
    (default source : Option String)
    (typeOnly : Bool) (hnames : ∀ n ∈ names, isPlainName n = true) (hdefault : ∀ d ∈ default, isPlainName d = true)
    (hsource : ∀ m ∈ source, isQuotable m.toList = true) (htype : typeOnly = true → names ≠ []) :
    let given := source.filter (!·.isEmpty)
    ∃ s, ExportStatement.ofValues (.list (names.map .str)) (.ofOption default) (.ofOption source)
      (.bool typeOnly) = .ok s ∧
      (parse dialect s.render).isSome = true ∧ (Outline.ofSource dialect path s.render).tree.nodes = [] ∧
      (Outline.ofSource dialect path s.render).exports =
        match default with
        | some d => [⟨d, true, false, false, none⟩]
        | none =>
          if names.isEmpty then (given.map fun m => ⟨"*", false, false, true, some m⟩).toList
          else names.map fun n => ⟨n, false, typeOnly, given.isSome, given⟩ := by
  intro given
  have hwords : ∀ n ∈ names, isWord n.toList = true := fun n hn => isWord_of_isPlainName (hnames n hn)
  have hgiven : ∀ m ∈ given, isQuotable m.toList = true := fun m hm => hsource m (Option.filter_eq_some_iff.1 hm).1
  cases default with
  | some d =>
    have hd := hdefault d rfl
    refine ⟨{ defaultName := some d }, ?_, outline_exportDefault hd dialect path rfl⟩
    simp only [ExportStatement.ofValues, Value.ofOption, truthy_of_isPlainName hd, if_true]
    rfl
  | none =>
    refine ⟨{ names := names, source := given, isTypeOnly := typeOnly }, ?_,
      outline_exportNames hwords hgiven dialect path typeOnly htype⟩
    simp only [ExportStatement.ofValues, namesIn_texts, writtenNames_texts, shownIfTrue_ofOption, bind, Except.bind]
    rfl

theorem written_export_read_back_types :
    (∀ n ∈ ["a", "b"], isPlainName n = true) ∧
    ∃ s, ExportStatement.ofValues (.list (["a", "b"].map .str)) .null (.str "./x") (.bool true) = .ok s ∧
      s.render = "export type \x7b a, b \x7d from './x';".toList ∧
      (Outline.ofSource .tsx "m.tsx" s.render).exports =
        [⟨"a", false, true, true, some "./x"⟩, ⟨"b", false, true, true, some "./x"⟩] := by
  have hnames : ∀ n ∈ ["a", "b"], isPlainName n = true := by decide +kernel
  obtain ⟨s, hs, -, -, hexports⟩ := written_export_read_back .tsx "m.tsx" ["a", "b"] none (some "./x")
    true hnames (by simp) (by decide +kernel) (by simp)
  refine ⟨hnames, s, hs, ?_, hexports⟩
  cases hs
  rfl

/-- The empty text as a module is left out: the names are exported, and not from anywhere. -/
theorem export_from_empty_module :
    (ExportStatement.ofValues (.list [.str "a"]) .null (.str "") (.bool false)).map (·.render)
      = .ok "export \x7b a \x7d;".toList ∧
      (Outline.ofSource .typescript "m.ts" "export \x7b a \x7d;".toList).exports
        = [⟨"a", false, false, false, none⟩] := by
  decide +kernel

end SourceBench.Snippet
