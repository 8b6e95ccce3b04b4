import Mathlib.Data.List.Nodup
import SourceBench.Proofs.Pathname
import SourceBench.Proofs.Scaffold.Names

/-!
# Where generated files go

The written forms of a name that passes are made of plain characters (`pascalCase_accepted`, `kebabCase_accepted`), so a
file named by them lies in the folder of its request (`pathOf_name`, `pathOf_route`).  A generator makes one file, or
two of which the second imports the first (`filesOf_laid`, `testContent_imports`).
-/
namespace SourceBench.Scaffold

open List Text Template

variable {name content : List Char} {n file : String} {functions : List String}

/-! ## Written forms of names -/

/-- A capital, and behind it letters and digits. -/
def isPascal : List Char → Bool
  | [] => false
  | c :: r => isBig c && r.all fun x => isSmall x || isBig x

/-- A small letter, and behind it small letters, digits and hyphens. -/
def isKebab : List Char → Bool
  | [] => false
  | c :: r => ('a' ≤ c && c ≤ 'z') && r.all fun x => isSmall x || x == '-'

theorem exists_trim_accepted (h : Accepted name) :
    ∃ c r, trim name = c :: r ∧ isLetter c ∧ ∀ x ∈ c :: r, isNameChar x := by
  obtain ⟨core, tail, rfl, hcore, htail⟩ := h
  have hchars := isNameChar_of_mem hcore
  cases core with
  | nil => cases hcore
  | cons c r =>
    rw [isStrictName, Bool.and_eq_true] at hcore
    exact ⟨c, r, trim_accepted (by rw [isStrictName, Bool.and_eq_true]; exact hcore) htail, hcore.1, hchars⟩

theorem upperChar_eq {c : Char} (h : isNameChar c) : upperChar c = [c.toUpper] := if_pos (toNat_lt_of_isNameChar h)

theorem pascalCase_accepted (h : Accepted name) : isPascal (pascalCase name) := by
  obtain ⟨c, r, htrim, hc, hchars⟩ := exists_trim_accepted h
  obtain ⟨hdivider, hbig, -⟩ := isLetter_case hc
  have hpascal : pascalCase name = c.toUpper :: joinWords false r := by
    rw [pascalCase, htrim, joinWords, hdivider]
    show upperChar c ++ [] ++ joinWords false r = _
    rw [upperChar_eq (hchars c mem_cons_self)]
    rfl
  rw [hpascal, isPascal, hbig, Bool.true_and, all_eq_true]
  intro x hx
  obtain ⟨d, hd, hdivider, hx⟩ := mem_joinWords hx
  have hname := hchars d (mem_cons_of_mem c hd)
  obtain ⟨hsame, hupper⟩ := (isNameChar_case hname).2.1 hdivider
  rcases hx with rfl | hx
  · exact hsame
  · rw [upperChar_eq hname, mem_singleton] at hx
    rw [hx]
    exact hupper

theorem kebabCase_accepted (h : Accepted name) : isKebab (kebabCase name) := by
  obtain ⟨c, r, htrim, hc, hchars⟩ := exists_trim_accepted h
  have hmarked : ∃ m, markCapitals '-' (c :: r) = c :: m := by
    cases r with
    | nil => exact ⟨[], rfl⟩
    | cons d r =>
      rw [markCapitals]
      split <;> exact ⟨_, rfl⟩
  obtain ⟨m, hm⟩ := hmarked
  let gap : Char → Bool := fun c => isSpace c || c == '_'
  have hmem : ∀ x ∈ squeeze gap '-' false (markCapitals '-' (c :: r)), isNameChar x ∧ x ≠ '_' := by
    intro x hx
    rcases mem_squeeze hx with rfl | ⟨hx, hgap⟩
    · decide
    · rcases mem_markCapitals hx with rfl | hx
      · decide
      · simp only [gap, Bool.or_eq_false_iff, beq_eq_false_iff_ne] at hgap
        exact ⟨hchars x hx, hgap.2⟩
  have hfirst : squeeze gap '-' false (markCapitals '-' (c :: r)) = c :: squeeze gap '-' false m := by
    have hgap : gap c = false := by
      have hdivider := (isLetter_case hc).1
      simp only [isDivider, Bool.or_eq_false_iff] at hdivider
      rw [show gap c = (isSpace c || c == '_') from rfl, hdivider.1.2, hdivider.2]
      rfl
    rw [hm, squeeze, hgap]
    rfl
  have hkebab : kebabCase name = (c :: squeeze gap '-' false m).map Char.toLower := by
    rw [kebabCase, htrim, ← hfirst]
    exact lower_eq_map fun x hx => toNat_lt_of_isNameChar (hmem x hx).1
  rw [hfirst] at hmem
  rw [hkebab, map_cons, isKebab, (isLetter_case hc).2.2, Bool.true_and, all_map, all_eq_true]
  intro x hx
  obtain ⟨hname, hne⟩ := hmem x (mem_cons_of_mem c hx)
  exact (isNameChar_case hname).2.2 hne

/-! ## Path names -/

def isFileChar (c : Char) : Bool := isSmall c || isBig c || c == '.' || c == '-'

/-- Letters, digits, dots and hyphens that name something in a folder. -/
def isFileName (n : String) : Bool := n.toList.all isFileChar && !(["", ".", ".."].contains n)

theorem isName_of_isFileName (h : isFileName n) : IsName n := by
  simp only [isFileName, Bool.and_eq_true, all_eq_true] at h
  obtain ⟨hchars, hn⟩ := h
  simp only [contains_cons, contains_nil, Bool.not_eq_true', Bool.or_eq_false_iff, beq_eq_false_iff_ne] at hn
  exact ⟨hn.1, hn.2.1, hn.2.2.1, fun hslash => nomatch hchars _ hslash⟩

/-- What a file is called after: one of the written forms of a name. -/
def IsStem (stem : String) : Prop := isPascal stem.toList = true ∨ isKebab stem.toList = true

variable {stem : String}

theorem IsStem.exists_cons (h : IsStem stem) : ∃ c r, stem.toList = c :: r ∧ c ≠ '.' ∧ (c :: r).all isFileChar := by
  unfold IsStem at h
  cases hstem : stem.toList with
  | nil =>
    rw [hstem] at h
    exact h.elim nofun nofun
  | cons c r =>
    refine ⟨c, r, rfl, ?_⟩
    rw [hstem, isPascal, isKebab, Bool.and_eq_true, Bool.and_eq_true, all_eq_true, all_eq_true] at h
    rw [all_cons, Bool.and_eq_true, all_eq_true]
    rcases h with ⟨hc, hr⟩ | ⟨hc, hr⟩
    · refine ⟨(by rintro rfl; cases hc), by simp [isFileChar, hc], fun x hx => ?_⟩
      simp [isFileChar, hr x hx]
    · have hsmall : isSmall c := by rw [isSmall, hc]; rfl
      refine ⟨(by rintro rfl; cases hc), by simp [isFileChar, hsmall], fun x hx => ?_⟩
      have := hr x hx
      simp only [isFileChar, Bool.or_eq_true] at this ⊢
      tauto

theorem isFileName_append {ext : String} (h : IsStem stem) (hext : ext.toList.all isFileChar) :
    isFileName (stem ++ ext) := by
  obtain ⟨c, r, hstem, hdot, hchars⟩ := h.exists_cons
  have htext : (stem ++ ext).toList = c :: (r ++ ext.toList) := by rw [String.toList_append, hstem]; rfl
  have hnot : ["", ".", ".."].contains (stem ++ ext) = false := by
    have hfirst : ["", ".", ".."].all (fun n => n.toList.head? != some c) := by simp [hdot.symm]
    rw [← Bool.not_eq_true, contains_iff_mem]
    intro hmem
    have := all_eq_true.1 hfirst _ hmem
    rw [htext] at this
    simp at this
  rw [isFileName, htext, ← cons_append, all_append, hchars, hext, hnot]
  rfl

theorem IsStem.isFileName (h : IsStem stem) : isFileName stem := by
  have hname := @isFileName_append stem "" h rfl
  rwa [String.append_empty] at hname

def below (p : Pathname) (names : List String) : Pathname := ⟨p.root, p.parts ++ names⟩

def pathOf (dir file : String) : String := ((Pathname.ofString dir).join (.ofString file)).text

theorem pathOf_name (dir : String) (h : isFileName n) : pathOf dir n = (below (.ofString dir) [n]).text := by
  rw [pathOf, Pathname.ofString_name (isName_of_isFileName h)]
  rfl

theorem pathOf_route (dir : String) (h : IsStem stem) :
    pathOf dir (stem ++ "/route.ts") = (below (.ofString dir) [stem, "route.ts"]).text := by
  have hfile := @Pathname.ofString_text ⟨.here, [stem, "route.ts"]⟩ nofun (cons_ne_nil _ _)
    (by simpa using ⟨isName_of_isFileName h.isFileName, by decide⟩)
  rw [pathOf, show stem ++ "/route.ts" = Pathname.text ⟨.here, [stem, "route.ts"]⟩ by
    simp [Pathname.text, Root.text, ← String.toList_inj, String.toList_append], hfile]
  rfl

theorem below_text_inj {p : Pathname} {a b : String} (h : (below p [a]).text = (below p [b]).text) : a = b := by
  have hfront : ∀ n : String, (below p [n]).text.toList =
      p.root.text.toList ++ join ['/'] (p.parts.map String.toList ++ [[]]) ++ n.toList := fun n => by
    have hne : p.parts ++ [n] ≠ [] := append_ne_nil_of_right_ne_nil _ (cons_ne_nil n [])
    rw [below, Pathname.text_toList hne, String.toList_intercalate, ← Pathname.join_eq_intercalate, map_append,
      append_assoc, ← join_concat]
    rfl
  have htext := congrArg String.toList h
  rw [hfront, hfront, append_cancel_left_eq] at htext
  exact String.toList_inj.1 htext

/-! ## Files -/

theorem filePath_eq_ok {dir : Value} {path : String} :
    filePath dir file = .ok path ↔ ∃ d, dir = .str d ∧ path = pathOf d file := by
  cases dir with
  | str d => exact ⟨fun h => ⟨d, rfl, (Except.ok.inj h).symm⟩, fun ⟨_, h, hp⟩ => by cases h; rw [hp]; rfl⟩
  | _ => exact ⟨nofun, fun ⟨_, h, _⟩ => nomatch h⟩

/-- What a generator makes: one file, or a file and one with tests of it. -/
inductive Laid (name dir : String) : List GeneratedFile → Prop where
  | single {file : String} (content : List Char) (hfile : file = pascal name ++ ".tsx" ∨
      ∃ tail ∈ ["/route.ts", ".ts", ".test.ts"], file = kebab name ++ tail) : Laid name dir [⟨pathOf dir file, content⟩]
  | tested {stem ext : String} {functions : List String} (content : List Char)
      (hstem : stem = pascal name ∧ ext = ".tsx" ∨ stem = kebab name ∧ ext = ".ts") (hne : functions ≠ []) :
      Laid name dir [⟨pathOf dir (stem ++ ext), content⟩,
        ⟨pathOf dir (stem ++ (".test" ++ ext)), testContent name ("./" ++ stem) functions⟩]

section Laid

variable {name path : String} {dir options : Value} {files : List GeneratedFile}

theorem laid_single (hfile : file = pascal name ++ ".tsx" ∨
    ∃ tail ∈ ["/route.ts", ".ts", ".test.ts"], file = kebab name ++ tail) (hpath : filePath dir file = .ok path)
    (h : (pure [⟨path, content⟩] : Except ScaffoldError _) = .ok files) : ∃ d, dir = .str d ∧ Laid name d files := by
  obtain ⟨d, rfl, rfl⟩ := filePath_eq_ok.1 hpath
  cases h
  exact ⟨d, rfl, .single content hfile⟩

theorem laid_tested {ext : String} {asked : Bool}
    (hstem : stem = pascal name ∧ ext = ".tsx" ∨ stem = kebab name ∧ ext = ".ts") (hne : functions ≠ [])
    (hpath : filePath dir (stem ++ ext) = .ok path) (h : (if asked then do
        let testPath ← filePath dir (stem ++ (".test" ++ ext))
        return [⟨path, content⟩, ⟨testPath, testContent name ("./" ++ stem) functions⟩]
      else return [⟨path, content⟩] : Except ScaffoldError (List GeneratedFile)) = .ok files) : ∃ d, dir = .str d ∧
        Laid name d files := by
  cases asked with
  | false =>
    refine laid_single (hstem.imp ?_ ?_) hpath h
    · rintro ⟨rfl, rfl⟩
      rfl
    · rintro ⟨rfl, rfl⟩
      exact ⟨".ts", by decide, rfl⟩
  | true =>
    obtain ⟨testPath, htest, h⟩ := bind_eq_ok_iff.1 h
    obtain ⟨d, rfl, rfl⟩ := filePath_eq_ok.1 hpath
    obtain ⟨_, hd, rfl⟩ := filePath_eq_ok.1 htest
    cases hd
    cases h
    exact ⟨d, rfl, .tested content hstem hne⟩

theorem componentFiles_laid (h : componentFiles name dir options = .ok files) :
    ∃ d, dir = .str d ∧ Laid name d files := by
  simp only [componentFiles, bind_eq_ok_iff] at h
  obtain ⟨_, -, _, -, _, -, _, -, _, -, _, -, path, hpath, asked, -, h⟩ := h
  exact laid_tested (.inl ⟨rfl, rfl⟩) (cons_ne_nil _ _) hpath h

theorem routeFiles_laid (h : routeFiles name dir options = .ok files) : ∃ d, dir = .str d ∧ Laid name d files := by
  simp only [routeFiles, bind_eq_ok_iff] at h
  obtain ⟨_, -, _, -, _, -, _, -, path, hpath, h⟩ := h
  exact laid_single (.inr ⟨"/route.ts", by decide, rfl⟩) hpath h

theorem modelFiles_laid (h : modelFiles name dir options = .ok files) : ∃ d, dir = .str d ∧ Laid name d files := by
  simp only [modelFiles, bind_eq_ok_iff] at h
  obtain ⟨_, -, _, -, _, -, path, hpath, asked, -, h⟩ := h
  exact laid_tested (.inr ⟨rfl, rfl⟩) (cons_ne_nil _ _) hpath h

theorem testFiles_laid (h : testFiles name dir options = .ok files) : ∃ d, dir = .str d ∧ Laid name d files := by
  simp only [testFiles, bind_eq_ok_iff] at h
  obtain ⟨_, -, _, -, _, -, path, hpath, h⟩ := h
  exact laid_single (.inr ⟨".test.ts", by decide, rfl⟩) hpath h

theorem filesOf_laid {g : Generator} {r : ScaffoldRequest} (h : filesOf g r = .ok files) :
    ∃ name dir, r.name = .str name ∧ r.outputDir = .str dir ∧ Laid name dir files := by
  obtain ⟨name, hname, h⟩ := bind_eq_ok_iff.1 h
  have hname : r.name = .str name := by
    cases hv : r.name <;> rw [hv] at hname <;> cases hname
    rfl
  refine ⟨name, ?_⟩
  simp only [hname, true_and]
  cases g with
  | component => exact componentFiles_laid h
  | apiRoute => exact routeFiles_laid h
  | model => exact modelFiles_laid h
  | test => exact testFiles_laid h

end Laid

theorem testContent_imports (name source : String) (hne : functions ≠ []) :
    ∃ rest, testContent name source functions = DocComment.brief ("Tests for " ++ pascal name) ++ "\n\n".toList ++
      ImportStatement.render { source := "vitest", names := ["describe", "it", "expect"] } ++ ['\n'] ++
      ImportStatement.render { source, names := functions } ++ "\n\ndescribe('".toList ++ rest := by
  obtain ⟨f, fs, rfl⟩ := exists_cons_of_ne_nil hne
  constructor
  simp only [testContent, testFile, ofLines, onlyIf, isEmpty_cons]
  simp [String.toList_append]
  rfl

/-- The path is one or two plain names below a folder. -/
def Inside (dir path : String) : Prop := ∃ names, path = (below (.ofString dir) names).text ∧
  (names.length = 1 ∨ names.length = 2) ∧ ∀ n ∈ names, isFileName n = true

/-- The second of two files lies beside the first and imports it, by its name without the ending. -/
def Companion (name dir : String) (main test : GeneratedFile) : Prop := ∃ stem ext functions after,
  (ext = ".ts" ∨ ext = ".tsx") ∧ main.path = (below (.ofString dir) [stem ++ ext]).text ∧
  test.path = (below (.ofString dir) [stem ++ (".test" ++ ext)]).text ∧
  test.content = DocComment.brief ("Tests for " ++ pascal name) ++ "\n\n".toList ++
    ImportStatement.render { source := "vitest", names := ["describe", "it", "expect"] } ++ ['\n'] ++
    ImportStatement.render { source := "./" ++ stem, names := functions } ++ "\n\ndescribe('".toList ++ after

theorem inside_append (dir : String) (h : IsStem stem) (ext : String) (hext : ext.toList.all isFileChar) :
    Inside dir (pathOf dir (stem ++ ext)) :=
  ⟨[stem ++ ext], pathOf_name dir (isFileName_append h hext), .inl rfl, by simpa using isFileName_append h hext⟩

theorem inside_route (dir : String) (h : IsStem stem) : Inside dir (pathOf dir (stem ++ "/route.ts")) :=
  ⟨[stem, "route.ts"], pathOf_route dir h, .inr rfl, by simpa using ⟨h.isFileName, by decide⟩⟩

section Stems

variable {name dir : String} {files : List GeneratedFile} (hpascal : IsStem (pascal name))
  (hkebab : IsStem (kebab name))

include hpascal hkebab

theorem Laid.inside (h : Laid name dir files) : ∀ f ∈ files, Inside dir f.path := by
  cases h with
  | single content hfile =>
    rw [forall_mem_singleton]
    dsimp only
    rcases hfile with rfl | ⟨tail, htail, rfl⟩
    · exact inside_append dir hpascal ".tsx" (by decide)
    · simp only [mem_cons, not_mem_nil, or_false] at htail
      rcases htail with rfl | rfl | rfl
      · exact inside_route dir hkebab
      · exact inside_append dir hkebab ".ts" (by decide)
      · exact inside_append dir hkebab ".test.ts" (by decide)
  | tested content hstem =>
    simp only [forall_mem_cons, not_mem_nil, false_imp_iff, implies_true, and_true]
    rcases hstem with ⟨rfl, rfl⟩ | ⟨rfl, rfl⟩
    · exact ⟨inside_append dir hpascal _ (by decide), inside_append dir hpascal _ (by decide)⟩
    · exact ⟨inside_append dir hkebab _ (by decide), inside_append dir hkebab _ (by decide)⟩

theorem Laid.companion {main test : GeneratedFile} {rest : List GeneratedFile}
    (h : Laid name dir (main :: test :: rest)) :
    rest = [] ∧ Companion name dir main test := by
  cases h with
  | @tested stem ext functions content hstem hne =>
    obtain ⟨after, hafter⟩ := testContent_imports name ("./" ++ stem) hne
    have hcalled : IsStem stem ∧ (ext = ".ts" ∨ ext = ".tsx") := by
      rcases hstem with ⟨rfl, rfl⟩ | ⟨rfl, rfl⟩
      · exact ⟨hpascal, .inr rfl⟩
      · exact ⟨hkebab, .inl rfl⟩
    have hext : ext.toList.all isFileChar ∧ (".test" ++ ext).toList.all isFileChar := by
      rcases hcalled.2 with rfl | rfl <;> decide
    refine ⟨rfl, stem, ext, functions, after, hcalled.2, ?_⟩
    dsimp only
    exact ⟨pathOf_name dir (isFileName_append hcalled.1 hext.1),
      pathOf_name dir (isFileName_append hcalled.1 hext.2), hafter⟩

theorem Laid.nodup_paths (h : Laid name dir files) : (files.map (·.path)).Nodup := by
  cases files with
  | nil => exact nodup_nil
  | cons main files =>
    cases files with
    | nil => exact nodup_singleton _
    | cons test rest =>
      obtain ⟨rfl, stem, ext, functions, after, -, hmain, htest, -⟩ := h.companion hpascal hkebab
      have hne : main.path ≠ test.path := fun heq => by
        rw [hmain, htest] at heq
        have hlength := congrArg (·.toList.length) (below_text_inj heq)
        simp only [String.toList_append, length_append] at hlength
        have : ".test".toList.length = 5 := rfl
        omega
      simpa using hne

end Stems

/-- **Generated files stay in the folder of their request**: the written forms of the name are plain, each file has a
path of one or two plain names below the folder, no two have the same, and a second file imports the first one, which
lies beside it. -/
theorem runNamed_files {label : String} {r : ScaffoldRequest} {s : Scaffold} (h : runNamed label r = .ok s)
    (hs : s.succeeded = true) : ∃ name dir, r.name = .str name ∧ r.outputDir = .str dir ∧
      isPascal (Template.pascal name).toList = true ∧ isKebab (Template.kebab name).toList = true ∧
      (∀ f ∈ s.files, Inside dir f.path) ∧ (s.files.map (·.path)).Nodup ∧
      ∀ main test rest, s.files = main :: test :: rest → rest = [] ∧ Companion name dir main test := by
  obtain ⟨g, hcheck, hfiles⟩ := runNamed_succeeded h hs
  obtain ⟨name, dir, hname, hdir, hlaid⟩ := filesOf_laid hfiles
  obtain ⟨_, hname', haccepted⟩ := (nameErrors_eq_nil _).1 (check_eq_nil.1 hcheck).1
  cases hname.symm.trans hname'
  have hpascal : isPascal (Template.pascal name).toList = true := by
    rw [Template.pascal, String.toList_ofList]
    exact pascalCase_accepted haccepted
  have hkebab : isKebab (Template.kebab name).toList = true := by
    rw [Template.kebab, String.toList_ofList]
    exact kebabCase_accepted haccepted
  refine ⟨name, dir, hname, hdir, hpascal, hkebab, hlaid.inside (.inl hpascal) (.inr hkebab),
    hlaid.nodup_paths (.inl hpascal) (.inr hkebab), fun main test rest hrest => ?_⟩
  rw [hrest] at hlaid
  exact hlaid.companion (.inl hpascal) (.inr hkebab)

theorem runNamed_files_model :
    ∃ s, runNamed "model" ⟨.str "order_Item\n", .str "gen/.", .object [("with_test", .bool true)]⟩ = .ok s ∧
      s.succeeded = true ∧ s.files.map (·.path) = ["gen/order-item.ts", "gen/order-item.test.ts"] ∧
      ∀ f ∈ s.files, Inside "gen/." f.path := by
  suffices h : ∃ s, runNamed "model" ⟨.str "order_Item\n", .str "gen/.", .object [("with_test", .bool true)]⟩ = .ok s ∧
      s.succeeded = true ∧ s.files.map (·.path) = ["gen/order-item.ts", "gen/order-item.test.ts"] by
    obtain ⟨s, hrun, hs, hpaths⟩ := h
    obtain ⟨_, dir, -, hdir, -, -, hinside, -⟩ := runNamed_files hrun hs
    cases hdir
    exact ⟨s, hrun, hs, hpaths, hinside⟩
  refine ⟨_, rfl, rfl, ?_⟩
  decide +kernel

end SourceBench.Scaffold
