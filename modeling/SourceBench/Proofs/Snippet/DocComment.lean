import SourceBench.Proofs.Snippet.Header
import SourceBench.Snippet.DocComment

/-!
# Doc comments are read as they were written

Behind the description of a doc comment there is nothing but tags, with at most an empty line before the first
(`tagLines_tagged`).  Reading stops there, so it finds the lines of the description and blank ones around them, which
trimming takes away (`docText_render`).
-/
namespace SourceBench

open List Text Syntax Reading

namespace Text

/-! ## Lines of texts put together -/

theorem splitLinesFrom_append {m : List Char} (hm : m ≠ []) (l cs : List Char) :
    (splitLinesFrom l cs = [] ∧ splitLinesFrom (l ++ m) cs = [m.reverse]) ∨
      ∃ x xs, splitLinesFrom l cs = x :: xs ∧ splitLinesFrom (l ++ m) cs = (m.reverse ++ x) :: xs := by
  fun_induction splitLinesFrom l cs with
  | case1 l h => simp_all [splitLinesFrom]
  | case2 l h => simp_all [splitLinesFrom]
  | case3 l r _ => simp [splitLinesFrom]
  | case4 l c r hr hbreak _ => exact .inr ⟨_, _, rfl, by rw [splitLinesFrom, if_pos hbreak, reverse_append]; exact hr⟩
  | case5 l c r hr hbreak ih =>
    rw [splitLinesFrom, if_neg hbreak]
    · exact ih
    · exact hr

theorem splitLinesFrom_newline (line a b : List Char) : ∃ gap, (∀ l ∈ gap, l = []) ∧
    splitLinesFrom line (a ++ '\n' :: b) = splitLinesFrom line a ++ gap ++ splitLines b := by
  have hfeed : ∀ line, splitLinesFrom line ('\n' :: b) = line.reverse :: splitLines b := fun line => rfl
  fun_induction splitLinesFrom line a with
  | case1 line h =>
    rw [List.isEmpty_iff.1 h]
    exact ⟨[[]], by simp, hfeed []⟩
  | case2 line h => exact ⟨[], forall_mem_nil _, hfeed line⟩
  | case3 line r ih =>
    obtain ⟨gap, hgap, h⟩ := ih
    exact ⟨gap, hgap, congrArg (line.reverse :: ·) h⟩
  | case4 line c r hr hbreak ih =>
    -- a carriage return at the end of the text goes with the line feed
    obtain ⟨gap, hgap, h⟩ := ih
    by_cases hpair : c = '\r' ∧ r = []
    · obtain ⟨rfl, rfl⟩ := hpair
      exact ⟨[], forall_mem_nil _, rfl⟩
    · refine ⟨gap, hgap, ?_⟩
      rw [cons_append, splitLinesFrom, if_pos hbreak, h]
      · rfl
      · intro s hc hs
        cases r with
        | nil => exact hpair ⟨hc, rfl⟩
        | cons d r => exact hr r hc (by rw [(cons.inj hs).1])
  | case5 line c r hr hbreak ih =>
    obtain ⟨gap, hgap, h⟩ := ih
    refine ⟨gap, hgap, ?_⟩
    rw [cons_append, splitLinesFrom, if_neg hbreak, h]
    rintro s rfl hs
    exact hbreak rfl

theorem splitLinesFrom_of_forall (line cs : List Char) (h : ∀ c ∈ cs, isLineBreak c = false) (hne : cs ≠ []) :
    splitLinesFrom line cs = [line.reverse ++ cs] := by
  fun_induction splitLinesFrom line cs with
  | case1 => exact absurd rfl hne
  | case2 => exact absurd rfl hne
  | case3 => cases h '\r' mem_cons_self
  | case4 line c r _ hbreak _ => exact absurd (hbreak.symm.trans (h c mem_cons_self)) (by decide)
  | case5 line c r _ _ ih =>
    cases r with
    | nil => simp [splitLinesFrom]
    | cons d r => simp [ih (fun x hx => h x (mem_cons_of_mem c hx)) (cons_ne_nil d r)]

theorem trim_joinLines (ls : List (List Char)) : trim (joinLines ls) = trim (ls.flatMap ('\n' :: ·)) := by
  cases ls with
  | nil => rfl
  | cons l ls =>
    rw [joinLines, join_cons]
    exact (trim_append_space (a := ['\n']) (all_eq_true.1 rfl) _).symm

theorem trim_joinLines_append {as bs : List (List Char)} (ha : ∀ l ∈ as, l = []) (hb : ∀ l ∈ bs, l = [])
    (ls : List (List Char)) : trim (joinLines (as ++ ls ++ bs)) = trim (joinLines ls) := by
  have hspace : ∀ {xs : List (List Char)}, (∀ l ∈ xs, l = []) → ∀ c ∈ xs.flatMap ('\n' :: ·), isSpace c := by
    intro xs hxs c hc
    obtain ⟨l, hl, hc⟩ := mem_flatMap.1 hc
    rw [hxs l hl, mem_singleton] at hc
    rw [hc]
    rfl
  rw [trim_joinLines, trim_joinLines, flatMap_append, flatMap_append, trim_append_blank (hspace hb),
    trim_append_space (hspace ha)]

end Text

namespace DocComment

/-! ## Single lines -/

theorem docLine_star (l : List Char) : docLine (" * ".toList ++ l) = trim l := by
  have hstar : trim (" * ".toList ++ l) = '*' :: trimRight (' ' :: l) := by
    show trim ([' '] ++ '*' :: ' ' :: l) = _
    rw [trim_append_space (all_eq_true.1 rfl), trim_cons rfl, trimRight_cons rfl]
  rw [docLine, hstar]
  show trim (trimRight ([' '] ++ l)) = _
  rw [trim_trimRight, trim_append_space (all_eq_true.1 rfl)]

theorem docLine_of_head? {l : List Char} (h : (trim l).head? ≠ some '*') : docLine l = trim l := by
  unfold docLine
  split
  · next heq => exact absurd (by rw [heq]; rfl) h
  · rfl

/-- **The lines of a description behind the first star are read without their margins.** -/
theorem map_docLine_description {cs : List Char} (hstar : ∀ l ∈ (splitLines cs).tail, (trim l).head? ≠ some '*') :
    ∃ gap, (∀ l ∈ gap, l = []) ∧ (splitLines (" * ".toList ++ cs)).map docLine = (splitLines cs).map trim ++ gap := by
  rcases splitLinesFrom_append (cons_ne_nil ' ' ['*', ' ']) [] cs with ⟨hnil, h⟩ | ⟨x, xs, hcons, h⟩
  · refine ⟨[[]], by simp, ?_⟩
    rw [show splitLines (" * ".toList ++ cs) = _ from h, show splitLines cs = _ from hnil]
    rfl
  · rw [show splitLines cs = _ from hcons] at hstar ⊢
    refine ⟨[], nofun, ?_⟩
    rw [show splitLines (" * ".toList ++ cs) = _ from h, append_nil, map_cons, map_cons]
    exact congrArg₂ cons (docLine_star x) (map_congr_left fun l hl => docLine_of_head? (hstar l hl))

/-! ## Tags -/

def tagLines (d : DocComment) : List (List Char) :=
  paramLines d.params ++ optional d.returns (fun s => [trimRight (" * @returns " ++ s).toList])
    ++ optional d.example? exampleLines ++ optional d.deprecated (fun s => [(" * @deprecated " ++ s).toList])
    ++ optional d.since (fun s => [(" * @since " ++ s).toList])

/-- There are no lines, or the first is a tag, or it is empty and the second one is a tag. -/
def Tagged (ls : List (List Char)) : Prop :=
  ls = [] ∨ ∃ x r, ls = (" * @".toList ++ x) :: r ∨ ls = " *".toList :: (" * @".toList ++ x) :: r

theorem Tagged.append {a b : List (List Char)} (ha : Tagged a) (hb : Tagged b) : Tagged (a ++ b) := by
  rcases ha with rfl | ⟨x, r, rfl | rfl⟩
  · exact hb
  · exact .inr ⟨x, r ++ b, .inl rfl⟩
  · exact .inr ⟨x, r ++ b, .inr rfl⟩

theorem tagged_optional {part : Option String} {lines : String → List (List Char)} (h : ∀ s, Tagged (lines s)) :
    Tagged (optional part lines) := by
  cases part with
  | none => exact .inl rfl
  | some s => exact h s

theorem tagged_trimRight (word : List Char) (h : ∃ c ∈ word, isSpace c = false) (rest : List Char) :
    ∃ x, trimRight (" * @".toList ++ (word ++ rest)) = " * @".toList ++ x := by
  obtain ⟨c, hc, hspace⟩ := h
  exact ⟨_, trimRight_append ⟨c, mem_append_left rest hc, hspace⟩ _⟩

theorem tagLines_tagged (d : DocComment) : Tagged d.tagLines := by
  have hparams : Tagged (paramLines d.params) := by
    rcases d.params with _ | ⟨⟨name, text⟩, ps⟩
    · exact .inl rfl
    · obtain ⟨x, hx⟩ := tagged_trimRight "param ".toList ⟨'p', by decide, rfl⟩ (name ++ " - " ++ text).toList
      refine .inr ⟨x, (paramLines ((name, text) :: ps)).drop 2, .inr ?_⟩
      rw [← hx]
      simp [paramLines, String.toList_append]
  have hreturns : ∀ s, Tagged [trimRight (" * @returns " ++ s).toList] := fun s => by
    obtain ⟨x, hx⟩ := tagged_trimRight "returns ".toList ⟨'r', by decide, rfl⟩ s.toList
    exact .inr ⟨x, [], .inl (by rw [← hx]; simp [String.toList_append])⟩
  have hdeprecated : ∀ s, Tagged [(" * @deprecated " ++ s).toList] := fun s =>
    .inr ⟨"deprecated ".toList ++ s.toList, [], .inl (by simp [String.toList_append])⟩
  have hsince : ∀ s, Tagged [(" * @since " ++ s).toList] := fun s =>
    .inr ⟨"since ".toList ++ s.toList, [], .inl (by simp [String.toList_append])⟩
  have hexample : ∀ s, Tagged (exampleLines s) := fun s => .inr ⟨"example".toList, _, .inr rfl⟩
  exact (((hparams.append (tagged_optional hreturns)).append (tagged_optional hexample)).append
    (tagged_optional hdeprecated)).append (tagged_optional hsince)

def isText (l : List Char) : Bool := l.head? != some '@'

theorem takeWhile_tag (cs : List Char) : ((splitLines (" * @".toList ++ cs)).map docLine).takeWhile isText = [] := by
  have hfirst : ∃ x xs, splitLines (" * @".toList ++ cs) = (" * ".toList ++ '@' :: x) :: xs := by
    rcases splitLinesFrom_append (cons_ne_nil '@' [' ', '*', ' ']) [] cs with ⟨-, h⟩ | ⟨x, xs, -, h⟩
    · exact ⟨[], [], h⟩
    · exact ⟨x, xs, h⟩
  obtain ⟨x, xs, h⟩ := hfirst
  rw [h, map_cons, docLine_star, trim_cons rfl, trimRight_cons rfl, takeWhile_cons_of_neg (by simp [isText])]

theorem takeWhile_tagged {ls : List (List Char)} (h : Tagged ls) :
    ∀ l ∈ ((splitLines (joinLines (ls ++ [[' ']]))).map docLine).takeWhile isText, l = [] := by
  rcases h with rfl | ⟨x, r, rfl | rfl⟩
  · decide
  · rw [cons_append, joinLines, join_cons, append_assoc, takeWhile_tag]
    exact forall_mem_nil _
  · have hjoin : joinLines (" *".toList :: (" * @".toList ++ x) :: r ++ [[' ']]) =
        " *\n".toList ++ (" * @".toList ++ (x ++ (r ++ [[' ']]).flatMap (['\n'] ++ ·))) := by
      rw [cons_append, cons_append, joinLines, join_cons, flatMap_cons]
      simp
    rw [hjoin, show ∀ cs, splitLines (" *\n".toList ++ cs) = " *".toList :: splitLines cs from fun _ => rfl, map_cons,
      takeWhile_cons_of_pos (by decide), takeWhile_tag]
    decide

/-! ## Whole comments -/

theorem render_eq (d : DocComment) : d.render = "/**".toList ++
    ('\n' :: (" * ".toList ++ d.description.toList ++ '\n' :: joinLines (d.tagLines ++ [[' ']]))) ++ "*/".toList := by
  have hlines : d.lines = "/**".toList :: (" * ".toList ++ d.description.toList)
      :: (d.tagLines ++ [[' '] ++ "*/".toList]) := by
    simp [lines, tagLines, String.toList_append]
  obtain ⟨l, ls, hls⟩ := exists_cons_of_ne_nil
    (append_ne_nil_of_right_ne_nil d.tagLines (cons_ne_nil ([' '] ++ "*/".toList) []))
  have hjoin := join_concat ['\n'] [' '] "*/".toList d.tagLines
  rw [hls] at hjoin
  rw [render, joinLines, hlines, hls, join, join, hjoin]
  simp [joinLines]

theorem docText_framed (body : List Char) : docText ("/**".toList ++ body ++ "*/".toList) =
    trim (joinLines (((splitLines body).map docLine).takeWhile isText)) := by
  have hinner : (("/**".toList ++ body ++ "*/".toList).take (("/**".toList ++ body ++ "*/".toList).length - 2)).drop 3
      = body := by
    rw [length_append, show "*/".toList.length = 2 from rfl, Nat.add_sub_cancel, take_left]
    rfl
  rw [docText, hinner]
  rfl

/-- **The text of a doc comment is its description**, line by line without the white space at the ends. -/
theorem docText_render (d : DocComment) (hat : ∀ l ∈ splitLines d.description.toList, (trim l).head? ≠ some '@')
    (hstar : ∀ l ∈ (splitLines d.description.toList).tail, (trim l).head? ≠ some '*') :
    docText d.render = trim (joinLines ((splitLines d.description.toList).map trim)) := by
  obtain ⟨gap, hgap, hlines⟩ := splitLinesFrom_newline [] (" * ".toList ++ d.description.toList)
    (joinLines (d.tagLines ++ [[' ']]))
  obtain ⟨gap', hgap', hmap⟩ := map_docLine_description hstar
  have hblank : ∀ {ls : List (List Char)}, (∀ l ∈ ls, l = []) → ∀ l ∈ ls, isText l := fun h l hl => by
    rw [h l hl]
    rfl
  have hempty : gap.map docLine = gap := (map_congr_left fun l hl => by rw [hgap l hl]; rfl).trans (map_id gap)
  have htext : ∀ l ∈ (splitLines d.description.toList).map trim ++ gap' ++ gap, isText l := by
    simp only [forall_mem_append, forall_mem_map]
    exact ⟨⟨fun l hl => bne_iff_ne.2 (hat l hl), hblank hgap'⟩, hblank hgap⟩
  rw [render_eq, docText_framed, show ∀ cs, splitLines ('\n' :: cs) = [] :: splitLines cs from fun _ =>
    rfl, splitLines, hlines,
    map_cons, map_append, map_append, hempty, show splitLinesFrom [] = splitLines from rfl, hmap,
    takeWhile_cons_of_pos (by decide), takeWhile_append_of_pos htext, append_assoc, append_assoc]
  refine @trim_joinLines_append [[]] _ (by simp) ?_ _
  simp only [forall_mem_append]
  exact ⟨hgap', hgap, takeWhile_tagged d.tagLines_tagged⟩

theorem docText_oneLine {description : List Char} (hline : ∀ c ∈ description, isLineBreak c = false)
    (htrim : trim description = description) : trim (joinLines ((splitLines description).map trim)) = description := by
  by_cases hne : description = []
  · rw [hne]
    rfl
  · rw [splitLines, splitLinesFrom_of_forall [] description hline hne]
    show trim (trim description) = _
    rw [htrim, htrim]

theorem commentLength_render {d : DocComment} (h : ¬ "*/".toList <:+: (d.render.drop 2).dropLast) (r : List Char) :
    commentLength (d.render ++ r) = d.render.length := by
  obtain ⟨body, hbody⟩ : ∃ body, d.render = "/**".toList ++ body ++ "*/".toList := ⟨_, d.render_eq⟩
  have hdrop : d.render.drop 2 = ('*' :: body ++ ['*']) ++ ['/'] := by
    rw [hbody]
    simp
  rw [hdrop, dropLast_concat] at h
  rw [hbody]
  exact Snippet.commentLength_framed h r

/-- **A doc comment is read as what was written.**  Where it stands before something, the lines of its description are
found, trimmed one by one and as a whole, and nothing of its tags; a description of one line is found as it is.  In
front of a source that reads, the comment is found there, unless one of its parts ends it early. -/
theorem docBefore_render [Recovery] (d : DocComment)
    (hat : ∀ l ∈ splitLines d.description.toList, (trim l).head? ≠ some '@')
    (hstar : ∀ l ∈ (splitLines d.description.toList).tail, (trim l).head? ≠ some '*') :
    let text := String.ofList (trim (joinLines ((splitLines d.description.toList).map trim)))
    (∀ source t, t.kind = .comment → textOf source t = d.render → docBefore source (some t) = some text) ∧
      ((∀ c ∈ d.description.toList, isLineBreak c = false) → trim d.description.toList = d.description.toList →
        text = d.description) ∧
      ∀ dialect path source root, parse dialect source = some root → ¬ "*/".toList <:+: (d.render.drop 2).dropLast →
        let o := Outline.ofSource dialect path source
        (Outline.ofSource dialect path (d.render ++ '\n' :: source)).tree =
          { o.tree with nodes := o.tree.nodes.map (Declaration.raised (Pos.origin.afterAll (d.render ++ ['\n']))
            (root.namedChildren.head?.map (·.start)) (some text)) } := by
  intro text
  have hmark : "/**".toList.isPrefixOf d.render = true := by
    rw [render_eq]
    rfl
  have htext : String.ofList (docText d.render) = text := congrArg String.ofList (docText_render d hat hstar)
  refine ⟨fun source t hkind hraw => ?_, fun hline htrim => ?_, fun dialect path source root hroot hopen => ?_⟩
  · rw [docBefore, hraw, hkind, hmark, htext]
    rfl
  · rw [← String.toList_inj, String.toList_ofList, docText_oneLine hline htrim]
  · have houtline := Snippet.ofSource_commented path ['\n'] hmark (commentLength_render hopen) (all_eq_true.1 rfl) hroot
    rw [htext] at houtline
    exact houtline.2.2.2.2

theorem docBefore_render_lines :
    let d : DocComment :=
      { description := "* Adds \u2028\tone user.\r\n", params := [("id", "@")], since := some "*\n@" }
    (Outline.ofSource .typescript "a.ts" (d.render ++ '\n' :: "class A \x7b\x7d\n".toList)).tree.nodes.map (·.doc) =
      [some "* Adds\none user."] := by
  intro d
  have hfirst : (parse .typescript "class A \x7b\x7d\n".toList).map (fun root =>
      root.namedChildren.head?.map (·.start)) =
      some (some 0) := by decide +kernel
  obtain ⟨root, hroot, hfirst⟩ := Option.map_eq_some_iff.1 hfirst
  have htree := (docBefore_render d (by decide) (by decide)).2.2 .typescript "a.ts" _ root hroot (by decide +kernel)
  dsimp only at htree
  rw [htree, hfirst]
  decide +kernel

end DocComment
end SourceBench
