import SourceBench.Proofs.Outline.Moved
import SourceBench.Proofs.Syntax.Preface
import SourceBench.Snippet.Header

/-!
# Licence headers in front of sources

A header is one comment as long as its text does not hold the mark that ends comments (`commentLength_headerComment`).
So a source with a header reads as the source does, moved by the size of the header, except that the header is a doc
comment: what the first statement declares gets its text (`ofSource_commented`), unless something stands before that
statement.
-/
namespace SourceBench.Snippet

open List
open Syntax Reading
open Cursor (passes_nil)

variable {ls : List (List Char)} {header comment : List Char}

/-! ## The mark that ends comments -/

def Unclosed (cs : List Char) : Prop := ¬ ['*', '/'] <:+: cs

theorem Unclosed.append {z : Char} (hstar : z ≠ '*') (hslash : z ≠ '/') {b : List Char} (hb : Unclosed b) :
    ∀ {a : List Char}, Unclosed a → Unclosed (a ++ z :: b)
  | [], _, h => by
    rcases infix_cons_iff.1 h with h | h
    · exact hstar (cons_prefix_cons.1 h).1.symm
    · exact hb h
  | x :: a, ha, h => by
    rcases infix_cons_iff.1 h with h | h
    · obtain ⟨rfl, hnext⟩ := cons_prefix_cons.1 h
      cases a with
      | nil => exact hslash (cons_prefix_cons.1 hnext).1.symm
      | cons y a =>
        obtain ⟨rfl, -⟩ := cons_prefix_cons.1 hnext
        exact ha ⟨[], a, rfl⟩
    · exact Unclosed.append hstar hslash hb (fun h => ha (infix_cons h)) h

theorem Unclosed.lines (hls : ∀ l ∈ ls, Unclosed l) : ∀ {a : List Char}, Unclosed a →
    Unclosed (a ++ ls.flatMap ('\n' :: ·)) := by
  induction ls with
  | nil => exact fun ha => by rwa [flatMap_nil, append_nil]
  | cons l ls ih =>
    intro a ha
    obtain ⟨hl, hls⟩ := forall_mem_cons.1 hls
    have hfirst : Unclosed (a ++ '\n' :: l) := Unclosed.append (by decide) (by decide) hl ha
    have hall := ih hls hfirst
    rwa [append_assoc] at hall

theorem closeLength_append (r : List Char) : ∀ {cs : List Char} (n : Nat), Unclosed (cs ++ ['*']) →
    closeLength n (cs ++ '*' :: '/' :: r) = n + cs.length + 2
  | [], _, _ => rfl
  | a :: cs, n, h => by
    have htail : Unclosed (cs ++ ['*']) := fun hcs => h (infix_cons hcs)
    have hstep : closeLength n (a :: (cs ++ '*' :: '/' :: r)) = closeLength (n + 1) (cs ++ '*' :: '/' :: r) := by
      rw [closeLength]
      rintro r' rfl hcs
      cases cs with
      | nil => cases hcs
      | cons b cs =>
        cases hcs
        exact h ⟨[], cs ++ ['*'], rfl⟩
    rw [cons_append, hstep, closeLength_append r (n + 1) htail, length_cons]
    omega

theorem commentLength_framed {body : List Char} (h : Unclosed (body ++ ['*'])) (r : List Char) :
    commentLength ('/' :: '*' :: (body ++ ['*', '/']) ++ r) = ('/' :: '*' :: (body ++ ['*', '/'])).length := by
  show closeLength 2 ((body ++ ['*', '/']) ++ r) = _
  rw [append_assoc]
  show closeLength 2 (body ++ '*' :: '/' :: r) = _
  rw [closeLength_append r 2 h]
  simp only [length_cons, length_append, length_nil]
  omega

def headerLines (header : List Char) : List (List Char) :=
  (Text.splitOn '\n' header).map fun l => if (Text.trim l).isEmpty then [' ', '*'] else ' ' :: '*' :: ' ' :: l

theorem headerComment_eq (header : List Char) : headerComment header =
    '/' :: '*' :: ((['*'] ++ (headerLines header).flatMap ('\n' :: ·)) ++ ['\n', ' '] ++ ['*', '/']) := by
  show Text.join ['\n'] ("/**".toList :: (headerLines header ++ [" */".toList])) = _
  rw [Text.join_cons, flatMap_append]
  simp

theorem headerLines_unclosed (h : Unclosed header) : ∀ l ∈ headerLines header, Unclosed l := by
  intro l hl
  obtain ⟨k, hk, rfl⟩ := mem_map.1 hl
  split
  · unfold Unclosed
    decide
  · have hk' : Unclosed k := fun hclose => h (hclose.trans (Text.infix_of_mem_splitOn header k hk))
    exact Unclosed.append (z := ' ') (by decide) (by decide) hk' (a := [' ', '*']) (by unfold Unclosed; decide)

theorem commentLength_headerComment (h : Unclosed header) (r : List Char) :
    commentLength (headerComment header ++ r) = (headerComment header).length := by
  have hlines : Unclosed (['*'] ++ (headerLines header).flatMap ('\n' :: ·)) :=
    Unclosed.lines (headerLines_unclosed h) (by unfold Unclosed; decide)
  have hbody : Unclosed ((['*'] ++ (headerLines header).flatMap ('\n' :: ·)) ++ ['\n', ' '] ++ ['*']) := by
    rw [append_assoc]
    exact Unclosed.append (by decide) (by decide) (by unfold Unclosed; decide) hlines
  rw [headerComment_eq]
  exact commentLength_framed hbody r

/-! ## Sources behind a header -/

theorem count_flatMap_newline (h : ∀ l ∈ ls, '\n' ∉ l) : (ls.flatMap ('\n' :: ·)).count '\n' = ls.length := by
  induction ls with
  | nil => rfl
  | cons l ls ih =>
    obtain ⟨hl, hls⟩ := forall_mem_cons.1 h
    rw [flatMap_cons, count_append, ih hls, count_cons_self, count_eq_zero_of_not_mem hl,
      length_cons, Nat.zero_add, Nat.add_comm]

theorem headerComment_count_newline (header : List Char) :
    (headerComment header).count '\n' = header.count '\n' + 2 := by
  have hlines : ∀ l ∈ headerLines header, '\n' ∉ l := by
    intro l hl
    obtain ⟨k, hk, rfl⟩ := mem_map.1 hl
    have hk' := Text.not_mem_of_mem_splitOn header k hk
    split
    · decide
    · simpa using hk'
  have hcount : ((headerLines header).flatMap ('\n' :: ·)).count '\n' = header.count '\n' + 1 := by
    rw [count_flatMap_newline hlines, headerLines, length_map, Text.length_splitOn]
  rw [headerComment_eq]
  simp [hcount]

def headerSize (header : List Char) : Pos := ⟨Utf8.byteSize (headerComment header) + 2, header.count '\n' + 4⟩

theorem afterAll_header (header : List Char) :
    Pos.origin.afterAll (headerComment header ++ ['\n', '\n']) = headerSize header := by
  have hbyte : (Pos.origin.afterAll (headerComment header ++ ['\n', '\n'])).byte = (headerSize header).byte := by
    rw [Pos.afterAll_byte, Utf8.byteSize_append]
    exact Nat.zero_add _
  have hrow : (Pos.origin.afterAll (headerComment header ++ ['\n', '\n'])).row = (headerSize header).row := by
    rw [Layout.afterAll_row, count_append, headerComment_count_newline]
    exact Nat.zero_add _
  generalize Pos.origin.afterAll (headerComment header ++ ['\n', '\n']) = p at hbyte hrow ⊢
  obtain ⟨byte, row⟩ := p
  obtain rfl : byte = _ := hbyte
  obtain rfl : row = _ := hrow
  rfl

theorem docBefore_comment (hmark : "/**".toList.isPrefixOf comment) (rest : List Char) :
    docBefore (comment ++ rest) (some (.leaf .plain .comment ⟨.origin, Pos.origin.afterAll comment⟩ comment)) =
      some (String.ofList (docText comment)) := by
  have htext : textOf (comment ++ rest) (.leaf .plain .comment ⟨.origin, Pos.origin.afterAll comment⟩ comment)
      = comment :=
    @Layout.slice_of_passes _ _ (.ofSource (comment ++ rest)) ⟨rest, _⟩ ⟨[], passes_nil _⟩ ⟨rfl, rfl⟩
  rw [docBefore, htext, hmark]
  rfl

/-- **A doc comment in front of a source** moves what is in it, and is the doc comment of what its first statement
declares if nothing stands before that statement. -/
theorem ofSource_commented [Recovery] {dialect : Dialect} {source : List Char} {root : Tree} (path : String)
    (gap : List Char) (hmark : "/**".toList.isPrefixOf comment)
    (hlength : ∀ r, commentLength (comment ++ r) = comment.length)
    (hgap : ∀ x ∈ gap, isBlank x) (hroot : parse dialect source = some root) :
    let o := Outline.ofSource dialect path source
    let o' := Outline.ofSource dialect path (comment ++ (gap ++ source))
    (parse dialect (comment ++ (gap ++ source))).isSome ∧ o'.imports = o.imports ∧ o'.exports = o.exports ∧
      o'.metrics = { o.metrics with lines := o'.metrics.lines } ∧
      o'.tree = { o.tree with nodes := o.tree.nodes.map (Declaration.raised (Pos.origin.afterAll (comment ++ gap))
        (root.namedChildren.head?.map (·.start)) (some (String.ofList (docText comment)))) } := by
  have hne : comment ≠ [] := by
    rintro rfl
    cases hmark
  obtain ⟨e, -, hparse⟩ := parse_prefaced hne hlength hgap hroot
  rw [← append_assoc] at hparse
  -- statements lie apart, so only those of the first one begin where it does
  obtain ⟨hdisjoint, hplaced⟩ := parse_placed hroot
  have hapart : root.children.Pairwise fun t u => t.start ≠ u.start :=
    List.Pairwise.imp_of_mem (fun ht _ htu => by have := (hplaced _ ht).1.start_lt_stop; omega) hdisjoint
  have hcoherent := parse_coherent hroot
  obtain ⟨items, _, _, rfl, -, -, -⟩ := parse_covers hroot
  have hbyte : (Pos.origin.afterAll (comment ++ gap)).byte = Utf8.byteSize (comment ++ gap) := by
    rw [Pos.afterAll_byte]
    exact Nat.zero_add _
  have houtline := ofTree_prefaced hbyte rfl rfl hcoherent (parse_coherent hparse) hapart path
  dsimp only at houtline ⊢
  rw [append_assoc, docBefore_comment hmark, ← append_assoc] at houtline
  obtain ⟨htree, himports, hexports, hmetrics⟩ := houtline
  rw [Outline.ofSource, Outline.ofSource, ← append_assoc, treeOf_of_parse hparse, treeOf_of_parse hroot, hparse]
  exact ⟨rfl, himports, hexports, hmetrics, htree⟩

/-- **A header changes nothing but positions and the doc comment of the first statement**: the source with it reads, its
imports, exports and metrics are the same except for the number of lines, and its declarations are the same, on lines
further down by as much, except that what the first statement declares has the text of the header as its doc comment, if
nothing stands before that statement. -/
theorem addHeader_outline [Recovery] (dialect : Dialect) (path : String) (source header : List Char) (root : Tree)
    (hroot : parse dialect source = some root) (hheader : ¬ "*/".toList <:+: header) :
    let o := Outline.ofSource dialect path source
    let o' := Outline.ofSource dialect path (addHeader source header)
    (parse dialect (addHeader source header)).isSome = true ∧ o'.imports = o.imports ∧ o'.exports = o.exports ∧
      o'.metrics = { o.metrics with lines := o'.metrics.lines } ∧ (opensWithComment source = true → o' = o) ∧
      (opensWithComment source = false → o'.tree = { o.tree with nodes := o.tree.nodes.map (Declaration.raised
        (headerSize header) (root.namedChildren.head?.map (·.start))
          (some (String.ofList (docText (headerComment header))))) }) := by
  cases hopens : opensWithComment source with
  | true =>
    have hsame : addHeader source header = source := if_pos hopens
    rw [hsame]
    exact ⟨by rw [hroot]; rfl, rfl, rfl, rfl, fun _ => rfl, nofun⟩
  | false =>
    have hadded : addHeader source header = headerComment header ++ (['\n', '\n'] ++ source) :=
      if_neg (by rw [hopens]; decide)
    have hmark : "/**".toList.isPrefixOf (headerComment header) = true := by
      rw [headerComment_eq]
      rfl
    have houtline := ofSource_commented path ['\n', '\n'] hmark (commentLength_headerComment hheader)
      (all_eq_true.1 rfl) hroot
    rw [afterAll_header] at houtline
    obtain ⟨hreads, himports, hexports, hmetrics, htree⟩ := houtline
    rw [hadded]
    exact ⟨hreads, himports, hexports, hmetrics, nofun, fun _ => htree⟩

theorem addHeader_outline_two_statements :
    let source := "class A \x7b m() \x7b\x7d \x7d\nexport const b = 1;\n".toList
    let o := Outline.ofSource .typescript "a.ts" source
    let o' := Outline.ofSource .typescript "a.ts" (addHeader source "MIT".toList)
    o'.tree.nodes = o.tree.nodes.map (Declaration.raised ⟨16, 4⟩ (some 0) (some "MIT")) ∧
      o'.tree.nodes.map (fun d => (d.name, d.startLine, d.doc))
        = [("A", 5, some "MIT"), ("m", 5, none), ("b", 6, none)] := by
  intro source
  have hfirst : (parse .typescript source).map (fun root => root.namedChildren.head?.map (·.start))
      = some (some 0) := by
    decide +kernel
  obtain ⟨root, hroot, hfirst⟩ := Option.map_eq_some_iff.1 hfirst
  have htree := (addHeader_outline .typescript "a.ts" source "MIT".toList root hroot (by decide)).2.2.2.2.2 (by decide)
  have hsize : headerSize "MIT".toList = ⟨16, 4⟩ := by decide +kernel
  have hdoc : String.ofList (docText (headerComment "MIT".toList)) = "MIT" := by decide +kernel
  rw [hfirst, hsize, hdoc] at htree
  refine ⟨?_, by decide +kernel⟩
  rw [htree]

/-- A header is the doc comment of a class that nothing stood before. -/
theorem addHeader_gives_doc :
    (Outline.ofSource .typescript "a.ts" "class A \x7b\x7d\n".toList).tree.nodes.map (·.doc) = [none] ∧
      (Outline.ofSource .typescript "a.ts" (addHeader "class A \x7b\x7d\n".toList "MIT".toList)).tree.nodes.map (·.doc)
        =
        [some "MIT"] := by
  decide +kernel

end SourceBench.Snippet
