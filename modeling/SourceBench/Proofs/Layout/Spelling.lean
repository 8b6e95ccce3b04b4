import SourceBench.Proofs.Layout.Tokens

/-!
# What printing spells

Printing decides for each token how it is joined to the token before it: by nothing, by a blank, or by a line end with
or without an empty line (`joint`).  `spell` is the text that a list of such decisions makes, and a printed page is that
text (`closeLines_lines`).  So the printed text of a source is its tokens one after another, each as it is written, with
only blanks between them.
-/
namespace SourceBench.Layout

open Syntax Text Page
open List hiding splitOn

variable {l rest : List Char} {a : Placed}

/-! ## Joints -/

/-- How a token is joined to the one before it. -/
inductive Joint where
  /-- A comment behind the token before it. -/
  | append
  /-- On the same line, with a blank or without. -/
  | inline (blank : Bool)
  /-- On a new line, behind an empty line or not. -/
  | newline (empty : Bool)
deriving DecidableEq, Repr

def isComment (t : Placed) : Bool := t.tree.kind == .comment

def isLineComment (t : Placed) : Bool := isComment t && "//".toList.isPrefixOf t.text

def trails (a b : Placed) : Bool := isComment b && a.tree.stopRow == b.tree.startRow

/-- How the token `b` is joined to `a`.  `pending`: the line of `a` must end. -/
def joint (pending : Bool) (a b : Placed) : Joint :=
  if trails a b then .append
  else if pending || b.startsStatement || closesBlock (some a) b || isComment b then
    .newline ((b.startsStatement || isComment b) &&
      (!a.isToken "\x7b" && decide (a.tree.stopRow + 2 ≤ b.tree.startRow)))
  else .inline (spaceBetween a b)

/-- The line must end after the token `b`. -/
def pendingAfter (pending : Bool) (a b : Placed) : Bool :=
  if trails a b then pending || "//".toList.isPrefixOf b.text else isComment b

def Joint.depth (j : Joint) (d : Nat) (b : Placed) : Nat :=
  match j with
  | newline _ => b.depth
  | _ => d

def Joint.settle (j : Joint) (text : List Char) : List Char :=
  match j with
  | newline _ => trimRight text
  | _ => text

def Joint.gap (j : Joint) (d : Nat) : List Char :=
  match j with
  | append => [' ']
  | inline blank => if blank then [' '] else []
  | newline empty => '\n' :: ((if empty then ['\n'] else []) ++ indentation d)

def shown (t : Placed) (d : Nat) : List Char := if isComment t then commentText t.text d else t.text

structure Step where
  joint : Joint
  depth : Nat
  token : Placed

def Step.text (q : Step) : List Char := shown q.token q.depth

def steps (d : Nat) (pending : Bool) (a : Placed) : List Placed → List Step
  | [] => []
  | b :: bs =>
    ⟨joint pending a b, (joint pending a b).depth d b, b⟩ ::
      steps ((joint pending a b).depth d b) (pendingAfter pending a b) b bs

def spell (text : List Char) : List Step → List Char
  | [] => trimRight text ++ ['\n']
  | q :: qs => q.joint.settle text ++ (q.joint.gap q.depth ++ spell q.text qs)

def spellAll : List Placed → List Char
  | [] => []
  | a :: bs => indentation a.depth ++ spell (shown a a.depth) (steps a.depth (isComment a) a bs)

/-! ## Comments as printed -/

def reindent (d : Nat) (l : List Char) : List Char :=
  indentation d ++ (if (trim l).head? == some '*' then ' ' :: trim l else trim l)

variable {d : Nat} {c : Char} {first : List Char} {t : Placed}

theorem isSpace_of_mem_indentation (h : c ∈ indentation d) : isSpace c := by
  rw [(mem_replicate.1 h).2]
  decide

theorem isBlank_of_mem_indentation (h : c ∈ indentation d) : isBlank c := by
  rw [(mem_replicate.1 h).2]
  decide

theorem trim_reindent (d : Nat) (l : List Char) : trim (reindent d l) = trim l := by
  rw [reindent, trim_append_space fun c hc => isSpace_of_mem_indentation hc]
  split
  · have hblank : ∀ c ∈ [' '], isSpace c := forall_mem_singleton.2 (by decide)
    exact (trim_append_space hblank (trim l)).trans (trim_trim l)
  · exact trim_trim l

theorem reindent_reindent (d : Nat) (l : List Char) : reindent d (reindent d l) = reindent d l := by
  rw [reindent, trim_reindent]
  rfl

theorem mem_of_mem_trim {cs : List Char} (h : c ∈ trim cs) : c ∈ cs :=
  (dropWhile_suffix _).subset ((trimRight_isPrefix _).subset h)

theorem newline_not_mem_reindent (h : '\n' ∉ l) : '\n' ∉ reindent d l := by
  have htrim : '\n' ∉ trim l := fun hm => h (mem_of_mem_trim hm)
  have hpad : '\n' ∉ indentation d := fun hm => by
    have := (mem_replicate.1 hm).2
    exact absurd this (by decide)
  rw [reindent, mem_append, not_or]
  refine ⟨hpad, ?_⟩
  split
  · rw [mem_cons, not_or]
    exact ⟨by decide, htrim⟩
  · exact htrim

theorem commentText_cases (text : List Char) (d : Nat) :
    (commentText text d = text ∧ ('\n' ∉ text ∨ ¬ "/*".toList <+: text)) ∨
    ∃ first rest, text = first ++ '\n' :: rest ∧ '\n' ∉ first ∧ "/*".toList <+: text ∧
      commentText text d = join ['\n'] (first :: (splitOn '\n' rest).map (reindent d)) := by
  unfold commentText
  split
  · rename_i h
    rw [Bool.or_eq_true, Bool.not_eq_true', Bool.not_eq_true'] at h
    refine .inl ⟨rfl, h.imp (fun h => ?_) fun h => ?_⟩
    · simpa using h
    · rw [← isPrefixOf_iff_prefix, h]
      exact Bool.false_ne_true
  · rename_i h
    simp only [Bool.or_eq_true, Bool.not_eq_true', not_or, Bool.not_eq_false] at h
    rcases splitOn_cases '\n' text with ⟨hno, -⟩ | ⟨first, rest, htext, hfirst, hsplit⟩
    · exact absurd (contains_iff_mem.1 h.1) hno
    · refine .inr ⟨first, rest, htext, hfirst, isPrefixOf_iff_prefix.1 h.2, ?_⟩
      rw [hsplit]
      rfl

theorem newline_not_mem_moved (h : '\n' ∉ first) (rest : List Char) (d : Nat) :
    ∀ l ∈ first :: (splitOn '\n' rest).map (reindent d), '\n' ∉ l := by
  intro l hl
  rcases mem_cons.1 hl with rfl | hl
  · exact h
  · obtain ⟨m, hm, rfl⟩ := mem_map.1 hl
    exact newline_not_mem_reindent (not_mem_of_mem_splitOn rest m hm)

/-- **A comment keeps its lines**, up to the white space at their ends. -/
theorem sameLines_commentText (text : List Char) (d : Nat) : SameLines text (commentText text d) := by
  rcases commentText_cases text d with ⟨h, -⟩ | ⟨first, rest, htext, hfirst, -, h⟩
  · rw [h]
    rfl
  · unfold SameLines
    rw [h, splitOn_join (cons_ne_nil _ _) (newline_not_mem_moved hfirst rest d), htext, splitOn_append_mark hfirst,
      map_cons, map_cons, map_map]
    congr 1
    exact map_congr_left fun l _ => (trim_reindent d l).symm

theorem opens_of_append (h : "/*".toList <+: first ++ '\n' :: rest) : "/*".toList <+: first := by
  cases first with
  | nil => exact absurd (cons_prefix_cons.1 h).1 (by decide)
  | cons a r =>
    obtain ⟨ha, h⟩ := cons_prefix_cons.1 h
    cases r with
    | nil => exact absurd (cons_prefix_cons.1 h).1 (by decide)
    | cons b r =>
      obtain ⟨hb, -⟩ := cons_prefix_cons.1 h
      rw [← ha, ← hb]
      exact ⟨r, rfl⟩

theorem join_cons_le (mark l : List Char) (ls : List (List Char)) : l <+: join mark (l :: ls) := by
  cases ls with
  | nil => exact prefix_refl l
  | cons m ls =>
    rw [join, append_assoc]
    exact prefix_append _ _

theorem commentText_commentText (text : List Char) (d : Nat) :
    commentText (commentText text d) d = commentText text d := by
  rcases commentText_cases text d with ⟨h, -⟩ | ⟨first, rest, htext, hfirst, hopen, h⟩
  · rw [h, h]
  · have hlines := newline_not_mem_moved hfirst rest d
    have hopen' : "/*".toList <+: commentText text d := by
      rw [h]
      exact (opens_of_append (htext ▸ hopen)).trans (join_cons_le _ _ _)
    rcases commentText_cases (commentText text d) d with ⟨h', -⟩ | ⟨first', rest', htext', hfirst', -, h'⟩
    · exact h'
    · have hsplit := splitOn_append_mark hfirst' rest'
      rw [← htext', h, splitOn_join (cons_ne_nil _ _) hlines, cons.injEq] at hsplit
      rw [h', ← hsplit.1, ← hsplit.2, h, map_map]
      congr 2
      exact map_congr_left fun l _ => reindent_reindent d l

theorem trimLeft_concat (h : isSpace c = false) (cs : List Char) : ∃ r, trimLeft (cs ++ [c]) = r ++ [c] := by
  rw [trimLeft, dropWhile_append]
  split
  · exact ⟨[], dropWhile_cons_of_neg (by simp [h])⟩
  · exact ⟨_, rfl⟩

theorem reindent_concat (h : isSpace c = false) (d : Nat) (cs : List Char) :
    ∃ r, reindent d (cs ++ [c]) = r ++ [c] := by
  obtain ⟨r, hr⟩ := trimLeft_concat h cs
  rw [reindent, trim, hr, trimRight_concat h]
  split
  · exact ⟨indentation d ++ ' ' :: r, by simp⟩
  · exact ⟨indentation d ++ r, by simp⟩

theorem join_cons_concat {mark w : List Char} {ls : List (List Char)} (hne : ls ≠ []) (h : join mark ls = w ++ [c])
    (l : List Char) : ∃ r, join mark (l :: ls) = r ++ [c] := by
  cases ls with
  | nil => exact absurd rfl hne
  | cons m ls =>
    rw [join, h]
    exact ⟨l ++ mark ++ w, (append_assoc _ _ _).symm⟩

theorem concat_of_append {x : List Char} (h : first ++ '\n' :: rest = x ++ ['/']) : ∃ y, rest = y ++ ['/'] := by
  rcases eq_nil_or_concat' rest with rfl | ⟨y, c, rfl⟩
  · exact absurd (append_inj_right' h rfl) (by decide)
  · rw [← cons_append, ← append_assoc] at h
    exact ⟨y, by rw [append_inj_right' h rfl]⟩

theorem map_reindent_ne_nil (d : Nat) (cs : List Char) : (splitOn '\n' cs).map (reindent d) ≠ [] :=
  fun h => splitOn_ne_nil _ _ (map_eq_nil_iff.1 h)

theorem join_reindent_concat (d : Nat) (cs : List Char) :
    ∀ x, cs = x ++ ['/'] → ∃ r, join ['\n'] ((splitOn '\n' cs).map (reindent d)) = r ++ ['/'] := by
  induction cs using splitOn_induction '\n' with
  | last xs h =>
    rintro x rfl
    rw [splitOn_of_not_mem h]
    exact reindent_concat (by decide) d x
  | field xs rest h ih =>
    intro x hx
    obtain ⟨y, hy⟩ := concat_of_append hx
    obtain ⟨w, hw⟩ := ih y hy
    rw [splitOn_append_mark h, map_cons]
    exact join_cons_concat (map_reindent_ne_nil d rest) hw _

theorem commentText_concat (d : Nat) (x : List Char) : ∃ r, commentText (x ++ ['/']) d = r ++ ['/'] := by
  rcases commentText_cases (x ++ ['/']) d with ⟨h, -⟩ | ⟨first, rest, htext, -, -, h⟩
  · exact ⟨x, h⟩
  · obtain ⟨y, hy⟩ := concat_of_append htext.symm
    obtain ⟨w, hw⟩ := join_reindent_concat d rest y hy
    rw [h]
    exact join_cons_concat (map_reindent_ne_nil d rest) hw first

theorem commentText_opens (a b : Char) (r : List Char) (d : Nat) :
    ∃ r', commentText (a :: b :: r) d = a :: b :: r' := by
  rcases commentText_cases (a :: b :: r) d with ⟨h, -⟩ | ⟨first, rest, htext, -, hopen, h⟩
  · exact ⟨r, h⟩
  · have hle := (opens_of_append (htext ▸ hopen)).trans
      (join_cons_le ['\n'] first ((splitOn '\n' rest).map (reindent d)))
    rw [← h] at hle
    obtain ⟨r', hr'⟩ := hle
    obtain ⟨ha, hopen⟩ := cons_prefix_cons.1 hopen
    obtain ⟨hb, -⟩ := cons_prefix_cons.1 hopen
    exact ⟨r', by rw [← hr', ← ha, ← hb]; rfl⟩

/-! ## Tokens as printed -/

inductive Look (t : Placed) : Prop
  | line (r : List Char) (hc : isComment t = true) (ht : t.text = '/' :: '/' :: r) (hr : '\n' ∉ r)
  | block (r : List Char) (hc : isComment t = true) (ht : t.text = '/' :: '*' :: (r ++ ['*', '/']))
  | interpreter (r : List Char) (hc : isComment t = false) (hk : t.tree.kind = .hashBangLine)
    (ht : t.text = '#' :: '!' :: r) (hr : '\n' ∉ r)
  | firm (hc : isComment t = false) (hk : t.tree.kind ≠ .hashBangLine) (ht : Firm t.text)

theorem Placed.Sound.look (h : t.Sound) : Look t := by
  unfold Placed.Sound TokenText at h
  split at h
  · rename_i hk
    have hc : isComment t := by simpa [isComment] using hk
    generalize ht : t.text = text at h
    cases h with
    | line r hr => exact .line r hc ht fun hm => absurd (hr _ hm) (by decide)
    | block r => exact .block r hc ht
  · rename_i hk
    have hc : isComment t = false := by simpa [isComment] using hk
    split at h
    · rename_i hb
      obtain ⟨r, ht, hr⟩ := h
      exact .interpreter r hc hb ht hr
    · rename_i hb
      exact .firm hc hb h

theorem Placed.Sound.shown_opens (h : t.Sound) (d : Nat) : ∃ c r r', t.text = c :: r ∧ shown t d = c :: r' ∧
    isInk c := by
  cases h.look with
  | line r hc ht hr =>
    obtain ⟨r', hr'⟩ := commentText_opens '/' '/' r d
    exact ⟨'/', _, '/' :: r', ht, by rw [shown, if_pos hc, ht, hr'], by decide⟩
  | block r hc ht =>
    obtain ⟨r', hr'⟩ := commentText_opens '/' '*' (r ++ ['*', '/']) d
    exact ⟨'/', _, '*' :: r', ht, by rw [shown, if_pos hc, ht, hr'], by decide⟩
  | interpreter r hc hk ht hr =>
    exact ⟨'#', _, '!' :: r, ht, by rw [shown, if_neg (by rw [hc]; exact Bool.false_ne_true), ht], by decide⟩
  | firm hc hk ht =>
    obtain ⟨c, r, hr, hink⟩ := ht.1
    exact ⟨c, r, r, hr, by rw [shown, if_neg (by rw [hc]; exact Bool.false_ne_true), hr], hink⟩

theorem Placed.Sound.shown_cons (h : t.Sound) (d : Nat) : ∃ c r, shown t d = c :: r ∧ isInk c := by
  obtain ⟨c, -, r, -, hr, hc⟩ := h.shown_opens d
  exact ⟨c, r, hr, hc⟩

theorem isSpace_of_isInk (h : isInk c) : isSpace c = false := by
  simp only [isInk, Bool.and_eq_true, Bool.not_eq_true'] at h
  exact h.2

theorem isBlank_of_isInk (h : isInk c) : isBlank c = false := by
  simp only [isInk, Bool.and_eq_true, Bool.not_eq_true'] at h
  exact h.1

theorem Placed.Sound.trimRight_append {t : Placed} (h : t.Sound) (d : Nat) (a : List Char) :
    trimRight (a ++ shown t d) = a ++ trimRight (shown t d) := by
  obtain ⟨c, r, hr, hc⟩ := h.shown_cons d
  exact Text.trimRight_append ⟨c, by rw [hr]; exact mem_cons_self, isSpace_of_isInk hc⟩ a

/-! ## The page -/

def endLines (ls : List (List Char)) : List Char := ls.flatMap (· ++ ['\n'])

theorem endLines_append (a b : List (List Char)) : endLines (a ++ b) = endLines a ++ endLines b := flatMap_append

theorem joinLines_concat : ∀ (ls : List (List Char)), ls ≠ [] → joinLines ls ++ ['\n'] = endLines ls
  | [], h => absurd rfl h
  | [l], _ => by simp [joinLines, join, endLines]
  | l :: m :: ls, _ => by
    have ih := joinLines_concat (m :: ls) (cons_ne_nil _ _)
    simp only [joinLines, endLines, flatMap_cons] at ih ⊢
    rw [join, append_assoc, ih]

theorem closeLines_concat (h : l ≠ []) (ls : List (List Char)) : closeLines (ls ++ [l]) = endLines (ls ++ [l]) := by
  have hkeep : dropTrailingEmpty (ls ++ [l]) = ls ++ [l] := by
    rw [dropTrailingEmpty, reverse_append, reverse_singleton, singleton_append,
      dropWhile_cons_of_neg (by simpa using h), ← singleton_append, reverse_append, reverse_reverse,
      reverse_singleton]
  have hne : ls ++ [l] ≠ [] := by simp
  unfold closeLines
  rw [hkeep]
  cases hl : ls ++ [l] with
  | nil => exact absurd hl hne
  | cons m ms => exact joinLines_concat (m :: ms) (cons_ne_nil _ _)

/-- **What printing one more token does to a page** whose last token is `a`. -/
theorem Page.print_eq {g : Page} (b : Placed) (hlast : g.last = some a) (hcur : g.current ≠ []) :
    g.print b = match joint g.breakPending a b with
      | .append =>
        { g with
          current := g.current ++ ' ' :: shown b g.depth
          breakPending := pendingAfter g.breakPending a b
          last := some b }
      | .inline blank =>
        { g with
          current := g.current ++ (if blank then [' '] else []) ++ shown b g.depth
          breakPending := pendingAfter g.breakPending a b
          last := some b }
      | .newline empty =>
        ⟨(if empty then [[]] else []) ++ trimRight (indentation g.depth ++ g.current) :: g.lines,
          shown b b.depth, b.depth, pendingAfter g.breakPending a b, some b⟩ := by
  have hcur' : g.current.isEmpty = false := by simpa using hcur
  have htrails : (b.tree.kind == .comment && (some a).any fun a => a.tree.stopRow == b.tree.startRow)
      = trails a b := rfl
  have hcomment : (b.tree.kind == .comment) = isComment b := rfl
  unfold print joint pendingAfter
  rw [hlast, htrails]
  by_cases ht : trails a b
  · have hb : isComment b := by
      rw [trails, Bool.and_eq_true] at ht
      exact ht.1
    simp only [ht, if_true, shown, hb]
  · by_cases hbreak : (g.breakPending || b.startsStatement || closesBlock (some a) b || isComment b)
    · have hflush : g.flush =
          { g with lines := trimRight (indentation g.depth ++ g.current) :: g.lines, current := [] } := by
        rw [flush, if_neg (by simpa using hcur)]
      simp only [if_neg ht, place, hcomment, hcur', hlast, hbreak, Bool.not_false, Bool.true_and, if_true, hflush,
        Option.any_some]
      split
      · simp only [if_true, isEmpty_nil, shown]
        rfl
      · simp only [if_true, isEmpty_nil, shown]
        rfl
    · have hb : isComment b = false := by
        simp only [Bool.or_eq_true, not_or, Bool.not_eq_true] at hbreak
        exact hbreak.2
      simp only [if_neg ht, if_neg hbreak, place, hcomment, hcur', hlast, Bool.not_false, Bool.true_and,
        Bool.false_eq_true, if_false, Option.any_some]
      simp only [shown, hb, Bool.false_eq_true, if_false]

theorem Placed.Sound.trimRight_line (h : a.Sound) (d : Nat) (front : List Char) :
    trimRight (indentation d ++ (front ++ shown a d)) = indentation d ++ (front ++ trimRight (shown a d)) ∧
      trimRight (indentation d ++ (front ++ shown a d)) ≠ [] := by
  have heq : trimRight (indentation d ++ (front ++ shown a d)) = indentation d ++ (front ++ trimRight (shown a d)) := by
    rw [← append_assoc, h.trimRight_append d, append_assoc]
  obtain ⟨c, r, hr, hc⟩ := h.shown_cons d
  refine ⟨heq, ?_⟩
  rw [heq, hr, trimRight_cons (isSpace_of_isInk hc)]
  simp

theorem Page.foldl_print : ∀ (bs : List Placed) (g : Page) (a : Placed) (front : List Char), g.last = some a → a.Sound →
    (∀ b ∈ bs, b.Sound) → g.current = front ++ shown a g.depth → closeLines (bs.foldl print g).flush.lines.reverse =
      endLines g.lines.reverse ++
        (indentation g.depth ++ (front ++ spell (shown a g.depth) (steps g.depth g.breakPending a bs)))
  | [], g, a, front, hlast, ha, _, hcur => by
    obtain ⟨c, r, hr, -⟩ := ha.shown_cons g.depth
    obtain ⟨hline, hne⟩ := ha.trimRight_line g.depth front
    have hempty : ¬ g.current.isEmpty := by
      rw [hcur, hr]
      simp
    rw [foldl_nil, flush, if_neg hempty, hcur]
    simp only [reverse_cons]
    rw [closeLines_concat hne, endLines_append, hline]
    simp [endLines, steps, spell]
  | b :: bs, g, a, front, hlast, ha, hbs, hcur => by
    have hb := hbs b mem_cons_self
    have hbs' := fun x hx => hbs x (mem_cons_of_mem b hx)
    obtain ⟨c, r, hr, -⟩ := ha.shown_cons g.depth
    have hne : g.current ≠ [] := by
      rw [hcur, hr]
      simp
    rw [foldl_cons, print_eq b hlast hne, steps, spell]
    cases hj : joint g.breakPending a b with
    | append =>
      rw [foldl_print bs _ b (g.current ++ [' ']) rfl hb hbs' (by simp)]
      simp [hcur, Joint.settle, Joint.gap, Joint.depth, Step.text]
    | inline blank =>
      rw [foldl_print bs _ b (g.current ++ (if blank then [' '] else [])) rfl hb hbs' (by simp)]
      simp [hcur, Joint.settle, Joint.gap, Joint.depth, Step.text]
    | newline empty =>
      rw [foldl_print bs _ b [] rfl hb hbs' rfl]
      obtain ⟨hline, -⟩ := ha.trimRight_line g.depth front
      simp only [hcur, hline, Joint.settle, Joint.gap, Joint.depth, Step.text]
      cases empty <;> simp [endLines]

theorem closeLines_lines {ts : List Placed} (h : ∀ t ∈ ts, t.Sound) : closeLines (lines ts) = spellAll ts := by
  cases ts with
  | nil => rfl
  | cons a bs =>
    have hfirst : Page.empty.print a = ⟨[], shown a a.depth, a.depth, isComment a, some a⟩ := by
      simp [Page.print, Page.place, Page.empty, shown, isComment]
    rw [lines, foldl_cons, hfirst,
      foldl_print bs _ a [] rfl (h a mem_cons_self) (fun b hb => h b (mem_cons_of_mem a hb)) rfl]
    rfl

theorem format_eq {source : List Char} {t : Tree} (h : parse .typescript source = some t) :
    format source = spellAll (tokens source t) := by
  rw [format, h]
  exact closeLines_lines (parse_sound h)

/-! ## Tokens are kept -/

/-- The text is the token as it is written: as it stands, but for the white space at the line ends of comments and of
the interpreter line. -/
def Placed.ShownAs (t : Placed) (text : List Char) : Prop :=
  if isComment t = true ∨ t.tree.kind = .hashBangLine then SameLines t.text text else text = t.text

/-- The text is the tokens one after another, with only blanks between them. -/
def Spells : List Placed → List Char → Prop
  | [], text => ∀ x ∈ text, isBlank x = true
  | t :: ts, text =>
    ∃ gap own rest, text = gap ++ (own ++ rest) ∧ (∀ x ∈ gap, isBlank x = true) ∧ t.ShownAs own ∧ Spells ts rest

theorem Placed.shownAs_text (t : Placed) : t.ShownAs t.text := by
  unfold Placed.ShownAs
  split
  · exact rfl
  · rfl

theorem sameLines_trimRight {text : List Char} (h : '\n' ∉ text) : SameLines text (trimRight text) := by
  have h' : '\n' ∉ trimRight text := fun hm => h ((trimRight_isPrefix text).subset hm)
  unfold SameLines
  rw [splitOn_of_not_mem h, splitOn_of_not_mem h', map_singleton, map_singleton, trim_trimRight]

theorem commentText_of_not_mem {text : List Char} (h : '\n' ∉ text) (d : Nat) : commentText text d = text := by
  rcases commentText_cases text d with ⟨heq, -⟩ | ⟨first, rest, rfl, -⟩
  · exact heq
  · exact absurd (mem_append_right first mem_cons_self) h

theorem Placed.Sound.settle_cases (h : t.Sound) (d : Nat) : trimRight (shown t d) = shown t d ∨
    (t.text = shown t d ∧ '\n' ∉ t.text ∧ (isComment t ∨ t.tree.kind = .hashBangLine)) := by
  cases h.look with
  | line r hc ht hr =>
    have hno : '\n' ∉ t.text := by
      rw [ht]
      simpa using hr
    rw [shown, if_pos hc, commentText_of_not_mem hno]
    exact .inr ⟨rfl, hno, .inl hc⟩
  | block r hc ht =>
    obtain ⟨w, hw⟩ := commentText_concat d ('/' :: '*' :: (r ++ ['*']))
    rw [shown, if_pos hc, ht, show '/' :: '*' :: (r ++ ['*', '/']) = '/' :: '*' :: (r ++ ['*']) ++ ['/'] by simp, hw]
    exact .inl (trimRight_concat (by decide) w)
  | interpreter r hc hk ht hr =>
    have hno : '\n' ∉ t.text := by
      rw [ht]
      simpa using hr
    rw [shown, if_neg (by rw [hc]; exact Bool.false_ne_true)]
    exact .inr ⟨rfl, hno, .inr hk⟩
  | firm hc hk ht =>
    obtain ⟨-, r, b, hb, hink⟩ := ht
    rw [shown, if_neg (by rw [hc]; exact Bool.false_ne_true), hb]
    exact .inl (trimRight_concat (isSpace_of_isInk hink) r)

theorem Placed.shownAs_shown (t : Placed) (d : Nat) : t.ShownAs (shown t d) := by
  unfold Placed.ShownAs shown
  split
  · split
    · exact sameLines_commentText t.text d
    · exact rfl
  · rename_i h
    rw [not_or] at h
    rw [if_neg h.1]

theorem Placed.Sound.shownAs_trimRight (h : t.Sound) (d : Nat) : t.ShownAs (trimRight (shown t d)) := by
  rcases h.settle_cases d with heq | ⟨heq, hno, hkind⟩
  · rw [heq]
    exact t.shownAs_shown d
  · rw [Placed.ShownAs, if_pos hkind, ← heq]
    exact sameLines_trimRight hno

theorem Placed.Sound.shownAs_settle (h : t.Sound) (d : Nat) (j : Joint) : t.ShownAs (j.settle (shown t d)) := by
  cases j with
  | newline empty => exact h.shownAs_trimRight d
  | append => exact t.shownAs_shown d
  | inline blank => exact t.shownAs_shown d

theorem Joint.isBlank_of_mem_gap {j : Joint} {x : Char} (h : x ∈ j.gap d) : isBlank x := by
  cases j with
  | append => rw [mem_singleton.1 h]; decide
  | inline blank =>
    cases blank with
    | true => rw [mem_singleton.1 h]; decide
    | false => cases h
  | newline empty =>
    rcases mem_cons.1 h with rfl | h
    · decide
    · rcases mem_append.1 h with h | h
      · cases empty with
        | true => rw [mem_singleton.1 h]; decide
        | false => cases h
      · exact isBlank_of_mem_indentation h

theorem spells_spell : ∀ (bs : List Placed) (a : Placed) (d : Nat) (pending : Bool) (gap : List Char), a.Sound →
    (∀ b ∈ bs, b.Sound) → (∀ x ∈ gap, isBlank x) → Spells (a :: bs) (gap ++ spell (shown a d) (steps d pending a bs))
  | [], a, d, pending, gap, ha, _, hgap => by
    refine ⟨gap, trimRight (shown a d), ['\n'], rfl, hgap, ha.shownAs_trimRight d, fun x hx => ?_⟩
    rw [mem_singleton.1 hx]
    decide
  | b :: bs, a, d, pending, gap, ha, hbs, hgap =>
    ⟨gap, _, _, rfl, hgap, ha.shownAs_settle d _,
      spells_spell bs b _ _ _ (hbs b mem_cons_self) (fun x hx => hbs x (mem_cons_of_mem b hx))
        fun _ hx => Joint.isBlank_of_mem_gap hx⟩

theorem Laid.spells : ∀ {ts : List Placed} {c d : Cursor}, Laid ts c d → (∀ x ∈ d.rest, isBlank x) → Spells ts c.rest
  | [], _, _, h, hblank => by
    rw [show _ = _ from h]
    exact hblank
  | t :: ts, _, _, ⟨c', e, ⟨gap, hgap, hall⟩, hpass, _, hts⟩, hblank => by
    refine ⟨gap, t.text, e.rest, ?_, hall, t.shownAs_text, hts.spells hblank⟩
    rw [hgap.1, hpass.1]

/-- **Formatting keeps the text of every token**: the source and its printed form are the same tokens in the same order,
each as it stands but for the white space at the line ends of comments and of the interpreter line, and nothing else but
blanks. -/
theorem format_spells_tokens {source : List Char} {t : Tree} (h : parse .typescript source = some t) :
    Spells (tokens source t) source ∧ Spells (tokens source t) (format source) := by
  constructor
  · obtain ⟨d, hlaid, hblank⟩ := parse_laid h
    exact hlaid.spells hblank
  · have hsound := parse_sound h
    rw [format_eq h]
    cases hts : tokens source t with
    | nil => exact fun x hx => by cases hx
    | cons a bs =>
      rw [hts] at hsound
      exact spells_spell bs a _ _ _ (hsound a List.mem_cons_self) (fun b hb => hsound b (List.mem_cons_of_mem a hb))
        fun _ hx => isBlank_of_mem_indentation hx

theorem format_spells_tokens_commented : ∃ source t, source = "#!x \nlet a= [1,2] ; /* b\n   c */ // d  \n".toList ∧
    parse .typescript source = some t ∧ Spells (tokens source t) source ∧ Spells (tokens source t) (format source) := by
  have hread : (parse .typescript "#!x \nlet a= [1,2] ; /* b\n   c */ // d  \n".toList).isSome = true := by
    rw [String.toList_ofList]
    decide +kernel
  obtain ⟨t, h⟩ := Option.isSome_iff_exists.1 hread
  exact ⟨_, t, rfl, h, format_spells_tokens h⟩

/-- Without the blank before its dot, a number takes the dot: the same tokens need not be read from the printed text. -/
theorem format_joins_number_and_dot :
    (parse .typescript "1 .toString();".toList).isSome = true ∧
      format "1 .toString();".toList = "1.toString();\n".toList ∧
      parse .typescript (format "1 .toString();".toList) = none := by
  decide +kernel

end SourceBench.Layout
