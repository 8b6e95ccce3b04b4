import SourceBench.Proofs.Patch.Hunks
import SourceBench.Proofs.Text.Lines

/-!
# Patches as they are read

A reader of patches: it takes the two lines that name the file, then passages, each with a head that gives a span of old
and a span of new lines and with rows that stand in the old text, in the new one or in both.  A patch that is created is
read back (`read_lines`), its passages stand in the two texts where their heads say, one behind another, and every
passage put in the place of its old lines, from the last to the first, makes the new text of the old one
(`create_faithful`).
-/
namespace SourceBench.Patch

open List Option

variable {c : Char} {ls front part : List Line} {name : List Char}

/-! ## Passages -/

/-- A line of a patch: it stands in both texts, in the old one or in the new one. -/
inductive Row where
  | both (line : Line)
  | old (line : Line)
  | new (line : Line)
deriving DecidableEq, Repr

def Row.old? : Row → Option Line
  | both l => some l
  | old l => some l
  | new _ => none

def Row.new? : Row → Option Line
  | both l => some l
  | old _ => none
  | new l => some l

/-- A range of lines: how many stand before it, and its length. -/
structure Span where
  start : Nat
  count : Nat
deriving DecidableEq, Repr

/-- The lines stand in a text where the span says, and are as many as it says. -/
structure Span.Holds (s : Span) (text part : List Line) : Prop where
  count_eq : s.count = part.length
  inside : s.start + s.count ≤ text.length
  lines_eq : (text.drop s.start).take s.count = part

def Span.Before (s t : Span) : Prop := s.start + s.count < t.start

structure Passage where
  old : Span
  new : Span
  rows : List Row
deriving DecidableEq, Repr

namespace Passage

def oldLines (p : Passage) : List Line := p.rows.filterMap Row.old?

def newLines (p : Passage) : List Line := p.rows.filterMap Row.new?

/-- The new lines of a passage, in the place of its old ones. -/
def patch (p : Passage) (ls : List Line) : List Line :=
  ls.take p.old.start ++ p.newLines ++ ls.drop (p.old.start + p.old.count)

end Passage

/-! ## Reading -/

def readNumber (cs : List Char) : Option Nat :=
  if !cs.isEmpty && cs.all Char.isDigit then some (Nat.ofDigitChars 10 cs 0) else none

/-- A span named by its first line, counted from one, or by the line before it if it is empty. -/
def spanAt (line count : Nat) : Option Span :=
  if count = 0 then some ⟨line, 0⟩ else if line = 0 then none else some ⟨line - 1, count⟩

/-- A span: a line, and a length unless that is one. -/
def readSpan (cs : List Char) : Option Span :=
  match Text.splitOn ',' cs with
  | [line] => (readNumber line).bind (spanAt · 1)
  | [line, count] => (readNumber line).bind fun l => (readNumber count).bind (spanAt l)
  | _ => none

def readHead (l : Line) : Option (Span × Span) :=
  match Text.splitOn ' ' l with
  | [['@', '@'], '-' :: old, '+' :: new, ['@', '@']] => (readSpan old).bind fun s => (readSpan new).map (s, ·)
  | _ => none

def readRow : Line → Option Row
  | ' ' :: l => some (.both l)
  | '-' :: l => some (.old l)
  | '+' :: l => some (.new l)
  | _ => none

def readRows : List Line → Option (List Row × List Passage)
  | [] => some ([], [])
  | l :: ls => (readRows ls).bind fun (rows, passages) =>
    if l.head? = some '@' then (readHead l).map fun (old, new) => ([], ⟨old, new, rows⟩ :: passages)
    else (readRow l).map fun r => (r :: rows, passages)

/-- The passages of a patch of a file.  Nothing stands between the names and the first head. -/
def read (name patch : List Char) : Option (List Passage) :=
  match Text.splitOn '\n' patch with
  | old :: new :: ls =>
    if old = "--- a/".toList ++ name ∧ new = "+++ b/".toList ++ name then
      match readRows ls with
      | some ([], passages) => some passages
      | _ => none
    else none
  | _ => none

/-! ## What is written is read -/

def Chunk.rows : Chunk → List Row
  | same ls => ls.map .both
  | change old new => old.map .old ++ new.map .new

def Hunk.passage (h : Hunk) : Passage :=
  ⟨⟨h.oldStart, h.old.length⟩, ⟨h.newStart, h.new.length⟩, h.chunks.flatMap (·.rows)⟩

theorem Chunk.filterMap_old_rows (c : Chunk) : c.rows.filterMap Row.old? = c.old := by
  cases c <;> simp [Chunk.rows, Chunk.old, filterMap_append, filterMap_map, Function.comp_def, Row.old?]

theorem Chunk.filterMap_new_rows (c : Chunk) : c.rows.filterMap Row.new? = c.new := by
  cases c <;> simp [Chunk.rows, Chunk.new, filterMap_append, filterMap_map, Function.comp_def, Row.new?]

@[simp] theorem Hunk.oldLines_passage (h : Hunk) : h.passage.oldLines = h.old := by
  simp only [Passage.oldLines, passage, filterMap_flatMap, Chunk.filterMap_old_rows, old]

@[simp] theorem Hunk.newLines_passage (h : Hunk) : h.passage.newLines = h.new := by
  simp only [Passage.newLines, passage, filterMap_flatMap, Chunk.filterMap_new_rows, new]

theorem readNumber_toDigits (n : Nat) : readNumber (Nat.toDigits 10 n) = some n := by
  have hdigits : (Nat.toDigits 10 n).all Char.isDigit :=
    all_eq_true.2 fun c hc => Nat.isDigit_of_mem_toDigits (by decide) (by decide) hc
  rw [readNumber, hdigits, if_pos (by simp), Nat.ofDigitChars_toDigits (by decide) (by decide)]

theorem not_mem_toDigits (h : c.isDigit = false) (n : Nat) : c ∉ Nat.toDigits 10 n := fun hc => by
  rw [Nat.isDigit_of_mem_toDigits (by decide) (by decide) hc] at h
  cases h

theorem spanAt_named (start length : Nat) :
    spanAt (if length = 0 then start else start + 1) length = some ⟨start, length⟩ := by
  unfold spanAt
  split
  · next hzero => rw [hzero]
  · rw [if_neg (Nat.succ_ne_zero start), Nat.add_sub_cancel]

theorem readSpan_rangeText (start length : Nat) : readSpan (rangeText start length) = some ⟨start, length⟩ := by
  unfold rangeText
  split
  · next hone =>
    subst hone
    rw [readSpan, Text.splitOn_of_not_mem (not_mem_toDigits (by decide) _)]
    simp only [readNumber_toDigits, bind_some]
    exact spanAt_named start 1
  · rw [readSpan, Text.splitOn_append_mark (not_mem_toDigits (by decide) _),
      Text.splitOn_of_not_mem (not_mem_toDigits (by decide) _)]
    simp only [readNumber_toDigits, bind_some]
    exact spanAt_named start length

theorem not_mem_rangeText (hdigit : c.isDigit = false) (hcomma : c ≠ ',') (start length : Nat) :
    c ∉ rangeText start length := by
  unfold rangeText
  split
  · exact not_mem_toDigits hdigit _
  · rw [mem_append, mem_cons, not_or, not_or]
    exact ⟨not_mem_toDigits hdigit _, hcomma, not_mem_toDigits hdigit _⟩

def Hunk.head (h : Hunk) : Line :=
  "@@ -".toList ++ rangeText h.oldStart h.old.length ++ " +".toList ++ rangeText h.newStart h.new.length ++ " @@".toList

theorem Hunk.head_eq (h : Hunk) : h.head = "@@ -".toList ++ rangeText h.oldStart h.old.length ++ " +".toList ++
    rangeText h.newStart h.new.length ++ " @@".toList := by
  delta Hunk.head
  rfl

theorem Hunk.lines_eq (h : Hunk) : h.lines = h.head :: h.chunks.flatMap (·.lines) := rfl

theorem readHead_head (h : Hunk) : readHead h.head = some (h.passage.old, h.passage.new) := by
  have hspace := @not_mem_rangeText ' ' (by decide) (by decide)
  have hfields : Text.splitOn ' ' h.head = [['@', '@'], '-' :: rangeText h.oldStart h.old.length,
      '+' :: rangeText h.newStart h.new.length, ['@', '@']] := by
    have := @Text.splitOn_join ' ' [['@', '@'], '-' :: rangeText h.oldStart h.old.length,
      '+' :: rangeText h.newStart h.new.length, ['@', '@']] (cons_ne_nil _ _) (by simp [hspace])
    rw [← this]
    simp [Hunk.head_eq, Text.join]
  rw [readHead, hfields]
  simp [readSpan_rangeText, Hunk.passage]

variable {ps : List Passage}

theorem readRows_map {mark : Char} {row : Line → Row} (hmark : mark ≠ '@')
    (hrow : ∀ l, readRow (mark :: l) = some (row l)) {rows : List Row} (h : readRows ls = some (rows, ps)) :
    ∀ ms : List Line, readRows (ms.map (mark :: ·) ++ ls) = some (ms.map row ++ rows, ps)
  | [] => h
  | m :: ms => by
    rw [map_cons, cons_append, readRows, readRows_map hmark hrow h ms, bind_some]
    simp [hmark, hrow]

theorem readRows_chunks {rows : List Row} (h : readRows ls = some (rows, ps)) :
    ∀ cs : List Chunk, readRows (cs.flatMap (·.lines) ++ ls) = some (cs.flatMap (·.rows) ++ rows, ps)
  | [] => h
  | c :: cs => by
    have ih := readRows_chunks h cs
    rw [flatMap_cons, append_assoc, flatMap_cons, append_assoc]
    cases c with
    | same ms => exact readRows_map (by decide) (fun _ => rfl) ih ms
    | change old new =>
      rw [Chunk.lines, Chunk.rows, append_assoc, append_assoc]
      exact readRows_map (by decide) (fun _ => rfl) (readRows_map (by decide) (fun _ => rfl) ih new) old

theorem readRows_hunks : ∀ hs : List Hunk, readRows (hs.flatMap (·.lines)) = some ([], hs.map (·.passage))
  | [] => rfl
  | h :: hs => by
    rw [flatMap_cons, Hunk.lines_eq, cons_append, readRows, readRows_chunks (readRows_hunks hs), bind_some]
    have hat : h.head.head? = some '@' := rfl
    simp [hat, readHead_head, Hunk.passage]

theorem not_mem_hunk_lines {h : Hunk} (hold : ∀ l ∈ h.old, '\n' ∉ l) (hnew : ∀ l ∈ h.new, '\n' ∉ l) :
    ∀ l ∈ h.lines, '\n' ∉ l := by
  intro l hl
  rw [Hunk.lines_eq, mem_cons, mem_flatMap] at hl
  rcases hl with rfl | ⟨c, hc, hl⟩
  · simp [Hunk.head_eq, @not_mem_rangeText '\n' (by decide) (by decide)]
  · have hold' : ∀ l ∈ c.old, '\n' ∉ l := fun l hl => hold l (mem_flatMap.2 ⟨c, hc, hl⟩)
    have hnew' : ∀ l ∈ c.new, '\n' ∉ l := fun l hl => hnew l (mem_flatMap.2 ⟨c, hc, hl⟩)
    cases c with
    | same ms =>
      obtain ⟨m, hm, rfl⟩ := mem_map.1 hl
      simpa using hold' m hm
    | change old new =>
      rcases mem_append.1 hl with hl | hl
      · obtain ⟨m, hm, rfl⟩ := mem_map.1 hl
        simpa using hold' m hm
      · obtain ⟨m, hm, rfl⟩ := mem_map.1 hl
        simpa using hnew' m hm

/-! ## Passages on the texts -/

theorem Passage.patch_append {p : Passage} {oldLines : List Line} (hstart : p.old.start = front.length)
    (hcount : p.old.count = oldLines.length) (back : List Line) :
    p.patch (front ++ (oldLines ++ back)) = front ++ (p.newLines ++ back) := by
  rw [patch, hstart, hcount, take_left, ← append_assoc, ← length_append, drop_left, append_assoc]

theorem holds_append {n : Nat} (hn : n = front.length) (back : List Line) :
    Span.Holds ⟨n, part.length⟩ (front ++ (part ++ back)) part := by
  refine ⟨rfl, ?_, ?_⟩
  · simp only [hn, length_append]
    omega
  · rw [hn, drop_left, take_left]

namespace Tiles

variable {gap i j : Nat} {xs ys front back : List Line} {hs : List Hunk}

theorem patch (h : Tiles gap i j xs ys hs) (hfront : front.length = i) :
    (hs.map (·.passage)).foldr Passage.patch (front ++ xs) = front ++ ys := by
  induction h generalizing front with
  | done => rfl
  | @hunk gap i j h hs xs ys ls _ hold _ rest ih =>
    have hrest := @ih (front ++ (ls ++ h.old)) (by rw [hold, ← hfront]; simp only [length_append, Nat.add_assoc])
    simp only [append_assoc] at hrest
    have hstart : h.oldStart = (front ++ ls).length := by rw [length_append, hfront, hold]
    rw [map_cons, foldr_cons, hrest, ← append_assoc, Passage.patch_append hstart rfl, h.newLines_passage,
      append_assoc]

theorem holds (h : Tiles gap i j xs ys hs) (hfront : front.length = i) (hback : back.length = j) :
    ∀ g ∈ hs, (g.passage.old.Holds (front ++ xs) g.old ∧ i + gap ≤ g.oldStart) ∧
      g.passage.new.Holds (back ++ ys) g.new ∧ j + gap ≤ g.newStart := by
  induction h generalizing front back with
  | done => exact fun g hg => absurd hg not_mem_nil
  | @hunk gap i j h hs xs ys ls hgap hold hnew rest ih =>
    have hstart : h.oldStart = (front ++ ls).length := by rw [length_append, hfront, hold]
    have hstart' : h.newStart = (back ++ ls).length := by rw [length_append, hback, hnew]
    intro g hg
    rw [← append_assoc front, ← append_assoc back]
    rcases mem_cons.1 hg with rfl | hg
    · exact ⟨⟨holds_append hstart xs, by omega⟩, holds_append hstart' ys, by omega⟩
    · have := @ih (front ++ ls ++ h.old) (back ++ ls ++ h.new) (by rw [length_append, ← hstart])
        (by rw [length_append, ← hstart']) g hg
      rw [append_assoc, append_assoc (back ++ ls)] at this
      exact ⟨⟨this.1.1, by omega⟩, this.2.1, by omega⟩

theorem ordered (h : Tiles gap i j xs ys hs) :
    hs.Pairwise fun g h => g.passage.old.Before h.passage.old ∧ g.passage.new.Before h.passage.new := by
  induction h with
  | done => exact .nil
  | @hunk gap i j h hs xs ys ls hgap hold hnew rest ih =>
    refine pairwise_cons.2 ⟨fun g hg => ?_, ih⟩
    obtain ⟨⟨-, hlt⟩, -, hlt'⟩ := rest.holds (length_replicate (a := [])) (length_replicate (a := [])) g hg
    exact ⟨hlt, hlt'⟩

end Tiles

theorem Span.Holds.mem {s : Span} {text : List Line} (h : s.Holds text part) {l : Line} (hl : l ∈ part) : l ∈ text := by
  rw [← h.lines_eq] at hl
  exact mem_of_mem_drop (mem_of_mem_take hl)

/-! ## The patch of two texts -/

theorem lines_of_ne {old new : List Line} (h : old ≠ new) (name : List Char) : lines name old new =
    ("--- a/".toList ++ name) :: ("+++ b/".toList ++ name) :: (hunks (align old new)).flatMap (·.lines) := by
  rw [lines]
  split
  · next hnil => exact absurd (hunks_align_eq_nil.1 hnil) h
  · rfl

theorem lines_self (name : List Char) (ls : List Line) : lines name ls ls = [] := by
  rw [lines, hunks_align_eq_nil.2 rfl]

theorem create_eq_nil {old new : List Char} : create name old new = [] ↔ Text.splitLines old = Text.splitLines new := by
  constructor
  · intro h
    by_contra hne
    rw [create, lines_of_ne hne] at h
    cases h
  · intro h
    rw [create, h, lines_self]
    rfl

theorem read_lines {old new : List Line} (hname : '\n' ∉ name) (hold : ∀ l ∈ old, '\n' ∉ l)
    (hnew : ∀ l ∈ new, '\n' ∉ l) (hne : old ≠ new) :
    read name (Text.joinLines (lines name old new)) = some ((hunks (align old new)).map (·.passage)) := by
  have htiles := hunks_tile (align old new)
  rw [align_old, align_new] at htiles
  have hlines := lines_of_ne hne name
  have hplain : ∀ l ∈ lines name old new, '\n' ∉ l := by
    rw [hlines]
    intro l hl
    simp only [mem_cons, mem_flatMap] at hl
    rcases hl with rfl | rfl | ⟨h, hh, hl⟩
    · simp [hname]
    · simp [hname]
    · obtain ⟨⟨hin, -⟩, hin', -⟩ := @Tiles.holds _ _ _ _ _ [] [] _ htiles rfl rfl h hh
      exact not_mem_hunk_lines (fun l hl => hold l (hin.mem hl)) (fun l hl => hnew l (hin'.mem hl)) l hl
  rw [read, Text.joinLines, Text.splitOn_join (by rw [hlines]; exact cons_ne_nil _ _) hplain, hlines]
  simp [readRows_hunks]

/-- **The patch of two texts is faithful.**  It is empty exactly if the texts have the same lines.  Otherwise it is read
as passages whose heads count their lines, whose old lines stand in the old text and whose new lines stand in the new
text where the heads say, one passage behind another; each in the place of its old lines, they make the new text of the
old. -/
theorem create_faithful (name old new : List Char) (hname : '\n' ∉ name) :
    (create name old new = [] ↔ Text.splitLines old = Text.splitLines new) ∧
    (Text.splitLines old ≠ Text.splitLines new → ∃ passages, read name (create name old new) = some passages ∧
      passages.foldr Passage.patch (Text.splitLines old) = Text.splitLines new ∧
      (∀ p ∈ passages, p.old.Holds (Text.splitLines old) p.oldLines ∧ p.new.Holds (Text.splitLines new) p.newLines) ∧
      passages.Pairwise fun p q => p.old.Before q.old ∧ p.new.Before q.new) := by
  have htiles := hunks_tile (align (Text.splitLines old) (Text.splitLines new))
  rw [align_old, align_new] at htiles
  refine ⟨create_eq_nil, fun hne => ⟨_, read_lines hname (Text.not_mem_of_mem_splitLines old)
    (Text.not_mem_of_mem_splitLines new) hne, @Tiles.patch _ _ _ _ _ [] _ htiles rfl, ?_, ?_⟩⟩
  · intro p hp
    obtain ⟨h, hh, rfl⟩ := mem_map.1 hp
    obtain ⟨⟨hin, -⟩, hin', -⟩ := @Tiles.holds _ _ _ _ _ [] [] _ htiles rfl rfl h hh
    rw [h.oldLines_passage, h.newLines_passage]
    exact ⟨hin, hin'⟩
  · exact pairwise_map.2 htiles.ordered

def outerEdits : List Char × List Char :=
  ("b\nc\nd\n\nf\n\nd\nc\nb\na\n".toList, "a\nb\nc\nd\n\nf\n\nd\nc\nb".toList)

theorem create_faithful_apart : '\n' ∉ "src/a.ts".toList ∧ ∃ passages,
    read "src/a.ts".toList (create "src/a.ts".toList outerEdits.1 outerEdits.2) = some passages ∧
      passages.map (fun p => (p.old, p.new)) = [(⟨0, 3⟩, ⟨0, 4⟩), (⟨6, 4⟩, ⟨7, 3⟩)] ∧
      passages.foldr Passage.patch (Text.splitLines outerEdits.1) = Text.splitLines outerEdits.2 := by
  have hname : '\n' ∉ "src/a.ts".toList := by decide
  obtain ⟨passages, hread, hpatch, -, -⟩ := (create_faithful _ outerEdits.1 outerEdits.2 hname).2 (by decide)
  have hspans : (read "src/a.ts".toList (create "src/a.ts".toList outerEdits.1 outerEdits.2)).map
      (map fun p => (p.old, p.new)) = some [(⟨0, 3⟩, ⟨0, 4⟩), (⟨6, 4⟩, ⟨7, 3⟩)] := by decide +kernel
  rw [hread] at hspans
  exact ⟨hname, passages, hread, some.inj hspans, hpatch⟩

end SourceBench.Patch
