import SourceBench.Proofs.Syntax.Derivation

/-!
# Trees cover the source

What reading does not put into a leaf is blank: what a rule derives covers the text between its cursors
(`derives_reads`), for every grammar whose nodes hold a token each, so the tree of a source covers the source
(`parse_covers`).
-/
namespace SourceBench.Syntax

open Cursor List Bool

/-! ## Nodes and roles -/

def HasToken (ts : List Tree) : Prop := ∃ t ∈ ts, t.kind ≠ .comment

variable {ts : List Tree} {c d : Cursor} {r : Rule} {dialect : Dialect} {source : List Char}

theorem hasToken_append_left (us : List Tree) (h : HasToken ts) : HasToken (ts ++ us) := by
  obtain ⟨t, ht, hk⟩ := h
  exact ⟨t, mem_append_left _ ht, hk⟩

theorem hasToken_append_right (ts : List Tree) {us : List Tree} (h : HasToken us) : HasToken (ts ++ us) := by
  obtain ⟨t, ht, hk⟩ := h
  exact ⟨t, mem_append_right _ ht, hk⟩

theorem coversAll_assign (r : Role) : ∀ (ts : List Tree) (c d : Cursor), coversAll (assign r ts) c d ↔ coversAll ts c d
  | [], _, _ => Iff.rfl
  | t :: ts, c, d => by
    have ht : ∀ c' d', (if t.kind == .comment then t else t.withRole r).Covers c' d' ↔ t.Covers c' d' := by
      intro c' d'
      split
      · rfl
      · exact Tree.covers_withRole r t c' d'
    show coversAll (_ :: assign r ts) c d ↔ _
    simp only [coversAll, ht, coversAll_assign r ts]

theorem hasToken_assign (r : Role) (h : HasToken ts) : HasToken (assign r ts) := by
  obtain ⟨t, ht, hk⟩ := h
  refine ⟨t.withRole r, mem_map.2 ⟨t, ht, if_neg (by simpa using hk)⟩, ?_⟩
  cases t <;> exact hk

theorem Cursor.Reads.assign {c d : Cursor} {ts : List Tree} (h : c.Reads ts d) (r : Role) :
    c.Reads (Syntax.assign r ts) d := by
  obtain ⟨d, hts, hgap⟩ := h
  exact ⟨d, (coversAll_assign r ts _ _).2 hts, hgap⟩

theorem dropWhile_ne_nil (h : HasToken ts) : ts.dropWhile (·.kind == .comment) ≠ [] := by
  obtain ⟨t, ht, hk⟩ := h
  intro hnil
  have := dropWhile_eq_nil_iff.1 hnil t ht
  exact hk (by simpa using this)

/-- **A node over trees that hold a token covers what they cover**: it begins with the first token and ends with the
last tree, and the comments in front stay where they are. -/
theorem coversAll_wrap (hts : coversAll ts c d) (htok : HasToken ts) (k : Kind) (at_ : Pos) :
    coversAll (wrap k at_ ts) c d := by
  rw [show ts = ts.takeWhile (·.kind == .comment) ++ ts.dropWhile (·.kind == .comment) from
    takeWhile_append_dropWhile.symm, coversAll_append] at hts
  obtain ⟨m, hlead, hinner⟩ := hts
  refine (coversAll_append _ _ _ _).2 ⟨m, hlead, ?_⟩
  cases hi : ts.dropWhile (·.kind == .comment) with
  | nil => exact absurd hi (dropWhile_ne_nil htok)
  | cons t us =>
    rw [hi] at hinner
    obtain ⟨u, hu⟩ := Option.isSome_iff_exists.1 (show ((t :: us).getLast?).isSome = true by simp)
    have hstop := coversAll_getLast hinner hu
    obtain ⟨c', e, hblank, ht, hus⟩ := hinner
    refine coversAll_singleton hblank ⟨?_, e, ht, hus⟩
    rw [hu]
    simp only [head?_cons, Option.map_some, Option.getD_some, hstop, ht.span_eq]

theorem wrap_reads {e : Cursor} (h : c.Reads ts e) (htok : HasToken ts) (k : Kind) (at_ : Pos) :
    c.Reads (wrap k at_ ts) e := by
  obtain ⟨d, hts, hgap⟩ := h
  exact ⟨d, coversAll_wrap hts htok k at_, hgap⟩

theorem hasToken_wrap {k : Kind} (hk : k ≠ .comment) (at_ : Pos) (ts : List Tree) : HasToken (wrap k at_ ts) :=
  ⟨_, mem_append_right _ (mem_singleton.2 rfl), hk⟩

/-! ## Rules

A node over comments alone would have no place of its own.  `Rule.gives` finds the rules that always read a token, and
`Rule.sound` holds of a rule in which every node and every operand of a chain is such a rule. -/

mutual
/-- The rule reads a token whenever it can be read. -/
def Rule.gives : Rule → Bool
  | .punct _ _ | .glued _ | .word _ | .ref _ => true
  | .lexeme k _ | .piece k _ | .node k _ => k != .comment
  | .seq rs => givesAny rs
  | .alt rs => givesAll rs
  | .role _ r | .under _ r | .chain _ r _ | .only _ r | .among _ r => r.gives
  | .opt _ | .many _ | .ahead _ | .notAhead _ | .close | .optClose | .steady | .closing | .operandEnd | .typedArrow
  | .stop => false
def givesAny : List Rule → Bool
  | [] => false
  | r :: rs => r.gives || givesAny rs
def givesAll : List Rule → Bool
  | [] => true
  | r :: rs => r.gives && givesAll rs
end

mutual
/-- Every node of the rule and every operand that it extends holds a token. -/
def Rule.sound : Rule → Bool
  | .seq rs | .alt rs => soundAll rs
  | .node _ r => r.gives && r.sound
  | .role _ r | .under _ r | .only _ r | .among _ r | .opt r | .many r | .ahead r | .notAhead r => r.sound
  | .chain _ base links => base.gives && base.sound && soundLinks links
  | .punct _ _ | .glued _ | .word _ | .ref _ | .lexeme _ _ | .piece _ _ | .close | .optClose | .steady | .closing
  | .operandEnd | .typedArrow | .stop => true
def soundAll : List Rule → Bool
  | [] => true
  | r :: rs => r.sound && soundAll rs
def soundLinks : List (Link Rule) → Bool
  | [] => true
  | l :: ls => soundLink l && soundLinks ls
def soundLink : Link Rule → Bool
  | ⟨k, _, _, _, r⟩ => k != .comment && r.sound
end

theorem Rule.gives_of_idle (h : r.idle) : r.gives = false := by
  cases r <;> first | rfl | cases h

theorem Rule.gives_of_closes (h : r.closes) : r.gives = false := by
  cases r <;> first | rfl | cases h

theorem Rule.Reads.kind_ne {k : Kind} {text : List Char} (h : r.Reads k text) (hg : r.gives) : k ≠ .comment := by
  cases h with
  | lexeme k h => simpa [Rule.gives] using hg
  | piece k h => simpa [Rule.gives] using hg
  | _ => decide

/-- **What a sound rule derives covers the text between its cursors**, in a grammar whose symbols all stand for sound
rules that give a token. -/
theorem derives_reads {g : Symbol → Rule} (hg : ∀ x, (g x).gives ∧ (g x).sound) (h : Derives g dialect r c ts d) :
    r.sound → c.Reads ts d ∧ (r.gives → HasToken ts) := by
  induction h with
  | leaf hr hcomments hreads =>
    exact fun _ => ⟨hreads, fun hg => ⟨_, mem_append_right _ (mem_singleton.2 rfl), hr.kind_ne hg⟩⟩
  | nothing hr => exact fun _ => ⟨reads_nil _, fun hg => by rw [Rule.gives_of_idle hr] at hg; cases hg⟩
  | closes hr hcomments hreads => exact fun _ => ⟨hreads, fun hg => by rw [Rule.gives_of_closes hr] at hg; cases hg⟩
  | stop hcomments hreads hrest => exact fun _ => ⟨hreads, fun hg => by cases hg⟩
  | @ref x ts c d h ih => exact fun _ => ⟨(ih (hg x).2).1, fun _ => (ih (hg x).2).2 (hg x).1⟩
  | seqNil => exact fun _ => ⟨reads_nil _, fun hg => by cases hg⟩
  | seqCons h hs ih ihs =>
    intro hsound
    simp only [Rule.sound, soundAll, and_eq_true] at hsound
    obtain ⟨hreads, htok⟩ := ih hsound.1
    obtain ⟨hreads', htok'⟩ := ihs hsound.2
    refine ⟨hreads.append hreads', fun hg => ?_⟩
    simp only [Rule.gives, givesAny, or_eq_true] at hg
    rcases hg with hg | hg
    · exact hasToken_append_left _ (htok hg)
    · exact hasToken_append_right _ (htok' hg)
  | alt hr h ih =>
    intro hsound
    obtain ⟨hreads, htok⟩ := ih (check_of_mem soundAll.eq_2 hsound hr)
    exact ⟨hreads, fun hg => htok (check_of_mem givesAll.eq_2 hg hr)⟩
  | opt h ih => exact fun hsound => ⟨(ih hsound).1, fun hg => by cases hg⟩
  | many h hs ih ihs => exact fun hsound => ⟨(ih hsound).1.append (ihs hsound).1, fun hg => by cases hg⟩
  | node at_ h ih =>
    intro hsound
    simp only [Rule.sound, and_eq_true] at hsound
    obtain ⟨hreads, htok⟩ := ih hsound.2
    exact ⟨wrap_reads hreads (htok hsound.1) _ _, fun hg => hasToken_wrap (by simpa [Rule.gives] using hg) _ _⟩
  | role h ih =>
    intro hsound
    obtain ⟨hreads, htok⟩ := ih hsound
    exact ⟨hreads.assign _, fun hg => hasToken_assign _ (htok hg)⟩
  | under h ih => exact fun hsound => ih hsound
  | only h ih => exact fun hsound => ih hsound
  | among h ih => exact fun hsound => ih hsound
  | chain h ih =>
    intro hsound
    simp only [Rule.sound, and_eq_true] at hsound
    exact ih hsound.1.2
  | @link isType base links l acc ts c d e at_ hacc hl h ihacc ih =>
    intro hsound
    have hchain := hsound
    simp only [Rule.sound, and_eq_true] at hchain
    obtain ⟨k, role, level, only, rule⟩ := l
    have hlink := check_of_mem soundLinks.eq_2 hchain.2 hl
    simp only [soundLink, and_eq_true, bne_iff_ne, ne_eq] at hlink
    obtain ⟨hreads, htok⟩ := ihacc hsound
    have hall := (hreads.assign role).append (ih hlink.2).1
    have htok' := hasToken_append_left ts (hasToken_assign role (htok hchain.1.1))
    exact ⟨wrap_reads hall htok' k at_, fun _ => hasToken_wrap hlink.1 _ _⟩

/-! ## The grammar -/

theorem grammar_sound (x : Symbol) : (grammar x).gives ∧ (grammar x).sound := by
  cases x <;> decide

theorem program_sound : Grammar.program.sound := by decide

theorem program_rest (h : Derives grammar dialect Grammar.program c ts d) : d.rest = [] := by
  have h' : Derives grammar dialect
      (.seq ([.opt (.lexeme .hashBangLine .hashBang), .many (.ref .statement)] ++ [.stop])) c ts d := h
  obtain ⟨us, vs, e, rfl, -, hstop⟩ := h'.of_seq_append
  obtain ⟨us', vs', e', rfl, hstop, hnil⟩ := hstop.of_seq_cons
  rw [← hnil.of_seq_nil.2]
  exact hstop.of_stop

/-- **The tree of a source covers the source**: its statements were read one after another from the beginning, and only
blanks are left behind the last. -/
theorem parse_covers {t : Tree} (h : parse dialect source = some t) :
    ∃ items d e, t = .node .plain .program ⟨.origin, e.pos⟩ items ∧ coversAll items (.ofSource source) d ∧
      d.BlankTo e ∧ e.rest = [] := by
  obtain ⟨items, e, rfl, hderives⟩ := parse_derives h
  obtain ⟨d, hcovers, hgap⟩ := (derives_reads grammar_sound hderives program_sound).1
  exact ⟨items, d, e, rfl, hcovers, hgap, program_rest hderives⟩

theorem parse_placed {t : Tree} (h : parse dialect source = some t) :
    t.children.Pairwise (fun u w => u.stop ≤ w.start) ∧
      ∀ u ∈ t.children, u.Placed ∧ u.stop ≤ Utf8.byteSize source := by
  obtain ⟨items, d, e, rfl, hitems, hend, hrest⟩ := parse_covers h
  refine ⟨coversAll_pairwise hitems, fun u hu => ?_⟩
  obtain ⟨c', d', hu', -, hle⟩ := coversAll_mem hitems u hu
  obtain ⟨text, hpass⟩ := coversAll_passes hitems
  obtain ⟨gap, hgap, -⟩ := hend
  have hsource : source = text ++ gap := by
    have := (hpass.trans hgap).1
    rwa [hrest, append_nil] at this
  have hbyte : d.pos.byte = Utf8.byteSize text := by
    rw [hpass.byte_eq]
    exact Nat.zero_add _
  refine ⟨⟨c', d', hu'⟩, ?_⟩
  rw [hu'.stop_eq, hsource, Utf8.byteSize_append]
  omega

end SourceBench.Syntax
