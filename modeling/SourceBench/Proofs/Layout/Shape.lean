import SourceBench.Layout
import SourceBench.Proofs.Syntax.Solid

/-!
# The shape of printed trees

What printing relies on in the trees of a source (`parse_wellMade`): which leaves are solid, that a comment is a
comment, that braces which may stay on one line open and close their node and that no other opening brace stands right
in it, that a `case` stands in the body of a `switch`, and that a node printed as it stands begins and ends with a solid
leaf.  Each is a check of the rules of the grammar, carried over to the trees by one induction over derivations.
-/
namespace SourceBench.Layout

open Syntax List

variable {at_ : Pos} {l : Lexeme}

/-! ## Well-made trees -/

/-- What may stand right in a node. -/
structure Place where
  /-- Leaves of any text. -/
  loose : Bool
  /-- The cases of a `switch`. -/
  cases : Bool
  /-- Opening braces. -/
  braces : Bool
deriving DecidableEq

def Place.strict : Place := ⟨false, false, false⟩

def Place.of (k : Kind) : Place := ⟨isAtomic k, k == .switchBody, true⟩

def isCase : Kind → Bool
  | .switchCase | .switchDefault => true
  | _ => false

def InterpreterText (text : List Char) : Prop := ∃ r, text = '#' :: '!' :: r ∧ '\n' ∉ r

def Fits (p : Place) : Tree → Prop
  | .leaf r k s text =>
    if k = .comment then CommentText text
    else if k = .hashBangLine then InterpreterText text
    else (p.loose = true ∨ Solid text) ∧ (p.braces = true ∨ (Tree.leaf r k s text).isToken "\x7b" = false)
  | .node _ k _ _ => k ≠ .comment ∧ k ≠ .program ∧ (isCase k = true → p.cases = true)

/-- Braces open and close the trees, and no other opening brace stands among them. -/
def Braced (cs : List Tree) : Prop :=
  ∃ a mid b, cs = a :: (mid ++ [b]) ∧ a.isToken "\x7b" = true ∧ b.isToken "\x7d" = true ∧
    ∀ m ∈ mid, m.isToken "\x7b" = false

def IsSolidLeaf (t : Tree) : Prop := ∃ r k s text, t = .leaf r k s text ∧ Solid text

/-- The trees begin and end with a solid leaf. -/
def Enclosed (cs : List Tree) : Prop :=
  (∃ a r, cs = a :: r ∧ IsSolidLeaf a) ∧ ∃ r b, cs = r ++ [b] ∧ IsSolidLeaf b

def WellMade : Tree → Prop
  | .leaf _ k _ _ => isFlexKind k = false
  | .node _ k _ cs =>
    (∀ c ∈ cs, Fits (.of k) c) ∧ (isFlexKind k = true → Braced cs) ∧ (isAtomic k = true → Enclosed cs)

variable {t : Tree} {p : Place} {k : Kind} {text : List Char} {r : Rule} {ts : List Tree} {c d : Cursor}

theorem Fits.of_isComment (h : t.IsComment) (p : Place) : Fits p t := by
  obtain ⟨span, text, rfl, htext⟩ := h
  exact htext

theorem Fits.of_comment {q : Place} (h : Fits p t) (hk : t.kind = .comment) : Fits q t := by
  cases t with
  | leaf r k s text =>
    simp only [Fits, show k = .comment from hk, if_true] at h ⊢
    exact h
  | node r k s cs => exact absurd hk h.1

theorem Fits.weaken (h : Fits .strict t) (p : Place) : Fits p t := by
  cases t with
  | leaf r k s text =>
    simp only [Fits, Place.strict, Bool.false_eq_true, false_or] at h ⊢
    split
    · rename_i hk
      rwa [if_pos hk] at h
    · rename_i hk
      rw [if_neg hk] at h
      split
      · rename_i hb
        rwa [if_pos hb] at h
      · rename_i hb
        rw [if_neg hb] at h
        exact ⟨.inr h.1, .inr h.2⟩
  | node r k s cs => exact ⟨h.1, h.2.1, fun hcase => by cases h.2.2 hcase⟩

theorem Fits.withRole (h : Fits p t) (r : Role) : Fits p (t.withRole r) := by
  cases t with
  | leaf r' k s text => cases k <;> exact h
  | node r' k s cs => exact h

/-! ## All trees of a tree -/

theorem mem_nodesOf {u : Tree} : ∀ {cs : List Tree}, u ∈ Tree.nodesOf cs ↔ ∃ c ∈ cs, u ∈ c.nodes
  | [] => by simp [Tree.nodesOf]
  | c :: cs => by
    have ih := @mem_nodesOf u cs
    simp [Tree.nodesOf, ih]

theorem self_mem_nodes (t : Tree) : t ∈ t.nodes := by
  cases t <;> simp [Tree.nodes]

theorem mem_nodes_node {r : Role} {s : Span} {cs : List Tree} {u : Tree} :
    u ∈ (Syntax.Tree.node r k s cs).nodes ↔ u = .node r k s cs ∨ ∃ c ∈ cs, u ∈ c.nodes := by
  rw [Tree.nodes, mem_cons, mem_nodesOf]

theorem nodes_trans : ∀ {t u v : Tree}, u ∈ t.nodes → v ∈ u.nodes → v ∈ t.nodes
  | .leaf _ _ _ _, u, v, hu, hv => by
    rw [Tree.nodes, mem_singleton] at hu
    rwa [hu] at hv
  | .node r k s cs, u, v, hu, hv => by
    rcases mem_nodes_node.1 hu with rfl | ⟨c, hc, hu⟩
    · exact hv
    · exact mem_nodes_node.2 (.inr ⟨c, hc, nodes_trans hu hv⟩)

theorem mem_nodes_of_child {c : Tree} (hc : c ∈ t.children) : c ∈ t.nodes := by
  cases t with
  | leaf r k s text => cases hc
  | node r k s cs => exact mem_nodes_node.2 (.inr ⟨c, hc, self_mem_nodes c⟩)

section
variable {P : Tree → Prop} {f : Role} {s : Span} {cs : List Tree}

theorem forall_nodes_leaf : (∀ u ∈ (Syntax.Tree.leaf f k s text).nodes, P u) ↔ P (.leaf f k s text) := by
  rw [Tree.nodes, forall_mem_singleton]

theorem forall_nodes_node : (∀ u ∈ (Syntax.Tree.node f k s cs).nodes, P u) ↔
    P (.node f k s cs) ∧ ∀ c ∈ cs, ∀ u ∈ c.nodes, P u := by
  simp only [mem_nodes_node, forall_eq_or_imp, forall_exists_index, and_imp]
  exact and_congr_right' ⟨fun h c hc u hu => h u c hc hu, fun h u c hc hu => h c hc u hu⟩

theorem forall_nodes_withRole (hP : ∀ t, P t → P (t.withRole f)) (h : ∀ u ∈ t.nodes, P u) :
    ∀ u ∈ (t.withRole f).nodes, P u := by
  have hself := hP t (h t (self_mem_nodes t))
  cases t with
  | leaf f' k s text => exact forall_nodes_leaf.2 hself
  | node f' k s cs => exact forall_nodes_node.2 ⟨hself, (forall_nodes_node.1 h).2⟩

theorem mem_assign (h : t ∈ assign f ts) : t ∈ ts ∨ ∃ u ∈ ts, t = u.withRole f := by
  obtain ⟨u, hu, rfl⟩ := mem_map.1 h
  split
  · exact .inl hu
  · exact .inr ⟨u, hu, rfl⟩

theorem forall_assign (hP : ∀ t, P t → P (t.withRole f)) (h : ∀ t ∈ ts, P t) : ∀ t ∈ assign f ts, P t := by
  intro t ht
  rcases mem_assign ht with ht | ⟨u, hu, rfl⟩
  · exact h t ht
  · exact hP u (h u hu)

theorem mem_wrap (h : t ∈ wrap k at_ ts) :
    (t ∈ ts ∧ t.kind = .comment) ∨ ∃ span, t = .node .plain k span (ts.dropWhile (·.kind == .comment)) := by
  rcases mem_append.1 h with h | h
  · exact .inl ⟨(List.takeWhile_prefix _).subset h, by simpa using mem_takeWhile_imp h⟩
  · rw [mem_singleton] at h
    exact .inr ⟨_, h⟩

theorem forall_wrap (hts : ∀ t ∈ ts, t.kind = .comment → P t)
    (hnode : ∀ span, P (.node .plain k span (ts.dropWhile (·.kind == .comment)))) : ∀ t ∈ wrap k at_ ts, P t := by
  intro t ht
  rcases mem_wrap ht with ⟨ht, hk⟩ | ⟨span, rfl⟩
  · exact hts t ht hk
  · exact hnode span

theorem forall_dropWhile (p : Tree → Bool) (h : ∀ t ∈ ts, P t) : ∀ t ∈ ts.dropWhile p, P t :=
  fun t ht => h t ((dropWhile_suffix p).subset ht)

end

def AllMade (t : Tree) : Prop := ∀ u ∈ t.nodes, WellMade u

theorem AllMade.child {c : Tree} (h : AllMade t) (hc : c ∈ t.children) : AllMade c :=
  fun u hu => h u (nodes_trans (mem_nodes_of_child hc) hu)

theorem AllMade.withRole (h : AllMade t) (f : Role) : AllMade (t.withRole f) :=
  forall_nodes_withRole (fun t ht => by cases t <;> exact ht) h

theorem AllMade.of_isComment (h : t.IsComment) : AllMade t := by
  obtain ⟨span, text, rfl, -⟩ := h
  exact forall_nodes_leaf.2 rfl

/-! ## Checks of rules -/

def partsOf : Rule → List Rule
  | .under _ r => partsOf r
  | .seq rs => rs
  | r => [r]

/-- The last of the rules reads a solid leaf.  Flags may be missing behind a closing mark. -/
def endsSolid (rs : List Rule) : Bool :=
  match rs.reverse with
  | .glued b :: _ => b.toList.all isInk
  | .opt (.role _ (.piece _ l)) :: .glued b :: _ => l.solid && b.toList.all isInk
  | _ => false

def encloses (r : Rule) : Bool :=
  match partsOf r with
  | .punct a _ :: rest => a.toList.all isInk && endsSolid rest
  | _ => false

def neatLeaf (p : Place) (k : Kind) (l : Lexeme) : Bool :=
  (k == .hashBangLine && l == .hashBang) ||
    (k != .comment && k != .hashBangLine && k != .token && !isFlexKind k && (p.loose || l.solid))

mutual
/-- Trees of the rule fit into the place, and all trees in them are well made. -/
def neat (p : Place) : Rule → Bool
  | .punct text _ | .glued text | .word text =>
    (p.loose || text.toList.all isInk) && (p.braces || text != "\x7b")
  | .lexeme k l | .piece k l => neatLeaf p k l
  | .ref x => x != .markup
  | .seq rs | .alt rs => neatAll p rs
  | .opt r | .many r | .role _ r | .under _ r | .among _ r => neat p r
  | .only d r => d != .typescript || neat p r
  | .node k r =>
    k != .comment && k != .program && (!isCase k || p.cases) && neat (.of k) r && (!isFlexKind k || embraces r) &&
      (!isAtomic k || encloses r)
  | .chain _ base links => neat .strict base && neatLinks links
  | .ahead _ | .notAhead _ | .close | .optClose | .steady | .closing | .operandEnd | .typedArrow | .stop => true
def neatAll (p : Place) : List Rule → Bool
  | [] => true
  | r :: rs => neat p r && neatAll p rs
def neatLinks : List (Link Rule) → Bool
  | [] => true
  | l :: ls => neatLink l && neatLinks ls
/-- The link makes a node without a frame of solid operands. -/
def neatLink : Link Rule → Bool
  | ⟨k, _, _, _, r⟩ =>
    k != .comment && k != .program && !isCase k && !isFlexKind k && !isAtomic k && neat .strict r
/-- The rule stands in braces, with no other opening brace between them. -/
def embraces : Rule → Bool
  | .under _ r => embraces r
  | .seq (.punct a _ :: rest) => a == "\x7b" && closesBraces rest
  | _ => false
/-- The rules end with a closing brace, with no opening brace before it. -/
def closesBraces : List Rule → Bool
  | [] => false
  | [.punct b _] => b == "\x7d"
  | r :: rs => neat .strict r && closesBraces rs
end

theorem grammar_neat (x : Symbol) (hx : x ≠ .markup) : neat .strict (grammar x) := by
  cases x with
  | markup => exact absurd rfl hx
  | _ => decide +kernel

theorem program_neat : neat .strict Grammar.program := by decide +kernel

/-! ## Derived trees -/

theorem neatLink_of_chain {isType : Bool} {base : Rule} {links : List (Link Rule)} {l : Link Rule}
    (h : neat p (.chain isType base links)) (hl : l ∈ links) :
    ((((l.kind ≠ .comment ∧ l.kind ≠ .program) ∧ isCase l.kind = false) ∧ isFlexKind l.kind = false) ∧
      isAtomic l.kind = false) ∧ neat .strict l.rule := by
  simp only [neat, Bool.and_eq_true] at h
  have hlink := check_of_mem neatLinks.eq_2 h.2 hl
  obtain ⟨k, f, level, only, r⟩ := l
  simpa only [neatLink, Bool.and_eq_true, bne_iff_ne, Bool.not_eq_true'] using hlink

theorem fits_token {r : Role} {span : Span} {text : String}
    (h : ((p.loose || text.toList.all isInk) && (p.braces || text != "\x7b"))) :
    Fits p (.leaf r .token span text.toList) := by
  simp only [Bool.and_eq_true, Bool.or_eq_true, bne_iff_ne] at h
  refine ⟨h.1, h.2.imp id fun hne => ?_⟩
  simp only [Tree.isToken, beq_eq_false_iff_ne, ne_eq, String.toList_inj]
  exact hne

theorem interpreterText_of_takes (h : Lexeme.hashBang.Takes text) : InterpreterText text := by
  obtain ⟨hne, cs, rfl⟩ := h
  simp only [Lexeme.length] at hne ⊢
  split at hne
  · rename_i r
    refine ⟨r.takeWhile (· != '\n'), ?_, fun hmem => ?_⟩
    · rw [Nat.add_comm 2, take_succ_cons, take_succ_cons,
        ← prefix_iff_eq_take.1 (List.takeWhile_prefix _)]
    · simpa using mem_takeWhile_imp hmem
  · exact absurd take_zero hne

theorem fits_lexeme {span : Span} (htext : l.Takes text) (h : neatLeaf p k l) : Fits p (.leaf .plain k span text) := by
  simp only [neatLeaf, Bool.or_eq_true, Bool.and_eq_true, beq_iff_eq, bne_iff_ne] at h
  rcases h with ⟨rfl, rfl⟩ | ⟨⟨⟨⟨hcomment, hline⟩, htoken⟩, -⟩, hsolid⟩
  · exact interpreterText_of_takes htext
  · simp only [Fits, if_neg hcomment, if_neg hline]
    refine ⟨hsolid.imp id fun hl => l.solid_of_takes htext hl, .inr ?_⟩
    cases k with
    | token => exact absurd rfl htoken
    | _ => rfl

theorem fits_leaf {span : Span} (hr : r.Reads k text) (h : neat p r) : Fits p (.leaf .plain k span text) := by
  cases hr with
  | punct text stops => exact fits_token h
  | glued text => exact fits_token h
  | word text => exact fits_token h
  | lexeme k htext => exact fits_lexeme htext h
  | piece k htext => exact fits_lexeme htext h
  | close => exact @fits_token p .plain span ";" (by cases p.loose <;> cases p.braces <;> decide)

theorem isFlexKind_of_neatLeaf (h : neatLeaf p k l) : isFlexKind k = false := by
  simp only [neatLeaf, Bool.or_eq_true, Bool.and_eq_true, beq_iff_eq, Bool.not_eq_true'] at h
  rcases h with ⟨rfl, -⟩ | ⟨⟨-, hflex⟩, -⟩
  · rfl
  · exact hflex

theorem isFlexKind_of_reads (hr : r.Reads k text) (h : neat p r) : isFlexKind k = false := by
  cases hr with
  | lexeme k htext => exact isFlexKind_of_neatLeaf h
  | piece k htext => exact isFlexKind_of_neatLeaf h
  | _ => rfl

theorem neat_parts {P : Place → Tree → Prop} (hP : ∀ p t, P .strict t → P p t) (h : neat p r) :
    ∀ r' ∈ r.parts grammar .typescript, ∃ q, neat q r' ∧ ∀ t, P q t → P p t := by
  fun_cases Rule.parts grammar .typescript r with
  | case1 x => exact forall_mem_singleton.2 ⟨.strict, grammar_neat x (by simpa [neat] using h), hP p⟩
  | case3 rs => exact fun r' hr' => ⟨p, check_of_mem (neatAll.eq_2 p) h hr', fun _ => id⟩
  | case8 => exact forall_mem_singleton.2 ⟨.strict, (Bool.and_eq_true_iff.1 h).1, hP p⟩
  | case10 | case11 => exact nofun
  | _ =>
    refine fun r' hr' => ⟨p, ?_, fun _ => id⟩
    revert r'
    simpa [neat, neatAll] using h

theorem carries_fits : Carries grammar .typescript (neat · · = true) Fits where
  comment ht := .of_isComment ht _
  leaf := fits_leaf
  parts := neat_parts fun p t ht => ht.weaken p
  role hp _ ih := forall_assign (fun t ht => ht.withRole _) (ih _ hp)
  node hp _ ih := by
    simp only [neat, Bool.and_eq_true, bne_iff_ne, Bool.or_eq_true, Bool.not_eq_true'] at hp
    refine forall_wrap (fun t ht hk => (ih _ hp.1.1.2 t ht).of_comment hk) fun span =>
      ⟨hp.1.1.1.1.1, hp.1.1.1.1.2, fun hcase => ?_⟩
    exact hp.1.1.1.2.resolve_left (by simp [hcase])
  link hp hl _ _ ihacc ih := by
    obtain ⟨⟨⟨⟨hno, hcase⟩, -⟩, -⟩, hneat⟩ := neatLink_of_chain hp hl
    refine forall_wrap (fun t ht _ => forall_mem_append.2 ⟨forall_assign (fun t ht => ht.withRole _) ihacc,
      fun t ht => (ih .strict hneat t ht).weaken _⟩ t ht) fun span => ⟨hno.1, hno.2, fun hk => ?_⟩
    rw [hcase] at hk
    cases hk

theorem derives_fits (h : Derives grammar .typescript r c ts d) : ∀ p, neat p r → ∀ t ∈ ts, Fits p t :=
  carries_fits.derives h

/-! ## Frames -/

theorem dropWhile_comments {comments us : List Tree} {x : Tree} (h : ∀ t ∈ comments, t.IsComment)
    (hx : x.kind ≠ .comment) : (comments ++ x :: us).dropWhile (·.kind == .comment) = x :: us := by
  rw [dropWhile_append_of_pos, dropWhile_cons_of_neg (by simpa using hx)]
  intro t ht
  obtain ⟨span, text, rfl, -⟩ := h t ht
  rfl

theorem derives_parts : ∀ {r : Rule} {ts : List Tree}, Derives grammar .typescript r c ts d →
    Derives grammar .typescript (.seq (partsOf r)) c ts d
  | r, ts, h => by
    unfold partsOf
    split
    · exact derives_parts h.of_under
    · exact h
    · have := Derives.seqCons h .seqNil
      rwa [append_nil] at this

theorem reads_punct {a stops : String} (h : (Rule.punct a stops).Reads k text) : k = .token ∧ text = a.toList := by
  cases h
  exact ⟨rfl, rfl⟩

theorem derives_first {a stops : String} {rest : List Rule} (hparts : partsOf r = .punct a stops :: rest)
    (h : Derives grammar .typescript r c ts d) : ∃ span us e, Derives grammar .typescript (.seq rest) e us d ∧
      ts.dropWhile (·.kind == .comment) = .leaf .plain .token span a.toList :: us := by
  have h' := derives_parts h
  rw [hparts] at h'
  obtain ⟨_, us, e, rfl, hfirst, hus⟩ := h'.of_seq_cons
  obtain ⟨comments, k, span, text, rfl, hreads, hcomments⟩ := hfirst.of_reads (.inl ⟨a, stops, rfl⟩)
  obtain ⟨rfl, rfl⟩ := reads_punct hreads
  have hkind : (Tree.leaf .plain .token span a.toList).kind ≠ .comment := show Kind.token ≠ _ by decide
  rw [append_assoc, singleton_append, dropWhile_comments hcomments hkind]
  exact ⟨span, us, e, hus, rfl⟩

theorem isToken_of_fits (h : Fits .strict t) : t.isToken "\x7b" = false := by
  cases t with
  | leaf r k s text =>
    cases k with
    | token => simpa [Fits, Place.strict] using h.2
    | _ => rfl
  | node r k s cs => rfl

theorem isToken_of_kind_ne (h : t.kind ≠ .token) (s : String) : t.isToken s = false := by
  cases t with
  | leaf r k span text =>
    cases k with
    | token => exact absurd rfl h
    | _ => rfl
  | node r k span cs => rfl

theorem isToken_of_isComment (h : t.IsComment) (s : String) : t.isToken s = false := by
  obtain ⟨span, text, rfl, -⟩ := h
  rfl

theorem derives_closesBraces : ∀ {rs : List Rule} {c : Cursor} {ts : List Tree}, closesBraces rs →
    Derives grammar .typescript (.seq rs) c ts d →
    ∃ mid b, ts = mid ++ [b] ∧ b.isToken "\x7d" ∧ ∀ m ∈ mid, m.isToken "\x7b" = false
  | rs, c, ts, hc, h => by
    unfold closesBraces at hc
    split at hc
    · cases hc
    · rename_i b stops
      obtain ⟨us, vs, e, rfl, hus, hvs⟩ := h.of_seq_cons
      rw [hvs.of_seq_nil.1, append_nil]
      obtain ⟨comments, k, span, text, rfl, hreads, hcomments⟩ := hus.of_reads (.inl ⟨b, stops, rfl⟩)
      obtain ⟨rfl, rfl⟩ := reads_punct hreads
      refine ⟨comments, _, rfl, ?_, fun m hm => isToken_of_isComment (hcomments m hm) _⟩
      rw [beq_iff_eq.1 hc]
      exact beq_self_eq_true _
    · rename_i r rs _
      rw [Bool.and_eq_true] at hc
      obtain ⟨us, vs, e, rfl, hus, hvs⟩ := h.of_seq_cons
      obtain ⟨mid, b, rfl, hb, hmid⟩ := derives_closesBraces hc.2 hvs
      refine ⟨us ++ mid, b, (append_assoc us mid [b]).symm, hb, fun m hm => ?_⟩
      rcases mem_append.1 hm with hm | hm
      · exact isToken_of_fits (derives_fits hus .strict hc.1 m hm)
      · exact hmid m hm

theorem exists_parts_of_embraces (hr : embraces r) :
    ∃ stops rest, partsOf r = .punct "\x7b" stops :: rest ∧ closesBraces rest := by
  fun_induction partsOf r with
  | case1 x r ih => exact ih hr
  | case2 rs =>
    unfold embraces at hr
    split at hr
    case h_1 heq => cases heq
    case h_2 heq =>
      cases heq
      rw [Bool.and_eq_true, beq_iff_eq] at hr
      exact ⟨_, _, by rw [hr.1], hr.2⟩
    case h_3 => cases hr
  | case3 r hunder hseq => cases r <;> first | cases hr | exact absurd rfl (hunder _ _) | exact absurd rfl (hseq _)

theorem derives_braced (hr : embraces r) (h : Derives grammar .typescript r c ts d) :
    Braced (ts.dropWhile (·.kind == .comment)) := by
  obtain ⟨stops, rest, hparts, hrest⟩ := exists_parts_of_embraces hr
  obtain ⟨span, us, e, hus, hts⟩ := derives_first hparts h
  obtain ⟨mid, b, rfl, hb, hmid⟩ := derives_closesBraces hrest hus
  exact ⟨_, mid, b, hts, beq_self_eq_true _, hb, hmid⟩

theorem assign_concat_leaf (f : Role) (ts : List Tree) (r : Role) (k : Kind) (span : Span) (text : List Char) :
    ∃ r', assign f (ts ++ [.leaf r k span text]) = assign f ts ++ [.leaf r' k span text] := by
  simp only [assign, map_append, map_cons, map_nil]
  split
  · exact ⟨r, rfl⟩
  · exact ⟨f, rfl⟩

theorem derives_endsSolid {rs : List Rule} (hrs : endsSolid rs) (h : Derives grammar .typescript (.seq rs) c ts d) :
    ∃ us b, ts = us ++ [b] ∧ IsSolidLeaf b := by
  have glued {b : String} {c d : Cursor} {us : List Tree} (hb : b.toList.all isInk)
      (hus : Derives grammar .typescript (.seq [.glued b]) c us d) : ∃ vs x, us = vs ++ [x] ∧ IsSolidLeaf x := by
    obtain ⟨vs, ws, e, rfl, hvs, hws⟩ := hus.of_seq_cons
    rw [hws.of_seq_nil.1, append_nil]
    obtain ⟨comments, k, span, text, rfl, hreads, -⟩ := hvs.of_reads (.inr (.inl ⟨b, rfl⟩))
    cases hreads
    exact ⟨comments, _, rfl, _, _, _, _, rfl, hb⟩
  unfold endsSolid at hrs
  split at hrs
  · rename_i b front hrev
    rw [reverse_eq_cons_iff] at hrev
    rw [hrev] at h
    obtain ⟨us, vs, e, rfl, -, hvs⟩ := h.of_seq_append
    obtain ⟨ws, x, rfl, hx⟩ := glued hrs hvs
    exact ⟨us ++ ws, x, (append_assoc us ws [x]).symm, hx⟩
  · rename_i f k l b front hrev
    rw [Bool.and_eq_true] at hrs
    rw [reverse_eq_cons_iff, reverse_cons, append_assoc] at hrev
    rw [hrev] at h
    obtain ⟨us, vs, e, rfl, -, hvs⟩ := h.of_seq_append
    obtain ⟨ms, fs, e', rfl, hms, hfs⟩ := hvs.of_seq_append
    obtain ⟨fs, xs, e'', rfl, hopt, hxs⟩ := hfs.of_seq_cons
    rw [hxs.of_seq_nil.1, append_nil]
    rcases hopt.of_opt with rfl | hflags
    · obtain ⟨vs, x, rfl, hx⟩ := glued hrs.2 hms
      exact ⟨us ++ vs, x, by simp, hx⟩
    · obtain ⟨ws, rfl, hws⟩ := hflags.of_role
      obtain ⟨comments, k', span, text, rfl, hreads, -⟩ := hws.of_reads (.inr (.inr ⟨k, l, rfl⟩))
      cases hreads with
      | piece k htext =>
        have hsolid := l.solid_of_takes htext hrs.1
        obtain ⟨r, hassign⟩ := assign_concat_leaf f comments .plain k span text
        rw [hassign]
        refine ⟨us ++ (ms ++ assign f comments), .leaf r k span text, ?_, _, _, _, _, rfl, hsolid⟩
        simp only [append_assoc]
  · cases hrs

theorem derives_enclosed (hr : encloses r) (h : Derives grammar .typescript r c ts d) :
    Enclosed (ts.dropWhile (·.kind == .comment)) := by
  unfold encloses at hr
  split at hr
  · rename_i a stops rest hparts
    rw [Bool.and_eq_true] at hr
    obtain ⟨span, us, e, hus, hts⟩ := derives_first hparts h
    obtain ⟨ws, b, rfl, hb⟩ := derives_endsSolid hr.2 hus
    rw [hts]
    exact ⟨⟨_, _, rfl, _, _, _, _, rfl, hr.1⟩, _ :: ws, b, rfl, hb⟩
  · cases hr

theorem carries_allMade : Carries grammar .typescript (neat · · = true) fun _ => AllMade where
  comment := .of_isComment
  leaf hr hp := forall_nodes_leaf.2 (isFlexKind_of_reads hr hp)
  parts := neat_parts fun _ _ => id
  role hp _ ih := forall_assign (fun t ht => ht.withRole _) (ih _ hp)
  node hp h ih := by
    simp only [neat, Bool.and_eq_true, bne_iff_ne, Bool.or_eq_true, Bool.not_eq_true'] at hp
    obtain ⟨⟨⟨-, hneat⟩, hflex⟩, hatomic⟩ := hp
    refine forall_wrap (fun t ht _ => ih _ hneat t ht) fun span => forall_nodes_node.2
      ⟨⟨forall_dropWhile _ (derives_fits h _ hneat), fun hk => ?_, fun hk => ?_⟩, forall_dropWhile _ (ih _ hneat)⟩
    · exact derives_braced (hflex.resolve_left (by simp [hk])) h
    · exact derives_enclosed (hatomic.resolve_left (by simp [hk])) h
  link {p _ _ _ l _ acc _ ts _ _} hp hl hacc h ihacc ih := by
    obtain ⟨⟨⟨-, hflex⟩, hatomic⟩, hneat⟩ := neatLink_of_chain hp hl
    have hfits : ∀ t ∈ assign l.role acc ++ ts, Fits .strict t := forall_mem_append.2
      ⟨forall_assign (fun t ht => ht.withRole _) (derives_fits hacc .strict hp), derives_fits h .strict hneat⟩
    have hmade : ∀ t ∈ assign l.role acc ++ ts, AllMade t := forall_mem_append.2
      ⟨forall_assign (fun t ht => ht.withRole _) ihacc, ih .strict hneat⟩
    refine forall_wrap (fun t ht _ => hmade t ht) fun span => forall_nodes_node.2
      ⟨⟨forall_dropWhile _ fun t ht => (hfits t ht).weaken _, fun hk => ?_, fun hk => ?_⟩, forall_dropWhile _ hmade⟩
    · rw [hflex] at hk
      cases hk
    · rw [hatomic] at hk
      cases hk

theorem parse_wellMade {source : List Char} (h : parse .typescript source = some t) :
    t.kind = .program ∧ ∀ u ∈ t.children, Fits .strict u ∧ AllMade u := by
  obtain ⟨items, e, rfl, hd⟩ := parse_derives h
  exact ⟨rfl, fun u hu => ⟨derives_fits hd .strict program_neat u hu,
    carries_allMade.derives hd .strict program_neat u hu⟩⟩

end SourceBench.Layout
