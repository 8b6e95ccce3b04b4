import SourceBench.Proofs.Syntax.Bodies

/-!
# Forms of export statements

An export statement gives away a declaration, a default value or a clause of names, never two of them, and a value only
as the default (`parse_exportForm`).  The rules say so when each is read as the sets of parts that it may show side by
side (`Rule.shows`): what a rule derives shows one of its sets (`derives_shows`).
-/
namespace SourceBench.Syntax

open List

/-- Which parts of an export statement that say what it gives away there are. -/
structure Parts where
  value : Bool
  declaration : Bool
  clause : Bool
  default : Bool
deriving DecidableEq

namespace Parts

def none : Parts := ⟨false, false, false, false⟩

def all : List Parts :=
  [false, true].flatMap fun v => [false, true].flatMap fun d => [⟨v, d, false, false⟩, ⟨v, d, false, true⟩,
    ⟨v, d, true, false⟩, ⟨v, d, true, true⟩]

def join (p q : Parts) : Parts :=
  ⟨p.value || q.value, p.declaration || q.declaration, p.clause || q.clause, p.default || q.default⟩

def ofKind (k : Kind) : Parts := { none with clause := k == .exportClause }

def ofWord (w : String) : Parts := { none with default := w == "default" }

/-- The parts when all that shows them gets a role. -/
def inRole (f : Role) (p : Parts) : Parts := { p with value := f == .value, declaration := f == .declaration }

/-- What trees show by their roles, kinds and words; comments show nothing. -/
def of (ts : List Tree) : Parts :=
  let shown := ts.filter (·.kind != .comment)
  ⟨shown.any (·.role == .value), shown.any (·.role == .declaration), shown.any (·.kind == .exportClause),
    shown.any (Tree.isToken "default")⟩

variable {ts us : List Tree}

theorem mem_all (p : Parts) : p ∈ all := by
  obtain ⟨_ | _, _ | _, _ | _, _ | _⟩ := p <;> decide

theorem of_append (ts us : List Tree) : of (ts ++ us) = (of ts).join (of us) := by
  simp only [of, join, filter_append, any_append]

theorem of_comments (h : ∀ t ∈ ts, t.kind = .comment) : of ts = none := by
  have hnil : ts.filter (·.kind != .comment) = [] := filter_eq_nil_iff.2 fun t ht => by simp [h t ht]
  rw [of, hnil]
  rfl

theorem of_append_comments (h : ∀ t ∈ ts, t.kind = .comment) : of (ts ++ us) = of us := by
  rw [of_append, of_comments h]
  simp [join, none]

theorem of_node (k : Kind) (s : Span) (cs : List Tree) : of [.node .plain k s cs] = ofKind k := by
  by_cases hk : k = .comment
  · subst hk
    rfl
  · simp [of, Tree.kind, Tree.role, Tree.isToken, hk, ofKind, none]

theorem of_wrap (k : Kind) (at_ : Pos) (ts : List Tree) : of (wrap k at_ ts) = ofKind k := by
  rw [wrap, of_append_comments fun t ht => by simpa using mem_takeWhile_imp ht, of_node]

theorem of_dropWhile (ts : List Tree) : of (ts.dropWhile (·.kind == .comment)) = of ts := by
  conv_rhs => rw [← takeWhile_append_dropWhile (l := ts) (p := (·.kind == .comment))]
  rw [of_append_comments fun t ht => by simpa using mem_takeWhile_imp ht]

theorem of_assign (f : Role) (ts : List Tree) :
    of (assign f ts) = (of ts).inRole .plain ∨ of (assign f ts) = (of ts).inRole f := by
  have hshown : (assign f ts).filter (·.kind != .comment) = (ts.filter (·.kind != .comment)).map (Tree.withRole f) := by
    induction ts with
    | nil => rfl
    | cons t ts ih =>
      by_cases hk : t.kind = .comment
      · simpa [assign, hk] using ih
      · simpa [assign, hk, t.kind_withRole] using ih
  have htoken (t : Tree) : (t.withRole f).isToken "default" = t.isToken "default" := by
    cases t with
    | leaf f' k s text => cases k <;> rfl
    | node f' k s cs => rfl
  simp only [of, hshown, any_map, Function.comp_def, Tree.role_withRole, Tree.kind_withRole, htoken]
  cases ts.filter (·.kind != .comment) with
  | nil => exact .inl rfl
  | cons u us => exact .inr (by simp [inRole])

end Parts

/-! ## What rules show -/

mutual
/-- The sets of parts that the trees of a rule may show.  Symbols show none. -/
def Rule.shows : Rule → List Parts
  | .punct w _ | .glued w | .word w => [.ofWord w]
  | .lexeme k _ | .piece k _ => if k = .token then Parts.all else [.ofKind k]
  | .node k _ => [.ofKind k]
  | .seq rs => showsAll rs
  | .alt rs => showsAny rs
  | .opt r => .none :: r.shows
  | .many r => if r.shows.all (· == .none) then [.none] else Parts.all
  | .role f r => r.shows.flatMap fun p => [p.inRole .plain, p.inRole f]
  | .under _ r | .only _ r | .among _ r => r.shows
  | .chain _ base links => base.shows ++ links.map (Parts.ofKind ·.kind)
  | _ => [.none]
def showsAll : List Rule → List Parts
  | [] => [.none]
  | r :: rs => r.shows.flatMap fun p => (showsAll rs).map p.join
def showsAny : List Rule → List Parts
  | [] => []
  | r :: rs => r.shows ++ showsAny rs
end

section Derived

variable {dialect : Dialect} {r : Rule} {c d : Cursor} {ts : List Tree}

theorem mem_showsAny {p : Parts} (h : p ∈ r.shows) : ∀ {rs : List Rule}, r ∈ rs → p ∈ showsAny rs
  | _ :: _, hr => by
    rw [showsAny, mem_append]
    rcases mem_cons.1 hr with rfl | hr
    · exact .inl h
    · exact .inr (mem_showsAny h hr)

theorem shows_of_reads {k : Kind} {text : List Char} {span : Span} (hr : r.Reads k text) :
    Parts.of [.leaf .plain k span text] ∈ r.shows := by
  have hword (w : String) : Parts.of [.leaf .plain .token span w.toList] = .ofWord w := by
    have heq : (w.toList == "default".toList) = (w == "default") := by
      rw [Bool.eq_iff_iff, beq_iff_eq, beq_iff_eq, String.toList_inj]
    show (⟨false, false, false, (w.toList == "default".toList) || false⟩ : Parts) = _
    rw [heq, Bool.or_false]
    rfl
  have hkind (k : Kind) (text : List Char) : Parts.of [.leaf .plain k span text] ∈
      if k = .token then Parts.all else [.ofKind k] := by
    split
    · exact Parts.mem_all _
    · rename_i hk
      by_cases hcomment : k = .comment
      · subst hcomment
        exact mem_singleton_self _
      · simp [Parts.of, Parts.ofKind, Parts.none, Tree.kind, Tree.role, Tree.isToken, hk, hcomment]
  cases hr with
  | punct w _ | glued w | word w =>
    rw [Rule.shows, hword]
    exact mem_singleton_self _
  | lexeme k _ | piece k _ => exact hkind k text
  | close =>
    rw [hword]
    exact mem_singleton_self _

theorem none_mem_shows (hr : r.idle ∨ r.closes) : Parts.none ∈ r.shows := by
  cases r with
  | opt r => exact mem_cons_self
  | many r =>
    rw [Rule.shows]
    split
    · exact mem_singleton_self _
    · exact Parts.mem_all _
  | ahead | notAhead | optClose | steady | closing | operandEnd | typedArrow | close => exact mem_singleton_self _
  | _ => rcases hr with hr | hr <;> cases hr

theorem derives_shows (hg : ∀ x, (grammar x).shows.all (· == .none)) (h : Derives grammar dialect r c ts d) :
    Parts.of ts ∈ r.shows := by
  have hcomments {us : List Tree} (h : ∀ t ∈ us, t.IsComment) : ∀ t ∈ us, t.kind = .comment := fun t ht => by
    obtain ⟨_, _, rfl, -⟩ := h t ht
    rfl
  induction h with
  | leaf hr h =>
    rw [Parts.of_append_comments (hcomments h)]
    exact shows_of_reads hr
  | nothing hr => exact none_mem_shows (.inl hr)
  | closes hr h =>
    rw [Parts.of_comments (hcomments h)]
    exact none_mem_shows (.inr hr)
  | stop h =>
    rw [Parts.of_comments (hcomments h)]
    exact mem_singleton_self _
  | @ref x ts c d h ih =>
    rw [beq_iff_eq.1 (all_eq_true.1 (hg x) _ ih)]
    exact mem_singleton_self _
  | seqNil => exact mem_singleton_self _
  | seqCons h hs ih ihs =>
    rw [Parts.of_append]
    exact mem_flatMap.2 ⟨_, ih, mem_map_of_mem ihs⟩
  | alt hr h ih => exact mem_showsAny ih hr
  | opt h ih => exact mem_cons_of_mem _ ih
  | many h hs ih ihs =>
    -- what is repeated shows nothing, or anything may show
    rw [Rule.shows] at ihs ⊢
    split at ihs
    · rename_i hnone
      rw [if_pos hnone, Parts.of_append, beq_iff_eq.1 (all_eq_true.1 hnone _ ih), mem_singleton.1 ihs]
      exact mem_singleton_self _
    · rename_i hsome
      rw [if_neg hsome]
      exact Parts.mem_all _
  | node at_ h ih =>
    rw [Parts.of_wrap]
    exact mem_singleton_self _
  | @role f r ts c d h ih =>
    refine mem_flatMap.2 ⟨_, ih, ?_⟩
    rw [mem_cons, mem_singleton]
    exact Parts.of_assign f ts
  | chain h ih => exact mem_append_left _ ih
  | link at_ hacc hl h ihacc ih =>
    rw [Parts.of_wrap]
    exact mem_append_right _ (mem_map.2 ⟨_, hl, rfl⟩)
  | under h ih => exact ih
  | only h ih => exact ih
  | among h ih => exact ih

end Derived

theorem grammar_shows (x : Symbol) : (grammar x).shows.all (· == .none) := by
  cases x <;> decide +kernel

/-! ## Export statements -/

/-- An export statement gives away one thing: a value only as the default and without a declaration, and a clause of
names neither as the default nor with a declaration. -/
structure ExportForm (e : Tree) : Prop where
  value : ∀ v, e.child? .value = some v → e.hasToken "default" = true ∧ e.child? .declaration = none
  clause : ∀ c ∈ e.namedChildren, c.kind = .exportClause → e.hasToken "default" = false ∧ e.child? .declaration = none

def Parts.fit (p : Parts) : Bool :=
  (!p.value || p.default && !p.declaration) && (!p.clause || !p.default && !p.declaration)

def exportCheck (k : Kind) (m : Maker) : Bool := k != .exportStatement || m.rule?.any (·.shows.all Parts.fit)

theorem grammar_exportCheck (x : Symbol) : (grammar x).checked exportCheck := by
  cases x <;> decide +kernel

theorem program_exportCheck : Grammar.program.checked exportCheck := by decide +kernel

theorem exportForm_of_fit {e : Tree} (hcomments : ∀ t ∈ e.children, t.kind = .comment → t.role = .plain)
    (h : (Parts.of e.children).fit) : ExportForm e := by
  have hrole {f : Role} {v : Tree} (hf : f ≠ .plain) (hv : e.child? f = some v) :
      (e.children.filter (·.kind != .comment)).any (·.role == f) := by
    have hmem := mem_of_find?_eq_some hv
    have hvf := find?_some hv
    refine any_eq_true.2 ⟨v, mem_filter.2 ⟨hmem, ?_⟩, hvf⟩
    exact bne_iff_ne.2 fun hk => hf ((beq_iff_eq.1 hvf).symm.trans (hcomments v hmem hk))
  have hword : (Parts.of e.children).default = e.hasToken "default" := by
    show (e.children.filter _).any _ = _
    rw [any_filter, Tree.hasToken]
    congr 1
    funext t
    cases ht : t.isToken "default" with
    | false => exact Bool.and_false _
    | true =>
      rw [Bool.and_true, bne_iff_ne]
      intro hk
      rw [Layout.isToken_of_kind_ne (by simp [hk])] at ht
      cases ht
  have hnone (hd : (Parts.of e.children).declaration = false) : e.child? .declaration = none :=
    Option.eq_none_iff_forall_ne_some.2 fun d hsome => by
      rw [show (Parts.of e.children).declaration = true from hrole (by decide) hsome] at hd
      cases hd
  simp only [Parts.fit, Bool.and_eq_true, Bool.or_eq_true, Bool.not_eq_true', hword] at h
  constructor
  · intro v hv
    have hvalue : (Parts.of e.children).value := hrole (by decide) hv
    obtain ⟨hdefault, hd⟩ := h.1.resolve_left (by simp [hvalue])
    exact ⟨hdefault, hnone hd⟩
  · intro c hc hk
    have hclause : (Parts.of e.children).clause := by
      refine any_eq_true.2 ⟨c, mem_filter.2 ⟨mem_of_mem_filter hc, ?_⟩, beq_iff_eq.2 hk⟩
      simp [hk]
    obtain ⟨hdefault, hd⟩ := h.2.resolve_left (by simp [hclause])
    exact ⟨hdefault, hnone hd⟩

theorem parse_exportForm {dialect : Dialect} {source : List Char} {root e : Tree} (h : parse dialect source = some root)
    (he : e ∈ root.nodes) (hk : e.kind = .exportStatement) : ExportForm e := by
  obtain ⟨r, c, ts, d, hcheck, hderives, hts⟩ := (parse_made h he grammar_exportCheck program_exportCheck
    (by simp [hk])).rule (fun m hm => by rw [hk, exportCheck, hm]; rfl) (by simp [hk]) (by simp [hk])
  have hfit : r.shows.all Parts.fit := by simpa [exportCheck, Maker.rule?, hk] using hcheck
  refine exportForm_of_fit (fun t ht => ?_) ?_
  · exact derives_comments hderives t ((dropWhile_suffix _).subset (hts ▸ ht))
  · rw [hts, Parts.of_dropWhile]
    exact all_eq_true.1 hfit _ (derives_shows grammar_shows hderives)

end SourceBench.Syntax
