import SourceBench.Proofs.Syntax.Bound
import SourceBench.Proofs.Syntax.Elsewhere

/-!
# Comments in front of a source

Comments are read before the token that follows them.  A rule that asks for a token before all else (`Rule.fronted`)
reads the same with more comments in front, and hands those comments out in front of its trees (`run_follows`).  So does
what is read up to the end of a source (`toStop_prefaced`).
-/
namespace SourceBench.Syntax

open List Cursor Option Bool

/-- The state `s'` has more comments in front of the next token than `s`. -/
structure Prefaced (hs : List Tree) (s s' : State) : Prop where
  comments : ∀ h ∈ hs, h.kind = .comment
  trivia : s'.cursor.trivia = (hs ++ s.cursor.trivia.1, s.cursor.trivia.2)

/-- The trees begin with the comments and go on with a token. -/
def Led (comments ts : List Tree) : Prop := ∃ x us, ts = comments ++ x :: us ∧ x.kind ≠ .comment

/-- How a reading with more comments in front follows the reading without: both fail, both stay where they are, or the
comments are handed out first and both end at the same place. -/
inductive Follows (hs : List Tree) (s s' : State) : Reading → Reading → Prop
  | none : Follows hs s s' none none
  | idle (b b' : Bool) : Follows hs s s' (some ([], { s with ended := b })) (some ([], { s' with ended := b' }))
  | read {ts : List Tree} {t : State} (hled : Led s.cursor.trivia.1 ts) : Follows hs s s' (some (ts, t))
      (some (hs ++ ts, t))

mutual
/-- The rule asks for nothing in front of its first token that a comment there could change. -/
def Rule.fronted : Rule → Bool
  | .punct _ _ | .word _ | .ref _ | .operandEnd | .typedArrow => true
  | .lexeme k _ => k != .comment
  | .node k r => k != .comment && r.fronted
  | .seq rs => frontedInOrder rs
  | .alt rs => frontedAll rs
  | .opt r | .many r | .role _ r | .ahead r | .notAhead r | .under _ r | .only _ r => r.fronted
  | .among _ r | .chain _ r _ => r.gives && r.fronted
  | .glued _ | .piece _ _ | .close | .optClose | .steady | .closing | .stop => false
/-- The rules up to the first that always reads a token are fronted. -/
def frontedInOrder : List Rule → Bool
  | [] => true
  | r :: rs => r.fronted && (r.gives || frontedInOrder rs)
def frontedAll : List Rule → Bool
  | [] => true
  | r :: rs => r.fronted && frontedAll rs
end

theorem grammar_fronted (x : Symbol) : (grammar x).fronted := by
  cases x <;> decide +kernel

/-! ## Nodes and roles -/

section
variable {hs : List Tree} (hhs : ∀ h ∈ hs, h.kind = .comment)

include hhs

theorem assign_comments (f : Role) (ts : List Tree) : assign f (hs ++ ts) = hs ++ assign f ts := by
  have hself : assign f hs = hs := by
    rw [assign]
    refine (map_congr_left fun h hh => ?_).trans (map_id hs)
    rw [hhs h hh]
    rfl
  rw [← hself, assign, map_append, hself]
  exact congrArg (· ++ _) hself

theorem wrap_comments (k : Kind) {ts : List Tree} (htok : HasToken ts) (at_ at' : Pos) :
    wrap k at' (hs ++ ts) = hs ++ wrap k at_ ts := by
  have hlead : ∀ h ∈ hs, (h.kind == .comment) := fun h hh => by rw [hhs h hh]; rfl
  simp only [wrap, takeWhile_append_of_pos hlead, dropWhile_append_of_pos hlead, append_assoc]
  obtain ⟨t, us, hinner⟩ := exists_cons_of_ne_nil (dropWhile_ne_nil htok)
  rw [hinner]
  have hlast : (t :: us).getLast? = some ((t :: us).getLast (cons_ne_nil t us)) := getLast?_eq_some_getLast _
  rw [hlast]
  rfl

end

variable {comments ts hs : List Tree} {s s' : State} {blank comment : List Char}

theorem Led.hasToken (h : Led comments ts) : HasToken ts := by
  obtain ⟨x, us, rfl, hx⟩ := h
  exact ⟨x, mem_append_right _ mem_cons_self, hx⟩

theorem Led.append (h : Led comments ts) (us : List Tree) : Led comments (ts ++ us) := by
  obtain ⟨x, vs, rfl, hx⟩ := h
  exact ⟨x, vs ++ us, by rw [append_assoc, cons_append], hx⟩

theorem kind_assigned {x : Tree} (hx : x.kind ≠ .comment) (f : Role) (us : List Tree) :
    ∃ y vs, assign f (x :: us) = y :: vs ∧ y.kind ≠ .comment := by
  refine ⟨_, _, rfl, ?_⟩
  beta_reduce
  rw [if_neg (by simpa using hx)]
  cases x <;> exact hx

theorem Led.assign (hcomments : ∀ h ∈ comments, h.kind = .comment) (h : Led comments ts) (f : Role) :
    Led comments (assign f ts) := by
  obtain ⟨x, us, rfl, hx⟩ := h
  obtain ⟨y, vs, heq, hy⟩ := kind_assigned hx f us
  exact ⟨y, vs, by rw [assign_comments hcomments, heq], hy⟩

theorem wrap_led (hcomments : ∀ h ∈ comments, h.kind = .comment) (h : Led comments ts) (k : Kind) (at_ : Pos) :
    ∃ span us, wrap k at_ ts = comments ++ [.node .plain k span us] := by
  obtain ⟨x, us, rfl, hx⟩ := h
  have hkind : (x.kind == .comment) = false := beq_eq_false_iff_ne.2 hx
  rw [wrap_comments hcomments k ⟨x, mem_cons_self, hx⟩ at_ at_, wrap]
  simp only [takeWhile_cons, dropWhile_cons, hkind, false_eq_true, if_false, nil_append]
  exact ⟨_, _, rfl⟩

theorem Led.wrap (hcomments : ∀ h ∈ comments, h.kind = .comment) (h : Led comments ts) {k : Kind}
    (hk : k ≠ .comment) (at_ : Pos) : Led comments (wrap k at_ ts) := by
  obtain ⟨span, us, heq⟩ := wrap_led hcomments h k at_
  exact ⟨_, [], heq, hk⟩

theorem Cursor.trivia_comments (c : Cursor) : ∀ h ∈ c.trivia.1, h.kind = .comment := by
  intro h hh
  obtain ⟨span, text, rfl, -⟩ := (trivia_spec _ c).1 h hh
  rfl

theorem getLast?_append_of_hasToken (htok : HasToken ts) (hs : List Tree) : (hs ++ ts).getLast? = ts.getLast? := by
  rw [getLast?_append, getLast?_eq_some_getLast htok.ne_nil]
  rfl

/-! ## Rules -/

theorem Follows.of_ended {b b' : Bool} {x y : Reading}
    (hf : Follows hs { s with ended := b } { s' with ended := b' } x y) :
    Follows hs s s' x y := by
  cases hf with
  | none => exact .none
  | idle b b' => exact .idle b b'
  | read hled => exact .read hled

theorem Prefaced.withEnded (hp : Prefaced hs s s') (b b' : Bool) :
    Prefaced hs { s with ended := b } { s' with ended := b' } := ⟨hp.comments, hp.trivia⟩

theorem Follows.stay (hs : List Tree) (s s' : State) : Follows hs s s' (some ([], s)) (some ([], s')) :=
  .idle s.ended s'.ended

theorem token_follows (hp : Prefaced hs s s') {k : Kind} (hk : k ≠ .comment) (length : List Char → Nat) :
    Follows hs s s' (s.token k length) (s'.token k length) := by
  simp only [State.token, hp.trivia]
  cases length s.cursor.trivia.2.rest with
  | zero => exact .none
  | succ n =>
    have hled : Led s.cursor.trivia.1 (s.cursor.trivia.1 ++ [(s.cursor.trivia.2.leaf k (n + 1)).1]) := ⟨_, [], rfl, hk⟩
    simp only [append_assoc]
    exact .read hled

section
variable {n : Nat} {c : Context} {hs : List Tree}
  (ih : ∀ (r : Rule) (s s' : State), Prefaced hs s s' → r.fronted → r.sound →
    Follows hs s s' (r.run grammar n c s) (r.run grammar n c s'))

include ih

theorem inOrder_follows : ∀ (rs : List Rule) (s s' : State), Prefaced hs s s' → frontedInOrder rs → soundAll rs →
    Follows hs s s' (inOrder (Rule.run grammar n c) rs s) (inOrder (Rule.run grammar n c) rs s')
  | [], s, s', _, _, _ => .stay hs s s'
  | r :: rs, s, s', hp, hfront, hsound => by
    simp only [frontedInOrder, soundAll, and_eq_true, or_eq_true] at hfront hsound
    have hr := ih r s s' hp hfront.1 hsound.1
    simp only [inOrder]
    generalize hx : r.run grammar n c s = x, hy : r.run grammar n c s' = y at hr
    cases hr with
    | none => exact .none
    | idle b b' =>
      -- Nothing was read, so the rule is none that always reads a token.
      have hrest : frontedInOrder rs := hfront.2.resolve_left fun hgives =>
        ((run_reads hx hsound.1).2 hgives).ne_nil rfl
      have hrs := (inOrder_follows rs _ _ (hp.withEnded b b') hrest hsound.2).of_ended
      dsimp only
      generalize inOrder (Rule.run grammar n c) rs { s with ended := b } = x,
        inOrder (Rule.run grammar n c) rs { s' with ended := b' } = y at hrs ⊢
      cases x <;> cases y <;> exact hrs
    | read hled =>
      dsimp only
      cases inOrder (Rule.run grammar n c) rs _ with
      | none => exact .none
      | some z =>
        simp only [append_assoc]
        exact .read (hled.append _)

theorem firstOf_follows : ∀ (rs : List Rule) (s s' : State), Prefaced hs s s' → frontedAll rs → soundAll rs →
    Follows hs s s' (firstOf (Rule.run grammar n c) rs s) (firstOf (Rule.run grammar n c) rs s')
  | [], _, _, _, _, _ => .none
  | r :: rs, s, s', hp, hfront, hsound => by
    simp only [frontedAll, soundAll, and_eq_true] at hfront hsound
    simp only [firstOf]
    have hr := ih r s s' hp hfront.1 hsound.1
    generalize r.run grammar n c s = x, r.run grammar n c s' = y at hr ⊢
    cases hr with
    | none => exact firstOf_follows rs s s' hp hfront.2 hsound.2
    | idle b b' => exact .idle b b'
    | read hled => exact .read hled

omit ih

theorem firstLink_comments (hhs : ∀ h ∈ hs, h.kind = .comment) (level : Nat) {acc : List Tree} (htok : HasToken acc)
    (s : State) :
    ∀ ls : List (Link Rule), firstLink (Rule.run grammar n c) level ls (hs ++ acc) s =
      (firstLink (Rule.run grammar n c) level ls acc s).map fun x => (hs ++ x.1, x.2)
  | [] => rfl
  | l :: ls => by
    simp only [firstLink, getLast?_append_of_hasToken htok, firstLink_comments hhs level htok s ls]
    split
    · rfl
    · cases Rule.run grammar n c l.rule s with
      | none => rfl
      | some x =>
        have htok' : HasToken (assign l.role acc ++ x.1) := hasToken_append_left _ (hasToken_assign _ htok)
        simp only [assign_comments hhs, append_assoc, wrap_comments hhs l.kind htok' s.cursor.pos s.cursor.pos,
          map_some]

theorem led_firstLink {level : Nat} {acc acc' : List Tree} (hcomments : ∀ h ∈ comments, h.kind = .comment)
    (hacc : Led comments acc) : ∀ {ls : List (Link Rule)}, soundLinks ls →
      firstLink (Rule.run grammar n c) level ls acc s = some (acc', s') → Led comments acc'
  | [], _, hlink => by cases hlink
  | ⟨k, f, level', only, r⟩ :: ls, hsound, hlink => by
    simp only [soundLinks, soundLink, and_eq_true] at hsound
    simp only [firstLink] at hlink
    split at hlink
    · exact led_firstLink hcomments hacc hsound.2 hlink
    · split at hlink
      · exact led_firstLink hcomments hacc hsound.2 hlink
      · cases hlink
        exact ((hacc.assign hcomments f).append _).wrap hcomments (by simpa using hsound.1.1) _

theorem extend_comments (hhs : ∀ h ∈ hs, h.kind = .comment) (isType : Bool) {ls : List (Link Rule)}
    (hls : soundLinks ls)
    (hcomments : ∀ h ∈ comments, h.kind = .comment) : ∀ (m : Nat) (acc : List Tree) (s : State), Led comments acc →
      Led comments (extend (Rule.run grammar n c) c isType ls m acc s).1 ∧
        extend (Rule.run grammar n c) c isType ls m (hs ++ acc) s =
          (hs ++ (extend (Rule.run grammar n c) c isType ls m acc s).1,
            (extend (Rule.run grammar n c) c isType ls m acc s).2)
  | 0, _, _, hled => ⟨hled, rfl⟩
  | m + 1, acc, s, hled => by
    unfold extend
    generalize ({ s with ended := if isType then c.operandTail else true } : State) = s₁
    simp only [firstLink_comments hhs c.level hled.hasToken s₁ ls]
    split
    · exact ⟨hled, rfl⟩
    · cases hlink : firstLink (Rule.run grammar n c) c.level ls acc s₁ with
      | none => exact ⟨hled, rfl⟩
      | some x => exact extend_comments hhs isType hls hcomments m x.1 x.2 (led_firstLink hcomments hled hls hlink)

end

theorem run_byte_lt {n : Nat} {c : Context} {r : Rule} {t : State} (hrun : r.run grammar n c s = some (ts, t))
    (hr : r.sound) (htok : HasToken ts) : s.cursor.pos.byte < t.cursor.pos.byte := by
  obtain ⟨text, hpass, hne⟩ := (run_reads hrun hr).1.passes
  have hpos := Utf8.byteSize_pos (hne htok.ne_nil)
  have := hpass.byte_eq
  omega

theorem repeatedly_follows {read : State → Reading} (hread : Follows hs s s' (read s) (read s'))
    (hbyte : ∀ {s : State} {ts : List Tree} {t : State}, read s = some (ts, t) → HasToken ts →
      s.cursor.pos.byte < t.cursor.pos.byte) :
    ∀ n : Nat, Follows hs s s' (some (repeatedly read n s)) (some (repeatedly read n s'))
  | 0 => .stay hs s s'
  | n + 1 => by
    simp only [repeatedly]
    generalize hx : read s = x, hy : read s' = y at hread
    cases hread with
    | none => exact .stay hs s s'
    | idle b b' =>
      simp only [Nat.lt_irrefl, if_false]
      exact .stay hs s s'
    | read hled =>
      have hlt := hbyte hx hled.hasToken
      have hlt' := hbyte hy (hasToken_append_right hs hled.hasToken)
      simp only [hlt, hlt', if_true, append_assoc]
      exact .read (hled.append _)

/-- **A fronted rule reads the same behind more comments**, and hands those comments out first.  Where it reads
anything, it reads the comments before the next token and then the token. -/
theorem run_follows : ∀ (n : Nat) (c : Context) (r : Rule) (s s' : State), Prefaced hs s s' →
    r.fronted → r.sound → Follows hs s s' (r.run grammar n c s) (r.run grammar n c s')
  | 0, _, _, _, _, _, _, _ => .none
  | n + 1, c, rule, s, s', hp, hfront, hsound => by
    have ih := run_follows n
    cases rule with
    | punct text stops => exact token_follows hp (by decide) _
    | word text => exact token_follows hp (by decide) _
    | lexeme k l => exact token_follows hp (by simpa [Rule.fronted] using hfront) (fun cs => l.length cs)
    | ref x => exact ih c (grammar x) s s' hp (grammar_fronted x) (grammar_sound x).2
    | seq rs => exact inOrder_follows (ih c) rs s s' hp hfront hsound
    | alt rs => exact firstOf_follows (ih c) rs s s' hp hfront hsound
    | under x r => exact ih (c.shift x) r s s' hp hfront hsound
    | only d r =>
      simp only [Rule.run]
      split
      · exact ih c r s s' hp hfront hsound
      · exact .none
    | opt r | ahead r | notAhead r =>
      simp only [Rule.run]
      have hr := ih c r s s' hp hfront hsound
      generalize r.run grammar n c s = x, r.run grammar n c s' = y at hr ⊢
      cases hr with
      | none => first | exact .stay hs s s' | exact .none
      | idle b b' => first | exact .idle b b' | exact .stay hs s s' | exact .none
      | read hled => first | exact .read hled | exact .stay hs s s' | exact .none
    | many r => exact repeatedly_follows (ih c r s s' hp hfront hsound) (fun hx => run_byte_lt hx hsound) n
    | node k r =>
      simp only [Rule.fronted, Rule.sound, and_eq_true] at hfront hsound
      have hr := ih c r s s' hp hfront.2 hsound.2
      simp only [Rule.run]
      generalize hx : r.run grammar n c s = x, r.run grammar n c s' = y at hr
      cases hr with
      | none => exact .none
      | idle b b' => exact absurd rfl ((run_reads hx hsound.2).2 hsound.1).ne_nil
      | read hled =>
        dsimp only
        rw [wrap_comments hp.comments k hled.hasToken s.cursor.pos]
        exact .read (hled.wrap s.cursor.trivia_comments (by simpa using hfront.1) _)
    | role f r =>
      simp only [Rule.run]
      have hr := ih c r s s' hp hfront hsound
      generalize r.run grammar n c s = x, r.run grammar n c s' = y at hr ⊢
      cases hr with
      | none => exact .none
      | idle b b' => exact .idle b b'
      | read hled =>
        dsimp only
        rw [assign_comments hp.comments]
        exact .read (hled.assign s.cursor.trivia_comments f)
    | among ks r =>
      simp only [Rule.fronted, and_eq_true] at hfront
      have hr := ih c r s s' hp hfront.2 hsound
      simp only [Rule.run]
      generalize hx : r.run grammar n c s = x, r.run grammar n c s' = y at hr
      cases hr with
      | none => exact .none
      | idle b b' => exact absurd rfl ((run_reads hx hsound).2 hfront.1).ne_nil
      | read hled =>
        dsimp only
        rw [getLast?_append_of_hasToken hled.hasToken]
        split
        · exact .read hled
        · exact .none
    | chain isType base links =>
      simp only [Rule.fronted, Rule.sound, and_eq_true] at hfront hsound
      have hr := ih c base s s' hp hfront.2 hsound.1.2
      simp only [Rule.run]
      generalize hx : base.run grammar n c s = x, base.run grammar n c s' = y at hr
      cases hr with
      | none => exact .none
      | idle b b' => exact absurd rfl ((run_reads hx hsound.1.2).2 hfront.1).ne_nil
      | read hled =>
        obtain ⟨hled', heq⟩ := extend_comments (c := c) hp.comments isType hsound.2 s.cursor.trivia_comments n _ _ hled
        dsimp only
        rw [heq]
        exact .read hled'
    | operandEnd => exact .idle true true
    | typedArrow =>
      simp only [Rule.run]
      split
      · exact .none
      · exact .stay hs s s'
    | glued | piece | close | optClose | steady | closing | stop => cases hfront

/-! ## Whole sources -/

theorem inOrder_concat (read : Rule → State → Reading) (r : Rule) : ∀ (rs : List Rule) (s : State),
    inOrder read (rs ++ [r]) s = (inOrder read rs s).bind fun x => (read r x.2).map fun y => (x.1 ++ y.1, y.2)
  | [], s => by
    simp only [nil_append, inOrder, bind_some]
    cases read r s <;> simp
  | r' :: rs, s => by
    simp only [cons_append, inOrder, inOrder_concat read r rs]
    cases read r' s with
    | none => rfl
    | some x =>
      dsimp only
      cases inOrder read rs x.2 with
      | none => rfl
      | some y =>
        simp only [bind_some]
        cases read r y.2 <;> simp

/-- **What is read up to the end of the source reads the same behind more comments**, and hands those comments out
first. -/
theorem toStop_prefaced (hp : Prefaced hs s s') {rs : List Rule} (hfront : frontedInOrder rs)
    (hsound : soundAll rs) (n : Nat) (c : Context) : (Rule.seq (rs ++ [.stop])).run grammar n c s' =
      ((Rule.seq (rs ++ [.stop])).run grammar n c s).map fun x => (hs ++ x.1, x.2) := by
  cases n with
  | zero => rfl
  | succ n =>
    have hfollows := inOrder_follows (run_follows n c) rs s s' hp hfront hsound
    have hrun : ∀ s, (Rule.seq (rs ++ [.stop])).run grammar (n + 1) c s = _ :=
      inOrder_concat (Rule.run grammar n c) .stop rs
    rw [hrun, hrun]
    generalize inOrder (Rule.run grammar n c) rs s = x, inOrder (Rule.run grammar n c) rs s' = y at hfollows ⊢
    cases hfollows with
    | none => rfl
    | @read ts t hled =>
      simp only [bind_some]
      cases Rule.run grammar n c .stop t with
      | none => rfl
      | some y => simp
    | idle b b' =>
      -- The source holds comments at most, so it is its end that the comments are read before.
      simp only [bind_some]
      cases n with
      | zero => rfl
      | succ n =>
        simp only [Rule.run, hp.trivia]
        obtain ⟨comments, ⟨rest, p⟩⟩ := s.cursor.trivia
        cases rest <;> rfl

theorem program_prefaced (hp : Prefaced hs s s') (n : Nat) (c : Context) :
    Grammar.program.run grammar n c s' = (Grammar.program.run grammar n c s).map fun x => (hs ++ x.1, x.2) :=
  @toStop_prefaced hs s s' hp [.opt (.lexeme .hashBangLine .hashBang), .many (.ref .statement)] (by decide)
    (by decide) n c

/-! ## Comments in the text -/

theorem skip_append (r : List Char) :
    ∀ (text : List Char) (p : Pos), skip text.length ⟨text ++ r, p⟩ = ⟨r, p.afterAll text⟩
  | [], _ => rfl
  | a :: text, p => skip_append r text (p.after a)

theorem skip_add : ∀ (n m : Nat) (c : Cursor), c.skip (n + m) = (c.skip n).skip m
  | 0, m, c => by rw [Nat.zero_add]; rfl
  | n + 1, m, ⟨[], p⟩ => by
    rw [Nat.succ_add]
    cases m <;> rfl
  | n + 1, m, ⟨a :: r, p⟩ => by
    rw [Nat.succ_add]
    exact skip_add n m ⟨r, p.after a⟩

theorem skipBlank_append (h : ∀ x ∈ blank, isBlank x) (r : List Char) (p : Pos) :
    skipBlank ⟨blank ++ r, p⟩ = skipBlank ⟨r, p.afterAll blank⟩ := by
  rw [skipBlank, skipBlank]
  dsimp only
  rw [takeWhile_append_of_pos h, length_append, skip_add, skip_append]

theorem length_skipBlank_le (c : Cursor) : c.skipBlank.rest.length ≤ c.rest.length := by
  obtain ⟨gap, hgap, -⟩ := skipBlank_blankTo c
  have := hgap.length_eq
  omega

theorem trivia_eq_of_le : ∀ (n m : Nat) (c : Cursor), c.rest.length ≤ n → c.rest.length ≤ m → trivia n c = trivia m c
  | 0, 0, _, _, _ => rfl
  | 0, m + 1, c, hn, _ => by
    have hnil : c.skipBlank.rest = [] := length_eq_zero_iff.1 (by have := length_skipBlank_le c; omega)
    simp only [trivia, hnil, commentLength_nil]
  | n + 1, 0, c, _, hm => by
    have hnil : c.skipBlank.rest = [] := length_eq_zero_iff.1 (by have := length_skipBlank_le c; omega)
    simp only [trivia, hnil, commentLength_nil]
  | n + 1, m + 1, c, hn, hm => by
    simp only [trivia]
    cases hk : commentLength c.skipBlank.rest with
    | zero => rfl
    | succ k =>
      have hne : c.skipBlank.rest ≠ [] := fun hnil => by rw [hnil, commentLength_nil] at hk; cases hk
      have hlt : (c.skipBlank.leaf .comment (k + 1)).2.rest.length < c.rest.length := by
        have hpass := (skip_passes (k + 1) c.skipBlank).length_eq
        have hpos : 0 < (c.skipBlank.rest.take (k + 1)).length := by
          rw [length_take]
          have := length_pos_iff.2 hne
          omega
        have := length_skipBlank_le c
        show (c.skipBlank.skip (k + 1)).rest.length < _
        omega
      dsimp only
      rw [trivia_eq_of_le n m _ (by omega) (by omega)]

theorem trivia_of_skipBlank {c d : Cursor} (h : c.skipBlank = d.skipBlank) : ∀ n : Nat, trivia n c = trivia n d
  | 0 => by simp only [trivia, h]
  | n + 1 => by simp only [trivia, h]

theorem skipBlank_of_comment {c : Cursor} (h : commentLength c.rest ≠ 0) : c.skipBlank = c := by
  have hslash : ∃ r, c.rest = '/' :: r := by
    revert h
    fun_cases commentLength c.rest with
    | case1 r => exact fun _ => ⟨_, rfl⟩
    | case2 r => exact fun _ => ⟨_, rfl⟩
    | case3 => exact fun h => absurd rfl h
  obtain ⟨r, hr⟩ := hslash
  rw [skipBlank, hr, takeWhile_cons]
  rfl

theorem trivia_of_comment {cs : List Char} (hne : comment ≠ [])
    (hlength : commentLength (comment ++ cs) = comment.length)
    (p : Pos) : Cursor.trivia ⟨comment ++ cs, p⟩ = (.leaf .plain .comment ⟨p, p.afterAll comment⟩ comment ::
      (Cursor.trivia ⟨cs, p.afterAll comment⟩).1, (Cursor.trivia ⟨cs, p.afterAll comment⟩).2) := by
  obtain ⟨k, hk⟩ : ∃ k, comment.length = k + 1 := Nat.exists_eq_succ_of_ne_zero (length_pos_iff.2 hne).ne'
  have hcomment : commentLength (comment ++ cs) = k + 1 := hlength.trans hk
  have hskip := skipBlank_of_comment (c := ⟨comment ++ cs, p⟩) (by rw [hcomment]; exact Nat.succ_ne_zero k)
  have hleaf : leaf .comment (k + 1) ⟨comment ++ cs, p⟩ =
      (.leaf .plain .comment ⟨p, p.afterAll comment⟩ comment, ⟨cs, p.afterAll comment⟩) := by
    rw [Cursor.leaf, ← hk, skip_append, take_left]
  have hrest : trivia (k + cs.length) ⟨cs, p.afterAll comment⟩ = Cursor.trivia ⟨cs, p.afterAll comment⟩ :=
    trivia_eq_of_le _ _ _ (Nat.le_add_left _ _) (Nat.le_refl _)
  have hlen : (⟨comment ++ cs, p⟩ : Cursor).rest.length = k + cs.length + 1 := by
    show (comment ++ cs).length = _
    rw [length_append, hk]
    omega
  rw [Cursor.trivia, hlen]
  simp only [trivia, hskip, hcomment, hleaf, hrest]

theorem trivia_of_blank (hblank : ∀ x ∈ blank, isBlank x) (cs : List Char) (p : Pos) :
    Cursor.trivia ⟨blank ++ cs, p⟩ = Cursor.trivia ⟨cs, p.afterAll blank⟩ := by
  rw [Cursor.trivia, trivia_of_skipBlank (skipBlank_append hblank cs p)]
  exact trivia_eq_of_le _ _ _ (by simp) (Nat.le_refl _)

/-- **A comment in front of a text**, with blanks between them, is one comment more. -/
theorem prefaced_of_comment (hne : comment ≠ []) (hlength : ∀ r, commentLength (comment ++ r) = comment.length)
    (hblank : ∀ x ∈ blank, isBlank x) (source : List Char) (p : Pos) :
    Prefaced [.leaf .plain .comment ⟨p, p.afterAll comment⟩ comment]
      ⟨⟨source, (p.afterAll comment).afterAll blank⟩, false⟩
      ⟨⟨comment ++ (blank ++ source), p⟩, false⟩ := by
  refine ⟨fun h hh => by rw [mem_singleton.1 hh]; rfl, ?_⟩
  rw [trivia_of_comment hne (hlength _), trivia_of_blank hblank]
  rfl

/-- **A comment in front of a source** comes first in its tree, and the rest is the tree of the source moved by as much
as stands before it. -/
theorem parse_prefaced (hne : comment ≠ []) (hlength : ∀ r, commentLength (comment ++ r) = comment.length)
    (hblank : ∀ x ∈ blank, isBlank x)
    {dialect : Dialect} {source : List Char} {root : Tree} (h : parse dialect source = some root) :
    ∃ e, root.span = ⟨.origin, e⟩ ∧ parse dialect (comment ++ (blank ++ source)) =
      some (.node .plain .program ⟨.origin, e.moved (Pos.origin.afterAll (comment ++ blank))⟩
        (.leaf .plain .comment ⟨.origin, Pos.origin.afterAll comment⟩ comment ::
          movedAll (Pos.origin.afterAll (comment ++ blank)) root.children)) := by
  rw [Pos.afterAll_append]
  generalize hδ : (Pos.origin.afterAll comment).afterAll blank = δ
  have hp := prefaced_of_comment hne hlength hblank source .origin
  rw [hδ] at hp
  rw [parse_eq dialect source (n := 200 + 100 * (comment ++ (blank ++ source)).length)
    (by simp only [length_append]; omega)] at h
  obtain ⟨x, hrun, rfl⟩ := Option.map_eq_some_iff.1 h
  refine ⟨x.2.cursor.pos, rfl, ?_⟩
  have hmoved := run_moved δ grammar (200 + 100 * (comment ++ (blank ++ source)).length) (.start dialect)
    Grammar.program
    ⟨.ofSource source, false⟩
  rw [hrun, map_some] at hmoved
  have hsame : State.moved δ ⟨.ofSource source, false⟩ = ⟨⟨source, δ⟩, false⟩ := rfl
  rw [hsame] at hmoved
  have hprefaced := program_prefaced hp (200 + 100 * (comment ++ (blank ++ source)).length) (.start dialect)
  rw [hmoved] at hprefaced
  rw [parse_eq dialect _ (Nat.le_refl _), ofSource, hprefaced]
  rfl

end SourceBench.Syntax
