import SourceBench.Proofs.Syntax.Heads

/-!
# Reading a known text

`Takes c r text rest trees` says that the rule `r` reads just `text` where `text ++ rest` stands, and which trees it
gives, wherever that is and however large the bound; `Fails` says that it reads nothing.  One lemma for each kind of
rule puts these together, so that the tree of a text whose shape is known is found by following the grammar.
-/
namespace SourceBench.Syntax

open List Rule Head Bool

variable {l : Lexeme} {c' : Context}

/-! ## Trees at a place -/

def leafAt (k : Kind) (p : Pos) (text : List Char) : Tree := .leaf .plain k ⟨p, p.afterAll text⟩ text

def nodeOf (k : Kind) (ts : List Tree) : Tree :=
  .node .plain k ⟨(ts.head?.map (·.span.start)).getD .origin, (ts.getLast?.map (·.span.stop)).getD .origin⟩ ts

theorem wrap_eq_nodeOf (k : Kind) (at_ : Pos) {t : Tree} (ht : (t.kind == .comment) = false) (ts : List Tree) :
    wrap k at_ (t :: ts) = [nodeOf k (t :: ts)] := by
  rw [wrap, nodeOf]
  simp only [takeWhile_cons, dropWhile_cons, ht, false_eq_true, if_false, nil_append, getLast?_cons]
  rfl

theorem span_nodeOf (k : Kind) (t u : Tree) (ts : List Tree) :
    (nodeOf k (t :: (ts ++ [u]))).span = ⟨t.span.start, u.span.stop⟩ := by
  rw [nodeOf, ← cons_append, getLast?_concat]
  rfl

/-! ## Taking and failing -/

/-- The rule reads `text` in front of `rest`, and gives these trees for the place where the text begins. -/
def Takes (c : Context) (r : Rule) (text rest : List Char) (trees : Pos → List Tree) : Prop :=
  ∃ N, ∀ n, N ≤ n → ∀ p e, ∃ e',
    r.run grammar n c ⟨⟨text ++ rest, p⟩, e⟩ = some (trees p, ⟨⟨rest, p.afterAll text⟩, e'⟩)

def Fails (c : Context) (r : Rule) (text : List Char) : Prop :=
  ∃ N, ∀ n, N ≤ n → ∀ p e, r.run grammar n c ⟨⟨text, p⟩, e⟩ = none

def TakesMany (c : Context) (r : Rule) (text rest : List Char) (trees : Pos → List Tree) : Prop :=
  ∃ N, ∀ n m, N ≤ n → N ≤ m → ∀ p e, ∃ e',
    repeatedly (r.run grammar n c) m ⟨⟨text ++ rest, p⟩, e⟩ = (trees p, ⟨⟨rest, p.afterAll text⟩, e'⟩)

variable {c : Context} {r r' : Rule} {rs : List Rule} {a b text rest : List Char} {trees trees' : Pos → List Tree}
  {cs : List Char} {k : Kind} {t : String}

abbrev TakesLeaf (c : Context) (r : Rule) (k : Kind) (blank w rest : List Char) : Prop :=
  Takes c r (blank ++ w) rest fun p => [leafAt k (p.afterAll blank) w]

abbrev TakesHere (c : Context) (r : Rule) (k : Kind) (w rest : List Char) : Prop :=
  Takes c r w rest fun p => [leafAt k p w]

theorem Head.fails {h : Head} {blank : List Char} (hcs : h.At cs) (hblank : ∀ x ∈ blank, isBlank x)
    (hr : h.refuses 40 r) : Fails c r (blank ++ cs) :=
  ⟨0, fun n _ p e => run_eq_none (at_trivia hcs hblank p) 40 r hr n c e⟩

theorem fails_at_mark {blank : List Char} (hblank : ∀ x ∈ blank, isBlank x) {x : Char} (hx : isMark x)
    (hr : (mark (some x)).refuses 40 r) (cs : List Char) : Fails c r (blank ++ x :: cs) :=
  fails (h := .mark (some x)) ⟨hx, rfl⟩ hblank hr

theorem fails_at_mark_here {x : Char} (hx : isMark x) (hr : (mark (some x)).refuses 40 r) (cs : List Char) :
    Fails c r (x :: cs) := @fails_at_mark c r [] (by simp) x hx hr cs

theorem fails_behind_space {x : Char} (hx : isMark x) (hr : (mark (some x)).refuses 40 r) (cs : List Char) :
    Fails c r (' ' :: x :: cs) := @fails_at_mark c r [' '] blank_space x hx hr cs

theorem fails_at_word {w : String} (hw : isWord w.toList) (hcs : endsWord cs)
    (hr : (exactly w).refuses 40 r) : Fails c r (w.toList ++ cs) :=
  @Head.fails c r _ (.exactly w) [] (exactly_at hw hcs) (by simp) hr

theorem exists_succ {N n : Nat} (h : N + 1 ≤ n) : ∃ m, n = m + 1 ∧ N ≤ m := ⟨n - 1, by omega, by omega⟩

theorem takes_of_succ (N : Nat) (h : ∀ n, N ≤ n → ∀ p e, ∃ e', r.run grammar (n + 1) c ⟨⟨text ++ rest, p⟩, e⟩ =
    some (trees p, ⟨⟨rest, p.afterAll text⟩, e'⟩)) : Takes c r text rest trees :=
  ⟨N + 1, fun n hn p e => by
    obtain ⟨m, rfl, hm⟩ := exists_succ hn
    exact h m hm p e⟩

theorem fails_of_succ (N : Nat) (h : ∀ n, N ≤ n → ∀ p e, r.run grammar (n + 1) c ⟨⟨text, p⟩, e⟩ = none) :
    Fails c r text :=
  ⟨N + 1, fun n hn p e => by
    obtain ⟨m, rfl, hm⟩ := exists_succ hn
    exact h m hm p e⟩

theorem Takes.step (h : Takes c' r' text rest trees') (hrun : ∀ n p e e',
    r'.run grammar n c' ⟨⟨text ++ rest, p⟩, e⟩ = some (trees' p, ⟨⟨rest, p.afterAll text⟩, e'⟩) →
      r.run grammar (n + 1) c ⟨⟨text ++ rest, p⟩, e⟩ = some (trees p, ⟨⟨rest, p.afterAll text⟩, e'⟩)) :
    Takes c r text rest trees := by
  obtain ⟨N, h⟩ := h
  refine takes_of_succ N fun m hm p e => ?_
  obtain ⟨e', he'⟩ := h m hm p e
  exact ⟨e', hrun m p e e' he'⟩

theorem Fails.step (h : Fails c' r' text) (hrun : ∀ n p e, r'.run grammar n c' ⟨⟨text, p⟩, e⟩ = none →
    r.run grammar (n + 1) c ⟨⟨text, p⟩, e⟩ = none) : Fails c r text := by
  obtain ⟨N, h⟩ := h
  refine fails_of_succ N fun m hm p e => ?_
  exact hrun m p e (h m hm p e)

theorem Takes.cast {text' : List Char} (h : Takes c r text rest trees) (htext : text' = text)
    (htrees : ∀ p, trees' p = trees p) :
    Takes c r text' rest trees' := by
  obtain rfl : trees' = trees := funext htrees
  rwa [htext]

/-! ## Sequences and choices -/

theorem Takes.seq_nil : Takes c (seq []) [] rest fun _ => [] := takes_of_succ 0 fun _ _ _ e => ⟨e, rfl⟩

theorem Takes.seq_cons (h : Takes c r a (b ++ rest) trees) (h' : Takes c (seq rs) b rest trees') :
    Takes c (seq (r :: rs)) (a ++ b) rest fun p => trees p ++ trees' (p.afterAll a) := by
  obtain ⟨N, h⟩ := h
  obtain ⟨N', h'⟩ := h'
  refine takes_of_succ (N + N') fun m hm p e => ?_
  obtain ⟨e', he'⟩ := h m (by omega) p e
  obtain ⟨e'', he''⟩ := h' (m + 1) (by omega) (p.afterAll a) e'
  refine ⟨e'', ?_⟩
  rw [append_assoc]
  have hrest : inOrder (run grammar m c) rs ⟨⟨b ++ rest, p.afterAll a⟩, e'⟩ = _ := he''
  simp only [run, inOrder, he', hrest, Pos.afterAll_append]

theorem Takes.seq_single (h : Takes c r text rest trees) : Takes c (seq [r]) text rest trees :=
  (h.seq_cons (b := []) .seq_nil).cast (append_nil _).symm fun _ => (append_nil _).symm

theorem Takes.seq_idle (h : Takes c r [] (text ++ rest) fun _ => []) (h' : Takes c (seq rs) text rest trees) :
    Takes c (seq (r :: rs)) text rest trees := h.seq_cons h'

theorem Takes.seq_done (h : Takes c r text rest trees) (h' : Takes c (seq rs) [] rest fun _ => []) :
    Takes c (seq (r :: rs)) text rest trees :=
  (h.seq_cons (b := []) h').cast (append_nil _).symm fun _ => (append_nil _).symm

theorem Fails.seq_head (h : Fails c r text) : Fails c (seq (r :: rs)) text :=
  h.step fun n p e hn => by simp only [run, inOrder, hn]

theorem Fails.seq_tail (h : Takes c r a b trees) (h' : Fails c (seq rs) b) : Fails c (seq (r :: rs)) (a ++ b) := by
  obtain ⟨N, h⟩ := h
  obtain ⟨N', h'⟩ := h'
  refine fails_of_succ (N + N') fun m hm p e => ?_
  obtain ⟨e', he'⟩ := h m (by omega) p e
  have hrest : inOrder (run grammar m c) rs ⟨⟨b, p.afterAll a⟩, e'⟩ = none := h' (m + 1) (by omega) (p.afterAll a) e'
  simp only [run, inOrder, he', hrest]

theorem Takes.alt_head (h : Takes c r text rest trees) : Takes c (alt (r :: rs)) text rest trees :=
  h.step fun n p e e' hn => by simp only [run, firstOf, hn]

theorem Takes.alt_tail (h : Fails c r (text ++ rest)) (h' : Takes c (alt rs) text rest trees) :
    Takes c (alt (r :: rs)) text rest trees := by
  obtain ⟨N, h⟩ := h
  obtain ⟨N', h'⟩ := h'
  refine takes_of_succ (N + N') fun m hm p e => ?_
  obtain ⟨e', he'⟩ := h' (m + 1) (by omega) p e
  refine ⟨e', ?_⟩
  have hrest : firstOf (run grammar m c) rs ⟨⟨text ++ rest, p⟩, e⟩ = _ := he'
  simp only [run, firstOf, h m (by omega) p e, hrest]

theorem Takes.alt_drop {h : Head} {blank : List Char} (hcs : h.At cs) (hblank : ∀ x ∈ blank, isBlank x)
    (htext : text ++ rest = blank ++ cs) : ∀ (i : Nat) {rs : List Rule}, ((rs.take i).all (h.refuses 40)) →
      Takes c (alt (rs.drop i)) text rest trees → Takes c (alt rs) text rest trees
  | 0, _, _, h' => h'
  | _ + 1, [], _, h' => h'
  | i + 1, r :: rs, hrs, h' => by
    rw [take_succ_cons, all_cons, and_eq_true] at hrs
    exact Takes.alt_tail (htext ▸ fails hcs hblank hrs.1) (Takes.alt_drop hcs hblank htext i hrs.2 h')

theorem Fails.alt_nil : Fails c (alt []) text := fails_of_succ 0 fun _ _ _ _ => rfl

theorem Fails.alt_cons (h : Fails c r text) (h' : Fails c (alt rs) text) : Fails c (alt (r :: rs)) text := by
  obtain ⟨N, h⟩ := h
  obtain ⟨N', h'⟩ := h'
  refine fails_of_succ (N + N') fun m hm p e => ?_
  have hrest : firstOf (run grammar m c) rs ⟨⟨text, p⟩, e⟩ = none := h' (m + 1) (by omega) p e
  simp only [run, firstOf, h m (by omega) p e, hrest]

theorem Takes.opt (h : Takes c r text rest trees) : Takes c (opt r) text rest trees :=
  h.step fun n p e e' hn => by simp only [run, hn]

theorem Takes.opt_none (h : Fails c r rest) : Takes c (.opt r) [] rest fun _ => [] := by
  obtain ⟨N, h⟩ := h
  refine takes_of_succ N fun m hm p e => ⟨e, ?_⟩
  simp only [run, nil_append, h m hm p e, Pos.afterAll_nil]

/-! ## Repetitions -/

theorem TakesMany.nil (h : Fails c r rest) : TakesMany c r [] rest fun _ => [] := by
  obtain ⟨N, h⟩ := h
  refine ⟨N + 1, fun n m hn hm p e => ⟨e, ?_⟩⟩
  obtain ⟨m, rfl, -⟩ := exists_succ hm
  simp only [repeatedly, nil_append, h n (by omega) p e, Pos.afterAll_nil]

theorem TakesMany.cons (ha : a ≠ []) (h : Takes c r a (b ++ rest) trees) (h' : TakesMany c r b rest trees') :
    TakesMany c r (a ++ b) rest fun p => trees p ++ trees' (p.afterAll a) := by
  obtain ⟨N, h⟩ := h
  obtain ⟨N', h'⟩ := h'
  refine ⟨N + N' + 1, fun n m hn hm p e => ?_⟩
  obtain ⟨m, rfl, hm⟩ := exists_succ hm
  obtain ⟨e', he'⟩ := h n (by omega) p e
  obtain ⟨e'', he''⟩ := h' n m (by omega) (by omega) (p.afterAll a) e'
  refine ⟨e'', ?_⟩
  have hprogress : p.byte < (p.afterAll a).byte := by
    obtain ⟨x, a, rfl⟩ := exists_cons_of_ne_nil ha
    have := Char.utf8Size_pos x
    rw [Pos.afterAll_byte, Utf8.byteSize_cons]
    omega
  rw [append_assoc]
  simp only [repeatedly, he', he'', hprogress, if_true, Pos.afterAll_append]

theorem TakesMany.many (h : TakesMany c r text rest trees) : Takes c (many r) text rest trees := by
  obtain ⟨N, h⟩ := h
  refine takes_of_succ N fun m hm p e => ?_
  obtain ⟨e', he'⟩ := h m m hm hm p e
  exact ⟨e', by simp only [run, he']⟩

/-! ## Nodes, roles, surroundings -/

theorem Takes.node (h : Takes c r text rest trees) (hfirst : ∀ p, (trees p).head?.any (·.kind != .comment)) :
    Takes c (node k r) text rest fun p => [nodeOf k (trees p)] :=
  h.step fun n p e e' hn => by
    have hwrap : wrap k p (trees p) = [nodeOf k (trees p)] := by
      have := hfirst p
      generalize trees p = ts at this ⊢
      cases ts with
      | nil => cases this
      | cons t ts => exact wrap_eq_nodeOf k p (by simpa using this) ts
    simp only [run, hn, hwrap]

theorem Fails.node (h : Fails c r text) : Fails c (node k r) text :=
  h.step fun n p e hn => by simp only [run, hn]

theorem Takes.role {f : Role} (h : Takes c r text rest trees) :
    Takes c (role f r) text rest fun p => assign f (trees p) :=
  h.step fun n p e e' hn => by simp only [run, hn]

theorem Takes.ref {x : Symbol} (h : Takes c (grammar x) text rest trees) : Takes c (ref x) text rest trees :=
  h.step fun _ _ _ _ hn => hn

theorem Fails.ref {x : Symbol} (h : Fails c (grammar x) text) : Fails c (.ref x) text := h.step fun _ _ _ hn => hn

theorem Takes.under {x : Shift} (h : Takes (c.shift x) r text rest trees) : Takes c (under x r) text rest trees :=
  h.step fun _ _ _ _ hn => hn

theorem Fails.under {x : Shift} (h : Fails (c.shift x) r text) : Fails c (.under x r) text := h.step fun _ _ _ hn => hn

theorem Takes.ahead (h : Takes c r a b trees) : Takes c (ahead r) [] (a ++ b) fun _ => [] := by
  obtain ⟨N, h⟩ := h
  refine takes_of_succ N fun m hm p e => ⟨e, ?_⟩
  obtain ⟨e', he'⟩ := h m hm p e
  simp only [run, nil_append, he', Pos.afterAll_nil]

/-! ## Chains -/

theorem firstLink_eq_none {read : Rule → State → Reading} {level : Nat} {acc : List Tree} {s : State} :
    ∀ {ls : List (Link Rule)}, (∀ l ∈ ls, read l.rule s = none) → firstLink read level ls acc s = none
  | [], _ => rfl
  | l :: ls, h => by
    obtain ⟨hl, hls⟩ := forall_mem_cons.1 h
    rw [firstLink, firstLink_eq_none hls, hl]
    exact ite_self _

theorem extend_of_refused {read : Rule → State → Reading} {isType : Bool} {links : List (Link Rule)} {cur : Cursor}
    (h : ∀ e, ∀ l ∈ links, read l.rule ⟨cur, e⟩ = none) (acc : List Tree) : ∀ (n : Nat) (e : Bool),
      ∃ e', extend read c isType links n acc ⟨cur, e⟩ = (acc, ⟨cur, e'⟩)
  | 0, e => ⟨e, rfl⟩
  | n + 1, e => by
    refine ⟨if isType then c.operandTail else true, ?_⟩
    rw [extend]
    simp only [firstLink_eq_none (h _), ite_self]

theorem Takes.chain {h : Head} {blank : List Char} (hcs : h.At cs) (hblank : ∀ x ∈ blank, isBlank x) {isType : Bool}
    {links : List (Link Rule)} (hlinks : (links.all fun l => h.refuses 40 l.rule))
    (hbase : Takes c r text (blank ++ cs) trees) : Takes c (chain isType r links) text (blank ++ cs) trees := by
  obtain ⟨N, hbase⟩ := hbase
  refine takes_of_succ N fun m hm p e => ?_
  obtain ⟨e', he'⟩ := hbase m hm p e
  have hrefused : ∀ e, ∀ l ∈ links, l.rule.run grammar m c ⟨⟨blank ++ cs, p.afterAll text⟩, e⟩ = none := fun e l hl =>
    run_eq_none (at_trivia hcs hblank _) 40 l.rule (all_eq_true.1 hlinks l hl) m c e
  obtain ⟨e'', he''⟩ := @extend_of_refused c _ isType links _ hrefused (trees p) m e'
  exact ⟨e'', by simp only [run, he', he'']⟩

/-! ## Closes -/

/-- A statement goes on here: there is neither a blank nor a comment nor a closing brace nor the end of the source. -/
def goesOn (cs : List Char) : Bool := cs.head?.any fun a => !isBlank a && a != '/' && a != '\x7d'

theorem isBlank_of_isOpenBlank {a : Char} (h : isOpenBlank a) : isBlank a := by
  simp only [isOpenBlank, isBlank, Bool.or_eq_true, and_eq_true, beq_iff_eq, decide_eq_true_eq] at h ⊢
  omega

theorem closesHere_eq_false (hcs : goesOn cs) (operand : Bool) : ∀ {blank : List Char},
    (∀ x ∈ blank, x = ' ') → closesHere operand (blank ++ cs) = false
  | [], _ => by
    cases cs with
    | nil => cases hcs
    | cons a r =>
      have ha : (isBlank a = false ∧ a ≠ '/') ∧ a ≠ '\x7d' := by simpa [goesOn] using hcs
      have hopen : isOpenBlank a = false := Bool.eq_false_iff.2 fun h => by
        rw [isBlank_of_isOpenBlank h] at ha
        cases ha.1.1
      rw [nil_append, closesHere, hopen]
      · rfl
      · exact ha.2
      · rintro rfl
        exact absurd ha.1.1 (by decide)
  | x :: blank, hblank => by
    obtain ⟨rfl, hrest⟩ := forall_mem_cons.1 hblank
    rw [cons_append, closesHere]
    · exact closesHere_eq_false hcs operand hrest
    · decide
    · decide

theorem close?_eq_none {blank : List Char} (hblank : ∀ x ∈ blank, x = ' ') (hcs : goesOn cs) (p : Pos)
    (operand : Bool) : Cursor.close? ⟨blank ++ cs, p⟩ operand = none := by
  have hbare : isBare cs := by
    cases cs <;> simp_all [goesOn, isBare]
  have hskip : Cursor.skipBlank ⟨blank ++ cs, p⟩ = ⟨cs, p.afterAll blank⟩ :=
    skipBlank_of_isBare (fun x hx => hblank x hx ▸ rfl) hbare p
  rw [Cursor.close?, pendingClose, closesHere_eq_false hcs operand hblank]
  simp only [false_eq_true, if_false, hskip, commentLength_of_isBare hbare]

theorem Takes.steady {blank : List Char} (hblank : ∀ x ∈ blank, x = ' ') (hcs : goesOn cs) :
    Takes c steady [] (blank ++ cs) fun _ => [] :=
  takes_of_succ 0 fun _ _ p e => by
    refine ⟨e, ?_⟩
    simp only [run, nil_append, close?_eq_none hblank hcs, Option.isSome_none, Bool.and_false, false_eq_true,
      if_false, Pos.afterAll_nil]

theorem Fails.closing {blank : List Char} (hblank : ∀ x ∈ blank, x = ' ') (hcs : goesOn cs) :
    Fails c closing (blank ++ cs) :=
  fails_of_succ 0 fun _ _ p e => by
    simp only [run, close?_eq_none hblank hcs, Option.isSome_none, Bool.and_false, false_eq_true, if_false]

theorem Takes.operandEnd : Takes c operandEnd [] rest fun _ => [] := takes_of_succ 0 fun _ _ _ _ => ⟨true, rfl⟩

/-! ## Leaves -/

section
variable {blank w : List Char} (hblank : ∀ x ∈ blank, isBlank x)

include hblank

theorem token_append (length : List Char → Nat) (hw : w ≠ []) (hbare : isBare (w ++ rest))
    (hlength : length (w ++ rest) = w.length) (k : Kind) (p : Pos) (e : Bool) :
    State.token ⟨⟨blank ++ w ++ rest, p⟩, e⟩ k length =
      some ([leafAt k (p.afterAll blank) w], ⟨⟨rest, p.afterAll (blank ++ w)⟩, false⟩) := by
  obtain ⟨m, hm⟩ : ∃ m, w.length = m + 1 := ⟨w.length - 1, by have := length_pos_iff.2 hw; omega⟩
  rw [append_assoc]
  simp only [State.token, trivia_of_isBare hblank hbare, hlength, hm, Cursor.leaf]
  rw [← hm, skip_append, take_left, Pos.afterAll_append]
  rfl

theorem takes_lexeme (hw : w ≠ []) (hbare : isBare (w ++ rest)) (hlength : l.length (w ++ rest) = w.length) :
    TakesLeaf c (lexeme k l) k blank w rest :=
  takes_of_succ 0 fun _ _ p e => ⟨false, token_append hblank (fun cs => l.length cs) hw hbare hlength k p e⟩

theorem takes_punct (hbare : isBare (t.toList ++ rest)) (ht : t.toList ≠ []) :
    TakesLeaf c (punct t "") .token blank t.toList rest :=
  takes_of_succ 0 fun _ _ p e => by
    refine ⟨false, token_append hblank (punctLength t "") ht hbare ?_ .token p e⟩
    have hpre : t.toList.isPrefixOf (t.toList ++ rest) := isPrefixOf_iff_prefix.2 (prefix_append _ _)
    have hstops : rest.head?.any "".toList.contains = false := by cases rest <;> rfl
    rw [punctLength, hpre, drop_left, hstops]
    rfl

theorem takes_word (ht : isWord t.toList) (hrest : endsWord rest) : TakesLeaf c (word t) .token blank t.toList rest :=
  takes_of_succ 0 fun _ _ p e => by
    have hne : t.toList ≠ [] := fun h => by rw [h] at ht; cases ht
    refine ⟨false, token_append hblank (keywordLength t) hne (isBare_of_isWord ht rest) ?_ .token p e⟩
    have hpre : t.toList.isPrefixOf (t.toList ++ rest) := isPrefixOf_iff_prefix.2 (prefix_append _ _)
    rw [keywordLength, hpre, wordLength_append ht hrest]
    simp

theorem takes_wordOf (hw : isWord w) (hlength : l.length (w ++ rest) = w.length) :
    TakesLeaf c (lexeme k l) k blank w rest :=
  takes_lexeme hblank (fun h => by rw [h] at hw; cases hw) (isBare_of_isWord hw rest) hlength

theorem takes_anyWord (hw : isWord w) (hrest : endsWord rest) : TakesLeaf c (lexeme k .anyWord) k blank w rest :=
  takes_wordOf hblank hw (wordLength_append hw hrest)

theorem takes_looseWord (ht : isWord t.toList) (hloose : looseWords.contains t) (hrest : endsWord rest) :
    TakesLeaf c (lexeme k .looseWord) k blank t.toList rest := by
  refine takes_wordOf hblank ht ?_
  simp only [Lexeme.length, wordLength_append ht hrest, take_left]
  rw [if_pos]
  exact contains_iff_mem.2 (mem_map_of_mem (contains_iff_mem.1 hloose))

theorem takes_name (ht : isWord t.toList) (hname : keywords.contains t = false) (hrest : endsWord rest) :
    TakesLeaf c (lexeme k .name) k blank t.toList rest := by
  refine takes_wordOf hblank ht ?_
  simp only [Lexeme.length, wordLength_append ht hrest, take_left]
  rw [if_neg]
  intro hin
  obtain ⟨u, hu, heq⟩ := mem_map.1 (contains_iff_mem.1 hin)
  obtain rfl := String.toList_inj.1 heq
  rw [contains_iff_mem.2 hu] at hname
  cases hname

theorem takes_plainName {name : String} (h : isPlainName name) (hrest : endsWord rest) :
    TakesLeaf c (lexeme k .name) k blank name.toList rest := by
  have hfree := (Bool.and_eq_true_iff.1 h).2
  rw [isFreeWord, and_eq_true, Bool.not_eq_true'] at hfree
  exact takes_name hblank (isWord_of_isPlainName h) hfree.1 hrest

end

theorem takes_punct_here (hbare : isBare (t.toList ++ rest)) (ht : t.toList ≠ []) :
    TakesHere c (punct t "") .token t.toList rest :=
  @takes_punct c rest t [] (by simp) hbare ht

theorem takes_word_here (ht : isWord t.toList) (hrest : endsWord rest) : TakesHere c (word t) .token t.toList rest :=
  @takes_word c rest t [] (by simp) ht hrest

theorem takes_close : TakesHere c close .token [';'] rest := by
  have hpunct : TakesHere c (punct ";" "") .token [';'] rest := takes_punct_here rfl (by decide)
  obtain ⟨N, hpunct⟩ := hpunct
  refine takes_of_succ N fun m hm p e => ?_
  obtain ⟨e', he'⟩ := hpunct (m + 1) (by omega) p e
  have hclose : Cursor.close? ⟨[';'] ++ rest, p⟩ e = none := @close?_eq_none (';' :: rest) [] (by simp) rfl p e
  refine ⟨e', ?_⟩
  simp only [run, hclose]
  exact he'

/-! ## Strings -/

/-- The characters of the text are themselves in single quotes. -/
def isQuotable (text : List Char) : Bool := text.all fun x => !(x == '\'' || x == '\\' || x == '\r' || x == '\n')

def inQuotes (text : List Char) : List Char := '\'' :: (text ++ ['\''])

def stringAt (p : Pos) (text : List Char) : Tree :=
  nodeOf .string (leafAt .token p ['\''] ::
    ((if text = [] then [] else [leafAt .stringFragment (p.afterAll ['\'']) text]) ++
      [leafAt .token ((p.afterAll ['\'']).afterAll text) ['\'']]))

theorem takeWhile_quotable (h : isQuotable text) (rest : List Char) :
    (text ++ '\'' :: rest).takeWhile (fun x => !(x == '\'' || x == '\\' || x == '\r' || x == '\n')) = text := by
  rw [takeWhile_append_of_pos (all_eq_true.1 h), takeWhile_cons, if_neg (by decide), append_nil]

theorem takes_piece (htext : text ≠ []) (hlength : l.length (text ++ rest) = text.length) :
    TakesHere c (piece k l) k text rest :=
  takes_of_succ 0 fun _ _ p e => by
    obtain ⟨i, hi⟩ : ∃ i, text.length = i + 1 := ⟨text.length - 1, by have := length_pos_iff.2 htext; omega⟩
    refine ⟨false, ?_⟩
    simp only [run, State.piece, hlength, hi, Cursor.leaf]
    rw [← hi, skip_append, take_left]
    rfl

theorem fails_piece (hlength : l.length text = 0) : Fails c (piece k l) text :=
  fails_of_succ 0 fun _ _ p e => by
    simp only [run, State.piece, hlength]

theorem takes_glued_quote : TakesHere c (glued "'") .token ['\''] rest :=
  takes_of_succ 0 fun _ _ p e => by
    refine ⟨false, ?_⟩
    have hlength : punctLength "'" "" ('\'' :: rest) = 1 := by cases rest <;> rfl
    simp only [run, State.piece, singleton_append, hlength]
    rfl

theorem takes_string {blank : List Char} (hblank : ∀ x ∈ blank, isBlank x) (h : isQuotable text) :
    Takes c (ref .string) (blank ++ inQuotes text) rest fun p => [stringAt (p.afterAll blank) text] := by
  have hpieces : TakesMany c (alt [piece .stringFragment .singleQuoted, piece .escapeSequence .escape]) text
      ('\'' :: rest)
      fun p => if text = [] then [] else [leafAt .stringFragment p text] := by
    have hend : Fails c (alt [piece .stringFragment .singleQuoted, piece .escapeSequence .escape]) ('\'' :: rest) :=
      .alt_cons (fails_piece rfl) (.alt_cons (fails_piece rfl) .alt_nil)
    by_cases htext : text = []
    · subst htext
      exact .nil hend
    · have hfirst : TakesHere c (piece .stringFragment .singleQuoted) .stringFragment text ([] ++ '\'' :: rest) :=
        takes_piece htext (congrArg length (takeWhile_quotable h rest))
      have hmany := TakesMany.cons htext hfirst.alt_head (.nil hend)
      simpa only [append_nil, if_neg htext] using hmany
  have hquote : TakesLeaf c (punct "'" "") .token blank "'".toList (text ++ (['\''] ++ []) ++ rest) :=
    takes_punct hblank rfl (by decide)
  have hpieces' : Takes c _ text (['\''] ++ [] ++ rest) _ := hpieces.many
  have hseq := hquote.seq_cons (hpieces'.seq_cons (takes_glued_quote.seq_cons .seq_nil))
  refine ((hseq.node (k := .string) fun p => rfl).alt_head.ref).cast ?_ fun p => ?_
  · simp [inQuotes]
  · simp [stringAt, Pos.afterAll_append]

/-! ## Whole sources -/

theorem takes_stop : Takes c stop [] [] fun _ => [] := takes_of_succ 0 fun _ _ _ _ => ⟨false, rfl⟩

theorem fails_at_end (h : (mark none).refuses 40 r) (hblank : ∀ x ∈ text, isBlank x) : Fails c r text := by
  have hfails := @Head.fails c r [] (.mark none) text ⟨rfl, rfl⟩ hblank h
  rwa [append_nil] at hfails

theorem takes_program (htext : text ≠ []) (hbang : Fails c (lexeme .hashBangLine .hashBang) text)
    (h : Takes c (.ref .statement) text [] trees) : Takes c Grammar.program text [] trees := by
  have hend : Fails c (.ref .statement) [] := fails_at_end (by decide +kernel) (by simp)
  have hmany := (TakesMany.cons (b := []) htext (by rwa [nil_append]) (.nil hend)).many
  have hidle : Takes c (.opt (lexeme .hashBangLine .hashBang)) [] (text ++ []) fun _ => [] :=
    .opt_none (by rwa [append_nil])
  simp only [append_nil] at hmany
  exact hidle.seq_idle (hmany.seq_done takes_stop.seq_single)

theorem parse_of_takes {dialect : Dialect} (h : Takes (.start dialect) Grammar.program text [] trees) :
    ∃ e, parse dialect text = some (.node .plain .program ⟨.origin, e⟩ (trees .origin)) := by
  obtain ⟨N, h⟩ := h
  obtain ⟨e', he'⟩ := h (N + (200 + 100 * text.length)) (by omega) .origin false
  rw [append_nil] at he'
  refine ⟨Pos.origin.afterAll text, ?_⟩
  rw [parse_eq dialect text (n := N + (200 + 100 * text.length)) (by omega), Cursor.ofSource, he']
  rfl

/-- **Blanks are a source of no statement.** -/
theorem parse_blank (dialect : Dialect) (h : ∀ x ∈ text, isBlank x) :
    ∃ e, parse dialect text = some (.node .plain .program ⟨.origin, e⟩ []) := by
  have hstop : Takes (.start dialect) stop text [] fun _ => [] := takes_of_succ 0 fun n _ p e => ⟨false, by
    simp only [run, trivia_of_blank h [] p]
    rfl⟩
  have hbang := @fails_at_end (.start dialect) (lexeme .hashBangLine .hashBang) text (by decide +kernel) h
  have hstatement := @fails_at_end (.start dialect) (.ref .statement) text (by decide +kernel) h
  have hidle : Takes _ (.opt (lexeme .hashBangLine .hashBang)) [] (text ++ []) fun _ => [] :=
    .opt_none (by rwa [append_nil])
  have hmany : Takes _ (many (.ref .statement)) [] (text ++ []) fun _ => [] :=
    (TakesMany.nil (by rwa [append_nil])).many
  exact parse_of_takes (hidle.seq_idle (hmany.seq_idle hstop.seq_single))

end SourceBench.Syntax
