import SourceBench.Proofs.Syntax.Places

/-!
# Derivations

`Derives` says which trees a rule can give between two cursors: the grammar as a relation.  What reading gives is
derived (`run_derives`), so a fact about all trees of a grammar needs one induction over derivations and no look at
fuel, context or the order of alternatives.
-/
namespace SourceBench.Syntax

open List
open Cursor

variable {c d : Cursor} {k : Kind} {s s' : State} {n : Nat} {text : String} {dialect : Dialect} {r base : Rule}

/-! ## Comments -/

/-- The text of a comment: up to the end of its line, or up to its closing mark. -/
inductive CommentText : List Char → Prop
  | line (r : List Char) (h : ∀ x ∈ r, isLineEnd x = false) : CommentText ('/' :: '/' :: r)
  | block (r : List Char) : CommentText ('/' :: '*' :: (r ++ ['*', '/']))

def Tree.IsComment (t : Tree) : Prop := ∃ span text, t = .leaf .plain .comment span text ∧ CommentText text

theorem closeLength_spec : ∀ (n : Nat) (cs : List Char), closeLength n cs ≠ 0 →
    n ≤ closeLength n cs ∧ ∃ r, cs.take (closeLength n cs - n) = r ++ ['*', '/']
  | n, cs, h => by
    fun_induction closeLength n cs with
    | case1 n r => exact ⟨by omega, [], by simp⟩
    | case2 n c r hne ih =>
      obtain ⟨hle, r', hr'⟩ := ih h
      refine ⟨by omega, c :: r', ?_⟩
      obtain ⟨k, hk⟩ : ∃ k, closeLength (n + 1) r - n = k + 1 := ⟨closeLength (n + 1) r - (n + 1), by omega⟩
      rw [hk, take_succ_cons, show k = closeLength (n + 1) r - (n + 1) by omega, hr', cons_append]
    | case3 n => exact absurd rfl h

variable {cs : List Char} {ts : List Tree} {length : List Char → Nat}

theorem commentText_of_commentLength {k : Nat} (h : commentLength cs = k + 1) : CommentText (cs.take (k + 1)) := by
  unfold commentLength at h
  split at h
  · rename_i r
    have htake : ('/' :: '/' :: r).take (k + 1) = '/' :: '/' :: r.takeWhile (! isLineEnd ·) := by
      rw [← h, Nat.add_comm 2]
      simp only [take_succ_cons]
      rw [← prefix_iff_eq_take.1 (List.takeWhile_prefix _)]
    rw [htake]
    exact .line _ fun x hx => by simpa using mem_takeWhile_imp hx
  · rename_i r
    obtain ⟨hle, r', hr'⟩ := closeLength_spec 2 r (by omega)
    rw [h] at hr'
    obtain ⟨m, rfl⟩ : ∃ m, k = m + 1 := ⟨k - 1, by omega⟩
    rw [take_succ_cons, take_succ_cons, show m = m + 1 + 1 - 2 by omega, hr']
    exact .block r'
  · cases h

theorem Cursor.leaf_covers (c : Cursor) (k : Kind) (hn : n ≠ 0) (hne : c.rest ≠ []) :
    (c.leaf k n).1.Covers c (c.leaf k n).2 := by
  refine ⟨fun hnil => ?_, skip_passes n c, rfl⟩
  rcases take_eq_nil_iff.1 hnil with h | h
  · exact hn h
  · exact hne h

theorem commentLength_nil : commentLength [] = 0 := rfl

theorem leaf_comment {k : Nat} (h : commentLength c.rest = k + 1) :
    (c.leaf .comment (k + 1)).1.IsComment ∧ (c.leaf .comment (k + 1)).1.Covers c (c.leaf .comment (k + 1)).2 := by
  refine ⟨⟨_, _, rfl, commentText_of_commentLength h⟩, leaf_covers c .comment (Nat.succ_ne_zero k) fun hnil => ?_⟩
  rw [hnil, commentLength_nil] at h
  cases h

theorem trivia_spec : ∀ (n : Nat) (c : Cursor), (∀ t ∈ (trivia n c).1, t.IsComment) ∧
    c.Reads (trivia n c).1 (trivia n c).2
  | 0, c => ⟨nofun, c, rfl, skipBlank_blankTo c⟩
  | n + 1, c => by
    unfold trivia
    simp only
    split
    · exact ⟨nofun, c, rfl, skipBlank_blankTo c⟩
    · rename_i k hk
      obtain ⟨hcomment, hcovers⟩ := leaf_comment hk
      obtain ⟨hcomments, d, hts, hgap⟩ := trivia_spec n (c.skipBlank.leaf .comment (k + 1)).2
      exact ⟨forall_mem_cons.2 ⟨hcomment, hcomments⟩, d, ⟨_, _, skipBlank_blankTo c, hcovers, hts⟩, hgap⟩

theorem pendingClose_spec (operand : Bool) : ∀ (n : Nat) (c : Cursor) (ts : List Tree) (d : Cursor),
    pendingClose operand n c = some (ts, d) → (∀ t ∈ ts, t.IsComment) ∧ coversAll ts c d
  | 0, _, _, _, h => by cases h
  | n + 1, c, ts, d, h => by
    unfold pendingClose at h
    split at h
    · cases h
      exact ⟨nofun, rfl⟩
    · simp only at h
      split at h
      · cases h
      · rename_i k hk
        obtain ⟨⟨us, e⟩, hus, heq⟩ := Option.map_eq_some_iff.1 h
        cases heq
        obtain ⟨hcomment, hcovers⟩ := leaf_comment hk
        obtain ⟨hcomments, hrest⟩ := pendingClose_spec operand n _ _ _ hus
        exact ⟨forall_mem_cons.2 ⟨hcomment, hcomments⟩, _, _, skipBlank_blankTo c, hcovers, hrest⟩

theorem close?_eq_some {operand : Bool} (h : c.close? operand = some (ts, d)) :
    (∀ t ∈ ts, t.IsComment) ∧ c.Reads ts d :=
  have ⟨hcomments, hcovers⟩ := pendingClose_spec operand _ _ _ _ h
  ⟨hcomments, d, hcovers, blankTo_refl d⟩

/-! ## Leaves -/

def Lexeme.Takes (l : Lexeme) (text : List Char) : Prop := text ≠ [] ∧ ∃ cs : List Char, text = cs.take (l.length cs)

section
variable {p : List Char} {ok : Bool}

theorem prefixLength_nil : (if p.isPrefixOf [] && ok then p.length else 0) = 0 := by
  cases p <;> cases ok <;> rfl

theorem take_prefixLength (h : (if p.isPrefixOf cs && ok then p.length else 0) ≠ 0) :
    cs.take (if p.isPrefixOf cs && ok then p.length else 0) = p := by
  split
  · rename_i hc
    rw [Bool.and_eq_true, isPrefixOf_iff_prefix] at hc
    exact (prefix_iff_eq_take.1 hc.1).symm
  · rename_i hc
    rw [if_neg hc] at h
    exact absurd rfl h

end

theorem punctLength_nil (text stops : String) : punctLength text stops [] = 0 := prefixLength_nil

theorem keywordLength_nil (text : String) : keywordLength text [] = 0 := prefixLength_nil

theorem take_punctLength {stops : String} (h : punctLength text stops cs ≠ 0) :
    cs.take (punctLength text stops cs) = text.toList := take_prefixLength h

theorem take_keywordLength (h : keywordLength text cs ≠ 0) :
    cs.take (keywordLength text cs) = text.toList := take_prefixLength h

theorem Lexeme.length_nil (l : Lexeme) : l.length [] = 0 := by
  cases l with
  | exactly text => exact keywordLength_nil text
  | name => simp [Lexeme.length, wordLength]
  | looseWord => simp [Lexeme.length, wordLength]
  | _ => rfl

theorem take_ne_nil (h : length cs = n + 1) (hnil : length [] = 0) : cs.take (length cs) ≠ [] := by
  intro hempty
  rcases take_eq_nil_iff.1 hempty with hzero | hzero
  · rw [hzero] at h
    cases h
  · rw [hzero, hnil] at h
    cases h

theorem State.token_eq_some (h : s.token k length = some (ts, s')) (hnil : length [] = 0) :
    ∃ comments span cs, ts = comments ++ [.leaf .plain k span (cs.take (length cs))] ∧
      (∀ t ∈ comments, t.IsComment) ∧ length cs ≠ 0 ∧ cs.take (length cs) ≠ [] ∧ s.cursor.Reads ts s'.cursor := by
  unfold State.token at h
  simp only at h
  obtain ⟨hcomments, d, hts, hgap⟩ := trivia_spec s.cursor.rest.length s.cursor
  split at h
  · cases h
  · rename_i n hn
    have hne : s.cursor.trivia.2.rest ≠ [] := fun hr => by rw [hr, hnil] at hn; cases hn
    cases h
    refine ⟨_, _, s.cursor.trivia.2.rest, by rw [hn]; rfl, hcomments, by rw [hn]; exact Nat.succ_ne_zero n,
      take_ne_nil hn hnil, _, ?_, blankTo_refl _⟩
    exact (coversAll_append _ _ _ _).2 ⟨d, hts, coversAll_singleton hgap (leaf_covers _ k (Nat.succ_ne_zero n) hne)⟩

theorem State.piece_eq_some (h : s.piece k length = some (ts, s')) (hnil : length [] = 0) :
    ∃ span cs, ts = [.leaf .plain k span (cs.take (length cs))] ∧ length cs ≠ 0 ∧ cs.take (length cs) ≠ [] ∧
      s.cursor.Reads ts s'.cursor := by
  unfold State.piece at h
  split at h
  · cases h
  · rename_i n hn
    have hne : s.cursor.rest ≠ [] := fun hr => by rw [hr, hnil] at hn; cases hn
    cases h
    exact ⟨_, s.cursor.rest, by rw [hn], by rw [hn]; exact Nat.succ_ne_zero n, take_ne_nil hn hnil, _,
      coversAll_singleton (blankTo_refl _) (leaf_covers _ k (Nat.succ_ne_zero n) hne), blankTo_refl _⟩

/-! ## Rules -/

/-- The rule reads a leaf of the kind with the text. -/
inductive Rule.Reads : Rule → Kind → List Char → Prop
  | punct (text stops : String) : Reads (.punct text stops) .token text.toList
  | glued (text : String) : Reads (.glued text) .token text.toList
  | word (text : String) : Reads (.word text) .token text.toList
  | lexeme (k : Kind) {l : Lexeme} {text : List Char} (h : l.Takes text) : Reads (.lexeme k l) k text
  | piece (k : Kind) {l : Lexeme} {text : List Char} (h : l.Takes text) : Reads (.piece k l) k text
  | close : Reads .close .token ";".toList

def Rule.idle : Rule → Bool
  | .opt _ | .many _ | .ahead _ | .notAhead _ | .optClose | .steady | .closing | .operandEnd | .typedArrow => true
  | _ => false

/-- The rule may be read by passing over comments alone. -/
def Rule.closes : Rule → Bool
  | .close | .optClose => true
  | _ => false

theorem check_of_mem {α : Type} {one : α → Bool} {all : List α → Bool} {x : α}
    (h : ∀ x xs, all (x :: xs) = (one x && all xs)) : ∀ {xs : List α}, all xs → x ∈ xs → one x
  | _ :: _, hall, hx => by
    rw [h, Bool.and_eq_true] at hall
    rcases mem_cons.1 hx with rfl | hx
    · exact hall.1
    · exact check_of_mem h hall.2 hx

/-- The trees that a rule can give between two cursors in a dialect. -/
inductive Derives (g : Symbol → Rule) (dialect : Dialect) : Rule → Cursor → List Tree → Cursor → Prop
  | leaf {r : Rule} {k : Kind} {text : List Char} {comments : List Tree} {span : Span} {c d : Cursor}
      (hr : r.Reads k text)
    (h : ∀ t ∈ comments, t.IsComment) (hreads : c.Reads (comments ++ [.leaf .plain k span text]) d) :
    Derives g dialect r c (comments ++ [.leaf .plain k span text]) d
  | nothing {r : Rule} {c : Cursor} (hr : r.idle = true) : Derives g dialect r c [] c
  | closes {r : Rule} {comments : List Tree} {c d : Cursor} (hr : r.closes = true) (h : ∀ t ∈ comments, t.IsComment)
    (hreads : c.Reads comments d) : Derives g dialect r c comments d
  | stop {comments : List Tree} {c d : Cursor} (h : ∀ t ∈ comments, t.IsComment) (hreads : c.Reads comments d)
    (hrest : d.rest = []) : Derives g dialect .stop c comments d
  | ref {x : Symbol} {ts : List Tree} {c d : Cursor} (h : Derives g dialect (g x) c ts d) :
    Derives g dialect (.ref x) c ts d
  | seqNil {c : Cursor} : Derives g dialect (.seq []) c [] c
  | seqCons {r : Rule} {rs : List Rule} {ts us : List Tree} {c d e : Cursor} (h : Derives g dialect r c ts d)
    (hs : Derives g dialect (.seq rs) d us e) : Derives g dialect (.seq (r :: rs)) c (ts ++ us) e
  | alt {r : Rule} {rs : List Rule} {ts : List Tree} {c d : Cursor} (hr : r ∈ rs) (h : Derives g dialect r c ts d) :
    Derives g dialect (.alt rs) c ts d
  | opt {r : Rule} {ts : List Tree} {c d : Cursor} (h : Derives g dialect r c ts d) : Derives g dialect (.opt r) c ts d
  | many {r : Rule} {ts us : List Tree} {c d e : Cursor} (h : Derives g dialect r c ts d)
    (hs : Derives g dialect (.many r) d us e) : Derives g dialect (.many r) c (ts ++ us) e
  | node {k : Kind} {r : Rule} {ts : List Tree} {c d : Cursor} (at_ : Pos) (h : Derives g dialect r c ts d) :
    Derives g dialect (.node k r) c (wrap k at_ ts) d
  | role {f : Role} {r : Rule} {ts : List Tree} {c d : Cursor} (h : Derives g dialect r c ts d) :
    Derives g dialect (.role f r) c (assign f ts) d
  | under {x : Shift} {r : Rule} {ts : List Tree} {c d : Cursor} (h : Derives g dialect r c ts d) :
    Derives g dialect (.under x r) c ts d
  | only {r : Rule} {ts : List Tree} {c d : Cursor} (h : Derives g dialect r c ts d) :
    Derives g dialect (.only dialect r) c ts d
  | among {ks : List Kind} {r : Rule} {ts : List Tree} {c d : Cursor} (h : Derives g dialect r c ts d) :
    Derives g dialect (.among ks r) c ts d
  | chain {isType : Bool} {base : Rule} {links : List (Link Rule)} {ts : List Tree} {c d : Cursor}
    (h : Derives g dialect base c ts d) : Derives g dialect (.chain isType base links) c ts d
  | link {isType : Bool} {base : Rule} {links : List (Link Rule)} {l : Link Rule} {acc ts : List Tree} {c d e : Cursor}
    (at_ : Pos) (hacc : Derives g dialect (.chain isType base links) c acc d) (hl : l ∈ links)
    (h : Derives g dialect l.rule d ts e) :
    Derives g dialect (.chain isType base links) c (wrap l.kind at_ (assign l.role acc ++ ts)) e

/-- The rules whose trees the rule hands out as they are. -/
def Rule.parts (g : Symbol → Rule) (dialect : Dialect) : Rule → List Rule
  | .ref x => [g x]
  | .seq (r :: rs) => [r, .seq rs]
  | .alt rs => rs
  | .many r => [r, .many r]
  | .opt r | .under _ r | .among _ r | .chain _ r _ => [r]
  | .only d r => if d = dialect then [r] else []
  | _ => []

/-- What is checked of rules, each at an index, says something of the trees they derive: a step for each form of
rules. -/
structure Carries {ι : Type} (g : Symbol → Rule) (dialect : Dialect) (ok : ι → Rule → Prop)
    (P : ι → Tree → Prop) : Prop where
  comment {i t} (ht : t.IsComment) : P i t
  leaf {i r k text span} (hr : r.Reads k text) (hi : ok i r) : P i (.leaf .plain k span text)
  parts {i r} (hi : ok i r) : ∀ r' ∈ r.parts g dialect, ∃ j, ok j r' ∧ ∀ t, P j t → P i t
  role {i f r c ts d} (hi : ok i (.role f r)) (h : Derives g dialect r c ts d) (ih : ∀ j, ok j r → ∀ t ∈ ts, P j t) :
    ∀ t ∈ assign f ts, P i t
  node {i k r c ts d at_} (hi : ok i (.node k r)) (h : Derives g dialect r c ts d) (ih : ∀ j, ok j r →
    ∀ t ∈ ts, P j t) :
    ∀ t ∈ wrap k at_ ts, P i t
  link {i isType base links l c acc d ts e at_} (hi : ok i (.chain isType base links)) (hl : l ∈ links)
    (hacc : Derives g dialect (.chain isType base links) c acc d) (h : Derives g dialect l.rule d ts e)
    (ihacc : ∀ t ∈ acc, P i t) (ih : ∀ j, ok j l.rule → ∀ t ∈ ts, P j t) :
    ∀ t ∈ wrap l.kind at_ (assign l.role acc ++ ts), P i t

theorem Carries.derives {ι : Type} {ok : ι → Rule → Prop} {P : ι → Tree → Prop} {g : Symbol → Rule} {ts : List Tree}
    (hP : Carries g dialect ok P) (h : Derives g dialect r c ts d) : ∀ i, ok i r → ∀ t ∈ ts, P i t := by
  have handOn {r r' : Rule} {ts : List Tree} (hr : r' ∈ r.parts g dialect) (ih : ∀ j, ok j r' → ∀ t ∈ ts, P j t) (i : ι)
      (hi : ok i r) : ∀ t ∈ ts, P i t := by
    obtain ⟨j, hj, hij⟩ := hP.parts hi r' hr
    exact fun t ht => hij t (ih j hj t ht)
  induction h with
  | leaf hr hcomments =>
    exact fun i hi => forall_mem_append.2 ⟨fun t ht => hP.comment (hcomments t ht),
      forall_mem_singleton.2 (hP.leaf hr hi)⟩
  | nothing | seqNil => exact fun i hi => nofun
  | closes _ hcomments | stop hcomments => exact fun i hi t ht => hP.comment (hcomments t ht)
  | seqCons _ _ ih ihs | many _ _ ih ihs =>
    exact fun i hi => forall_mem_append.2 ⟨handOn mem_cons_self ih i hi,
      handOn (mem_cons_of_mem _ mem_cons_self) ihs i hi⟩
  | alt hr _ ih => exact handOn hr ih
  | ref _ ih | opt _ ih | under _ ih | among _ ih | chain _ ih => exact handOn mem_cons_self ih
  | only _ ih => exact handOn (by simp [Rule.parts]) ih
  | node at_ h ih => exact fun i hi => hP.node hi h ih
  | role h ih => exact fun i hi => hP.role hi h ih
  | link at_ hacc hl h ihacc ih => exact fun i hi => hP.link hi hl hacc h (ihacc i hi) ih

namespace Derives
variable {g : Symbol → Rule} {dialect : Dialect} {c d : Cursor} {ts : List Tree} {r : Rule}

theorem bare {text : List Char} {span : Span} (hr : r.Reads k text)
    (hreads : c.Reads [.leaf .plain k span text] d) : Derives g dialect r c [.leaf .plain k span text] d :=
  @leaf g dialect r k text [] span c d hr (fun _ h => by cases h) hreads

theorem of_under {x : Shift} (h : Derives g dialect (.under x r) c ts d) : Derives g dialect r c ts d := by
  cases h with
  | under h => exact h
  | _ => contradiction

theorem of_seq_cons {rs : List Rule} (h : Derives g dialect (.seq (r :: rs)) c ts d) :
    ∃ us vs e, ts = us ++ vs ∧ Derives g dialect r c us e ∧ Derives g dialect (.seq rs) e vs d := by
  cases h with
  | seqCons h hs => exact ⟨_, _, _, rfl, h, hs⟩
  | _ => contradiction

theorem of_seq_nil (h : Derives g dialect (.seq []) c ts d) : ts = [] ∧ c = d := by
  cases h with
  | seqNil => exact ⟨rfl, rfl⟩
  | _ => contradiction

theorem of_seq_append : ∀ {rs rs' : List Rule} {c : Cursor} {ts : List Tree},
    Derives g dialect (.seq (rs ++ rs')) c ts d →
    ∃ us vs e, ts = us ++ vs ∧ Derives g dialect (.seq rs) c us e ∧ Derives g dialect (.seq rs') e vs d
  | [], _, c, ts, h => ⟨[], ts, c, rfl, .seqNil, h⟩
  | _ :: _, _, _, _, h => by
    obtain ⟨us, vs, e, rfl, hr, hs⟩ := of_seq_cons h
    obtain ⟨us', vs', e', rfl, hrs, hrs'⟩ := of_seq_append hs
    exact ⟨us ++ us', vs', e', (append_assoc us us' vs').symm, .seqCons hr hrs, hrs'⟩

theorem of_reads (h : Derives g dialect r c ts d)
    (hr : (∃ a stops, r = .punct a stops) ∨ (∃ a, r = .glued a) ∨ ∃ k l, r = .piece k l) :
    ∃ comments k span text, ts = comments ++ [.leaf .plain k span text] ∧ r.Reads k text ∧
      ∀ t ∈ comments, t.IsComment := by
  rcases hr with ⟨a, stops, rfl⟩ | ⟨a, rfl⟩ | ⟨k, l, rfl⟩ <;>
  · cases h with
    | leaf hr hcomments => exact ⟨_, _, _, _, rfl, hr, hcomments⟩
    | nothing hr => cases hr
    | closes hr => cases hr

theorem of_opt (h : Derives g dialect (.opt r) c ts d) : ts = [] ∨ Derives g dialect r c ts d := by
  cases h with
  | leaf hr => cases hr
  | nothing hr => exact .inl rfl
  | closes hr => cases hr
  | opt h => exact .inr h

theorem of_role {f : Role} (h : Derives g dialect (.role f r) c ts d) :
    ∃ us, ts = assign f us ∧ Derives g dialect r c us d := by
  cases h with
  | role h => exact ⟨_, rfl, h⟩
  | _ => contradiction

theorem of_stop (h : Derives g dialect .stop c ts d) : d.rest = [] := by
  cases h with
  | stop hcomments hreads hrest => exact hrest
  | _ => contradiction

end Derives

/-! ## What is read is derived -/

def ReadsDerived (g : Symbol → Rule) (dialect : Dialect) (read : Rule → State → Reading) : Prop :=
  ∀ (r : Rule) (s : State) (x : List Tree × State), read r s = some x → Derives g dialect r s.cursor x.1 x.2.cursor

section
variable {g : Symbol → Rule} {dialect : Dialect} {read : Rule → State → Reading}

theorem inOrder_derives (hread : ReadsDerived g dialect read) : ∀ (rs : List Rule) (s : State) (x : List Tree × State),
    inOrder read rs s = some x → Derives g dialect (.seq rs) s.cursor x.1 x.2.cursor
  | [], _, _, h => by
    cases h
    exact .seqNil
  | r :: rs, s, x, h => by
    simp only [inOrder] at h
    split at h
    · cases h
    · rename_i ts s' hr
      split at h
      · cases h
      · rename_i us s'' hrs
        cases h
        exact .seqCons (hread r s _ hr) (inOrder_derives hread rs s' _ hrs)

theorem firstOf_derives (hread : ReadsDerived g dialect read) : ∀ (rs : List Rule) (s : State) (x : List Tree × State),
    firstOf read rs s = some x → ∃ r ∈ rs, Derives g dialect r s.cursor x.1 x.2.cursor
  | [], _, _, h => by cases h
  | r :: rs, s, x, h => by
    simp only [firstOf] at h
    split at h
    · obtain ⟨r', hr', hd⟩ := firstOf_derives hread rs s x h
      exact ⟨r', mem_cons_of_mem r hr', hd⟩
    · rename_i y hr
      cases h
      exact ⟨r, mem_cons_self, hread r s x hr⟩

theorem repeatedly_derives (hread : ∀ s x, read r s = some x → Derives g dialect r s.cursor x.1 x.2.cursor) :
    ∀ (n : Nat) (s : State), Derives g dialect (.many r) s.cursor (repeatedly (read r) n s).1
      (repeatedly (read r) n s).2.cursor
  | 0, _ => .nothing rfl
  | n + 1, s => by
    simp only [repeatedly]
    split
    · exact .nothing rfl
    · rename_i ts s' hr
      split
      · exact .many (hread s _ hr) (repeatedly_derives hread n s')
      · exact .nothing rfl

theorem firstLink_derives (hread : ReadsDerived g dialect read) (level : Nat) {isType : Bool}
    {links : List (Link Rule)} {acc : List Tree} (hacc : Derives g dialect (.chain isType base links) c acc s.cursor) :
    ∀ (ls : List (Link Rule)) (x : List Tree × State), (∀ l ∈ ls, l ∈ links) → firstLink read level ls acc s = some x →
      Derives g dialect (.chain isType base links) c x.1 x.2.cursor
  | [], _, _, h => by cases h
  | l :: ls, x, hls, h => by
    have hrest (h : firstLink read level ls acc s = some x) :=
      firstLink_derives hread level hacc ls x (fun l' hl' => hls l' (mem_cons_of_mem l hl')) h
    simp only [firstLink] at h
    split at h
    · exact hrest h
    · split at h
      · exact hrest h
      · rename_i ts s' hr
        cases h
        exact .link _ hacc (hls l mem_cons_self) (hread l.rule s _ hr)

theorem extend_derives (hread : ReadsDerived g dialect read) (c : Context) (isType : Bool)
    (links : List (Link Rule)) {c₀ : Cursor} : ∀ (n : Nat) (acc : List Tree) (s : State),
      Derives g dialect (.chain isType base links) c₀ acc s.cursor →
      Derives g dialect (.chain isType base links) c₀ (extend read c isType links n acc s).1
        (extend read c isType links n acc s).2.cursor
  | 0, _, _, hacc => hacc
  | n + 1, acc, s, hacc => by
    -- Marking the end of an operand leaves the cursor where it is.
    have hmarked : Derives g dialect (.chain isType base links) c₀ acc
      ({ s with ended := if isType then c.operandTail else true } : State).cursor := hacc
    unfold extend
    generalize ({ s with ended := if isType then c.operandTail else true } : State) = s at hmarked
    simp only
    split
    · exact hmarked
    · split
      · exact hmarked
      · rename_i acc' s' hl
        exact extend_derives hread c isType links n acc' s'
          (firstLink_derives hread c.level hmarked links _ (fun _ hl => hl) hl)

end

@[simp] theorem Context.shift_dialect (c : Context) (x : Shift) : (c.shift x).dialect = c.dialect := by
  cases x <;> rfl

theorem run_derives (g : Symbol → Rule) : ∀ (n : Nat) (c : Context), ReadsDerived g c.dialect (Rule.run g n c)
  | 0, _, _, _, _, h => by cases h
  | n + 1, c, rule, s, x, h => by
    have ih := run_derives g n
    obtain ⟨ts, s'⟩ := x
    cases rule with simp only [Rule.run] at h
    | punct text stops =>
      obtain ⟨comments, span, cs, rfl, hcomments, hlen, -, hreads⟩ := State.token_eq_some h (punctLength_nil text stops)
      rw [take_punctLength hlen] at hreads ⊢
      exact .leaf (.punct text stops) hcomments hreads
    | glued text =>
      obtain ⟨span, cs, rfl, hlen, -, hreads⟩ := State.piece_eq_some h (punctLength_nil text "")
      rw [take_punctLength hlen] at hreads ⊢
      exact .bare (.glued text) hreads
    | word text =>
      obtain ⟨comments, span, cs, rfl, hcomments, hlen, -, hreads⟩ := State.token_eq_some h (keywordLength_nil text)
      rw [take_keywordLength hlen] at hreads ⊢
      exact .leaf (.word text) hcomments hreads
    | lexeme k l =>
      obtain ⟨comments, span, cs, rfl, hcomments, -, hne, hreads⟩ := State.token_eq_some h l.length_nil
      exact .leaf (.lexeme k ⟨hne, cs, rfl⟩) hcomments hreads
    | piece k l =>
      obtain ⟨span, cs, rfl, -, hne, hreads⟩ := State.piece_eq_some h l.length_nil
      exact .bare (.piece k ⟨hne, cs, rfl⟩) hreads
    | ref y => exact .ref (ih c (g y) s _ h)
    | seq rs => exact inOrder_derives (ih c) rs s _ h
    | alt rs =>
      obtain ⟨r, hr, hd⟩ := firstOf_derives (ih c) rs s _ h
      exact .alt hr hd
    | opt r =>
      split at h
      · cases h
        exact .nothing rfl
      · rename_i y hr
        cases h
        exact .opt (ih c r s _ hr)
    | many r =>
      rw [Option.some.injEq] at h
      rw [← h]
      exact repeatedly_derives (fun s x hr => ih c r s x hr) n s
    | node k r =>
      split at h
      · cases h
      · rename_i ts s' hr
        cases h
        exact .node _ (ih c r s _ hr)
    | role f r =>
      split at h
      · cases h
      · rename_i ts s' hr
        cases h
        exact .role (ih c r s _ hr)
    | ahead | notAhead | steady | closing | typedArrow =>
      split at h <;> cases h
      exact .nothing rfl
    | under y r =>
      have hd := ih (c.shift y) r s _ h
      rw [Context.shift_dialect] at hd
      exact .under hd
    | chain isType base links =>
      split at h
      · cases h
      · rename_i us s'' hr
        rw [Option.some.injEq] at h
        rw [← h]
        exact extend_derives (ih c) c isType links n us s'' (.chain (ih c base s _ hr))
    | close =>
      split at h
      · rename_i us d hclose
        cases h
        exact .closes rfl (close?_eq_some hclose).1 (close?_eq_some hclose).2
      · obtain ⟨comments, span, cs, rfl, hcomments, hlen, -, hreads⟩ := State.token_eq_some h (punctLength_nil ";" "")
        rw [take_punctLength hlen] at hreads ⊢
        exact .leaf .close hcomments hreads
    | optClose =>
      split at h
      · rename_i us d hclose
        cases h
        exact .closes rfl (close?_eq_some hclose).1 (close?_eq_some hclose).2
      · cases h
        exact .nothing rfl
    | operandEnd =>
      cases h
      exact .nothing rfl
    | only d r =>
      split at h
      · rename_i hd
        subst hd
        exact .only (ih c r s _ h)
      · cases h
    | among ks r =>
      split at h
      · cases h
      · rename_i us s'' hr
        split at h
        · cases h
          exact .among (ih c r s _ hr)
        · cases h
    | stop =>
      obtain ⟨hcomments, hreads⟩ := trivia_spec s.cursor.rest.length s.cursor
      split at h
      · rename_i comments p htrivia
        rw [show trivia s.cursor.rest.length s.cursor = (comments, ⟨[], p⟩) from htrivia] at hcomments hreads
        cases h
        exact .stop hcomments hreads rfl
      · cases h

theorem parse_derives {source : List Char} {t : Tree} (h : parse dialect source = some t) :
    ∃ items e, t = .node .plain .program ⟨.origin, e.pos⟩ items ∧
      Derives grammar dialect Grammar.program (.ofSource source) items e := by
  unfold parse at h
  split at h
  · cases h
  · rename_i items s hrun
    cases h
    exact ⟨items, s.cursor, rfl, run_derives grammar _ (.start dialect) _ _ _ hrun⟩

end SourceBench.Syntax
