import SourceBench.Proofs.Syntax.Cover

/-!
# The bound of a reading is never felt

`Rule.run` takes a bound for how deep rules stand in rules.  No symbol of the grammar comes back to itself before a
token is read: `rank` falls along such a way.  So a reading goes only so deep before it passes over a character, and
from some bound on, which grows with the length of the text, more changes nothing (`run_eq_of_le`).  The bound that
`parse` gives is beyond it (`parse_eq`).
-/
namespace SourceBench.Syntax

open Cursor List Rule

variable {ts : List Tree} {l : Link Rule} {ls : List (Link Rule)}

/-! ## Readings pass over text -/

theorem Cursor.Passes.length_eq {c d : Cursor} {text : List Char} (h : c.Passes text d) :
    c.rest.length = text.length + d.rest.length := by
  rw [h.1, length_append]

theorem Cursor.Reads.passes {c d : Cursor} (h : c.Reads ts d) : ∃ text, c.Passes text d ∧ (ts ≠ [] → text ≠ []) := by
  obtain ⟨e, hts, gap, hgap, -⟩ := h
  cases ts with
  | nil =>
    obtain rfl : c = e := hts
    exact ⟨gap, hgap, fun hne => absurd rfl hne⟩
  | cons t ts =>
    obtain ⟨c', d', ⟨blank, hblank, -⟩, ht, hts⟩ := hts
    obtain ⟨a, hne, ha⟩ := ht.passes
    obtain ⟨b, hb⟩ := coversAll_passes hts
    exact ⟨blank ++ (a ++ b) ++ gap, (hblank.trans (ha.trans hb)).trans hgap, fun _ => by simp [hne]⟩

theorem HasToken.ne_nil (h : HasToken ts) : ts ≠ [] := by
  rintro rfl
  obtain ⟨t, ht, -⟩ := h
  cases ht

section
variable {n : Nat} {c : Context} {r : Rule} {s s' : State} {ts : List Tree}
  (h : r.run grammar n c s = some (ts, s')) (hr : r.sound)

include h hr

theorem run_reads : s.cursor.Reads ts s'.cursor ∧ (r.gives → HasToken ts) :=
  derives_reads grammar_sound (run_derives grammar n c r s _ h) hr

theorem run_length_le : s'.cursor.rest.length ≤ s.cursor.rest.length := by
  obtain ⟨text, hpass, -⟩ := (run_reads h hr).1.passes
  have := hpass.length_eq
  omega

theorem run_length_lt (hgives : r.gives) : s'.cursor.rest.length < s.cursor.rest.length := by
  obtain ⟨hreads, htok⟩ := run_reads h hr
  obtain ⟨text, hpass, hne⟩ := hreads.passes
  have := hpass.length_eq
  have := length_pos_iff.2 (hne (htok hgives).ne_nil)
  omega

theorem run_length_lt_of_byte (hbyte : s.cursor.pos.byte < s'.cursor.pos.byte) :
    s'.cursor.rest.length < s.cursor.rest.length := by
  obtain ⟨text, hpass, -⟩ := (run_reads h hr).1.passes
  have := hpass.length_eq
  have := hpass.byte_eq
  have : text ≠ [] := by
    rintro rfl
    simp [Utf8.byteSize] at this
    omega
  have := length_pos_iff.2 this
  omega

end

/-! ## Depth -/

def rank : Symbol → Nat
  | .statement => 40
  | .expressions => 35
  | .expression => 30
  | .operand => 25
  | .suffixed | .arrow | .objectMember | .type => 20
  | .primary | .declaration | .callSignature => 15
  | .propertyName | .markup | .classHeritage | .typeQueryTarget | .returnType => 10
  | _ => 5

mutual
def Rule.depth : Rule → Nat
  | .ref x => rank x + 1
  | .seq rs => depthInOrder rs + 1
  | .alt rs => depthOfAny rs + 1
  | .opt r | .many r | .node _ r | .role _ r | .ahead r | .notAhead r | .under _ r | .only _ r | .among _ r
  | .chain _ r _ => r.depth + 1
  | _ => 1
/-- How deep rules go one after another before a token is read. -/
def depthInOrder : List Rule → Nat
  | [] => 0
  | r :: rs => if r.gives then r.depth else max r.depth (depthInOrder rs)
def depthOfAny : List Rule → Nat
  | [] => 0
  | r :: rs => max r.depth (depthOfAny rs)
end

mutual
/-- What stands behind a token in the rule is not too deep, and what extends an operand reads a token. -/
def Rule.shallow : Rule → Bool
  | .seq rs => shallowInOrder rs
  | .alt rs => shallowAll rs
  | .opt r | .many r | .node _ r | .role _ r | .ahead r | .notAhead r | .under _ r | .only _ r | .among _ r => r.shallow
  | .chain _ base links => base.gives && base.shallow && shallowLinks links
  | _ => true
/-- All of the rules are shallow, and so is what is left of them behind a token. -/
def shallowInOrder : List Rule → Bool
  | [] => true
  | r :: rs => r.shallow && depthInOrder rs ≤ 100 && shallowInOrder rs
def shallowAll : List Rule → Bool
  | [] => true
  | r :: rs => r.shallow && shallowAll rs
def shallowLinks : List (Link Rule) → Bool
  | [] => true
  | l :: ls => shallowLink l && shallowLinks ls
def shallowLink : Link Rule → Bool
  | ⟨_, _, _, _, r⟩ => r.gives && r.depth ≤ 100 && r.shallow
end

/-- **The rank of a symbol bounds the depth of its rule**, so no symbol comes back to itself before a token is read. -/
theorem grammar_depth (x : Symbol) : (grammar x).depth ≤ rank x ∧ (grammar x).shallow := by
  cases x <;> decide +kernel

theorem program_depth : Grammar.program.depth ≤ 200 ∧ Grammar.program.shallow := by decide +kernel

/-! ## Larger bounds -/

def State.left (s : State) : Nat := s.cursor.rest.length

theorem shallow_of_shallowLinks (h : shallowLinks ls) (hl : l ∈ ls) :
    l.rule.gives ∧ l.rule.depth ≤ 100 ∧ l.rule.shallow := by
  have := check_of_mem shallowLinks.eq_2 h hl
  obtain ⟨k, f, level, only, r⟩ := l
  simpa [shallowLink, and_assoc] using this

theorem sound_of_soundLinks (h : soundLinks ls) (hl : l ∈ ls) : l.rule.sound := by
  have := check_of_mem soundLinks.eq_2 h hl
  obtain ⟨k, f, level, only, r⟩ := l
  simp only [soundLink, Bool.and_eq_true] at this
  exact this.2

theorem firstLink_length_lt {n : Nat} {c : Context} {s s' : State} {level : Nat} {acc acc' : List Tree} :
    ∀ {ls : List (Link Rule)}, shallowLinks ls → soundLinks ls →
      firstLink (run grammar n c) level ls acc s = some (acc', s') → s'.left < s.left
  | [], _, _, hrun => by cases hrun
  | l :: ls, hshallow, hsound, hrun => by
    obtain ⟨hgives, -, -⟩ := shallow_of_shallowLinks hshallow mem_cons_self
    have ih := @firstLink_length_lt n c s s' level acc acc' ls (Bool.and_eq_true_iff.1 hshallow).2
      (Bool.and_eq_true_iff.1 hsound).2
    simp only [firstLink] at hrun
    split at hrun
    · exact ih hrun
    · split at hrun
      · exact ih hrun
      · rename_i ts s'' hlink
        cases hrun
        exact run_length_lt hlink (sound_of_soundLinks hsound mem_cons_self) hgives

/-- The readings with the bounds `n` and `m` agree on rules that go no deeper than `n` allows. -/
def Agree (n m : Nat) : Prop :=
  ∀ (c : Context) (r : Rule) (s : State), r.shallow = true → r.sound = true → r.depth + 100 * s.left ≤ n →
    r.run grammar n c s = r.run grammar m c s

section
variable {n m : Nat} (h : Agree n m) (c : Context)

include h

theorem inOrder_eq : ∀ (rs : List Rule) (s : State), shallowInOrder rs → soundAll rs →
    depthInOrder rs + 100 * s.left ≤ n → inOrder (run grammar n c) rs s = inOrder (run grammar m c) rs s
  | [], _, _, _, _ => rfl
  | r :: rs, s, hshallow, hsound, hn => by
    simp only [shallowInOrder, soundAll, depthInOrder, Bool.and_eq_true, decide_eq_true_eq] at hshallow hsound hn
    have hr : r.run grammar n c s = r.run grammar m c s := h c r s hshallow.1.1 hsound.1 (by split at hn <;> omega)
    simp only [inOrder, ← hr]
    cases hrun : r.run grammar n c s with
    | none => rfl
    | some x =>
      obtain ⟨ts, s'⟩ := x
      have hrest : depthInOrder rs + 100 * s'.left ≤ n := by
        have hle : s'.left ≤ s.left := run_length_le hrun hsound.1
        split at hn
        · rename_i hgives
          have hlt : s'.left < s.left := run_length_lt hrun hsound.1 hgives
          omega
        · omega
      simp only [inOrder_eq rs s' hshallow.2 hsound.2 hrest]

theorem firstOf_eq : ∀ (rs : List Rule) (s : State), shallowAll rs → soundAll rs →
    depthOfAny rs + 100 * s.left ≤ n → firstOf (run grammar n c) rs s = firstOf (run grammar m c) rs s
  | [], _, _, _, _ => rfl
  | r :: rs, s, hshallow, hsound, hn => by
    simp only [shallowAll, soundAll, depthOfAny, Bool.and_eq_true] at hshallow hsound hn
    simp only [firstOf, h c r s hshallow.1 hsound.1 (by omega), firstOf_eq rs s hshallow.2 hsound.2 (by omega)]

theorem firstLink_eq {s : State} (level : Nat) (acc : List Tree) (hn : 100 + 100 * s.left ≤ n) :
    ∀ ls : List (Link Rule), shallowLinks ls → soundLinks ls →
      firstLink (run grammar n c) level ls acc s = firstLink (run grammar m c) level ls acc s
  | [], _, _ => rfl
  | l :: ls, hshallow, hsound => by
    obtain ⟨-, hdepth, hl⟩ := shallow_of_shallowLinks hshallow mem_cons_self
    have hlsound := sound_of_soundLinks hsound mem_cons_self
    have ih := firstLink_eq level acc hn ls (Bool.and_eq_true_iff.1 hshallow).2 (Bool.and_eq_true_iff.1 hsound).2
    simp only [firstLink, h c l.rule s hl hlsound (by omega), ih]

/-- A repetition ends when the text does, so a larger count of turns changes nothing. -/
theorem repeatedly_eq {r : Rule} (hshallow : r.shallow) (hsound : r.sound) :
    ∀ (a b : Nat) (s : State), s.left < a → s.left < b → r.depth + 100 * s.left ≤ n →
      repeatedly (r.run grammar n c) a s = repeatedly (r.run grammar m c) b s
  | a + 1, b + 1, s, ha, hb, hn => by
    simp only [repeatedly, ← h c r s hshallow hsound hn]
    cases hrun : r.run grammar n c s with
    | none => rfl
    | some x =>
      obtain ⟨ts, s'⟩ := x
      dsimp only
      split
      · rename_i hbyte
        have hlt : s'.left < s.left := run_length_lt_of_byte hrun hsound hbyte
        rw [repeatedly_eq hshallow hsound a b s' (by omega) (by omega) (by omega)]
      · rfl

theorem extend_eq (isType : Bool) {links : List (Link Rule)} (hshallow : shallowLinks links)
    (hsound : soundLinks links) : ∀ (a b : Nat) (acc : List Tree) (s : State), s.left < a → s.left < b →
      100 + 100 * s.left ≤ n → extend (run grammar n c) c isType links a acc s
        = extend (run grammar m c) c isType links b acc s
  | a + 1, b + 1, acc, s, ha, hb, hn => by
    unfold extend
    generalize hmark : ({ s with ended := if isType then c.operandTail else true } : State) = s₁
    have hleft : s₁.left = s.left := by rw [← hmark]; rfl
    simp only [← firstLink_eq h c c.level acc (s := s₁) (by omega) links hshallow hsound]
    split
    · rfl
    · split
      · rfl
      · rename_i acc' s' hlink
        have hlt := firstLink_length_lt hshallow hsound hlink
        exact extend_eq isType hshallow hsound a b acc' s' (by omega) (by omega) (by omega)

end

/-- **A larger bound changes nothing** once it allows for the depth of the rule and for the length of the text. -/
theorem run_eq_of_le : ∀ {n m : Nat}, n ≤ m → Agree n m
  | 0, _, _, _, r, _, _, _, hn => by cases r <;> simp [depth] at hn
  | n + 1, m + 1, hle, c, rule, s, hshallow, hsound, hn => by
    have ih : Agree n m := run_eq_of_le (Nat.le_of_succ_le_succ hle)
    cases rule with
    | ref x =>
      obtain ⟨hdepth, hshallow⟩ := grammar_depth x
      simp only [depth] at hn
      exact ih c (grammar x) s hshallow (grammar_sound x).2 (by omega)
    | seq rs =>
      simp only [depth] at hn
      exact inOrder_eq ih c rs s hshallow hsound (by omega)
    | alt rs =>
      simp only [depth] at hn
      exact firstOf_eq ih c rs s hshallow hsound (by omega)
    | many r =>
      simp only [depth] at hn
      have hpos : 0 < r.depth := by cases r <;> simp [depth]
      simp only [run, repeatedly_eq ih c (r := r) hshallow hsound n m s (by omega) (by omega) (by omega)]
    | under x r =>
      simp only [depth] at hn
      exact ih (c.shift x) r s hshallow hsound (by omega)
    | chain isType base links =>
      simp only [depth] at hn
      simp only [shallow, sound, Bool.and_eq_true] at hshallow hsound
      simp only [run, ← ih c base s hshallow.1.2 hsound.1.2 (by omega)]
      cases hrun : base.run grammar n c s with
      | none => rfl
      | some x =>
        obtain ⟨ts, s'⟩ := x
        have hlt : s'.left < s.left := run_length_lt hrun hsound.1.2 hshallow.1.1
        simp only [extend_eq ih c isType hshallow.2 hsound.2 n m ts s' (by omega) (by omega) (by omega)]
    | node k r =>
      simp only [depth] at hn
      simp only [sound, Bool.and_eq_true] at hsound
      simp only [run, ih c r s hshallow hsound.2 (by omega)]
    | opt r | role f r | ahead r | notAhead r | only d r | among ks r =>
      simp only [depth] at hn
      simp only [run, ih c r s hshallow hsound (by omega)]
    | punct | glued | word | lexeme | piece | close | optClose | steady | closing | operandEnd | typedArrow | stop =>
        rfl

/-- **The tree of a source does not hang on the bound**, once that is large enough. -/
theorem parse_eq (dialect : Dialect) (source : List Char) {n : Nat} (hn : 200 + 100 * source.length ≤ n) :
    parse dialect source = (Grammar.program.run grammar n (.start dialect) ⟨.ofSource source, false⟩).map
      fun x => .node .plain .program ⟨.origin, x.2.cursor.pos⟩ x.1 := by
  have hrun := run_eq_of_le hn (.start dialect) Grammar.program ⟨.ofSource source, false⟩ program_depth.2 program_sound
    (Nat.add_le_add_right program_depth.1 _)
  rw [parse, hrun]
  cases Grammar.program.run grammar n (.start dialect) ⟨.ofSource source, false⟩ <;> rfl

end SourceBench.Syntax
