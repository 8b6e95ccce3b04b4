import SourceBench.Syntax.Rule

/-!
# Reading a text elsewhere

What is read from a text hangs on where the text stands only in the places of the trees: from another place the same
trees are read, all moved by as much (`run_moved`).
-/
namespace SourceBench.Syntax

open Option

/-! ## Moving -/

def Pos.moved (p δ : Pos) : Pos := ⟨δ.byte + p.byte, δ.row + p.row⟩

def Span.moved (δ : Pos) (s : Span) : Span := ⟨s.start.moved δ, s.stop.moved δ⟩

mutual
def Tree.moved (δ : Pos) : Tree → Tree
  | .leaf r k s text => .leaf r k (s.moved δ) text
  | .node r k s ts => .node r k (s.moved δ) (movedAll δ ts)
def movedAll (δ : Pos) : List Tree → List Tree
  | [] => []
  | t :: ts => t.moved δ :: movedAll δ ts
end

theorem movedAll_eq (δ : Pos) : ∀ ts : List Tree, movedAll δ ts = ts.map (·.moved δ)
  | [] => rfl
  | t :: ts => congrArg (t.moved δ :: ·) (movedAll_eq δ ts)

def Cursor.moved (δ : Pos) (c : Cursor) : Cursor := ⟨c.rest, c.pos.moved δ⟩

def State.moved (δ : Pos) (s : State) : State := ⟨s.cursor.moved δ, s.ended⟩

def movedReading (δ : Pos) (x : List Tree × State) : List Tree × State := (movedAll δ x.1, x.2.moved δ)

def movedTrivia (δ : Pos) (x : List Tree × Cursor) : List Tree × Cursor := (movedAll δ x.1, x.2.moved δ)

variable (δ : Pos)

theorem Pos.moved_after (p : Pos) (a : Char) : (p.moved δ).after a = (p.after a).moved δ := by
  simp only [Pos.after, Pos.moved]
  split <;> simp [Nat.add_assoc]

@[simp] theorem Tree.kind_moved (t : Tree) : (t.moved δ).kind = t.kind := by
  cases t <;> rfl

@[simp] theorem Tree.span_moved (t : Tree) : (t.moved δ).span = t.span.moved δ := by
  cases t <;> rfl

theorem Tree.withRole_moved (r : Role) (t : Tree) : (t.moved δ).withRole r = (t.withRole r).moved δ := by
  cases t <;> rfl

theorem movedAll_append (ts us : List Tree) : movedAll δ (ts ++ us) = movedAll δ ts ++ movedAll δ us := by
  simp only [movedAll_eq, List.map_append]

/-! ## Characters and comments -/

theorem skip_moved : ∀ (n : Nat) (c : Cursor), (c.moved δ).skip n = (c.skip n).moved δ
  | 0, _ => rfl
  | _ + 1, ⟨[], _⟩ => rfl
  | n + 1, ⟨a :: r, p⟩ => by
    have hafter := Pos.moved_after δ p a
    simp only [Cursor.moved, Cursor.skip] at hafter ⊢
    rw [hafter]
    exact skip_moved n ⟨r, p.after a⟩

theorem leaf_moved (k : Kind) (n : Nat) (c : Cursor) :
    (c.moved δ).leaf k n = ((c.leaf k n).1.moved δ, (c.leaf k n).2.moved δ) := by
  simp only [Cursor.leaf, skip_moved]
  rfl

theorem skipBlank_moved (c : Cursor) : (c.moved δ).skipBlank = c.skipBlank.moved δ := skip_moved δ _ c

theorem trivia_moved : ∀ (n : Nat) (c : Cursor), trivia n (c.moved δ) = movedTrivia δ (trivia n c)
  | 0, c => by
    simp only [trivia, skipBlank_moved]
    rfl
  | n + 1, c => by
    simp only [trivia, skipBlank_moved]
    rw [show (c.skipBlank.moved δ).rest = c.skipBlank.rest from rfl]
    cases commentLength c.skipBlank.rest with
    | zero => rfl
    | succ k =>
      dsimp only
      rw [leaf_moved]
      simp only [trivia_moved n]
      rfl

theorem cursor_trivia_moved (c : Cursor) : (c.moved δ).trivia = movedTrivia δ c.trivia := trivia_moved δ _ c

theorem pendingClose_moved (operand : Bool) : ∀ (n : Nat) (c : Cursor),
    pendingClose operand n (c.moved δ) = (pendingClose operand n c).map (movedTrivia δ)
  | 0, _ => rfl
  | n + 1, c => by
    simp only [pendingClose, skipBlank_moved]
    rw [show (c.moved δ).rest = c.rest from rfl, show (c.skipBlank.moved δ).rest = c.skipBlank.rest from rfl]
    split
    · rfl
    · cases commentLength c.skipBlank.rest with
      | zero => rfl
      | succ k =>
        dsimp only
        rw [leaf_moved]
        simp only [pendingClose_moved operand n, map_map]
        rfl

theorem close?_moved (c : Cursor) (operand : Bool) :
    (c.moved δ).close? operand = (c.close? operand).map (movedTrivia δ) := pendingClose_moved δ operand _ c

theorem isSome_close?_moved (c : Cursor) (operand : Bool) :
    ((c.moved δ).close? operand).isSome = (c.close? operand).isSome := by
  rw [close?_moved, isSome_map]

/-! ## Leaves, nodes and roles -/

variable (s : State)

theorem token_moved (k : Kind) (length : List Char → Nat) :
    (s.moved δ).token k length = (s.token k length).map (movedReading δ) := by
  simp only [State.token, State.moved, cursor_trivia_moved]
  rw [show (movedTrivia δ s.cursor.trivia).2.rest = s.cursor.trivia.2.rest from rfl]
  cases length s.cursor.trivia.2.rest with
  | zero => rfl
  | succ n =>
    dsimp only
    rw [show (movedTrivia δ s.cursor.trivia).2 = s.cursor.trivia.2.moved δ from rfl, leaf_moved]
    simp only [map_some, movedReading, movedAll_append]
    rfl

theorem piece_moved (k : Kind) (length : List Char → Nat) :
    (s.moved δ).piece k length = (s.piece k length).map (movedReading δ) := by
  simp only [State.piece, State.moved]
  rw [show (s.cursor.moved δ).rest = s.cursor.rest from rfl]
  cases length s.cursor.rest with
  | zero => rfl
  | succ n =>
    dsimp only
    rw [leaf_moved]
    rfl

theorem takeWhile_moved (ts : List Tree) :
    (movedAll δ ts).takeWhile (·.kind == .comment) = movedAll δ (ts.takeWhile (·.kind == .comment)) := by
  simp only [movedAll_eq, List.takeWhile_map, Function.comp_def, Tree.kind_moved]

theorem dropWhile_moved (ts : List Tree) :
    (movedAll δ ts).dropWhile (·.kind == .comment) = movedAll δ (ts.dropWhile (·.kind == .comment)) := by
  simp only [movedAll_eq, List.dropWhile_map, Function.comp_def, Tree.kind_moved]

theorem wrap_moved (k : Kind) (at_ : Pos) (ts : List Tree) :
    wrap k (at_.moved δ) (movedAll δ ts) = movedAll δ (wrap k at_ ts) := by
  simp only [wrap, takeWhile_moved, dropWhile_moved, movedAll_append]
  generalize ts.dropWhile (·.kind == .comment) = inner
  have hstart : ((movedAll δ inner).head?.map (·.span.start)).getD (at_.moved δ) =
      ((inner.head?.map (·.span.start)).getD at_).moved δ := by
    cases inner with
    | nil => rfl
    | cons t ts => simp [movedAll, Span.moved]
  have hstop : ((movedAll δ inner).getLast?.map (·.span.stop)).getD (at_.moved δ) =
      ((inner.getLast?.map (·.span.stop)).getD at_).moved δ := by
    rw [movedAll_eq, List.getLast?_map]
    cases inner.getLast? with
    | none => rfl
    | some t => simp [Span.moved]
  rw [hstart, hstop]
  rfl

theorem assign_moved (f : Role) (ts : List Tree) : assign f (movedAll δ ts) = movedAll δ (assign f ts) := by
  simp only [assign, movedAll_eq, List.map_map]
  refine List.map_congr_left fun t _ => ?_
  simp only [Function.comp_apply, Tree.kind_moved, Tree.withRole_moved]
  split <;> rfl

theorem any_getLast?_moved (ts : List Tree) (p : Kind → Bool) :
    (movedAll δ ts).getLast?.any (p ·.kind) = ts.getLast?.any (p ·.kind) := by
  rw [movedAll_eq, List.getLast?_map]
  cases ts.getLast? <;> simp

/-! ## Rules -/

def Movable (read : State → Reading) : Prop := ∀ s, read (s.moved δ) = (read s).map (movedReading δ)

section
variable {δ} {read : Rule → State → Reading} (h : ∀ r, Movable δ (read r))

include h

theorem inOrder_moved : ∀ rs : List Rule, Movable δ (inOrder read rs)
  | [], _ => rfl
  | r :: rs, s => by
    simp only [inOrder, h r s]
    cases read r s with
    | none => rfl
    | some x =>
      dsimp only [map_some, movedReading]
      rw [inOrder_moved rs x.2]
      cases inOrder read rs x.2 with
      | none => rfl
      | some y => simp only [map_some, movedReading, movedAll_append]

theorem firstOf_moved : ∀ rs : List Rule, Movable δ (firstOf read rs)
  | [], _ => rfl
  | r :: rs, s => by
    simp only [firstOf, h r s]
    cases read r s with
    | none => exact firstOf_moved rs s
    | some x => rfl

theorem firstLink_moved (level : Nat) (s : State) : ∀ (ls : List (Link Rule)) (acc : List Tree),
    firstLink read level ls (movedAll δ acc) (s.moved δ) = (firstLink read level ls acc s).map (movedReading δ)
  | [], _ => rfl
  | l :: ls, acc => by
    simp only [firstLink, any_getLast?_moved, h l.rule s, firstLink_moved level s ls acc]
    split
    · rfl
    · cases read l.rule s with
      | none => rfl
      | some x =>
        simp only [map_some, movedReading, assign_moved, ← movedAll_append]
        rw [show (s.moved δ).cursor.pos = s.cursor.pos.moved δ from rfl, wrap_moved]

theorem extend_moved (c : Context) (isType : Bool) (ls : List (Link Rule)) : ∀ (n : Nat) (acc : List Tree) (s : State),
    extend read c isType ls n (movedAll δ acc) (s.moved δ) = movedReading δ (extend read c isType ls n acc s)
  | 0, _, _ => rfl
  | n + 1, acc, s => by
    unfold extend
    generalize hmark : ({ s with ended := if isType then c.operandTail else true } : State) = s₁
    have hmark' : (⟨(s.moved δ).cursor, if isType then c.operandTail else true⟩ : State) = s₁.moved δ := by
      rw [← hmark]
      rfl
    rw [hmark']
    simp only [firstLink_moved h]
    rw [show (s₁.moved δ).cursor = s₁.cursor.moved δ from rfl, isSome_close?_moved,
      show (s₁.moved δ).ended = s₁.ended from rfl]
    split
    · rfl
    · cases firstLink read c.level ls acc s₁ with
      | none => rfl
      | some x => exact extend_moved c isType ls n x.1 x.2

end

theorem repeatedly_moved {δ : Pos} {read : State → Reading} (h : Movable δ read) : ∀ (n : Nat) (s : State),
    repeatedly read n (s.moved δ) = movedReading δ (repeatedly read n s)
  | 0, _ => rfl
  | n + 1, s => by
    simp only [repeatedly, h s]
    cases read s with
    | none => rfl
    | some x =>
      have hbyte : (s.moved δ).cursor.pos.byte < (x.2.moved δ).cursor.pos.byte ↔
          s.cursor.pos.byte < x.2.cursor.pos.byte := Nat.add_lt_add_iff_left
      simp only [map_some, movedReading, repeatedly_moved h n x.2, hbyte]
      split
      · simp only [movedAll_append]
      · rfl

/-- **From another place a rule reads the same trees, all moved by as much.** -/
theorem run_moved (g : Symbol → Rule) : ∀ (n : Nat) (c : Context) (r : Rule), Movable δ (r.run g n c)
  | 0, _, _, _ => rfl
  | n + 1, c, rule, s => by
    have ih := run_moved g n
    have hcursor : (s.moved δ).cursor = s.cursor.moved δ := rfl
    have hended : (s.moved δ).ended = s.ended := rfl
    cases rule with
    | punct text stops => exact token_moved δ s _ (punctLength text stops)
    | word text => exact token_moved δ s _ (keywordLength text)
    | lexeme k l => exact token_moved δ s k (fun cs => l.length cs)
    | glued text => exact piece_moved δ s _ (punctLength text "")
    | piece k l => exact piece_moved δ s k (fun cs => l.length cs)
    | ref x => exact ih c (g x) s
    | seq rs => exact inOrder_moved (ih c) rs s
    | alt rs => exact firstOf_moved (ih c) rs s
    | many r =>
      simp only [Rule.run, repeatedly_moved (ih c r), map_some]
    | under x r => exact ih (c.shift x) r s
    | only d r =>
      simp only [Rule.run]
      split
      · exact ih c r s
      · rfl
    | opt r | ahead r | notAhead r =>
      simp only [Rule.run, ih c r s]
      cases r.run g n c s <;> rfl
    | node k r =>
      simp only [Rule.run, ih c r s, hcursor]
      cases r.run g n c s with
      | none => rfl
      | some x => exact congrArg (fun ts => some (ts, x.2.moved δ)) (wrap_moved δ k s.cursor.pos x.1)
    | role f r =>
      simp only [Rule.run, ih c r s]
      cases r.run g n c s with
      | none => rfl
      | some x => exact congrArg (fun ts => some (ts, x.2.moved δ)) (assign_moved δ f x.1)
    | among ks r =>
      simp only [Rule.run, ih c r s]
      cases r.run g n c s with
      | none => rfl
      | some x =>
        dsimp only [map_some, movedReading]
        rw [any_getLast?_moved δ x.1 ks.contains]
        split <;> rfl
    | chain isType base links =>
      simp only [Rule.run, ih c base s]
      cases base.run g n c s with
      | none => rfl
      | some x => exact congrArg some (extend_moved (ih c) c isType links n x.1 x.2)
    | close =>
      simp only [Rule.run, hcursor, hended, close?_moved, token_moved]
      cases s.cursor.close? s.ended <;> rfl
    | optClose =>
      simp only [Rule.run, hcursor, hended, close?_moved]
      cases s.cursor.close? s.ended <;> rfl
    | steady | closing =>
      simp only [Rule.run, hcursor, hended, isSome_close?_moved]
      split <;> rfl
    | operandEnd => rfl
    | typedArrow =>
      simp only [Rule.run]
      split <;> rfl
    | stop =>
      simp only [Rule.run, hcursor, cursor_trivia_moved]
      obtain ⟨comments, ⟨rest, p⟩⟩ := s.cursor.trivia
      cases rest <;> rfl

end SourceBench.Syntax
