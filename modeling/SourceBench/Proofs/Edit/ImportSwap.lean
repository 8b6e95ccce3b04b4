import SourceBench.Proofs.Edit.ImportTable
import SourceBench.Proofs.Text.Order

/-!
# Two added imports

Two imports of different modules find their places apart from each other, or both in the gap between the same two
statements.  In the first case the later change only moves by what the earlier one adds (`ask_of_earlier`,
`ask_of_later`); in the second the order of the modules decides, and both ways give the same text
(`ask_swap_of_sameGap`).  Either way both orders come to the same bytes (`ask_swap`), and what changes nothing in one
order changes nothing in the other (`ask_quiet`).

All of this asks one thing of the syntax, `Table.Gains`: after a change the source has the statement that was put there,
and its other import statements are as they were.
-/
namespace SourceBench.Imports

open List Utf8

variable {σ τ : Standing} {bytes : Bytes} {text : List Char}

/-! ## Changes at two places -/

namespace Change

variable {e : Change}

theorem on_append {a b c : Bytes} (ha : e.start = a.length) (hb : e.stop = a.length + b.length) :
    e.on (a ++ (b ++ c)) = a ++ (encode e.text ++ c) := by
  rw [on, ha, hb, take_left, ← append_assoc a b, ← length_append, drop_left, append_assoc]

theorem exists_append {w : Bytes} {i j : Nat} (hij : i ≤ j) (hj : j ≤ w.length) :
    ∃ a b c, w = a ++ (b ++ c) ∧ i = a.length ∧ j = a.length + b.length := by
  refine ⟨w.take i, (w.drop i).take (j - i), (w.drop i).drop (j - i), ?_, ?_, ?_⟩
  · rw [take_append_drop, take_append_drop]
  · rw [length_take]
    omega
  · simp only [length_take, length_drop]
    omega

/-- **Changes of two places commute**: the later one only moves. -/
theorem movedBy_on_on {f : Change} (he : e.start ≤ e.stop) (hef : e.stop ≤ f.start)
    (hf : f.start ≤ f.stop) (hlen : f.stop ≤ bytes.length) : (f.movedBy e).on (e.on bytes) = e.on (f.on bytes) := by
  obtain ⟨a, b, c, rfl, ha, hb⟩ := exists_append he (by omega : e.stop ≤ bytes.length)
  simp only [length_append] at hlen
  obtain ⟨p, q, r, rfl, hp, hq⟩ := exists_append (w := c) (i := f.start - e.stop) (j := f.stop - e.stop)
    (by omega) (by omega)
  have hsecond : f.on (a ++ (b ++ (p ++ (q ++ r)))) = a ++ (b ++ (p ++ (encode f.text ++ r))) := by
    have := on_append (e := f) (a := a ++ (b ++ p)) (b := q) (c := r)
      (by simp only [length_append]; omega) (by simp only [length_append]; omega)
    simpa only [append_assoc] using this
  have hmoved : (f.movedBy e).on (a ++ (encode e.text ++ (p ++ (q ++ r)))) =
      a ++ (encode e.text ++ (p ++ (encode f.text ++ r))) := by
    have := on_append (e := f.movedBy e) (a := a ++ (encode e.text ++ p)) (b := q) (c := r)
      (by simp only [movedBy, shift, length_append, length_encode]; omega)
      (by simp only [movedBy, shift, length_append, length_encode]; omega)
    simpa only [append_assoc, movedBy] using this
  rw [on_append ha hb, hmoved, hsecond, on_append ha hb]

theorem on_on_inside {g : Change} {p q : List Char} (he : e.start ≤ e.stop)
    (hlen : e.stop ≤ bytes.length) (htext : e.text = p ++ q) (hg : g.start = e.start + byteSize p)
    (hg' : g.stop = g.start) :
    g.on (e.on bytes) = bytes.take e.start ++ (encode (p ++ (g.text ++ q)) ++ bytes.drop e.stop) := by
  have hstart : g.start = (bytes.take e.start ++ encode p).length := by
    rw [length_append, length_take, length_encode]
    omega
  have := on_append (e := g) (a := bytes.take e.start ++ encode p) (b := [])
    (c := encode q ++ bytes.drop e.stop) hstart (by rw [hg', hstart]; rfl)
  simp only [nil_append, append_assoc] at this
  rw [show e.on bytes = bytes.take e.start ++ (encode p ++ (encode q ++ bytes.drop e.stop)) by
    rw [on, htext, encode_append]; simp only [append_assoc], this]
  simp only [encode_append, append_assoc]

end Change

/-! ## Places among statements -/

/-- The place of a module among statements: behind `l` and before `r`, at its own statement where it has one, else in
the gap that the order of modules gives. -/
structure Spot (S : List Standing) (source : String) (l : List Standing) (own : Option Standing) (r : List Standing) :
    Prop where
  split : S = l ++ (own.toList ++ r)
  own_source : ∀ σ ∈ own, σ.source = source
  left_ne : ∀ τ ∈ l, τ.source ≠ source
  right_ne : own = none → ∀ τ ∈ r, τ.source ≠ source
  left_le : own = none → ∀ τ ∈ l, τ.isAfter source = false
  head_after : own = none → ∀ τ ∈ r.head?, τ.isAfter source = true

instance (S : List Standing) (source : String) (l : List Standing) (own : Option Standing) (r : List Standing) :
    Decidable (Spot S source l own r) :=
  decidable_of_iff
    (S = l ++ (own.toList ++ r) ∧ (∀ σ ∈ own, σ.source = source) ∧ (∀ τ ∈ l, τ.source ≠ source) ∧
      (own = none → ∀ τ ∈ r, τ.source ≠ source) ∧ (own = none → ∀ τ ∈ l, τ.isAfter source = false) ∧
      (own = none → ∀ τ ∈ r.head?, τ.isAfter source = true))
    ⟨fun ⟨h₁, h₂, h₃, h₄, h₅, h₆⟩ => ⟨h₁, h₂, h₃, h₄, h₅, h₆⟩, fun ⟨h₁, h₂, h₃, h₄, h₅, h₆⟩ => ⟨h₁, h₂, h₃, h₄, h₅, h₆⟩⟩

def gapAt : List Standing → List Standing → Gap → Gap
  | _, σ :: _, _ => σ.before
  | l, [], top => match l.getLast? with
    | some σ => σ.behind
    | none => top

@[simp] theorem gapAt_cons (l r : List Standing) (σ : Standing) (top : Gap) : gapAt l (σ :: r) top = σ.before := rfl

@[simp] theorem gapAt_concat (l : List Standing) (σ : Standing) (top : Gap) : gapAt (l ++ [σ]) [] top = σ.behind := by
  simp only [gapAt, getLast?_concat]

section
variable {T : Table} {op : AddImport} {l r : List Standing} {own : Option Standing} {σ : Standing} {size : Nat}

theorem ask_known (h : Spot T.standing op.source l (some σ) r) : T.ask op = (σ.extension op).map (·.map σ.change) := by
  have hfind : T.standing.find? (·.source == op.source) = some σ := by
    refine find?_eq_some_iff_append.2 ⟨by simp [h.own_source σ rfl], l, r, h.split, fun τ hτ => ?_⟩
    simp [h.left_ne τ hτ]
  simp only [Table.ask, hfind]

theorem gap_eq_gapAt (h : Spot T.standing op.source l none r) : T.gap op.source = gapAt l r T.top := by
  have hsplit : T.standing = l ++ r := h.split
  have hleft : l.find? (·.isAfter op.source) = none := find?_eq_none.2 fun τ hτ => by simp [h.left_le rfl τ hτ]
  unfold Table.gap
  rw [hsplit, find?_append, hleft, Option.none_or]
  cases r with
  | nil =>
    rw [append_nil]
    simp only [find?_nil, gapAt]
    cases l.getLast? <;> rfl
  | cons σ r =>
    have hhead : (σ :: r).find? (·.isAfter op.source) = some σ := find?_cons_of_pos (h.head_after rfl σ rfl)
    rw [hhead]
    rfl

theorem ask_new (h : Spot T.standing op.source l none r) :
    T.ask op = (statementText op.source op.names op.defaultName op.namespaceName op.isTypeOnly).map fun statement =>
      some ((gapAt l r T.top).fill statement) := by
  have hfind : T.standing.find? (·.source == op.source) = none := by
    refine find?_eq_none.2 fun τ hτ => ?_
    rw [h.split] at hτ
    rcases mem_append.1 hτ with hτ | hτ
    · simp [h.left_ne τ hτ]
    · simp [h.right_ne rfl τ hτ]
  simp only [Table.ask, hfind, gap_eq_gapAt h]

/-! ### Where changes are -/

def Room.span (length : Nat) : Room → Nat × Nat
  | behindNames p | behindDefault p => (p, p)
  | emptyBraces a z => (a, z)
  | nowhere => (0, length)

theorem extension_span {a z : Nat} (h : σ.extension op = .ok (some (a, z, text))) : σ.room.span σ.length = (a, z) := by
  unfold Standing.extension at h
  split at h
  · cases h
  · dsimp only at h
    split at h
    · cases h
    split at h
    · cases h
    split at h <;> next hroom =>
      obtain ⟨written, -, hw⟩ := exists_of_map_eq_ok h
      cases hw
      rw [hroom]
      rfl

theorem extension_within (hroom : σ.room.Within σ.length) {a z : Nat}
    (h : σ.extension op = .ok (some (a, z, text))) : a ≤ z ∧ z ≤ σ.length := by
  have hspan := extension_span h
  cases hr : σ.room <;> rw [hr] at hspan hroom <;> cases hspan
  · exact ⟨Nat.le_refl _, hroom⟩
  · exact hroom
  · exact ⟨Nat.le_refl _, hroom⟩
  · exact ⟨Nat.zero_le _, Nat.le_refl _⟩

/-- A change lies behind the statements before its place and before those behind it, and inside its own, which then
begins where it began and ends as far from the change as it did. -/
structure Change.Within (e : Change) (l : List Standing) (own : Option Standing) (r : List Standing) (size : Nat) :
    Prop where
  start_le : e.start ≤ e.stop
  stop_le : e.stop ≤ size
  left : ∀ τ ∈ l, τ.stop ≤ e.start
  right : ∀ τ ∈ r, e.stop ≤ τ.start
  own_start : ∀ σ ∈ own, σ.start ≤ e.start ∧ e.site = σ.start
  own_stop : ∀ σ ∈ own, e.stop ≤ σ.stop ∧ e.site + e.length = e.shift σ.stop

theorem Standing.change_within {a z : Nat} (hpair : (l ++ σ :: r).Pairwise fun σ τ => σ.stop ≤ τ.start)
    (hsize : σ.stop ≤ size) (haz : a ≤ z) (hz : z ≤ σ.length) : (σ.change (a, z, text)).Within l (some σ) r size := by
  obtain ⟨-, hright, hcross⟩ := pairwise_append.1 hpair
  have hstop : σ.stop = σ.start + σ.length := rfl
  refine ⟨?_, ?_, fun τ hτ => ?_, fun τ hτ => ?_, ?_, ?_⟩
  · show σ.start + a ≤ σ.start + z
    omega
  · show σ.start + z ≤ size
    omega
  · have := hcross τ hτ σ mem_cons_self
    show τ.stop ≤ σ.start + a
    omega
  · have := (pairwise_cons.1 hright).1 τ hτ
    show σ.start + z ≤ τ.start
    omega
  · rintro _ ⟨⟩
    exact ⟨Nat.le_add_right _ _, rfl⟩
  · rintro _ ⟨⟩
    simp only [Standing.change, Change.shift, hstop]
    exact ⟨by omega, by omega⟩

theorem Gap.fill_within {top : Gap} (hpair : (l ++ r).Pairwise fun σ τ => σ.stop ≤ τ.start)
    (hinside : ∀ σ ∈ l ++ r, σ.stop ≤ size) (htop : top.start ≤ top.stop ∧ top.stop ≤ size) (statement : List Char) :
    ((gapAt l r top).fill statement).Within l none r size := by
  suffices h : (gapAt l r top).start ≤ (gapAt l r top).stop ∧ (gapAt l r top).stop ≤ size ∧
      (∀ τ ∈ l, τ.stop ≤ (gapAt l r top).start) ∧ ∀ τ ∈ r, (gapAt l r top).stop ≤ τ.start from
    ⟨h.1, h.2.1, h.2.2.1, h.2.2.2, fun _ h => (Option.not_mem_none _ h).elim, fun _ h => (Option.not_mem_none _ h).elim⟩
  obtain ⟨hleft, hright, hcross⟩ := pairwise_append.1 hpair
  cases r with
  | cons σ r =>
    have hσ := hinside σ (by simp)
    have hstop : σ.stop = σ.start + σ.length := rfl
    refine ⟨Nat.le_refl _, ?_, fun τ hτ => hcross τ hτ σ mem_cons_self, fun τ hτ => ?_⟩
    · show σ.start ≤ size
      omega
    · show σ.start ≤ τ.start
      rcases mem_cons.1 hτ with rfl | hτ
      · exact Nat.le_refl _
      · have := (pairwise_cons.1 hright).1 τ hτ
        omega
  | nil =>
    rcases eq_nil_or_concat' l with rfl | ⟨l', σ, rfl⟩
    · exact ⟨htop.1, htop.2, by simp, by simp⟩
    · rw [gapAt_concat]
      refine ⟨Nat.le_refl _, hinside σ (by simp), fun τ hτ => ?_, by simp⟩
      show τ.stop ≤ σ.start + σ.length
      rcases mem_append.1 hτ with hτ | hτ
      · have := (pairwise_append.1 hleft).2.2 τ hτ σ (by simp)
        omega
      · rw [mem_singleton.1 hτ]
        exact Nat.le_refl _

theorem ask_within (hT : T.Fits size) (h : Spot T.standing op.source l own r) {e : Change}
    (hask : T.ask op = .ok (some e)) :
    e.Within l own r size := by
  have hpair := hT.ordered
  have hinside := hT.inside
  rw [h.split] at hpair hinside
  cases own with
  | some σ =>
    rw [ask_known h] at hask
    obtain ⟨x, hx, hxe⟩ := exists_of_map_eq_ok hask
    obtain ⟨⟨a, z, text⟩, rfl, rfl⟩ := Option.map_eq_some_iff.1 hxe
    obtain ⟨-, hsize, hroom⟩ := hinside σ (by simp)
    obtain ⟨haz, hz⟩ := extension_within hroom hx
    exact Standing.change_within hpair hsize haz hz
  | none =>
    rw [ask_new h] at hask
    obtain ⟨statement, -, he⟩ := exists_of_map_eq_ok hask
    cases he
    exact Gap.fill_within hpair (fun σ hσ => (hinside σ hσ).2.1) hT.top_inside statement

end

/-! ## The places of two modules -/

section
variable {S l m r lx rx ly ry : List Standing} {ox oy : Option Standing} {x y : String}

theorem Standing.isAfter_congr (h : σ.source = τ.source) (source : String) : σ.isAfter source = τ.isAfter source := by
  rw [isAfter, isAfter, h]

theorem Standing.not_isAfter_of_between (hτ : τ.source = x) (hx : σ.isAfter x)
    (hy : σ.isAfter y = false) : τ.isAfter y = false := by
  rw [isAfter, Text.before_iff_lt] at hx
  rw [isAfter, Bool.eq_false_iff, ne_eq, Text.before_iff_lt] at hy ⊢
  rw [hτ]
  exact fun hlt => hy (lt_trans hlt hx)

theorem Spot.apart_of_append (hx : Spot S x lx ox rx) (hy : Spot S y ly oy ry) (hne : x ≠ y) (hly : ly = lx ++ m)
    (hrest : ox.toList ++ rx = m ++ (oy.toList ++ ry)) :
    (∃ m, ly = lx ++ (ox.toList ++ m) ∧ rx = m ++ (oy.toList ++ ry)) ∨
      ∃ m, lx = ly ++ (oy.toList ++ m) ∧ ry = m ++ (ox.toList ++ rx) := by
  cases ox with
  | none => exact .inl ⟨m, hly, hrest⟩
  | some σ =>
    cases m with
    | nil =>
      cases oy with
      | none => exact .inr ⟨[], by simpa using hly.symm, hrest.symm⟩
      | some τ =>
        obtain ⟨rfl, -⟩ := cons.inj hrest
        exact absurd ((hx.own_source σ rfl).symm.trans (hy.own_source σ rfl)) hne
    | cons ρ m =>
      obtain ⟨rfl, htail⟩ := cons.inj hrest
      exact .inl ⟨m, hly, htail⟩

/-- One of two modules has its place before that of the other, or both have theirs in one gap. -/
theorem Spot.apart (hx : Spot S x lx ox rx) (hy : Spot S y ly oy ry) (hne : x ≠ y) :
    (∃ m, ly = lx ++ (ox.toList ++ m) ∧ rx = m ++ (oy.toList ++ ry)) ∨
      ∃ m, lx = ly ++ (oy.toList ++ m) ∧ ry = m ++ (ox.toList ++ rx) := by
  rcases append_eq_append_iff.1 (hx.split.symm.trans hy.split) with ⟨m, hly, hrest⟩ | ⟨m, hlx, hrest⟩
  · exact hx.apart_of_append hy hne hly hrest
  · exact (hy.apart_of_append hx hne.symm hlx hrest).symm

theorem Spot.of_earlier (hy : Spot S y (l ++ (ox.toList ++ m)) oy r) {mine : Standing} (hmine : mine.source ≠ y)
    (hbefore : oy = none → mine.isAfter y = false) (e : Change) :
    Spot (l ++ mine :: (m ++ (oy.toList ++ r)).map (·.movedBy e)) y (l ++ mine :: m.map (·.movedBy e))
      (oy.map (·.movedBy e)) (r.map (·.movedBy e)) where
  split := by simp [Option.toList_map]
  own_source := by
    intro σ hσ
    obtain ⟨τ, hτ, rfl⟩ := Option.map_eq_some_iff.1 hσ
    exact hy.own_source τ hτ
  left_ne := by
    simp only [forall_mem_append, forall_mem_cons, forall_mem_map]
    exact ⟨fun τ hτ => hy.left_ne τ (by simp [hτ]), hmine, fun ρ hρ => hy.left_ne ρ (by simp [hρ])⟩
  right_ne := by
    intro hnone
    exact forall_mem_map.2 (hy.right_ne (Option.map_eq_none_iff.1 hnone))
  left_le := by
    intro hnone
    obtain rfl := Option.map_eq_none_iff.1 hnone
    simp only [forall_mem_append, forall_mem_cons, forall_mem_map]
    exact ⟨fun τ hτ => hy.left_le rfl τ (by simp [hτ]), hbefore rfl, fun ρ hρ => hy.left_le rfl ρ (by simp [hρ])⟩
  head_after := by
    intro hnone τ hτ
    rw [head?_map] at hτ
    obtain ⟨ρ, hρ, rfl⟩ := Option.map_eq_some_iff.1 hτ
    exact hy.head_after (Option.map_eq_none_iff.1 hnone) ρ hρ

theorem Spot.of_later (hx : Spot S x l ox (m ++ (oy.toList ++ r))) {mine : Standing} (hmine : mine.source ≠ x)
    (hafter : ox = none → m = [] → mine.isAfter x) (f : Change) :
    Spot ((l ++ (ox.toList ++ m)) ++ mine :: r.map (·.movedBy f)) x l ox (m ++ mine :: r.map (·.movedBy f)) where
  split := by simp
  own_source := hx.own_source
  left_ne := hx.left_ne
  right_ne := by
    intro hnone
    simp only [forall_mem_append, forall_mem_cons, forall_mem_map]
    exact ⟨fun τ hτ => hx.right_ne hnone τ (by simp [hτ]), hmine, fun ρ hρ => hx.right_ne hnone ρ (by simp [hρ])⟩
  left_le := hx.left_le
  head_after := by
    intro hnone τ hτ
    cases m with
    | cons ρ m => exact hx.head_after hnone τ hτ
    | nil =>
      obtain rfl : mine = τ := Option.some.inj hτ
      exact hafter hnone rfl

theorem Spot.not_isAfter_of_apart (hx : Spot S x l ox (m ++ (oy.toList ++ r)))
    (hy : Spot S y (l ++ (ox.toList ++ m)) oy r)
    (hapart : ox.toList ++ (m ++ oy.toList) ≠ []) {mine : Standing} (hmine : mine.source = x) (hnone : oy = none) :
    mine.isAfter y = false := by
  subst hnone
  cases ox with
  | some σ =>
    rw [Standing.isAfter_congr (hmine.trans (hx.own_source σ rfl).symm)]
    exact hy.left_le rfl σ (by simp)
  | none =>
    -- Both are new, and a statement stands between them.
    cases m with
    | nil => exact absurd rfl hapart
    | cons ρ m => exact Standing.not_isAfter_of_between hmine (hx.head_after rfl ρ rfl) (hy.left_le rfl ρ (by simp))

theorem Spot.isAfter_of_apart (hx : Spot S x l ox (m ++ (oy.toList ++ r))) (hy : Spot S y (l ++ (ox.toList ++ m)) oy r)
    (hapart : ox.toList ++ (m ++ oy.toList) ≠ []) {mine : Standing} (hmine : mine.source = y) (hnone : ox = none)
    (hnil : m = []) : mine.isAfter x := by
  subst hnone hnil
  cases oy with
  | none => exact absurd rfl hapart
  | some ρ =>
    rw [Standing.isAfter_congr (hmine.trans (hy.own_source ρ rfl).symm)]
    exact hx.head_after rfl ρ rfl

end

/-! ## Changes at places apart -/

/-- After the change of an operation the source has one statement at the place of its module, the one that the change
speaks of; the statements before that place are as they were, and those behind it have only moved. -/
structure Table.GainsAt (T : Table) (op : AddImport) (e : Change) (T' : Table) (l : List Standing)
    (own : Option Standing) (r : List Standing) (mine : Standing) : Prop where
  spot : Spot T.standing op.source l own r
  standing : T'.standing = l ++ mine :: r.map (·.movedBy e)
  source : mine.source = op.source
  start : mine.start = e.site
  length : mine.length = e.length

instance (T : Table) (op : AddImport) (e : Change) (T' : Table) (l : List Standing) (own : Option Standing)
    (r : List Standing) (mine : Standing) : Decidable (T.GainsAt op e T' l own r mine) :=
  decidable_of_iff
    (Spot T.standing op.source l own r ∧ T'.standing = l ++ mine :: r.map (·.movedBy e) ∧ mine.source = op.source ∧
      mine.start = e.site ∧ mine.length = e.length)
    ⟨fun ⟨h₁, h₂, h₃, h₄, h₅⟩ => ⟨h₁, h₂, h₃, h₄, h₅⟩, fun ⟨h₁, h₂, h₃, h₄, h₅⟩ => ⟨h₁, h₂, h₃, h₄, h₅⟩⟩

variable {e : Change}

theorem Standing.change_movedBy (h : e.stop ≤ σ.start) (x : Nat × Nat × List Char) :
    (σ.movedBy e).change x = (σ.change x).movedBy e := by
  obtain ⟨a, z, text⟩ := x
  simp only [change, movedBy, Change.movedBy, Change.shift, Change.mk.injEq, and_true]
  exact ⟨by omega, by omega⟩

theorem Standing.stop_movedBy (h : e.stop ≤ σ.start) : (σ.movedBy e).stop = e.shift σ.stop := by
  simp only [stop, movedBy, Change.shift]
  omega

theorem Gap.fill_movedBy {start stop : Nat} {lead trail : List Char} (h : e.stop ≤ start) (statement : List Char) :
    (⟨e.shift start, e.shift stop, lead, trail⟩ : Gap).fill statement =
      ((⟨start, stop, lead, trail⟩ : Gap).fill statement).movedBy e := by
  simp only [fill, Change.movedBy, Change.shift, Change.mk.injEq, and_true, true_and]
  omega

section
variable {T T' : Table} {x y : AddImport} {l m r : List Standing} {ox oy : Option Standing} {e f : Change} {size : Nat}
variable {mine : Standing}

theorem Change.Within.stop_le_start (he : e.Within l ox (m ++ (oy.toList ++ r)) size)
    (hf : f.Within (l ++ (ox.toList ++ m)) oy r size) (hapart : ox.toList ++ (m ++ oy.toList) ≠ []) :
    e.stop ≤ f.start := by
  cases m with
  | cons σ m =>
    have h₁ := he.right σ (by simp)
    have h₂ := hf.left σ (by simp)
    have : σ.stop = σ.start + σ.length := rfl
    omega
  | nil =>
    cases ox with
    | some σ => exact Nat.le_trans (he.own_stop σ rfl).1 (hf.left σ (by simp))
    | none =>
      cases oy with
      | some τ => exact Nat.le_trans (he.right τ (by simp)) (hf.own_start τ rfl).1
      | none => exact absurd rfl hapart

theorem gapAt_of_earlier (he : e.Within l ox (m ++ r) size) (hapart : ox.toList ++ m ≠ [])
    (hstart : mine.start = e.site) (hlength : mine.length = e.length) (top top' : Gap) (statement : List Char) :
    (gapAt (l ++ mine :: m.map (·.movedBy e)) (r.map (·.movedBy e)) top').fill statement =
      ((gapAt (l ++ (ox.toList ++ m)) r top).fill statement).movedBy e := by
  cases r with
  | cons σ r => exact Gap.fill_movedBy (he.right σ (by simp)) statement
  | nil =>
    rcases eq_nil_or_concat' m with rfl | ⟨m, σ, rfl⟩
    · cases ox with
      | none => exact absurd rfl hapart
      | some σ =>
        obtain ⟨hle, hstop⟩ := he.own_stop σ rfl
        have hmine : mine.stop = e.shift σ.stop := by rw [Standing.stop, hstart, hlength, hstop]
        simp only [map_nil, Option.toList_some, append_nil, gapAt_concat, Standing.behind, hmine]
        exact Gap.fill_movedBy hle statement
    · have hle := he.right σ (by simp)
      have hstop : σ.stop = σ.start + σ.length := rfl
      rw [map_append, map_singleton, map_nil, ← cons_append, ← append_assoc,
        ← append_assoc, ← append_assoc, gapAt_concat, gapAt_concat, Standing.behind,
        Standing.stop_movedBy hle]
      exact Gap.fill_movedBy (by omega) statement

/-- **The later of two operations only moves** when the earlier one comes first. -/
theorem ask_of_earlier (hx : T.GainsAt x e T' l ox (m ++ (oy.toList ++ r)) mine)
    (hy : Spot T.standing y.source (l ++ (ox.toList ++ m)) oy r) (hne : x.source ≠ y.source)
    (hapart : ox.toList ++ (m ++ oy.toList) ≠ []) (he : e.Within l ox (m ++ (oy.toList ++ r)) size)
    (hf : T.ask y = .ok (some f)) : T'.ask y = .ok (some (f.movedBy e)) := by
  have hspot := hy.of_earlier (hx.source ▸ hne) (hx.spot.not_isAfter_of_apart hy hapart hx.source) e
  rw [← hx.standing] at hspot
  cases oy with
  | some τ =>
    rw [ask_known hy] at hf
    rw [ask_known hspot]
    obtain ⟨c, hc, hcf⟩ := exists_of_map_eq_ok hf
    obtain ⟨d, rfl, rfl⟩ := Option.map_eq_some_iff.1 hcf
    have hext : (τ.movedBy e).extension y = τ.extension y := rfl
    rw [hext, hc, ← Standing.change_movedBy (he.right τ (by simp))]
    rfl
  | none =>
    rw [ask_new hy] at hf
    rw [ask_new hspot]
    obtain ⟨statement, hstatement, hfill⟩ := exists_of_map_eq_ok hf
    cases hfill
    rw [hstatement, ← gapAt_of_earlier (r := r) he (by simpa using hapart) hx.start hx.length T.top T'.top]
    rfl

/-- **The earlier of two operations asks for the same change** when the later one comes first. -/
theorem ask_of_later (hx : Spot T.standing x.source l ox (m ++ (oy.toList ++ r)))
    (hy : T.GainsAt y f T' (l ++ (ox.toList ++ m)) oy r mine) (hne : x.source ≠ y.source)
    (hapart : ox.toList ++ (m ++ oy.toList) ≠ []) (hf : f.Within (l ++ (ox.toList ++ m)) oy r size) :
    T'.ask x = T.ask x := by
  have hspot := hx.of_later (hy.source ▸ hne.symm) (hx.isAfter_of_apart hy.spot hapart hy.source) f
  rw [← hy.standing] at hspot
  cases ox with
  | some σ => rw [ask_known hx, ask_known hspot]
  | none =>
    have hgap : gapAt l (m ++ mine :: r.map (·.movedBy f)) T'.top = gapAt l (m ++ (oy.toList ++ r)) T.top := by
      cases m with
      | cons ρ m => rfl
      | nil =>
        cases oy with
        | none => exact absurd rfl hapart
        | some τ => simp only [nil_append, gapAt_cons, Option.toList_some, singleton_append, Standing.before,
            hy.start, (hf.own_start τ rfl).2]
    rw [ask_new hx, ask_new hspot, hgap]

end

/-! ## Changes in one gap -/

section
variable {T T' : Table} {x y : AddImport} {l r : List Standing} {e f : Change} {mine : Standing}

/-- **Two new statements of one gap stand in the order of their modules**, whichever comes first. -/
theorem ask_swap_of_sameGap {T'' : Table} {mine' : Standing} (hT : T.Fits bytes.length)
    (hx : T.GainsAt x e T' l none r mine) (hy : T.GainsAt y f T'' l none r mine')
    (hlt : x.source.toList < y.source.toList) (he : T.ask x = .ok (some e)) (hf : T.ask y = .ok (some f)) :
    ∃ e' f', T'.ask y = .ok (some f') ∧ T''.ask x = .ok (some e') ∧ f'.on (e.on bytes) = e'.on (f.on bytes) := by
  have hne : x.source ≠ y.source := fun h => lt_irrefl _ (h ▸ hlt)
  have hspot : Spot (l ++ mine :: r.map (·.movedBy e)) y.source (l ++ [mine]) none (r.map (·.movedBy e)) := by
    refine @Spot.of_earlier T.standing l [] r none none y.source (by simpa using hy.spot) mine
      (hx.source ▸ hne) (fun _ => ?_) e
    rw [Standing.isAfter, hx.source, Bool.eq_false_iff, ne_eq, Text.before_iff_lt]
    exact lt_asymm hlt
  have hspot' : Spot (l ++ mine' :: r.map (·.movedBy f)) x.source l none (mine' :: r.map (·.movedBy f)) := by
    have := @Spot.of_later T.standing l [] r none none x.source hx.spot mine' (hy.source ▸ hne.symm) (fun _ _ => ?_) f
    · simpa using this
    · rw [Standing.isAfter, hy.source, Text.before_iff_lt]
      exact hlt
  have hwithin := ask_within hT hx.spot he
  have hwithin' := ask_within hT hy.spot hf
  rw [← hx.standing] at hspot
  rw [← hy.standing] at hspot'
  rw [ask_new hx.spot] at he
  rw [ask_new hy.spot] at hf
  obtain ⟨s, hs, hse⟩ := exists_of_map_eq_ok he
  obtain ⟨s', hs', hse'⟩ := exists_of_map_eq_ok hf
  rw [ask_new hspot, ask_new hspot', hs, hs']
  refine ⟨_, _, rfl, rfl, ?_⟩
  cases hse
  cases hse'
  -- The smaller module, put before the statement of the larger one.
  have hsecond := Change.on_on_inside (g := mine'.before.fill s) (p := (gapAt l r T.top).lead)
    (q := s' ++ (gapAt l r T.top).trail) hwithin'.start_le hwithin'.stop_le
    (append_assoc _ _ _) hy.start rfl
  rw [gapAt_cons, hsecond]
  -- The larger one, put behind the statement of the smaller one or before the next statement.
  cases r with
  | cons σ r =>
    have hfirst := Change.on_on_inside (g := (σ.movedBy (σ.before.fill s)).before.fill s')
      (p := (σ.before.fill s).text) (q := []) hwithin.start_le hwithin.stop_le (append_nil _).symm
      (by simp [Gap.fill, Standing.before, Standing.movedBy, Change.shift]) rfl
    refine hfirst.trans ?_
    simp [Gap.fill, Standing.before]
  | nil =>
    have hplace : (mine.behind.fill s').start =
        ((gapAt l [] T.top).fill s).start + byteSize ((gapAt l [] T.top).lead ++ s) := by
      simp only [Gap.fill, Standing.behind, Standing.stop, hx.start, hx.length, byteSize_append]
      omega
    have hfirst := Change.on_on_inside (g := mine.behind.fill s') (p := (gapAt l [] T.top).lead ++ s)
      (q := (gapAt l [] T.top).trail) hwithin.start_le hwithin.stop_le rfl hplace rfl
    rw [map_nil, gapAt_concat]
    refine hfirst.trans ?_
    simp [Gap.fill, Standing.before, Standing.behind]

end

/-! ## Two operations in either order -/

/-- The change of an operation adds or changes exactly the statement of its module. -/
def Table.Gains (T : Table) (op : AddImport) (e : Change) (T' : Table) : Prop :=
  ∃ l own r mine, T.GainsAt op e T' l own r mine

section
variable {T T' T'' : Table} {x y : AddImport} {e f : Change} {bytes : Bytes}

theorem ask_swap_of_le {l m r : List Standing} {ox oy : Option Standing} {mx my : Standing} (hT : T.Fits bytes.length)
    (hne : x.source ≠ y.source) (he : T.ask x = .ok (some e)) (hf : T.ask y = .ok (some f))
    (hx : T.GainsAt x e T' l ox (m ++ (oy.toList ++ r)) mx) (hy : T.GainsAt y f T'' (l ++ (ox.toList ++ m)) oy r my) :
    ∃ e' f', T'.ask y = .ok (some f') ∧ T''.ask x = .ok (some e') ∧ f'.on (e.on bytes) = e'.on (f.on bytes) := by
  by_cases hapart : ox.toList ++ (m ++ oy.toList) = []
  · simp only [append_eq_nil_iff, Option.toList_eq_nil_iff] at hapart
    obtain ⟨rfl, rfl, rfl⟩ := hapart
    simp only [Option.toList_none, nil_append, append_nil] at hx hy
    have hne' : x.source.toList ≠ y.source.toList := fun h => hne (String.toList_injective h)
    rcases lt_or_gt_of_ne hne' with hlt | hlt
    · exact ask_swap_of_sameGap hT hx hy hlt he hf
    · obtain ⟨f', e', hf', he', heq⟩ := ask_swap_of_sameGap hT hy hx hlt hf he
      exact ⟨e', f', he', hf', heq.symm⟩
  · have hwx := ask_within hT hx.spot he
    have hwy := ask_within hT hy.spot hf
    refine ⟨e, f.movedBy e, ?_, ?_, ?_⟩
    · exact ask_of_earlier hx hy.spot hne hapart hwx hf
    · rw [ask_of_later hx.spot hy hne hapart hwy, he]
    · exact Change.movedBy_on_on hwx.start_le (hwx.stop_le_start hwy hapart) hwy.start_le hwy.stop_le

/-- **Two operations that both change something** do so in either order, and come to the same bytes. -/
theorem ask_swap (hT : T.Fits bytes.length) (hne : x.source ≠ y.source) (he : T.ask x = .ok (some e))
    (hf : T.ask y = .ok (some f)) (hx : T.Gains x e T') (hy : T.Gains y f T'') :
    ∃ e' f', T'.ask y = .ok (some f') ∧ T''.ask x = .ok (some e') ∧ f'.on (e.on bytes) = e'.on (f.on bytes) := by
  obtain ⟨lx, ox, rx, mx, hx⟩ := hx
  obtain ⟨ly, oy, ry, my, hy⟩ := hy
  rcases hx.spot.apart hy.spot hne with ⟨m, rfl, rfl⟩ | ⟨m, rfl, rfl⟩
  · exact ask_swap_of_le hT hne he hf hx hy
  · obtain ⟨f', e', he', hf', heq⟩ := ask_swap_of_le hT hne.symm hf he hy hx
    exact ⟨e', f', hf', he', heq.symm⟩

/-- What changes nothing before another operation changes nothing after it, for the same reason. -/
theorem ask_quiet (hne : x.source ≠ y.source) (hx : T.Gains x e T') (hquiet : ∀ f, T.ask y ≠ .ok (some f)) :
    T'.ask y = T.ask y := by
  obtain ⟨l, own, r, mine, hx⟩ := hx
  have hskip : ∀ σ : Standing, σ.source = x.source → (σ.source == y.source) = false := by
    intro σ hσ
    rw [hσ, beq_eq_false_iff_ne]
    exact hne
  have hown : own.toList.find? (·.source == y.source) = none := by
    cases own with
    | none => rfl
    | some σ => simp [hskip σ (hx.spot.own_source σ rfl)]
  have hmine : (mine.source == y.source) = false := hskip mine hx.source
  unfold Table.ask at hquiet ⊢
  rw [hx.spot.split, find?_append, find?_append, hown, Option.none_or] at hquiet ⊢
  have hcomp : ((fun σ : Standing => σ.source == y.source) ∘ fun σ : Standing => σ.movedBy e) =
    fun σ => σ.source == y.source := rfl
  rw [hx.standing, find?_append, find?_cons, hmine, find?_map, hcomp]
  generalize l.find? (·.source == y.source) = left at hquiet ⊢
  generalize r.find? (·.source == y.source) = right at hquiet ⊢
  cases left with
  | some τ => rfl
  | none =>
    cases right with
    | some τ =>
      -- The answer depends on where the statement is only if it is a change.
      have hext : (τ.movedBy e).extension y = τ.extension y := rfl
      simp only [Option.none_or, Option.map_some, hext] at hquiet ⊢
      cases hc : τ.extension y with
      | error err => rfl
      | ok c =>
        cases c with
        | none => rfl
        | some d => exact absurd (by rw [hc]; rfl) (hquiet (τ.change d))
    | none =>
      simp only [Option.none_or, Option.map_none] at hquiet ⊢
      cases hs : statementText y.source y.names y.defaultName y.namespaceName y.isTypeOnly with
      | error err => rfl
      | ok statement => exact absurd (by rw [hs]; rfl) (hquiet ((T.gap y.source).fill statement))

end

end SourceBench.Imports
