import SourceBench.Proofs.Layout.Shape
import SourceBench.Proofs.Syntax.Cover
import SourceBench.Proofs.Text.Lines

/-!
# Tokens in their source

The tokens that printing works on stand in the source one after another with only blanks between them (`parse_laid`),
each at its place, and the text of each begins and ends as its kind asks for (`parse_sound`).
-/
namespace SourceBench.Layout

open Syntax Cursor List

variable {k : Kind} {r : Role} {s : Span} {t : Tree}

/-! ## Text at a span -/

theorem dropBytes_append : ∀ (a b : List Char), dropBytes (Utf8.byteSize a) (a ++ b) = b
  | [], [] => rfl
  | [], _ :: _ => rfl
  | c :: a, b => by
    have hpos := Char.utf8Size_pos c
    rw [cons_append, dropBytes, Utf8.byteSize_cons, if_neg (by omega), Nat.add_sub_cancel_left, dropBytes_append a b]

theorem takeBytes_append : ∀ (a b : List Char), takeBytes (Utf8.byteSize a) (a ++ b) = a
  | [], [] => rfl
  | [], _ :: _ => rfl
  | c :: a, b => by
    have hpos := Char.utf8Size_pos c
    rw [cons_append, takeBytes, Utf8.byteSize_cons, if_neg (by omega), Nat.add_sub_cancel_left, takeBytes_append a b]

variable {c d : Cursor} {source text : List Char}

theorem passes_unique {a b : List Char} (ha : c.Passes a d) (hb : c.Passes b d) : a = b :=
  append_cancel_right (ha.1.symm.trans hb.1)

def Within (source : List Char) (c : Cursor) : Prop := ∃ before, (Cursor.ofSource source).Passes before c

theorem Within.passes (h : Within source c) (hpass : c.Passes text d) : Within source d := by
  obtain ⟨before, hbefore⟩ := h
  exact ⟨before ++ text, hbefore.trans hpass⟩

theorem Within.blankTo (h : Within source c) (hgap : c.BlankTo d) : Within source d := by
  obtain ⟨gap, hpass, -⟩ := hgap
  exact h.passes hpass

theorem slice_of_passes {source text : List Char} {c d : Cursor} (hc : Within source c) (h : c.Passes text d) :
    slice source ⟨c.pos, d.pos⟩ = text := by
  obtain ⟨before, hbefore⟩ := hc
  have hsource : source = before ++ (text ++ d.rest) := by
    have := hbefore.1
    rwa [h.1] at this
  have hstart : c.pos.byte = Utf8.byteSize before := by
    rw [hbefore.byte_eq]
    exact Nat.zero_add _
  rw [slice, sliceBytes, h.byte_eq, Nat.add_sub_cancel_left, hstart, hsource, dropBytes_append, takeBytes_append]

/-! ## Laid tokens -/

/-- The tokens stand one after another from one cursor to another, with only blanks before each. -/
def Laid : List Placed → Cursor → Cursor → Prop
  | [], c, d => c = d
  | p :: ps, c, e =>
    ∃ c' d, c.BlankTo c' ∧ c'.Passes p.text d ∧ p.tree.span = ⟨c'.pos, d.pos⟩ ∧ Laid ps d e

theorem laid_append : ∀ (ps qs : List Placed) (c e : Cursor), Laid (ps ++ qs) c e ↔ ∃ d, Laid ps c d ∧ Laid qs d e
  | [], qs, c, e => by simp [Laid]
  | p :: ps, qs, c, e => by
    simp only [cons_append, Laid, laid_append ps qs]
    constructor
    · rintro ⟨c', d, hgap, hpass, hspan, m, hps, hqs⟩
      exact ⟨m, ⟨c', d, hgap, hpass, hspan, hps⟩, hqs⟩
    · rintro ⟨m, ⟨c', d, hgap, hpass, hspan, hps⟩, hqs⟩
      exact ⟨c', d, hgap, hpass, hspan, m, hps, hqs⟩

theorem Laid.of_blankTo {ps : List Placed} {b : Cursor} (hgap : b.BlankTo c) (h : Laid ps c d) (hne : ps ≠ []) :
    Laid ps b d := by
  cases ps with
  | nil => exact absurd rfl hne
  | cons p ps =>
    obtain ⟨c', d', hgap', hpass, hspan, hps⟩ := h
    exact ⟨c', d', hgap.trans hgap', hpass, hspan, hps⟩

theorem mem_placedOf {around : List Tree} {q : Placed} : ∀ {ts : List Tree},
    q ∈ placedOf source around ts ↔ ∃ t ∈ ts, q ∈ placed source around t
  | [] => by simp [placedOf]
  | t :: ts => by
    have ih := @mem_placedOf around q ts
    simp [placedOf, ih]

theorem coversAll_within : ∀ {ts : List Tree} {c d : Cursor}, coversAll ts c d → Within source c →
    ∀ t ∈ ts, ∃ c' d', t.Covers c' d' ∧ Within source c'
  | t :: ts, c, d, ⟨c', e, hgap, ht, hts⟩, hc, u, hu => by
    obtain ⟨text, -, hpass⟩ := ht.passes
    rcases mem_cons.1 hu with rfl | hu
    · exact ⟨c', e, ht, hc.blankTo hgap⟩
    · exact coversAll_within hts ((hc.blankTo hgap).passes hpass) u hu

theorem placed_ne_nil (source : List Char) : ∀ {t : Tree} {c d : Cursor} (around : List Tree), t.Covers c d →
    placed source around t ≠ []
  | .leaf _ _ _ _, _, _, _, _ => cons_ne_nil _ _
  | .node _ _ _ [], _, _, _, h => h.elim
  | .node r k s (t :: ts), _, _, around, ⟨_, _, ht, _⟩ => by
    rw [placed]
    split
    · exact cons_ne_nil _ _
    · rw [placedOf]
      exact append_ne_nil_of_left_ne_nil (placed_ne_nil source _ ht) _

mutual
theorem placed_laid (source : List Char) : ∀ {t : Tree} {c d : Cursor} (around : List Tree), t.Covers c d →
    Within source c → Laid (placed source around t) c d
  | .leaf r k s text, c, d, around, h, _ => ⟨c, d, blankTo_refl c, h.2.1, h.2.2, rfl⟩
  | .node _ _ _ [], _, _, _, h, _ => h.elim
  | .node r k s (t :: ts), c, d, around, h, hc => by
    rw [placed]
    split
    · obtain ⟨text, -, hpass⟩ := h.passes
      refine ⟨c, d, blankTo_refl c, ?_, h.1, rfl⟩
      rw [h.1, slice_of_passes hc hpass]
      exact hpass
    · obtain ⟨-, e, ht, hts⟩ := h
      obtain ⟨text, -, hpass⟩ := ht.passes
      rw [placedOf, laid_append]
      exact ⟨e, placed_laid source _ ht hc, placedOf_laid source _ hts (hc.passes hpass)⟩
theorem placedOf_laid (source : List Char) : ∀ {ts : List Tree} {c d : Cursor} (around : List Tree), coversAll ts c d →
    Within source c → Laid (placedOf source around ts) c d
  | [], _, _, _, h, _ => h
  | t :: ts, c, d, around, ⟨c', e, hgap, ht, hts⟩, hc => by
    have hc' := hc.blankTo hgap
    obtain ⟨text, -, hpass⟩ := ht.passes
    rw [placedOf, laid_append]
    exact ⟨e, (placed_laid source around ht hc').of_blankTo hgap (placed_ne_nil source around ht),
      placedOf_laid source around hts (hc'.passes hpass)⟩
end

/-! ## The texts of tokens -/

def Firm (text : List Char) : Prop :=
  (∃ a r, text = a :: r ∧ isInk a = true) ∧ ∃ r b, text = r ++ [b] ∧ isInk b = true

theorem firm_of_solid (h : Solid text) (hne : text ≠ []) : Firm text := by
  constructor
  · cases text with
    | nil => exact absurd rfl hne
    | cons a r => exact ⟨a, r, rfl, (solid_cons.1 h).1⟩
  · rcases eq_nil_or_concat' text with rfl | ⟨r, b, rfl⟩
    · exact absurd rfl hne
    · exact ⟨r, b, rfl, (solid_cons.1 (solid_append.1 h).2).1⟩

def TokenText (k : Kind) (text : List Char) : Prop :=
  if k = .comment then CommentText text else if k = .hashBangLine then InterpreterText text else Firm text

def Placed.Sound (p : Placed) : Prop := TokenText p.tree.kind p.text

theorem Fits.tokenText {p : Place} (h : Fits p (.leaf r k s text)) (hp : p.loose = false)
    (hne : text ≠ []) : TokenText k text := by
  simp only [Fits, hp, Bool.false_eq_true, false_or] at h
  unfold TokenText
  split
  · rename_i hk
    rwa [if_pos hk] at h
  · rename_i hk
    rw [if_neg hk] at h
    split
    · rename_i hb
      rwa [if_pos hb] at h
    · rename_i hb
      rw [if_neg hb] at h
      exact firm_of_solid h.1 hne

/-- Trees between solid leaves were read from a text that begins and ends with ink. -/
theorem Enclosed.firm {cs : List Tree} (hcs : Enclosed cs)
    (h : (Syntax.Tree.node r k s cs).Covers c d) (hpass : c.Passes text d) : Firm text := by
  obtain ⟨⟨a, rest, rfl, _, _, _, u, rfl, hu⟩, front, b, hfront, _, _, _, v, rfl, hv⟩ := hcs
  have hall := h.children (u := .leaf _ _ _ u) mem_cons_self
  constructor
  · obtain ⟨-, e, ha, hrest⟩ := h
    obtain ⟨w, hw⟩ := coversAll_passes hrest
    obtain ⟨⟨x, u', rfl, hx⟩, -⟩ := firm_of_solid hu ha.1
    exact ⟨x, u' ++ w, passes_unique hpass (ha.2.1.trans hw), hx⟩
  · rw [show (Syntax.Tree.node r k s (.leaf _ _ _ u :: rest)).children = _ from hfront, coversAll_append] at hall
    obtain ⟨e, hw, c', d', ⟨gap, hgap, -⟩, hb, hd⟩ := hall
    obtain ⟨w, hw⟩ := coversAll_passes hw
    obtain ⟨-, v', x, rfl, hx⟩ := firm_of_solid hv hb.1
    have hd' : d' = d := hd
    refine ⟨w ++ (gap ++ v'), x, ?_, hx⟩
    rw [passes_unique hpass (hw.trans (hgap.trans (hd' ▸ hb.2.1)))]
    simp only [append_assoc]

theorem ne_hashBangLine_of_isAtomic (h : isAtomic k) : k ≠ .hashBangLine := by
  rintro rfl
  cases h

theorem placed_sound (source : List Char) : ∀ {t : Tree} {c d : Cursor} {p : Place} (around : List Tree),
    t.Covers c d → Within source c → p.loose = false → Fits p t → AllMade t → ∀ q ∈ placed source around t, q.Sound
  | .leaf _ _ _ _, _, _, _, _, h, _, hp, hfits, _, q, hq => by
    rw [mem_singleton.1 hq]
    exact hfits.tokenText hp h.1
  | .node r k s cs, c, d, p, around, h, hc, hp, hfits, hmade, q, hq => by
    obtain ⟨hcs, -, henclosed⟩ := hmade _ (self_mem_nodes _)
    rw [placed] at hq
    split at hq
    · rename_i hatomic
      obtain ⟨text, -, hpass⟩ := h.passes
      rw [mem_singleton.1 hq]
      show TokenText k (slice source s)
      rw [show s = ⟨c.pos, d.pos⟩ from h.span_eq, slice_of_passes hc hpass, TokenText, if_neg hfits.1,
        if_neg (ne_hashBangLine_of_isAtomic hatomic)]
      exact (henclosed hatomic).firm h hpass
    · rename_i hatomic
      obtain ⟨u, hu, hq⟩ := mem_placedOf.1 hq
      obtain ⟨c', d', hu', hc'⟩ := coversAll_within (h.children hu) hc u hu
      exact placed_sound source _ hu' hc' (eq_false_of_ne_true hatomic) (hcs u hu) (hmade.child hu) q hq

/-! ## The tokens of a source -/

def tokens (source : List Char) (t : Tree) : List Placed := placed source [] t

theorem tokens_eq {span : Span} {items : List Tree} :
    tokens source (.node .plain .program span items) = placedOf source [.node .plain .program span items] items := by
  rw [tokens, placed, if_neg (show ¬ isAtomic .program = true by decide)]

theorem parse_laid (h : parse .typescript source = some t) :
    ∃ d, Laid (tokens source t) (.ofSource source) d ∧ ∀ x ∈ d.rest, isBlank x := by
  obtain ⟨items, d, e, rfl, hitems, ⟨gap, hgap, hblank⟩, hrest⟩ := parse_covers h
  refine ⟨d, ?_, fun x hx => hblank x ?_⟩
  · rw [tokens_eq]
    exact placedOf_laid source _ hitems ⟨[], passes_nil _⟩
  · rwa [hgap.1, hrest, append_nil] at hx

theorem parse_sound (h : parse .typescript source = some t) : ∀ q ∈ tokens source t, q.Sound := by
  obtain ⟨-, hmade⟩ := parse_wellMade h
  obtain ⟨items, d, e, rfl, hitems, -⟩ := parse_covers h
  rw [tokens_eq]
  intro q hq
  obtain ⟨u, hu, hq⟩ := mem_placedOf.1 hq
  obtain ⟨c', d', hu', hc'⟩ := coversAll_within hitems ⟨[], passes_nil _⟩ u hu
  exact placed_sound source _ hu' hc' rfl (hmade u hu).1 (hmade u hu).2 q hq

end SourceBench.Layout
