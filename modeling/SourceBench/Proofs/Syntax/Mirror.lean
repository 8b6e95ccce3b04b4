import Mathlib.Data.List.Forall2
import SourceBench.Proofs.Layout.Shape

/-!
# Trees of the same shape

Two trees mirror each other when they have the same kinds and roles all the way down; what else is asked of trees at the
same place in both is a parameter.  Looking for children by role, by kind or by being named finds trees at the same
place.
-/
namespace SourceBench.Syntax

open List

variable {P Q R : Tree → Tree → Prop}

mutual
/-- The trees have the same kinds and roles, and those at the same place are related. -/
def Mirror (P : Tree → Tree → Prop) : Tree → Tree → Prop
  | .leaf r k s a, .leaf r' k' s' b => r = r' ∧ k = k' ∧ P (.leaf r k s a) (.leaf r' k' s' b)
  | .node r k s ts, .node r' k' s' us =>
    r = r' ∧ k = k' ∧ P (.node r k s ts) (.node r' k' s' us) ∧ mirrorAll P ts us
  | .leaf _ _ _ _, .node _ _ _ _ => False
  | .node _ _ _ _, .leaf _ _ _ _ => False
def mirrorAll (P : Tree → Tree → Prop) : List Tree → List Tree → Prop
  | [], [] => True
  | t :: ts, u :: us => Mirror P t u ∧ mirrorAll P ts us
  | [], _ :: _ => False
  | _ :: _, [] => False
end

section Decide

variable {P : Tree → Tree → Prop} [∀ t u, Decidable (P t u)]

mutual
def decideMirror : ∀ t u : Tree, Decidable (Mirror P t u)
  | .leaf r k s a, .leaf r' k' s' b =>
    inferInstanceAs (Decidable (r = r' ∧ k = k' ∧ P (.leaf r k s a) (.leaf r' k' s' b)))
  | .node r k s ts, .node r' k' s' us =>
    have := decideMirrorAll ts us
    inferInstanceAs (Decidable (r = r' ∧ k = k' ∧ P (.node r k s ts) (.node r' k' s' us) ∧ mirrorAll P ts us))
  | .leaf _ _ _ _, .node _ _ _ _ => isFalse id
  | .node _ _ _ _, .leaf _ _ _ _ => isFalse id
def decideMirrorAll : ∀ ts us : List Tree, Decidable (mirrorAll P ts us)
  | [], [] => isTrue trivial
  | t :: ts, u :: us =>
    have := decideMirror t u
    have := decideMirrorAll ts us
    inferInstanceAs (Decidable (Mirror P t u ∧ mirrorAll P ts us))
  | [], _ :: _ => isFalse id
  | _ :: _, [] => isFalse id
end

instance (t u : Tree) : Decidable (Mirror P t u) := decideMirror t u

instance (ts us : List Tree) : Decidable (mirrorAll P ts us) := decideMirrorAll ts us

end Decide

/-! ## Pairs of lists -/

section Pairs

variable {α β γ : Type} {R : α → β → Prop} {l : List α} {l' : List β}

theorem forall₂_find? {p : α → Bool} {q : β → Bool} (hpq : ∀ a b, R a b → p a = q b) (h : Forall₂ R l l') :
    Option.Rel R (l.find? p) (l'.find? q) := by
  induction h with
  | nil => exact .none
  | @cons a b l l' hab _ ih =>
    rw [find?_cons, find?_cons, hpq a b hab]
    cases q b with
    | true => exact .some hab
    | false => exact ih

theorem forall₂_filter {p : α → Bool} {q : β → Bool} (hpq : ∀ a b, R a b → p a = q b) (h : Forall₂ R l l') :
    Forall₂ R (l.filter p) (l'.filter q) :=
  rel_filter (fun a b hab => iff_of_eq (congrArg (· = true) (hpq a b hab))) h

theorem forall₂_mem (h : Forall₂ R l l') : Forall₂ (fun a b => a ∈ l ∧ b ∈ l' ∧ R a b) l l' := by
  have hleft := (forall₂_and_left l l').2 ⟨fun a (ha : a ∈ l) => ha, h⟩
  have hright := (forall₂_and_left l' l).2 ⟨fun b (hb : b ∈ l') => hb, hleft.flip⟩
  exact hright.flip.imp fun a b hab => ⟨hab.2.1, hab.1, hab.2.2⟩

theorem forall₂_getLast? (h : Forall₂ R l l') : Option.Rel R l.getLast? l'.getLast? := by
  have hreverse := forall₂_reverse_iff.2 h
  rw [← head?_reverse, ← head?_reverse]
  generalize l.reverse = m, l'.reverse = m' at hreverse
  cases hreverse with
  | nil => exact .none
  | cons hab _ => exact .some hab

theorem forall_mem_iff_of_forall₂ {p : α → Prop} {q : β → Prop} (hpq : ∀ a b, R a b → (p a ↔ q b))
    (h : Forall₂ R l l') :
    (∀ a ∈ l, p a) ↔ ∀ b ∈ l', q b := by
  induction h with
  | nil => simp
  | cons hab _ ih => rw [forall_mem_cons, forall_mem_cons, hpq _ _ hab, ih]

theorem map_eq_of_forall₂ {f : α → γ} {g : β → γ} (hfg : ∀ a b, R a b → f a = g b) (h : Forall₂ R l l') :
    l.map f = l'.map g := by
  induction h with
  | nil => rfl
  | cons hab _ ih => rw [map_cons, map_cons, hfg _ _ hab, ih]

theorem flatMap_eq_of_forall₂ {f : α → List γ} {g : β → List γ} (hfg : ∀ a b, R a b → f a = g b) (h : Forall₂ R l l') :
    l.flatMap f = l'.flatMap g := by
  rw [flatMap_def, flatMap_def, map_eq_of_forall₂ hfg h]

theorem any_eq_of_forall₂ {p : α → Bool} {q : β → Bool} (hpq : ∀ a b, R a b → p a = q b) (h : Forall₂ R l l') :
    l.any p = l'.any q := by
  induction h with
  | nil => rfl
  | cons hab _ ih => rw [any_cons, any_cons, hpq _ _ hab, ih]

theorem filterMap_eq_of_forall₂ {f : α → Option γ} {g : β → Option γ} (hfg : ∀ a b, R a b → f a = g b)
    (h : Forall₂ R l l') :
    l.filterMap f = l'.filterMap g := by
  induction h with
  | nil => rfl
  | cons hab _ ih => rw [filterMap_cons, filterMap_cons, hfg _ _ hab, ih]

theorem optionMap_eq_of_rel {f : α → γ} {g : β → γ} {o : Option α} {o' : Option β} (hfg : ∀ a b, R a b → f a = g b)
    (h : Option.Rel R o o') : o.map f = o'.map g := by
  cases h with
  | none => rfl
  | some hab => exact congrArg some (hfg _ _ hab)

end Pairs

/-! ## Parts of trees that mirror each other -/

theorem mirrorAll_iff : ∀ {ts us : List Tree}, mirrorAll P ts us ↔ Forall₂ (Mirror P) ts us
  | [], [] => by simp [mirrorAll]
  | t :: ts, u :: us => by rw [mirrorAll, forall₂_cons, mirrorAll_iff]
  | [], _ :: _ => by simp [mirrorAll]
  | _ :: _, [] => by simp [mirrorAll]

theorem Mirror.parts : ∀ {t u : Tree}, Mirror P t u →
    t.role = u.role ∧ t.kind = u.kind ∧ P t u ∧ Forall₂ (Mirror P) t.children u.children
  | .leaf _ _ _ _, .leaf _ _ _ _, h => ⟨h.1, h.2.1, h.2.2, .nil⟩
  | .node _ _ _ _, .node _ _ _ _, h => ⟨h.1, h.2.1, h.2.2.1, mirrorAll_iff.1 h.2.2.2⟩
  | .leaf _ _ _ _, .node _ _ _ _, h => h.elim
  | .node _ _ _ _, .leaf _ _ _ _, h => h.elim

section
variable {ts us : List Tree} (h : Forall₂ (Mirror P) ts us)

include h

theorem forall₂_ofKind (p : Kind → Bool) : Forall₂ (Mirror P) (ts.filter (p ·.kind)) (us.filter (p ·.kind)) :=
  forall₂_filter (fun _ _ hab => by rw [hab.parts.2.1]) h

theorem find?_ofKind (p : Kind → Bool) : Option.Rel (Mirror P) (ts.find? (p ·.kind)) (us.find? (p ·.kind)) :=
  forall₂_find? (fun _ _ hab => by rw [hab.parts.2.1]) h

theorem flatMap_ofKind {α : Type} {f g : Tree → List α} (hfg : ∀ t u, Mirror P t u → f t = g u) (p : Kind → Bool) :
    (ts.filter (p ·.kind)).flatMap f = (us.filter (p ·.kind)).flatMap g :=
  flatMap_eq_of_forall₂ hfg (forall₂_ofKind h p)

end

namespace Mirror

variable {t u : Tree} (h : Mirror P t u)

include h

theorem role_eq : t.role = u.role := h.parts.1

theorem kind_eq : t.kind = u.kind := h.parts.2.1

theorem related : P t u := h.parts.2.2.1

theorem children : Forall₂ (Mirror P) t.children u.children := h.parts.2.2.2

theorem child? (r : Role) : Option.Rel (Mirror P) (t.child? r) (u.child? r) :=
  forall₂_find? (fun _ _ hab => by rw [hab.role_eq]) h.children

theorem namedChildren : Forall₂ (Mirror P) t.namedChildren u.namedChildren :=
  forall₂_filter (fun _ _ hab => by rw [Tree.isNamed, Tree.isNamed, hab.kind_eq]) h.children

theorem ofKind (p : Kind → Bool) :
    Forall₂ (Mirror P) (t.namedChildren.filter (p ·.kind)) (u.namedChildren.filter (p ·.kind)) :=
  forall₂_ofKind h.namedChildren p

end Mirror

mutual
theorem Mirror.imp (hPQ : ∀ t u, P t u → Q t u) : ∀ {t u : Tree}, Mirror P t u → Mirror Q t u
  | .leaf _ _ _ _, .leaf _ _ _ _, h => ⟨h.1, h.2.1, hPQ _ _ h.2.2⟩
  | .node _ _ _ _, .node _ _ _ _, h => ⟨h.1, h.2.1, hPQ _ _ h.2.2.1, mirrorAll_imp hPQ h.2.2.2⟩
  | .leaf _ _ _ _, .node _ _ _ _, h => h.elim
  | .node _ _ _ _, .leaf _ _ _ _, h => h.elim
theorem mirrorAll_imp (hPQ : ∀ t u, P t u → Q t u) : ∀ {ts us : List Tree}, mirrorAll P ts us → mirrorAll Q ts us
  | [], [], _ => trivial
  | _ :: _, _ :: _, h => ⟨h.1.imp hPQ, mirrorAll_imp hPQ h.2⟩
  | [], _ :: _, h => h.elim
  | _ :: _, [], h => h.elim
end

mutual
theorem Mirror.trans (hPQR : ∀ t u v, P t u → Q u v → R t v) : ∀ {t u v : Tree}, Mirror P t u → Mirror Q u v →
    Mirror R t v
  | .leaf _ _ _ _, .leaf _ _ _ _, .leaf _ _ _ _, h, h' => ⟨h.1.trans h'.1, h.2.1.trans h'.2.1, hPQR _ _ _ h.2.2 h'.2.2⟩
  | .node _ _ _ _, .node _ _ _ _, .node _ _ _ _, h, h' =>
    ⟨h.1.trans h'.1, h.2.1.trans h'.2.1, hPQR _ _ _ h.2.2.1 h'.2.2.1, mirrorAll_trans hPQR h.2.2.2 h'.2.2.2⟩
  | .leaf _ _ _ _, .node _ _ _ _, _, h, _ => h.elim
  | .node _ _ _ _, .leaf _ _ _ _, _, h, _ => h.elim
  | .leaf _ _ _ _, .leaf _ _ _ _, .node _ _ _ _, _, h' => h'.elim
  | .node _ _ _ _, .node _ _ _ _, .leaf _ _ _ _, _, h' => h'.elim
theorem mirrorAll_trans (hPQR : ∀ t u v, P t u → Q u v → R t v) :
    ∀ {ts us vs : List Tree}, mirrorAll P ts us → mirrorAll Q us vs → mirrorAll R ts vs
  | [], [], [], _, _ => trivial
  | _ :: _, _ :: _, _ :: _, h, h' => ⟨h.1.trans hPQR h'.1, mirrorAll_trans hPQR h.2 h'.2⟩
  | [], _ :: _, _, h, _ => h.elim
  | _ :: _, [], _, h, _ => h.elim
  | [], [], _ :: _, _, h' => h'.elim
  | _ :: _, _ :: _, [], _, h' => h'.elim
end

mutual
theorem Mirror.nodes : ∀ {t u : Tree}, Mirror P t u → Forall₂ (Mirror P) t.nodes u.nodes
  | .leaf _ _ _ _, .leaf _ _ _ _, h => .cons h .nil
  | .node _ _ _ _, .node _ _ _ _, h => .cons h (mirrorAll_nodes h.2.2.2)
  | .leaf _ _ _ _, .node _ _ _ _, h => h.elim
  | .node _ _ _ _, .leaf _ _ _ _, h => h.elim
theorem mirrorAll_nodes : ∀ {ts us : List Tree}, mirrorAll P ts us → Forall₂ (Mirror P) (Tree.nodesOf ts)
    (Tree.nodesOf us)
  | [], [], _ => .nil
  | _ :: _, _ :: _, h => rel_append h.1.nodes (mirrorAll_nodes h.2)
  | [], _ :: _, h => h.elim
  | _ :: _, [], h => h.elim
end

end SourceBench.Syntax
