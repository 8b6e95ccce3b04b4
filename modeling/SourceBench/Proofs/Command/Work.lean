import SourceBench.Command.Desk

/-!
# What commands leave behind

`Ends` says, of work that starts in a workspace, in which workspaces it can end, and with what.  Most work only reads
the workspace and speaks; `Keeps` is for that.  Both are closed under doing one thing after another, so that what a
command leaves behind follows from what its parts leave behind.
-/
namespace SourceBench

variable {code : Nat} {g : Desk → Desk} {E : Halt → Workspace → Prop}

/-- A reason to end that is a fault, or a number other than 0 and 1. -/
def Halt.IsGrave : Halt → Prop
  | .exit code => 1 < code
  | .fault _ => True

theorem Halt.isGrave_exit : (Halt.exit 2).IsGrave := Nat.one_lt_two

namespace Work

variable {α β : Type} {w : Workspace}

def exec (x : Work α) (d : Desk) : Except Halt α × Desk := x.run.run d

/-- Whatever else is on the desk, work in a workspace ends with `Q`, or early with `E`. -/
structure Ends (w : Workspace) (x : Work α) (Q : α → Workspace → Prop) (E : Halt → Workspace → Prop) : Prop where
  exec : ∀ d, d.workspace = w → match x.exec d with
    | (.ok a, d') => Q a d'.workspace
    | (.error h, d') => E h d'.workspace

/-- Work that leaves the workspace as it is, and ends with `Q`, or early with `F`. -/
def Keeps (w : Workspace) (x : Work α) (Q : α → Prop) (F : Halt → Prop) : Prop :=
  Ends w x (fun a w' => w' = w ∧ Q a) (fun h w' => w' = w ∧ F h)

/-! ## Rules -/

section

variable {x : Work α} {f : α → Work β} {Q : α → Workspace → Prop} {R : β → Workspace → Prop}
  {E : Halt → Workspace → Prop}

theorem exec_bind (x : Work α) (f : α → Work β) (d : Desk) : (x >>= f).exec d = match x.exec d with
    | (.ok a, d') => (f a).exec d'
    | (.error h, d') => (.error h, d') := by
  show (ExceptT.bindCont f (x.exec d).1).run (x.exec d).2 = _
  rcases x.exec d with ⟨_ | _, d'⟩ <;> rfl

theorem Ends.pure {a : α} (h : Q a w) : Ends w (pure a) Q E := by
  constructor
  rintro d rfl
  exact h

theorem Ends.exit (h : E (.exit code) w) : Ends w (exit code) Q E := by
  constructor
  rintro d rfl
  exact h

theorem Ends.fail {f : Fault} (h : E (.fault f) w) : Ends w (fail f) Q E := by
  constructor
  rintro d rfl
  exact h

theorem Ends.modify (w' : Workspace) (h : ∀ d, d.workspace = w → (g d).workspace = w') :
    Ends w (modify g) (fun _ w'' => w'' = w') E := by
  constructor
  intro d hd
  exact h d hd

theorem Ends.bind (hx : Ends w x Q E) (hf : ∀ a w', Q a w' → Ends w' (f a) R E) : Ends w (x >>= f) R E := by
  constructor
  intro d hd
  have hfirst := hx.exec d hd
  rw [exec_bind]
  generalize x.exec d = first at hfirst ⊢
  obtain ⟨result, d'⟩ := first
  cases result with
  | error h => exact hfirst
  | ok a => exact (hf a _ hfirst).exec d' rfl

theorem Ends.mono {Q' : α → Workspace → Prop} {E' : Halt → Workspace → Prop} (h : Ends w x Q E)
    (hQ : ∀ a w', Q a w' → Q' a w') (hE : ∀ h w', E h w' → E' h w') : Ends w x Q' E' := by
  constructor
  intro d hd
  have hends := h.exec d hd
  generalize x.exec d = last at hends ⊢
  obtain ⟨result, d'⟩ := last
  cases result with
  | error h => exact hE _ _ hends
  | ok a => exact hQ _ _ hends

end

section

variable {x : Work α} {f : α → Work β} {P : α → Prop} {Q : β → Prop} {F : Halt → Prop}

theorem Keeps.pure {a : α} (h : P a) : Keeps w (pure a) P F := Ends.pure ⟨rfl, h⟩

theorem Keeps.exit (h : F (.exit code)) : Keeps w (exit code) P F := Ends.exit ⟨rfl, h⟩

theorem Keeps.fail {f : Fault} (h : F (.fault f)) : Keeps w (fail f) P F := Ends.fail ⟨rfl, h⟩

theorem Keeps.bind (hx : Keeps w x P F) (hf : ∀ a, P a → Keeps w (f a) Q F) : Keeps w (x >>= f) Q F := by
  refine Ends.bind hx ?_
  rintro a w' ⟨rfl, ha⟩
  exact hf a ha

theorem Keeps.mono {P' : α → Prop} {F' : Halt → Prop} (h : Keeps w x P F) (hP : ∀ a, P a → P' a)
    (hF : ∀ h, F h → F' h) :
    Keeps w x P' F' :=
  Ends.mono h (fun a _ ha => ⟨ha.1, hP a ha.2⟩) (fun h _ hh => ⟨hh.1, hF h hh.2⟩)

theorem Keeps.andThen {R : β → Workspace → Prop} (hx : Keeps w x P F)
    (hF : ∀ h, F h → E h w) (hf : ∀ a, P a → Ends w (f a) R E) : Ends w (x >>= f) R E := by
  refine Ends.bind (Ends.mono hx (fun _ _ h => h) ?_) ?_
  · rintro h w' ⟨rfl, hh⟩
    exact hF h hh
  · rintro a w' ⟨rfl, ha⟩
    exact hf a ha

theorem Keeps.ends {R : α → Workspace → Prop} (hx : Keeps w x P F) (hP : ∀ a, P a → R a w)
    (hF : ∀ h, F h → E h w) : Ends w x R E := by
  refine Ends.mono hx ?_ ?_
  · rintro a w' ⟨rfl, ha⟩
    exact hP a ha
  · rintro h w' ⟨rfl, hh⟩
    exact hF h hh

theorem Keeps.get : Keeps w get (fun d => d.workspace = w) F := by
  constructor
  rintro d rfl
  exact ⟨rfl, rfl⟩

theorem Keeps.modify (h : ∀ d, (g d).workspace = d.workspace) : Keeps w (modify g) (fun _ => True) F := by
  constructor
  rintro d rfl
  exact ⟨h d, trivial⟩

theorem Keeps.optional {c : Prop} [Decidable c] {y : Work Unit} {k : Unit → Work β} (hy : Keeps w y (fun _ => True) F)
    (hk : Keeps w (k ()) Q F) : Keeps w (if c then y >>= k else k ()) Q F := by
  by_cases hc : c
  · rw [if_pos hc]
    exact Keeps.bind hy fun _ _ => hk
  · rw [if_neg hc]
    exact hk

theorem Keeps.store : Keeps w store (fun s => s = w.store) F :=
  Keeps.bind Keeps.get fun _ hd => Keeps.pure (by rw [hd])

theorem Keeps.forM {γ : Type} {g : γ → Work PUnit} (hg : ∀ c, Keeps w (g c) (fun _ => True) F) :
    ∀ cs : List γ, Keeps w (cs.forM g) (fun _ => True) F
  | [] => Keeps.pure trivial
  | c :: cs => Keeps.bind (hg c) fun _ _ => Keeps.forM hg cs

end

/-! ## Speaking -/

section

variable {F : Halt → Prop}

theorem keeps_write (cs : List Char) : Keeps w (write cs) (fun _ => True) F := Keeps.modify fun _ => rfl

theorem keeps_writeError (cs : List Char) : Keeps w (writeError cs) (fun _ => True) F := Keeps.modify fun _ => rfl

theorem keeps_plain (text : String) (hF : ∀ f, F (.fault f)) : Keeps w (plain text) (fun _ => True) F := by
  unfold plain
  split
  · exact Keeps.pure trivial
  · exact Keeps.fail (hF _)

theorem keeps_complain (text : String) (hF : ∀ f, F (.fault f)) : Keeps w (complain text) (fun _ => True) F :=
  Keeps.bind (keeps_plain text hF) fun _ _ => keeps_writeError _

theorem keeps_refuse {α : Type} {P : α → Prop} (text : String) (hF : ∀ f, F (.fault f)) (hcode : F (.exit code)) :
    Keeps w (do complain text; exit code) P F :=
  Keeps.bind (keeps_complain text hF) fun _ _ => Keeps.exit hcode

theorem keeps_log (level : Level) (part message : String) : Keeps w (log level part message) (fun _ => True) F := by
  refine Keeps.bind Keeps.get fun d _ => ?_
  split
  · exact keeps_writeError _
  · exact Keeps.pure trivial

end

/-! ## Reading -/

/-- Work that needs the text of a file ends for a grave reason, or with 1 if there is no such text. -/
def Unread (w : Workspace) (p : Pathname) (h : Halt) : Prop :=
  h.IsGrave ∨ h = .exit 1 ∧ ∃ e, w.store.readText p = .error e

theorem keeps_readSource (p : Pathname) : Keeps w (readSource p) (fun cs => w.store.readText p = .ok cs)
    (Unread w p) := by
  refine Keeps.bind Keeps.store ?_
  rintro s rfl
  split
  · next cs hread => exact Keeps.pure hread
  · next e hread => exact keeps_refuse _ (fun f => .inl trivial) (.inr ⟨rfl, e, hread⟩)

theorem keeps_needGrammar (dialect : Syntax.Dialect) : Keeps w (needGrammar dialect) (fun _ => True) Halt.IsGrave := by
  refine Keeps.bind Keeps.get fun d _ => ?_
  split
  · exact keeps_refuse _ (fun f => trivial) Halt.isGrave_exit
  · refine Keeps.bind Keeps.get fun d _ => ?_
    split
    · exact Keeps.bind (Keeps.modify fun _ => rfl) fun _ _ => keeps_log _ _ _
    · exact Keeps.pure trivial

/-! ## Writing files -/

section

variable {E : Halt → Workspace → Prop} {p : Pathname} {cs : List Char}

theorem ends_replace {verb : String} {Q : Workspace → Prop}
    (h : match Backup.replace w p cs (.str (verb ++ " " ++ p.name)) true with
      | (w', .ok _) => Q w'
      | (w', .error e) => E (.fault (.file e)) w') :
    Ends w (replaceFile p cs verb) (fun _ => Q) E := by
  refine Keeps.andThen Keeps.get (fun _ h => False.elim h) fun d hd => ?_
  rw [hd]
  generalize Backup.replace w p cs (.str (verb ++ " " ++ p.name)) true = result at h ⊢
  obtain ⟨w', made⟩ := result
  dsimp only
  refine Ends.bind (Ends.modify w' fun _ _ => rfl) ?_
  rintro _ _ rfl
  cases made with
  | error e => exact Ends.bind (Ends.fail h) fun _ _ h => False.elim h
  | ok id =>
    refine Keeps.andThen (Keeps.pure (P := fun _ => True) trivial) (fun _ h => False.elim h) fun id _ => ?_
    refine Keeps.andThen (keeps_log _ _ _) (fun _ h => False.elim h) fun _ _ => ?_
    exact Ends.pure h

theorem ends_create {overwrite : Bool} {Q : Bool → Workspace → Prop} (h : match w.store.create p cs overwrite with
      | (s, .ok done) => Q done { w with store := s }
      | (s, .error e) => E (.fault (.file e)) { w with store := s }) :
    Ends w (createFile p cs overwrite) Q E := by
  refine Keeps.andThen Keeps.store (fun _ h => False.elim h) fun s hs => ?_
  subst hs
  generalize w.store.create p cs overwrite = result at h ⊢
  obtain ⟨s, done⟩ := result
  dsimp only
  refine Ends.bind (Ends.modify { w with store := s } fun d hd => by rw [hd]) ?_
  rintro _ _ rfl
  cases done with
  | error e => exact Ends.bind (Ends.fail h) fun _ _ h => False.elim h
  | ok done =>
    refine Keeps.andThen (Keeps.pure (P := fun a => a = done) rfl) (fun _ h => False.elim h) fun a ha => ?_
    rw [ha]
    have hlast : Ends { w with store := s } (Pure.pure done) Q E := Ends.pure h
    by_cases hdone : (!done)
    · rw [if_pos hdone]
      exact Keeps.andThen (keeps_log _ _ _) (fun _ h => False.elim h) fun _ _ => hlast
    · rw [if_neg hdone]
      exact hlast

end

end Work
end SourceBench
