import SourceBench.Proofs.Edit.Effect
import SourceBench.Proofs.Edit.Views

/-!
# What adding an import reads

Adding an import looks at the import statements of a source and at the place before its first other statement, and at
nothing else.  `Table` holds just that, each statement with its places counted from its own first byte, so that a
statement which only moved has the same entry but for its `start`.  `Table.ask` answers an operation from the table, as
`Imports.add` does from the view (`add_eq`), and the entries of a source stand in order and inside it (`table?_fits`).
-/
namespace SourceBench.Imports

open List Operation Option
open Syntax

variable {u : Tree} {k : Kind} {m : String}

/-! ## Changes of one stretch -/

/-- Text for a stretch of bytes, with the place and the length that the import statement has after it. -/
structure Change where
  start : Nat
  stop : Nat
  text : List Char
  site : Nat
  length : Nat
deriving DecidableEq, Repr

namespace Change

def on (e : Change) (bytes : Bytes) : Bytes := bytes.take e.start ++ Utf8.encode e.text ++ bytes.drop e.stop

def shift (e : Change) (place : Nat) : Nat := place - e.stop + (e.start + Utf8.byteSize e.text)

def movedBy (f e : Change) : Change := ⟨e.shift f.start, e.shift f.stop, f.text, e.shift f.site, f.length⟩

def plan (e : Change) : Plan := .one (.replace e.start e.stop e.text)

end Change

/-! ## Statements as they stand -/

/-- Where an import statement takes more names, counted from its first byte. -/
inductive Room where
  /-- Behind the last of its names. -/
  | behindNames (place : Nat)
  /-- In the place of its empty braces. -/
  | emptyBraces (start stop : Nat)
  /-- Behind its default name, in braces of their own. -/
  | behindDefault (place : Nat)
  /-- Nowhere, so that the whole statement is written anew. -/
  | nowhere
deriving DecidableEq, Repr

def Room.Within (length : Nat) : Room → Prop
  | behindNames p => p ≤ length
  | emptyBraces a z => a ≤ z ∧ z ≤ length
  | behindDefault p => p ≤ length
  | nowhere => True

structure Standing where
  start : Nat
  length : Nat
  source : String
  record : Option ImportRecord
  room : Room
deriving DecidableEq, Repr

namespace Standing

def stop (σ : Standing) : Nat := σ.start + σ.length

def movedBy (σ : Standing) (e : Change) : Standing := { σ with start := e.shift σ.start }

/-- What to put where in the statement, counted from its first byte, so that it imports the names too. -/
def extension (σ : Standing) (op : AddImport) : Except PlanError (Option (Nat × Nat × List Char)) :=
  match σ.record with
  | none => .ok none
  | some record =>
    let fresh := newAmong (record.names.map .str) op.names
    if fresh.isEmpty then .ok none
    else if record.namespaceName.isSome then .error (.refused (.namespaceImport op.source))
    else match σ.room with
      | .behindNames p => (commaList fresh).map fun names => some (p, p, ", ".toList ++ names)
      | .emptyBraces a z => (commaList fresh).map fun names => some (a, z, braced names)
      | .behindDefault p => (commaList fresh).map fun names => some (p, p, ", ".toList ++ braced names)
      | .nowhere => (statementText op.source fresh .null .null (.bool record.isTypeOnly)).map fun s =>
        some (0, σ.length, s)

def change (σ : Standing) : Nat × Nat × List Char → Change
  | (a, z, text) => ⟨σ.start + a, σ.start + z, text, σ.start, a + Utf8.byteSize text + (σ.length - z)⟩

end Standing

/-! ## Places for a new statement -/

/-- A stretch of bytes that gives way to a new statement, with the text before and behind it. -/
structure Gap where
  start : Nat
  stop : Nat
  lead : List Char
  trail : List Char
deriving DecidableEq, Repr

def Gap.fill (g : Gap) (statement : List Char) : Change :=
  ⟨g.start, g.stop, g.lead ++ statement ++ g.trail, g.start + Utf8.byteSize g.lead, Utf8.byteSize statement⟩

def Standing.before (σ : Standing) : Gap := ⟨σ.start, σ.start, [], ['\n']⟩

def Standing.behind (σ : Standing) : Gap := ⟨σ.stop, σ.stop, ['\n'], []⟩

/-- The import statements of a source, and the place for one where there are none. -/
structure Table where
  standing : List Standing
  top : Gap
deriving DecidableEq, Repr

def Standing.isAfter (σ : Standing) (source : String) : Bool := Text.before source.toList σ.source.toList

namespace Table

def gap (T : Table) (source : String) : Gap :=
  match T.standing.find? (·.isAfter source), T.standing.getLast? with
  | some σ, _ => σ.before
  | none, some σ => σ.behind
  | none, none => T.top

def ask (T : Table) (op : AddImport) : Except PlanError (Option Change) :=
  match T.standing.find? (·.source == op.source) with
  | some σ => (σ.extension op).map (·.map σ.change)
  | none => (statementText op.source op.names op.defaultName op.namespaceName op.isTypeOnly).map fun statement =>
    some ((T.gap op.source).fill statement)

end Table

/-! ## The table of a view -/

def roomOf (t : Tree) : Room :=
  let clause := childOfKind t .importClause
  match clause.bind (childOfKind · .namedImports), clause.bind (childOfKind · .identifier) with
  | some named, _ => match (specifiers named).getLast? with
    | some last => .behindNames (last.stop - t.start)
    | none => .emptyBraces (named.start - t.start) (named.stop - t.start)
  | none, some default => .behindDefault (default.stop - t.start)
  | none, none => .nowhere

def standingOf (v : View) (t : Tree) (source : String) : Standing :=
  ⟨t.start, t.stop - t.start, source, Reading.importRecord v.text t, roomOf t⟩

def topOf (bytes : Bytes) (v : View) : Gap :=
  match (v.tree.children.takeWhile isLeading).getLast? with
  | some t => ⟨t.stop, t.stop, ['\n', '\n'], []⟩
  | none => if bytes.all Bytes.isSpace then ⟨0, bytes.length, [], ['\n']⟩ else ⟨0, 0, [], ['\n', '\n']⟩

def tableOf (bytes : Bytes) (v : View) : Table :=
  ⟨(statements v).map fun (t, m) => standingOf v t m, topOf bytes v⟩

def table? [Recovery] (bytes : Bytes) : Option Table := (Utf8.decode bytes).map fun text => tableOf bytes (.ofText text)

/-! ## Entries stand in order -/

/-- The entries of a table follow one another among so many bytes, each with its places inside it. -/
structure Table.Fits (T : Table) (size : Nat) : Prop where
  ordered : T.standing.Pairwise fun σ τ => σ.stop ≤ τ.start
  inside : ∀ σ ∈ T.standing, 0 < σ.length ∧ σ.stop ≤ size ∧ σ.room.Within σ.length
  top_inside : T.top.start ≤ T.top.stop ∧ T.top.stop ≤ size

variable {t : Tree} {v : View} {bytes : Bytes} {T : Table} {text : List Char}

theorem mem_children_of_childOfKind (h : childOfKind t k = some u) : u ∈ t.children :=
  (mem_filter.1 (mem_of_find?_eq_some h)).1

theorem mem_children_of_mem_specifiers (h : u ∈ specifiers t) : u ∈ t.children :=
  (mem_filter.1 (mem_filter.1 h).1).1

theorem mem_children_of_mem_statements (h : (t, m) ∈ statements v) : t ∈ v.tree.children := by
  obtain ⟨u, hu, hm⟩ := mem_filterMap.1 h
  obtain ⟨s, -, hs⟩ := map_eq_some_iff.1 hm
  cases hs
  exact (mem_filter.1 (mem_filter.1 hu).1).1

theorem statements_pairwise (h : v.tree.children.Pairwise fun u w => u.stop ≤ w.start) :
    (statements v).Pairwise fun p q => p.1.stop ≤ q.1.start := by
  refine List.Pairwise.filterMap _ ?_ ((h.filter _).filter _)
  intro t u htu p hp q hq
  obtain ⟨a, -, rfl⟩ := map_eq_some_iff.1 hp
  obtain ⟨b, -, rfl⟩ := map_eq_some_iff.1 hq
  exact htu

theorem mem_nodes_of_clausePart (h : (childOfKind t .importClause).bind (childOfKind · k) = some u) : u ∈ t.nodes := by
  obtain ⟨clause, hclause, hu⟩ := bind_eq_some_iff.1 h
  exact Layout.nodes_trans (Layout.mem_nodes_of_child (mem_children_of_childOfKind hclause))
    (Layout.mem_nodes_of_child (mem_children_of_childOfKind hu))

theorem mem_nodes_of_specifier {named : Tree} (h : (childOfKind t .importClause).bind (childOfKind · k) = some named)
    (hu : u ∈ specifiers named) : u ∈ t.nodes :=
  Layout.nodes_trans (mem_nodes_of_clausePart h) (Layout.mem_nodes_of_child (mem_children_of_mem_specifiers hu))

theorem roomOf_within (ht : ∀ u ∈ t.nodes, u.Coherent text) : (roomOf t).Within (t.stop - t.start) := by
  unfold roomOf
  simp only
  split
  · rename_i named _ hnamed
    have hin := Tree.places_of_mem ht (mem_nodes_of_clausePart hnamed)
    split
    · rename_i last hlast
      have hin' := Tree.places_of_mem ht (mem_nodes_of_specifier hnamed (mem_of_getLast? hlast))
      show last.stop - t.start ≤ _
      omega
    · exact ⟨by omega, by omega⟩
  · rename_i default _ hdefault
    have hin := Tree.places_of_mem ht (mem_nodes_of_clausePart hdefault)
    show default.stop - t.start ≤ _
    omega
  · trivial

theorem topOf_inside (h : ∀ u ∈ v.tree.children, u.stop ≤ bytes.length) :
    (topOf bytes v).start ≤ (topOf bytes v).stop ∧ (topOf bytes v).stop ≤ bytes.length := by
  unfold topOf
  split
  · rename_i t ht
    exact ⟨Nat.le_refl _, h t ((takeWhile_sublist _).subset (mem_of_getLast? ht))⟩
  · split
    · exact ⟨Nat.zero_le _, Nat.le_refl _⟩
    · exact ⟨Nat.le_refl _, Nat.zero_le _⟩

theorem table?_fits [SoundRecovery] (h : table? bytes = some T) : T.Fits bytes.length := by
  obtain ⟨text, htext, rfl⟩ := map_eq_some_iff.1 h
  obtain ⟨hpair, hsolid⟩ := View.ofText_children text
  have hinside : ∀ u ∈ (View.ofText text).tree.children, u.stop ≤ bytes.length := fun u hu => by
    rw [← Utf8.encode_of_decode htext]
    exact View.stop_le_length (Layout.mem_nodes_of_child hu)
  refine ⟨?_, ?_, topOf_inside hinside⟩
  · refine pairwise_map.2 ((statements_pairwise hpair).imp_of_mem fun {p q} hp _ hpq => ?_)
    have := hsolid p.1 (mem_children_of_mem_statements hp)
    show p.1.start + (p.1.stop - p.1.start) ≤ q.1.start
    omega
  · intro σ hσ
    obtain ⟨⟨t, m⟩, hm, rfl⟩ := mem_map.1 hσ
    have ht := mem_children_of_mem_statements hm
    have := hsolid t ht
    have := hinside t ht
    refine ⟨Nat.sub_pos_of_lt (hsolid t ht), ?_, roomOf_within (View.coherent_below ht)⟩
    show t.start + (t.stop - t.start) ≤ _
    omega

/-! ## Plans from the table -/

def planOf : Option Change → Plan
  | none => .none
  | some e => e.plan

theorem change_plan {p q : Nat} (hp : t.start ≤ p) (hq : t.start ≤ q) (text : List Char) :
    ((standingOf v t m).change (p - t.start, q - t.start, text)).plan = .one (.replace p q text) := by
  simp only [Change.plan, Standing.change, standingOf, Nat.add_sub_cancel' hp, Nat.add_sub_cancel' hq]

theorem merge_eq (ht : ∀ u ∈ t.nodes, u.Coherent text) (m : String) (op : AddImport) :
    merge v t op = ((standingOf v t m).extension op).map fun x => planOf (x.map (standingOf v t m).change) := by
  have hle := (ht t (Layout.self_mem_nodes _)).start_le_stop
  unfold merge Standing.extension
  simp only [show (standingOf v t m).record = Reading.importRecord v.text t from rfl,
    show (standingOf v t m).room = roomOf t from rfl]
  cases Reading.importRecord v.text t with
  | none => rfl
  | some record =>
    simp only
    split
    · rfl
    split
    · rfl
    -- What is left is where the names go; each place is one of the tree, at or behind the statement's first byte.
    generalize commaList (newAmong (record.names.map .str) op.names) = written
    cases hnamed : (childOfKind t .importClause).bind (childOfKind · .namedImports) with
    | some named =>
      have hin := Tree.places_of_mem ht (mem_nodes_of_clausePart hnamed)
      cases hlast : (specifiers named).getLast? with
      | some last =>
        have hin' := Tree.places_of_mem ht (mem_nodes_of_specifier hnamed (mem_of_getLast? hlast))
        have hroom : roomOf t = .behindNames (last.stop - t.start) := by simp only [roomOf, hnamed, hlast]
        have hstop : t.start ≤ last.stop := by omega
        cases written with
        | error e => simp only [hroom]; rfl
        | ok names => simp only [hroom, hlast, Except.map, map_some, planOf, change_plan hstop hstop]; rfl
      | none =>
        have hroom : roomOf t = .emptyBraces (named.start - t.start) (named.stop - t.start) := by
          simp only [roomOf, hnamed, hlast]
        have hstop : t.start ≤ named.stop := by omega
        cases written with
        | error e => simp only [hroom]; rfl
        | ok names => simp only [hroom, hlast, Except.map, map_some, planOf, change_plan hin.1 hstop]; rfl
    | none =>
      cases hdefault : (childOfKind t .importClause).bind (childOfKind · .identifier) with
      | some default =>
        have hin := Tree.places_of_mem ht (mem_nodes_of_clausePart hdefault)
        have hroom : roomOf t = .behindDefault (default.stop - t.start) := by simp only [roomOf, hnamed, hdefault]
        have hstop : t.start ≤ default.stop := by omega
        cases written with
        | error e => simp only [hroom]; rfl
        | ok names => simp only [hroom, Except.map, map_some, planOf, change_plan hstop hstop]; rfl
      | none =>
        have hroom : roomOf t = .nowhere := by simp only [roomOf, hnamed, hdefault]
        have hwhole := fun text => change_plan (v := v) (m := m) (Nat.le_refl t.start) hle text
        simp only [Nat.sub_self] at hwhole
        simp only [hroom, show (standingOf v t m).length = t.stop - t.start from rfl]
        cases statementText op.source (newAmong (record.names.map .str) op.names) .null .null
            (.bool record.isTypeOnly) with
        | error e => rfl
        | ok statement => simp only [Except.map, map_some, planOf, hwhole]; rfl

theorem gap_plan (hle : ∀ u ∈ v.tree.children, u.start ≤ u.stop) (source : String) (statement : List Char) :
    (((tableOf bytes v).gap source).fill statement).plan =
      match (statements v).find? fun (_, m) => Text.before source.toList m.toList with
      | some (t, _) => .one (.insertAt t.start (statement ++ ['\n']))
      | none => match (statements v).getLast? with
        | some (t, _) => .one (.insertAt t.stop ('\n' :: statement))
        | none => .one (insertAtTop bytes v statement) := by
  have hafter : (fun p : Tree × String => (standingOf v p.1 p.2).isAfter source) =
    fun p => Text.before source.toList p.2.toList := rfl
  simp only [Table.gap, tableOf, find?_map, Function.comp_def, hafter, getLast?_map]
  cases (statements v).find? fun p => Text.before source.toList p.2.toList with
  | some p => rfl
  | none =>
    cases hlast : (statements v).getLast? with
    | some p =>
      have := hle p.1 (mem_children_of_mem_statements (mem_of_getLast? hlast))
      have hstop : (standingOf v p.1 p.2).stop = p.1.stop := by
        show p.1.start + (p.1.stop - p.1.start) = p.1.stop
        omega
      simp only [map_none, map_some, Standing.behind, Gap.fill, Change.plan, hstop, append_nil]
      rfl
    | none =>
      simp only [map_none, insertAtTop, topOf]
      cases (v.tree.children.takeWhile isLeading).getLast? with
      | some t =>
        simp only [Gap.fill, Change.plan, append_nil]
        rfl
      | none =>
        simp only
        split <;> rfl

theorem add_eq [SoundRecovery] (bytes : Bytes) (text : List Char) (op : AddImport) :
    add bytes (.ofText text) op = ((tableOf bytes (.ofText text)).ask op).map planOf := by
  have hcoherent := fun t ht => @View.coherent_below text t _ ht
  generalize View.ofText text = v at hcoherent
  have hsource : (fun p : Tree × String => (standingOf v p.1 p.2).source == op.source) = (·.2 == op.source) := rfl
  have hfind : (tableOf bytes v).standing.find? (·.source == op.source) =
      ((statements v).find? (·.2 == op.source)).map fun p => standingOf v p.1 p.2 := by
    simp only [tableOf, find?_map, Function.comp_def, hsource]
  unfold add Table.ask
  rw [hfind]
  cases hknown : (statements v).find? (·.2 == op.source) with
  | some p =>
    obtain ⟨t, m⟩ := p
    simp only [hknown, map_some]
    rw [merge_eq (hcoherent t (mem_children_of_mem_statements (mem_of_find?_eq_some hknown))) m]
    cases (standingOf v t m).extension op <;> rfl
  | none =>
    simp only [hknown, map_none]
    cases statementText op.source op.names op.defaultName op.namespaceName op.isTypeOnly with
    | error e => rfl
    | ok statement =>
      simp only [Except.map, planOf, gap_plan fun u hu => (hcoherent u hu u (Layout.self_mem_nodes u)).start_le_stop]
      cases (statements v).find? fun p => Text.before op.source.toList p.2.toList with
      | some p => rfl
      | none => cases (statements v).getLast? <;> rfl

/-! ## The effect of adding an import -/

def after : Option Change → Bytes → Bytes
  | none, bytes => bytes
  | some e, bytes => e.on bytes

theorem applyAll_planOf (x : Option Change) (bytes : Bytes) :
    Splice.applyAll (planOf x).edits bytes = after x bytes := by
  cases x with
  | none => rfl
  | some e => exact Splice.apply_replace e.start e.stop e.text bytes

def settle (bytes : Bytes) : Except PlanError (Option Change) → Except PlanError (Bytes × Outcome)
  | .ok c => .ok (after c bytes, .done (planOf c))
  | .error (.refused r) => .ok (bytes, .refused r)
  | .error e => .error e

theorem effect_addImport [SoundRecovery] (op : AddImport) (bytes : Bytes) : (addImport op).effect bytes =
      match table? bytes with
      | none => .error .notText
      | some T => settle bytes (T.ask op) := by
  unfold effect planOn table?
  simp only [looks, if_true]
  cases Utf8.decode bytes with
  | none => rfl
  | some text =>
    simp only [map_some, plan, add_eq]
    cases (tableOf bytes (.ofText text)).ask op with
    | ok x => simp only [Except.map, applyAll_planOf, settle]
    | error e => cases e <;> rfl

theorem effect_of_table [SoundRecovery] (h : table? bytes = some T) (op : AddImport) :
    (addImport op).effect bytes = settle bytes (T.ask op) := by
  rw [effect_addImport, h]

end SourceBench.Imports
