import Mathlib.Data.List.Infix
import Mathlib.Data.List.Nodup
import SourceBench.Proofs.Outcome
import SourceBench.Proofs.Pathname
import SourceBench.Proofs.Text.Utf8
import SourceBench.Workspace.Store

/-!
# Stores

In a well-formed store every place stands in a folder and has one entry.  Path names of places are followed to them
(`follow_of_parent`), writing changes one place (`find?_set`, `WellFormed.set`), and making folders makes the ones on
the way to a place and changes nothing else (`makeFolders_spec`).
-/
namespace SourceBench.Store

open List Except

variable {q : List String} {x : List String × Entry} {s' : Store} {cs : List Char}

/-- Every entry has a place of its own, which stands in a folder. -/
structure WellFormed (s : Store) : Prop where
  base : ∀ n ∈ s.base, IsName n
  names : ∀ x ∈ s.entries, x.1 ≠ [] ∧ ∀ n ∈ x.1, IsName n
  parents : ∀ x ∈ s.entries, s.find? x.1.dropLast = some .folder
  nodup : (s.entries.map (·.1)).Nodup

instance (s : Store) : Decidable s.WellFormed :=
  decidable_of_iff ((∀ n ∈ s.base, IsName n) ∧ (∀ x ∈ s.entries, x.1 ≠ [] ∧ ∀ n ∈ x.1, IsName n) ∧
    (∀ x ∈ s.entries, s.find? x.1.dropLast = some .folder) ∧ (s.entries.map (·.1)).Nodup)
    ⟨fun ⟨hbase, hnames, hparents, hnodup⟩ => ⟨hbase, hnames, hparents, hnodup⟩,
      fun h => ⟨h.base, h.names, h.parents, h.nodup⟩⟩

/-! ## Entries -/

variable {s : Store} {p place parts : List String} {e : Entry} {n : String}

theorem find?_eq (hp : p ≠ []) : s.find? p = (s.entries.find? (·.1 == p)).map (·.2) := by
  cases p with
  | nil => exact absurd rfl hp
  | cons n p => rfl

theorem mem_of_find? (hp : p ≠ []) (h : s.find? p = some e) : (p, e) ∈ s.entries := by
  rw [find?_eq hp, Option.map_eq_some_iff] at h
  obtain ⟨⟨q, e'⟩, hfind, rfl⟩ := h
  have hq := find?_some hfind
  rw [beq_iff_eq] at hq
  dsimp only at hq
  subst hq
  exact mem_of_find?_eq_some hfind

@[simp] theorem base_set (s : Store) (p : List String) (e : Entry) : (s.set p e).base = s.base := by
  unfold set
  split <;> rfl

theorem find?_replace (p q : List String) (e : Entry) (entries : List (List String × Entry)) :
    ((entries.map fun x => if x.1 == p then (p, e) else x).find? (·.1 == q)).map (·.2) =
      if q = p then (if entries.any (·.1 == p) then some e else none) else (entries.find? (·.1 == q)).map (·.2) := by
  induction entries with
  | nil => simp
  | cons x entries ih =>
    rw [map_cons, any_cons]
    by_cases hx : x.1 = p
    · rw [if_pos (beq_iff_eq.2 hx), beq_iff_eq.2 hx, Bool.true_or, if_pos rfl]
      by_cases hq : q = p
      · rw [hq, find?_cons_of_pos (by simp), if_pos rfl]
        rfl
      · rw [find?_cons_of_neg (by simpa using Ne.symm hq), find?_cons_of_neg (by simpa [hx] using Ne.symm hq), ih,
          if_neg hq, if_neg hq]
    · rw [if_neg (by simpa using hx), beq_false_of_ne hx, Bool.false_or]
      by_cases hxq : x.1 = q
      · rw [find?_cons_of_pos (by simpa using hxq), find?_cons_of_pos (by simpa using hxq),
          if_neg fun h => hx (hxq.trans h)]
      · rw [find?_cons_of_neg (by simpa using hxq), find?_cons_of_neg (by simpa using hxq), ih]

theorem any_place : s.entries.any (·.1 == p) ↔ p ∈ s.entries.map (·.1) := by
  simp only [any_eq_true, mem_map, beq_iff_eq]

theorem find?_set (hp : p ≠ []) (e : Entry) (q : List String) :
    (s.set p e).find? q = if q = p then some e else s.find? q := by
  by_cases hq : q = []
  · rw [hq, if_neg (Ne.symm hp)]
    rfl
  rw [find?_eq hq, find?_eq hq]
  unfold set
  split
  · next hany => rw [find?_replace, if_pos hany]
  · next hany =>
    have hnone : s.entries.find? (·.1 == p) = none := find?_eq_none.2 fun x hx hxp => hany (any_eq_true.2 ⟨x, hx, hxp⟩)
    rw [find?_append]
    split
    · next hqp => simp [hqp, hnone]
    · next hqp => simp [Ne.symm hqp]

theorem find?_set_self (hp : p ≠ []) (e : Entry) : (s.set p e).find? p = some e := by
  rw [find?_set hp, if_pos rfl]

theorem find?_set_of_ne (hp : p ≠ []) (h : q ≠ p) (e : Entry) : (s.set p e).find? q = s.find? q := by
  rw [find?_set hp, if_neg h]

theorem mem_set (h : x ∈ (s.set p e).entries) : x = (p, e) ∨ x ∈ s.entries := by
  unfold set at h
  split at h
  · obtain ⟨y, hy, rfl⟩ := mem_map.1 h
    split
    · exact .inl rfl
    · exact .inr hy
  · rcases mem_append.1 h with h | h
    · exact .inr h
    · exact .inl (mem_singleton.1 h)

theorem places_set (s : Store) (p : List String) (e : Entry) : (s.set p e).entries.map (·.1) =
    if p ∈ s.entries.map (·.1) then s.entries.map (·.1) else s.entries.map (·.1) ++ [p] := by
  unfold set
  by_cases hp : p ∈ s.entries.map (·.1)
  · rw [if_pos (any_place.2 hp), if_pos hp, map_map]
    refine map_congr_left fun x _ => ?_
    by_cases hx : x.1 = p
    · simp [hx]
    · simp [hx]
  · rw [if_neg (hp ∘ any_place.1), if_neg hp, map_append]
    rfl

/-- **Putting an entry at a place keeps a store well-formed,** if the place stands in a folder and is not one that
becomes a file. -/
theorem WellFormed.set (hs : s.WellFormed) (hp : p ≠ [])
    (hnames : ∀ n ∈ p, IsName n) (hparent : s.find? p.dropLast = some .folder)
    (hfolder : s.find? p = some .folder → e = .folder) : (s.set p e).WellFormed := by
  have hparents : ∀ q : List String, s.find? q = some .folder → (s.set p e).find? q = some .folder := by
    intro q hq
    rw [find?_set hp]
    split
    · next hqp => rw [hfolder (hqp ▸ hq)]
    · exact hq
  refine ⟨?_, fun x hx => ?_, fun x hx => ?_, ?_⟩
  · rw [base_set]
    exact hs.base
  · rcases mem_set hx with rfl | hx
    · exact ⟨hp, hnames⟩
    · exact hs.names x hx
  · rcases mem_set hx with rfl | hx
    · exact hparents _ hparent
    · exact hparents _ (hs.parents x hx)
  · rw [places_set]
    split
    · exact hs.nodup
    · next hnew =>
      refine nodup_append.2 ⟨hs.nodup, nodup_singleton p, fun q hq r hr hqr => ?_⟩
      rw [mem_singleton.1 hr] at hqr
      exact hnew (hqr ▸ hq)

/-! ## Folders on the way -/

namespace WellFormed

variable {s : Store} (hs : s.WellFormed)
include hs

theorem find?_of_mem (h : x ∈ s.entries) : s.find? x.1 = some x.2 := by
  rw [find?_eq (hs.names x h).1]
  cases hfind : s.entries.find? (·.1 == x.1) with
  | none => exact absurd (beq_self_eq_true x.1) (find?_eq_none.1 hfind x h)
  | some y =>
    have hy := find?_some hfind
    rw [beq_iff_eq] at hy
    rw [inj_on_of_nodup_map hs.nodup (mem_of_find?_eq_some hfind) h hy]
    rfl

variable {p : List String} {e : Entry}

theorem parent (h : s.find? p = some e) : s.find? p.dropLast = some .folder := by
  by_cases hp : p = []
  · rw [hp]
    rfl
  · exact hs.parents _ (mem_of_find? hp h)

theorem isName (h : s.find? p = some e) : ∀ n ∈ p, IsName n := by
  by_cases hp : p = []
  · rw [hp]
    exact fun n hn => absurd hn not_mem_nil
  · exact (hs.names _ (mem_of_find? hp h)).2

theorem above (h : s.find? (p ++ q) = some e) (hq : q ≠ []) : s.find? p = some .folder := by
  induction q using reverseRecOn generalizing e with
  | nil => exact absurd rfl hq
  | append_singleton q n ih =>
    have hparent := hs.parent h
    rw [← append_assoc, dropLast_concat] at hparent
    by_cases hq : q = []
    · rwa [hq, append_nil] at hparent
    · exact ih hparent hq

theorem none_below (h : s.find? p = none) : s.find? (p ++ q) = none := by
  by_cases hq : q = []
  · rwa [hq, append_nil]
  · cases hfind : s.find? (p ++ q) with
    | none => rfl
    | some e => rw [hs.above hfind hq] at h; cases h

end WellFormed

/-! ## Following names -/

theorem follow_single (hn : n ≠ "..") : follow s place [n] = .ok (place ++ [n]) := by
  rw [follow]
  exact hn

theorem follow_cons {rest : List String} (hn : n ≠ "..") (hrest : rest ≠ []) :
    follow s place (n :: rest) = match s.find? (place ++ [n]) with
      | some .folder => follow s (place ++ [n]) rest
      | some (.file _) => .error .notFolder
      | none => .error .notFound :=
  follow.eq_4 s place n rest hn hrest

theorem follow_through : ∀ (parts place : List String), (∀ n ∈ parts, n ≠ "..") →
    (∀ a b, parts = a ++ b → a ≠ [] → b ≠ [] → s.find? (place ++ a) = some .folder) →
      follow s place parts = .ok (place ++ parts)
  | [], place, _, _ => by rw [follow, append_nil]
  | [n], place, hnames, _ => follow_single (hnames n mem_cons_self)
  | n :: m :: rest, place, hnames, hfolders => by
    have hrest : m :: rest ≠ [] := cons_ne_nil m rest
    rw [follow_cons (hnames n mem_cons_self) hrest, hfolders [n] _ rfl (cons_ne_nil n []) hrest]
    dsimp only
    rw [follow_through (m :: rest) (place ++ [n]) (fun k hk => hnames k (mem_cons_of_mem n hk)), append_assoc]
    · rfl
    · intro a b hab ha hb
      rw [append_assoc]
      exact hfolders (n :: a) b (by rw [hab]; rfl) (cons_ne_nil n a) hb

theorem follow_missing : ∀ (parts place : List String), (∀ m ∈ parts, m ≠ "..") →
    (∀ a b, parts = a ++ b → ∀ bytes, s.find? (place ++ a) ≠ some (.file bytes)) → s.find? (place ++ parts) = none →
      s.find? place = some .folder → follow s place (parts ++ [n]) = .error .notFound
  | [], place, _, _, hnone, hplace => by
    rw [append_nil, hplace] at hnone
    cases hnone
  | m :: rest, place, hnames, hclear, hnone, _ => by
    rw [cons_append, follow_cons (hnames m mem_cons_self) (by simp)]
    cases hfind : s.find? (place ++ [m]) with
    | none => rfl
    | some e =>
      cases e with
      | file bytes => exact absurd hfind (hclear [m] rest rfl bytes)
      | folder =>
        refine follow_missing rest (place ++ [m]) (fun k hk => hnames k (mem_cons_of_mem m hk)) ?_ ?_ hfind
        · intro a b hab bytes
          rw [append_assoc]
          exact hclear (m :: a) b (by rw [hab]; rfl) bytes
        · rwa [append_assoc]

theorem WellFormed.follow_of_parent (hs : s.WellFormed) (hnames : ∀ n ∈ p, IsName n)
    (hparent : s.find? p.dropLast = some .folder) : follow s [] p = .ok p := by
  refine follow_through p [] (fun n hn => (hnames n hn).2.2.1) fun a b hab ha hb => ?_
  rw [hab, dropLast_append_of_ne_nil hb] at hparent
  rw [nil_append]
  by_cases hlast : b.dropLast = []
  · rwa [hlast, append_nil] at hparent
  · exact hs.above hparent hlast

theorem WellFormed.follow_of_find? (hs : s.WellFormed) (h : s.find? p = some e) :
    follow s [] p = .ok p := hs.follow_of_parent (hs.isName h) (hs.parent h)

theorem WellFormed.getLast?_of_follow (hs : s.WellFormed) {bytes : Bytes} : ∀ {parts place p : List String},
    follow s place parts = .ok p → s.find? place = some .folder → s.find? p = some (.file bytes) →
      parts.getLast? = p.getLast?
  | [], place, p, hfollow, hplace, hp => by
    rw [follow, ok.injEq] at hfollow
    rw [← hfollow, hplace] at hp
    cases hp
  | n :: rest, place, p, hfollow, hplace, hp => by
    by_cases hn : n = ".."
    · subst hn
      rw [follow] at hfollow
      split at hfollow
      · cases hfollow
      · have ih := hs.getLast?_of_follow hfollow (hs.parent hplace) hp
        cases rest with
        | nil =>
          -- Two dots at the end lead to a folder.
          rw [follow, ok.injEq] at hfollow
          rw [← hfollow, hs.parent hplace] at hp
          cases hp
        | cons m rest => rw [getLast?_cons_cons, ih]
    · cases rest with
      | nil =>
        rw [follow_single hn, ok.injEq] at hfollow
        rw [← hfollow]
        simp
      | cons m rest =>
        rw [follow_cons hn (cons_ne_nil m rest)] at hfollow
        split at hfollow
        · next hfind => rw [getLast?_cons_cons, hs.getLast?_of_follow hfollow hfind hp]
        · cases hfollow
        · cases hfollow

theorem eq_of_follow : ∀ {parts place p : List String}, (∀ n ∈ parts, n ≠ "..") →
    follow s place parts = .ok p → p = place ++ parts
  | [], place, p, _, h => by
    rw [follow, ok.injEq] at h
    rw [append_nil, h]
  | [n], place, p, hnames, h => by
    rw [follow_single (hnames n mem_cons_self), ok.injEq] at h
    exact h.symm
  | n :: m :: rest, place, p, hnames, h => by
    rw [forall_mem_cons] at hnames
    rw [follow_cons hnames.1 (cons_ne_nil m rest)] at h
    split at h
    · rw [eq_of_follow hnames.2 h, append_assoc]
      rfl
    · cases h
    · cases h

theorem follow_mono (hfolders : ∀ q, s.find? q = some .folder → s'.find? q = some .folder) :
    ∀ {parts place p : List String}, follow s place parts = .ok p → follow s' place parts = .ok p
  | [], place, p, h => h
  | n :: rest, place, p, h => by
    by_cases hn : n = ".."
    · subst hn
      rw [follow] at h ⊢
      split at h
      · cases h
      · next hplace =>
        rw [if_neg hplace]
        exact follow_mono hfolders h
    · cases rest with
      | nil => rwa [follow_single hn] at h ⊢
      | cons m rest =>
        rw [follow_cons hn (cons_ne_nil m rest)] at h ⊢
        split at h
        · next hfind =>
          rw [hfolders _ hfind]
          exact follow_mono hfolders h
        · cases h
        · cases h

/-! ## Reading and writing -/

section

variable {s : Store} {p : Pathname} {place : List String}

theorem locate_mono (hbase : s'.base = s.base)
    (hfolders : ∀ q, s.find? q = some .folder → s'.find? q = some .folder) (h : s.locate p = .ok place) :
    s'.locate p = .ok place := by
  unfold locate at h ⊢
  rw [hbase]
  split at h
  · exact follow_mono hfolders h
  · split at h
    · next hprefix =>
      rw [if_pos hprefix]
      exact follow_mono hfolders h
    · cases h

variable {b : Bytes}

theorem WellFormed.name_of_locate (hs : s.WellFormed) (hplace : s.locate p = .ok place)
    (h : s.find? place = some (.file b)) : p.name = place.getLast?.getD "" := by
  unfold locate at hplace
  rw [Pathname.name]
  split at hplace
  · rw [hs.getLast?_of_follow hplace rfl h]
  · split at hplace
    · next hprefix =>
      obtain ⟨rest, hrest⟩ := isPrefixOf_iff_prefix.1 hprefix
      rw [← hrest, drop_left] at hplace
      have hlast := hs.getLast?_of_follow hplace rfl h
      have hne : rest ≠ [] := by
        rintro rfl
        rw [follow, ok.injEq] at hplace
        rw [← hplace] at h
        cases h
      rw [← hrest, getLast?_append_of_ne_nil _ hne, hlast]
    · cases hplace

theorem locate_here (parts : List String) : s.locate ⟨.here, parts⟩ = follow s [] parts := rfl

theorem locate_absolute (place : List String) : s.locate (s.absolute place) = follow s [] place := by
  rw [locate, absolute]
  dsimp only
  rw [if_pos (List.isPrefixOf_iff_prefix.2 (prefix_append ..)), drop_left]

theorem plainBreaks_of_not_mem : ∀ {cs : List Char}, '\r' ∉ cs → plainBreaks cs = cs
  | [], _ => rfl
  | c :: cs, h => by
    rw [mem_cons, not_or] at h
    rw [plainBreaks, plainBreaks_of_not_mem h.2]
    · exact fun _ hc _ => h.1 hc.symm
    · exact fun hc => h.1 hc.symm

theorem not_mem_plainBreaks (cs : List Char) : '\r' ∉ plainBreaks cs := by
  fun_induction plainBreaks cs with
  | case1 => exact not_mem_nil
  | case2 r ih => simpa using ih
  | case3 r _ ih => simpa using ih
  | case4 c r _ hc ih =>
    rw [mem_cons, not_or]
    exact ⟨fun h => hc h.symm, ih⟩

theorem plainBreaks_eq_self : plainBreaks cs = cs ↔ '\r' ∉ cs := by
  constructor
  · intro h
    rw [← h]
    exact not_mem_plainBreaks cs
  · exact plainBreaks_of_not_mem

section

variable (hplace : s.locate p = .ok place)

include hplace

theorem look_of_find? (h : s.find? place = some e) : s.look p = .ok e := by
  simp only [look, hplace, bind, Except.bind, h]
  rfl

theorem look_of_none (h : s.find? place = none) : s.look p = .error .notFound := by
  simp only [look, hplace, bind, Except.bind, h]
  rfl

theorem has_of_find? (h : s.find? place = some e) : s.has p := by
  rw [has, look_of_find? hplace h]

theorem hasFolder_of_locate : s.hasFolder p = decide (s.find? place = some .folder) := by
  rw [hasFolder]
  cases h : s.find? place with
  | none => rw [look_of_none hplace h]; simp
  | some e =>
    rw [look_of_find? hplace h]
    cases e <;> simp

theorem readBytes_of_find? (h : s.find? place = some (.file b)) : s.readBytes p = .ok b := by
  rw [readBytes, look_of_find? hplace h]
  rfl

theorem writeBytes_of_locate (h : s.find? place ≠ some .folder) (b : Bytes) :
    s.writeBytes p b = .ok (s.set place (.file b)) := by
  simp only [writeBytes, hplace, bind, Except.bind]
  rfl

theorem copy_of_locate {q : Pathname} {target : List String}
    (h : s.find? place = some (.file b)) (htarget : s.locate q = .ok target) (hfree : s.find? target ≠ some .folder)
    (hne : place ≠ target) : s.copy p q = .ok (s.set target (.file b)) := by
  have hsame : s.sameThing p q = false := by simp [sameThing, hplace, htarget, hne]
  rw [copy, hasFolder_of_locate htarget, decide_eq_false hfree]
  simp only [Bool.false_eq_true, if_false, hsame, readBytes_of_find? hplace h]
  exact writeBytes_of_locate htarget hfree b

theorem readText_of_find? (h : s.find? place = some (.file (Utf8.encode cs))) (hplain : '\r' ∉ cs) :
    s.readText p = .ok cs := by
  simp only [readText, readBytes_of_find? hplace h, bind, Except.bind, Utf8.decode_encode,
    plainBreaks_of_not_mem hplain]
  rfl

end

theorem has_of_none (hnames : ∀ n ∈ parts, IsName n) (h : s.find? parts = none) : s.has ⟨.here, parts⟩ = false := by
  rw [has]
  cases hplace : s.locate ⟨.here, parts⟩ with
  | error e =>
    rw [look, hplace]
    rfl
  | ok p =>
    obtain rfl : p = parts := eq_of_follow (fun n hn => (hnames n hn).2.2.1) hplace
    rw [look_of_none hplace h]

end

/-! ## Making folders -/

def folderIn? (place : List String) (x : List String × Entry) : Option String :=
  match x.2 with
  | .folder => if x.1.dropLast == place && x.1.length == place.length + 1 then x.1.getLast? else none
  | .file _ => none

def folderNames (s : Store) (place : List String) : List String := s.entries.filterMap (folderIn? place)

theorem entries_set_of_none (hp : p ≠ []) (h : s.find? p = none) (e : Entry) :
    (s.set p e).entries = s.entries ++ [(p, e)] := by
  rw [set, if_neg]
  rw [find?_eq hp, Option.map_eq_none_iff, find?_eq_none] at h
  rw [any_eq_true]
  rintro ⟨x, hx, hxp⟩
  exact h x hx hxp

theorem folderNames_set_of_none (hp : p ≠ []) (h : s.find? p = none) (e : Entry) (place : List String) :
    (s.set p e).folderNames place = s.folderNames place ++ (folderIn? place (p, e)).toList := by
  rw [folderNames, entries_set_of_none hp h, filterMap_append]
  cases hin : folderIn? place (p, e) <;> simp [hin, folderNames]

theorem WellFormed.folderNames_set_file (hs : s.WellFormed) (hp : p ≠ []) (h : s.find? p ≠ some .folder) (b : Bytes)
    (place : List String) : (s.set p (.file b)).folderNames place = s.folderNames place := by
  cases hfind : s.find? p with
  | none =>
    rw [folderNames_set_of_none hp hfind]
    exact append_nil _
  | some e =>
    have hmem : p ∈ s.entries.map (·.1) := mem_map.2 ⟨_, mem_of_find? hp hfind, rfl⟩
    rw [folderNames, folderNames, Store.set, if_pos (any_place.2 hmem), filterMap_map]
    refine filterMap_congr fun x hx => ?_
    rw [Function.comp_apply]
    split
    · next hxp =>
      rw [beq_iff_eq] at hxp
      have hfile := hs.find?_of_mem hx
      rw [hxp] at hfile
      obtain ⟨q, e'⟩ := x
      cases e' with
      | folder => exact absurd hfile h
      | file b' => rfl
    · rfl

theorem folderIn?_longer (h : p.length ≤ place.length) : folderIn? place (p, .folder) = none := by
  rw [folderIn?]
  dsimp only
  rw [if_neg]
  simp only [Bool.and_eq_true, beq_iff_eq, not_and]
  omega

theorem folderIn?_child (place : List String) (n : String) : folderIn? place (place ++ [n], .folder) = some n := by
  simp [folderIn?]

theorem makeFolder_of_locate {p : Pathname} (hplace : s.locate p = .ok place)
    (h : ∀ b, s.find? place ≠ some (.file b)) :
    s.makeFolder p = .ok (if s.find? place = none then s.set place .folder else s) := by
  rw [makeFolder, hplace]
  show (match s.find? place with
    | some .folder => ok s
    | some (.file _) => throw FileError.alreadyThere
    | none => ok (s.set place .folder)) = _
  cases hfind : s.find? place with
  | none => rfl
  | some e =>
    cases e with
    | file b => exact absurd hfind (h b)
    | folder => rfl

structure Opened (s : Store) (parts : List String) (s' : Store) : Prop where
  wellFormed : s'.WellFormed
  base : s'.base = s.base
  find? : ∀ q, s'.find? q = if q <+: parts then some .folder else s.find? q
  folderNames : ∀ place, parts.length ≤ place.length → s'.folderNames place = s.folderNames place
  new : ∀ place n, parts = place ++ [n] → s.find? parts = none →
    s'.folderNames place = s.folderNames place ++ [n]

theorem opened_self (hs : s.WellFormed) (h : s.find? parts = some .folder) : s.Opened parts s := by
  refine ⟨hs, rfl, fun q => ?_, fun _ _ => rfl, fun _ _ _ hnone => ?_⟩
  · split
    · next hq =>
      obtain ⟨rest, rfl⟩ := hq
      by_cases hrest : rest = []
      · rwa [hrest, append_nil] at h
      · exact hs.above h hrest
    · rfl
  · rw [h] at hnone
    cases hnone

theorem not_prefix_of_concat (parts : List String) (n : String) : ¬ parts ++ [n] <+: parts := fun h => by
  have := h.length_le
  rw [length_append, length_singleton] at this
  omega

theorem Opened.concat {s₁ : Store} (h : s.Opened parts s₁) (hnames : ∀ m ∈ parts ++ [n], IsName m)
    (hnone : s.find? (parts ++ [n]) = none) : s.Opened (parts ++ [n]) (s₁.set (parts ++ [n]) .folder) := by
  have hne : parts ++ [n] ≠ [] := by simp
  have hnone₁ : s₁.find? (parts ++ [n]) = none := by rw [h.find?, if_neg (not_prefix_of_concat parts n), hnone]
  have hparent : s₁.find? (parts ++ [n]).dropLast = some .folder := by
    rw [dropLast_concat, h.find?, if_pos (prefix_refl parts)]
  refine ⟨h.wellFormed.set hne hnames hparent (fun _ => rfl), by rw [base_set, h.base], fun q =>
    ?_, fun place hplace => ?_, fun place m hm _ => ?_⟩
  · rw [find?_set hne, h.find?]
    by_cases hq : q = parts ++ [n]
    · rw [if_pos hq, if_pos (prefix_concat_iff.2 (.inl hq))]
    · have hiff : q <+: parts ++ [n] ↔ q <+: parts := by rw [prefix_concat_iff, or_iff_right hq]
      rw [if_neg hq, if_congr hiff rfl rfl]
  · rw [folderNames_set_of_none hne hnone₁, folderIn?_longer hplace, h.folderNames place, Option.toList_none,
      append_nil]
    rw [length_append] at hplace
    omega
  · obtain ⟨rfl, hlast⟩ := append_inj' hm rfl
    obtain rfl := singleton_inj.1 hlast
    rw [folderNames_set_of_none hne hnone₁, folderIn?_child, h.folderNames parts (Nat.le_refl _)]
    rfl

/-- **Making folders makes those on the way and changes nothing else,** if no file is in the way. -/
theorem WellFormed.makeFolders_spec (hs : s.WellFormed) (hnames : ∀ n ∈ parts, IsName n)
    (hclear : ∀ q, q <+: parts → ∀ b, s.find? q ≠ some (.file b)) :
    ∃ s', s.makeFolders ⟨.here, parts⟩ = (s', none) ∧ s.Opened parts s' := by
  unfold makeFolders
  dsimp only
  induction parts using reverseRecOn with
  | nil => exact ⟨s, rfl, opened_self hs rfl⟩
  | append_singleton parts n ih =>
    have hparts : ∀ m ∈ parts, IsName m := fun m hm => hnames m (mem_append_left [n] hm)
    have hdropLast : (parts ++ [n]).dropLast = parts := dropLast_concat
    rw [length_append, length_singleton, makeFoldersWith]
    cases hfind : s.find? parts with
    | some e =>
      cases e with
      | file b => exact absurd hfind (hclear parts (prefix_append ..) b)
      | folder =>
        have hfollow : s.locate ⟨.here, parts ++ [n]⟩ = .ok (parts ++ [n]) :=
          hs.follow_of_parent hnames (by rw [hdropLast, hfind])
        rw [makeFolder_of_locate hfollow (hclear _ (prefix_refl _))]
        cases hlast : s.find? (parts ++ [n]) with
        | none => exact ⟨_, rfl, (opened_self hs hfind).concat hnames hlast⟩
        | some e =>
          cases e with
          | file b => exact absurd hlast (hclear _ (prefix_refl _) b)
          | folder => exact ⟨s, rfl, opened_self hs hlast⟩
    | none =>
      -- The folder for it is not there either: it is made first.
      have hmissing : s.makeFolder ⟨.here, parts ++ [n]⟩ = .error .notFound := by
        rw [makeFolder, locate_here, follow_missing parts [] (fun m hm => (hparts m hm).2.2.1) ?_ hfind rfl]
        · rfl
        · intro a b hab bytes
          exact hclear a ⟨b ++ [n], by rw [hab, append_assoc]⟩ bytes
      obtain ⟨s₁, hmade, hopened⟩ := ih hparts fun q hq => hclear q (hq.trans (prefix_append ..))
      have hnone := hs.none_below (q := [n]) hfind
      have hfind₁ : s₁.find? (parts ++ [n]) = none := by
        rw [hopened.find?, if_neg (not_prefix_of_concat parts n), hnone]
      have hfollow : s₁.locate ⟨.here, parts ++ [n]⟩ = .ok (parts ++ [n]) :=
        hopened.wellFormed.follow_of_parent hnames (by rw [hdropLast, hopened.find?, if_pos (prefix_refl parts)])
      rw [hmissing]
      dsimp only
      rw [if_neg (by simp), Pathname.parent, hdropLast, hmade]
      refine ⟨_, ?_, hopened.concat hnames hnone⟩
      dsimp only
      rw [makeFolder_of_locate hfollow (fun b hb => by rw [hfind₁] at hb; cases hb), if_pos hfind₁]
      rfl

end SourceBench.Store
