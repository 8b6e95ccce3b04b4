import Mathlib.Data.List.Nodup
import SourceBench.Value

/-!
# Fields and paths

Laws of looking up and setting fields.  A path follows keys through tables (`Value.at?`).  Two values are alike if they
have the same at every path, whatever the order of their fields (`Value.Alike`); a value is tidy if no table in it has a
key twice (`Value.Tidy`).
-/
namespace SourceBench

open List Fields

variable {v : Value} {fs : Fields}

/-! ## Setting fields -/

namespace Fields

variable {fs : Fields} {key k : String} {v : Value}

@[simp] theorem get?_nil (key : String) : get? [] key = none := rfl

theorem get?_cons (f : String × Value) (fs : Fields) (key : String) :
    get? (f :: fs) key = if f.1 = key then some f.2 else get? fs key := by
  unfold get?
  by_cases hf : f.1 = key
  · simp [hf]
  · simp [hf]

theorem get?_eq_none : get? fs key = none ↔ key ∉ fs.map (·.1) := by
  rw [get?, Option.map_eq_none_iff, find?_eq_none, mem_map]
  simp only [beq_iff_eq, not_exists, not_and]

theorem get?_append (fs gs : Fields) (key : String) : get? (fs ++ gs) key = (get? fs key).or (get? gs key) := by
  unfold get?
  rw [find?_append]
  cases fs.find? (·.1 == key) <;> rfl

theorem get?_eq_some_iff_mem (h : (fs.map (·.1)).Nodup) : get? fs key = some v ↔ (key, v) ∈ fs := by
  induction fs with
  | nil => simp
  | cons e fs ih =>
    obtain ⟨hnew, hfs⟩ := nodup_cons.1 h
    rw [get?_cons, mem_cons]
    split
    · next hkey =>
      subst hkey
      have hno : (e.1, v) ∉ fs := fun hmem => hnew (mem_map.2 ⟨_, hmem, rfl⟩)
      rw [or_iff_left hno, Option.some.injEq]
      exact ⟨fun hv => hv ▸ rfl, fun he => congrArg Prod.snd he.symm⟩
    · next hkey => rw [ih hfs, or_iff_right fun he => hkey (congrArg Prod.fst he.symm)]

theorem any_key : fs.any (·.1 == key) ↔ key ∈ fs.map (·.1) := by
  simp only [any_eq_true, mem_map, beq_iff_eq]

theorem get?_replace (fs : Fields) (key k : String) (v : Value) :
    get? (fs.map fun f => if f.1 == key then (key, v) else f) k =
      if k = key then (get? fs key).map (fun _ => v) else get? fs k := by
  induction fs with
  | nil => simp
  | cons f fs ih =>
    rw [map_cons, get?_cons, ih, get?_cons, get?_cons]
    by_cases hf : f.1 = key
    · by_cases hk : k = key
      · simp [hf, hk]
      · simp [hf, hk, Ne.symm hk]
    · by_cases hk : k = key
      · simp [hf, hk]
      · simp [hf, hk]

theorem get?_set (fs : Fields) (key : String) (v : Value) (k : String) :
    get? (set fs key v) k = if k = key then some v else get? fs k := by
  unfold set
  split
  · next hany =>
    obtain ⟨w, hw⟩ := Option.ne_none_iff_exists'.1 fun hnone => get?_eq_none.1 hnone (any_key.1 hany)
    rw [get?_replace, hw, Option.map_some]
  · next hany =>
    have hnone : get? fs key = none := get?_eq_none.2 fun hmem => hany (any_key.2 hmem)
    rw [get?_append, get?_cons, get?_nil]
    by_cases hk : k = key
    · rw [if_pos hk, hk, hnone, if_pos rfl]
      rfl
    · rw [if_neg hk, if_neg (Ne.symm hk), Option.or_none]

theorem keys_set (fs : Fields) (key : String) (v : Value) :
    (set fs key v).map (·.1) = if key ∈ fs.map (·.1) then fs.map (·.1) else fs.map (·.1) ++ [key] := by
  unfold set
  by_cases hkey : key ∈ fs.map (·.1)
  · rw [if_pos (any_key.2 hkey), if_pos hkey, map_map]
    refine map_congr_left fun f _ => ?_
    by_cases hf : f.1 = key
    · simp [hf]
    · simp [hf]
  · rw [if_neg (hkey ∘ any_key.1), if_neg hkey, map_append]
    rfl

theorem nodup_set (h : (fs.map (·.1)).Nodup) (key : String) (v : Value) : ((set fs key v).map (·.1)).Nodup := by
  rw [keys_set]
  split
  · exact h
  · next hnew =>
    refine nodup_append.2 ⟨h, nodup_singleton key, fun k hk k' hk' heq => ?_⟩
    rw [mem_singleton.1 hk'] at heq
    exact hnew (heq ▸ hk)

end Fields

namespace Value

/-! ## Equality -/

mutual

def equal : Value → Value → Bool
  | null, null => true
  | bool a, bool b => a == b
  | int a, int b => a == b
  | float a, float b => a == b
  | str a, str b => a == b
  | list as, list bs => equalItems as bs
  | object fs, object gs => equalFields fs gs
  | _, _ => false

def equalItems : List Value → List Value → Bool
  | [], [] => true
  | a :: as, b :: bs => equal a b && equalItems as bs
  | _, _ => false

def equalFields : List (String × Value) → List (String × Value) → Bool
  | [], [] => true
  | (k, a) :: fs, (l, b) :: gs => k == l && equal a b && equalFields fs gs
  | _, _ => false

end

mutual

theorem equal_iff : ∀ v w : Value, equal v w ↔ v = w
  | v, w => by
    cases v <;> cases w <;> simp [equal, equalItems_iff, equalFields_iff]

theorem equalItems_iff : ∀ as bs : List Value, equalItems as bs ↔ as = bs
  | [], [] => by simp [equalItems]
  | [], _ :: _ => by simp [equalItems]
  | _ :: _, [] => by simp [equalItems]
  | a :: as, b :: bs => by simp [equalItems, equal_iff a b, equalItems_iff as bs]

theorem equalFields_iff : ∀ fs gs : List (String × Value), equalFields fs gs ↔ fs = gs
  | [], [] => by simp [equalFields]
  | [], _ :: _ => by simp [equalFields]
  | _ :: _, [] => by simp [equalFields]
  | (k, a) :: fs, (l, b) :: gs => by simp [equalFields, equal_iff a b, equalFields_iff fs gs]

end

instance : DecidableEq Value := fun v w => decidable_of_iff _ (equal_iff v w)

/-! ## Paths -/

def at? : List String → Value → Option Value
  | [], v => some v
  | k :: path, v => (v.field? k).bind (at? path)

def bare : Value → Value
  | object _ => object []
  | v => v

def peek (v : Value) (path : List String) : Option Value := (v.at? path).map bare

def Alike (v w : Value) : Prop := ∀ path, v.peek path = w.peek path

def Tidy (v : Value) : Prop := ∀ path fs, v.at? path = some (object fs) → (fs.map (·.1)).Nodup

theorem Alike.refl (v : Value) : v.Alike v := fun _ => rfl

theorem at?_cons (fs : Fields) (k : String) (path : List String) :
    (object fs).at? (k :: path) = (get? fs k).bind (·.at? path) := rfl

theorem at?_single (fs : Fields) (k : String) : (object fs).at? [k] = get? fs k := by
  rw [at?_cons]
  cases get? fs k <;> rfl

theorem eq_object_of_bare (h : v.bare = object []) : ∃ fs, v = object fs := by
  cases v with
  | object fs => exact ⟨fs, rfl⟩
  | _ => cases h

theorem peek_cons (fs : Fields) (k : String) (path : List String) :
    (object fs).peek (k :: path) = (get? fs k).bind (·.peek path) := by
  rw [peek, at?_cons]
  cases get? fs k <;> rfl

theorem tidy_object : (object fs).Tidy ↔ (fs.map (·.1)).Nodup ∧ ∀ k v, get? fs k = some v → v.Tidy := by
  constructor
  · intro h
    refine ⟨h [] fs rfl, fun k v hk path gs hpath => h (k :: path) gs ?_⟩
    rw [at?, field?, hk]
    exact hpath
  · rintro ⟨hkeys, hfields⟩ path gs hpath
    cases path with
    | nil =>
      cases hpath
      exact hkeys
    | cons k path =>
      rw [at?, field?] at hpath
      cases hk : get? fs k with
      | none => rw [hk] at hpath; cases hpath
      | some v =>
        rw [hk] at hpath
        exact hfields k v hk path gs hpath

theorem tidy_of_field? (h : ∀ fs, v ≠ object fs) : v.Tidy := by
  intro path fs hpath
  cases path with
  | nil => exact absurd (Option.some.inj hpath) (h fs)
  | cons k path =>
    cases v with
    | object fs => exact absurd rfl (h fs)
    | _ => cases hpath

theorem tidy_empty : (object []).Tidy := tidy_object.2 ⟨nodup_nil, fun _ _ h => by cases h⟩

theorem Tidy.set (h : (object fs).Tidy) (hv : v.Tidy) (k : String) : (object (set fs k v)).Tidy := by
  obtain ⟨hkeys, hfields⟩ := tidy_object.1 h
  refine tidy_object.2 ⟨nodup_set hkeys k v, fun k' v' hk' => ?_⟩
  rw [get?_set] at hk'
  split at hk'
  · cases hk'
    exact hv
  · exact hfields k' v' hk'

theorem Tidy.field {k : String} (h : (object fs).Tidy) (hk : get? fs k = some v) : v.Tidy :=
  (tidy_object.1 h).2 k v hk

end Value
end SourceBench
