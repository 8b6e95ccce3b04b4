import SourceBench.Proofs.Value.Fields
import SourceBench.Toml.Reader

/-!
# Keys of settings that are read

A key that is defined twice makes a text invalid, so no table of a text that can be read has a key twice (`parse_tidy`).
-/
namespace SourceBench.Toml

open Value Option

theorem define_tidy {v : Value} (hv : v.Tidy) : ∀ {path : List String} {fs fs' : Fields}, (object fs).Tidy →
    define fs path v = some fs' → (object fs').Tidy
  | [], fs, fs', _, h => by cases h
  | [k], fs, fs', hfs, h => by
    rw [define] at h
    split at h
    · cases h
    · cases h
      exact hfs.set hv k
  | k :: l :: path, fs, fs', hfs, h => by
    rw [define] at h
    · split at h
      · next inner hinner =>
        obtain ⟨inner', hdefine, rfl⟩ := map_eq_some_iff.1 h
        exact hfs.set (define_tidy hv (hfs.field hinner) hdefine) k
      · cases h
      · obtain ⟨inner', hdefine, rfl⟩ := map_eq_some_iff.1 h
        exact hfs.set (define_tidy hv tidy_empty hdefine) k
    · simp

theorem defineIn_tidy {v : Value} (hv : v.Tidy) {key : List String} : ∀ {table : List String} {fs fs' : Fields},
    (object fs).Tidy → defineIn fs table key v = some fs' → (object fs').Tidy
  | [], fs, fs', hfs, h => define_tidy hv hfs h
  | k :: table, fs, fs', hfs, h => by
    rw [defineIn] at h
    split at h
    · next inner hinner =>
      obtain ⟨inner', hdefine, rfl⟩ := map_eq_some_iff.1 h
      exact hfs.set (defineIn_tidy hv (hfs.field hinner) hdefine) k
    · cases h

theorem openTable_tidy : ∀ {names : List String} {implied implied' : List (List String)} {path : List String}
    {fs fs' : Fields}, (object fs).Tidy → openTable implied path fs names = some (fs', implied') → (object fs').Tidy
  | [], _, _, _, _, _, _, h => by cases h
  | [k], implied, implied', path, fs, fs', hfs, h => by
    rw [openTable] at h
    split at h
    · cases h
      exact hfs.set tidy_empty k
    · split at h
      · cases h
        exact hfs
      · cases h
    · cases h
  | k :: l :: names, implied, implied', path, fs, fs', hfs, h => by
    rw [openTable] at h
    · split at h
      · next inner hinner =>
        obtain ⟨⟨inner', i⟩, hopen, heq⟩ := map_eq_some_iff.1 h
        cases heq
        exact hfs.set (openTable_tidy (hfs.field hinner) hopen) k
      · cases h
      · obtain ⟨⟨inner', i⟩, hopen, heq⟩ := map_eq_some_iff.1 h
        cases heq
        exact hfs.set (openTable_tidy tidy_empty hopen) k
    · simp

/-! ## Values -/

theorem readFields_tidy {read : List Char → Option (Value × List Char)}
    (hread : ∀ {cs rest : List Char} {v : Value}, read cs = some (v, rest) → v.Tidy) :
    ∀ {n : Nat} {acc fs : Fields} {cs rest : List Char}, (object acc).Tidy →
      readFields read n acc cs = some (fs, rest) → (object fs).Tidy
  | 0, _, _, _, _, _, h => by cases h
  | n + 1, acc, fs, cs, rest, hacc, h => by
    rw [readFields] at h
    split at h
    · cases h
    · split at h
      · split at h
        · cases h
        · next hvalue =>
          split at h
          · cases h
          · next hdefine =>
            have htidy := define_tidy (hread hvalue) hacc hdefine
            split at h
            · exact readFields_tidy hread htidy h
            · cases h
              exact htidy
            · cases h
      · cases h

theorem readWord_tidy {word : List Char} {v : Value} (h : readWord word = some v) : v.Tidy := by
  refine tidy_of_field? ?_
  rintro fs rfl
  unfold readWord at h
  split at h
  · cases h
  · split at h
    · cases h
    · split at h
      · cases h
      · split at h
        dsimp only at h
        generalize List.filter _ _ = body at h
        split at h
        · cases h
        · split at h
          · cases h
          · split at h
            · cases h
            · obtain ⟨_, -, hfloat⟩ := map_eq_some_iff.1 h
              cases hfloat

theorem readValue_tidy : ∀ {n : Nat} {cs rest : List Char} {v : Value}, readValue n cs = some (v, rest) → v.Tidy
  | 0, _, _, _, h => by cases h
  | n + 1, cs, rest, v, h => by
    rw [readValue.eq_def] at h
    dsimp only at h
    split at h
    · obtain ⟨_, -, heq⟩ := map_eq_some_iff.1 h
      cases heq
      exact tidy_of_field? fun _ h => by cases h
    · obtain ⟨_, -, heq⟩ := map_eq_some_iff.1 h
      cases heq
      exact tidy_of_field? fun _ h => by cases h
    · split at h
      · split at h
        · cases h
          exact tidy_of_field? fun _ h => by cases h
        · cases h
      · cases h
    · split at h
      · cases h
        exact tidy_empty
      · obtain ⟨⟨fs, t⟩, hfields, heq⟩ := map_eq_some_iff.1 h
        cases heq
        exact readFields_tidy (fun hv => readValue_tidy hv) tidy_empty hfields
    · split at h
      · cases h
      · obtain ⟨v', hword, heq⟩ := map_eq_some_iff.1 h
        cases heq
        exact readWord_tidy hword

/-! ## Texts -/

theorem readEntry_tidy {d d' : Draft} {cs rest : List Char} (hd : (object d.fields).Tidy)
    (h : readEntry d cs = some (d', rest)) : (object d'.fields).Tidy := by
  unfold readEntry at h
  split at h
  · split at h
    · split at h
      · next hopen _ =>
        cases h
        exact openTable_tidy hd hopen
      · cases h
    · cases h
  · split at h
    · split at h
      · next hvalue =>
        split at h
        · next hdefine _ =>
          cases h
          exact defineIn_tidy (readValue_tidy hvalue) hd hdefine
        · cases h
      · cases h
    · cases h

theorem readLines_tidy : ∀ {n : Nat} {d : Draft} {cs : List Char} {fs : Fields}, (object d.fields).Tidy →
    readLines n d cs = some fs → (object fs).Tidy
  | 0, _, _, _, _, h => by cases h
  | n + 1, d, cs, fs, hd, h => by
    rw [readLines] at h
    split at h
    · cases h
      exact hd
    · split at h
      · next hentry => exact readLines_tidy (readEntry_tidy hd hentry) h
      · cases h

/-- **No table of a text that can be read has a key twice.** -/
theorem parse_tidy {cs : List Char} {fs : Fields} (h : parse cs = some fs) : (object fs).Tidy :=
  readLines_tidy tidy_empty h

end SourceBench.Toml
