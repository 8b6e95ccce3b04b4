import SourceBench.Proofs.Outcome
import SourceBench.Proofs.Text.Naming
import SourceBench.Scaffold.Generator
import SourceBench.Text.Search

/-!
# Names of what is generated

A request is carried out only if its name passes (`runNamed_succeeded`).  The check lets one line feed pass at the end
of a name (`nameErrors_eq_nil`); it gets into the generated texts, but not into the written forms of the name.
-/
namespace SourceBench.Scaffold

open List Text Bool

variable {c : Char} {core : List Char} {r : ScaffoldRequest}

/-- A letter, and behind it letters, digits, hyphens and underscores only. -/
def isStrictName : List Char → Bool
  | [] => false
  | c :: r => isLetter c && r.all isNameChar

/-- A strict name, with or without a line feed behind it. -/
def Accepted (name : List Char) : Prop :=
  ∃ core tail, name = core ++ tail ∧ isStrictName core = true ∧ (tail = [] ∨ tail = ['\n'])

/-! ## The check of names -/

theorem isNameTail_iff (r : List Char) : isNameTail r ↔
    ∃ core tail, r = core ++ tail ∧ core.all isNameChar ∧ (tail = [] ∨ tail = ['\n']) := by
  fun_induction isNameTail r with
  | case1 => exact ⟨fun _ => ⟨[], [], rfl, rfl, .inl rfl⟩, fun _ => rfl⟩
  | case2 => exact ⟨fun _ => ⟨[], ['\n'], rfl, rfl, .inr rfl⟩, fun _ => rfl⟩
  | case3 c r hr ih =>
    rw [and_eq_true, ih]
    constructor
    · rintro ⟨hc, core, tail, rfl, hcore, htail⟩
      exact ⟨c :: core, tail, rfl, by rw [all_cons, hc, hcore]; rfl, htail⟩
    · rintro ⟨core, tail, h, hcore, htail⟩
      cases core with
      | nil =>
        rcases htail with rfl | rfl
        · cases h
        · obtain ⟨rfl, rfl⟩ := cons.inj h
          exact absurd rfl (hr rfl)
      | cons d core =>
        rw [all_cons, and_eq_true] at hcore
        obtain ⟨rfl, rfl⟩ := cons.inj h
        exact ⟨hcore.1, core, tail, rfl, hcore.2, htail⟩

theorem isName_iff (name : List Char) : isName name ↔ Accepted name := by
  cases name with
  | nil =>
    refine ⟨nofun, fun ⟨core, tail, h, hcore, _⟩ => ?_⟩
    rw [(append_eq_nil_iff.1 h.symm).1] at hcore
    cases hcore
  | cons c r =>
    rw [isName, and_eq_true, isNameTail_iff]
    constructor
    · rintro ⟨hc, core, tail, rfl, hcore, htail⟩
      exact ⟨c :: core, tail, rfl, by rw [isStrictName, hc, hcore]; rfl, htail⟩
    · rintro ⟨core, tail, h, hcore, htail⟩
      cases core with
      | nil => cases hcore
      | cons d core =>
        rw [isStrictName, and_eq_true] at hcore
        obtain ⟨rfl, rfl⟩ := cons.inj h
        exact ⟨hcore.1, core, tail, rfl, hcore.2, htail⟩

theorem toNat_lt_of_isNameChar (h : isNameChar c) : c.toNat < 128 := by
  simp only [isNameChar, isLetter, or_eq_true, and_eq_true, decide_eq_true_eq, Char.le_def, UInt32.le_iff_toNat_le,
    beq_iff_eq] at h
  rcases h with (((h | h) | h) | rfl) | rfl
  · exact Nat.lt_of_le_of_lt h.2 (by decide)
  · exact Nat.lt_of_le_of_lt h.2 (by decide)
  · exact Nat.lt_of_le_of_lt h.2 (by decide)
  · decide
  · decide

theorem isNameChar_case (h : isNameChar c) : isSpace c = false ∧
    (isDivider c = false → (isSmall c || isBig c) ∧ (isSmall c.toUpper || isBig c.toUpper)) ∧
    (c ≠ '_' → (isSmall c.toLower || c.toLower == '-')) := by
  have hc := toNat_lt_of_isNameChar h
  revert h
  refine ascii_forall hc ?_
  decide +kernel

theorem isLetter_case (h : isLetter c) : isDivider c = false ∧ isBig c.toUpper ∧
    ('a' ≤ c.toLower && c.toLower ≤ 'z') := by
  have hc : c.toNat < 128 := toNat_lt_of_isNameChar (by rw [isNameChar, h]; rfl)
  revert h
  refine ascii_forall hc ?_
  decide +kernel

theorem isNameChar_of_mem (h : isStrictName core) : ∀ c ∈ core, isNameChar c := by
  cases core with
  | nil => exact nofun
  | cons c r =>
    rw [isStrictName, and_eq_true, all_eq_true] at h
    exact forall_mem_cons.2 ⟨by rw [isNameChar, h.1]; rfl, h.2⟩

theorem Accepted.isStrictName_iff {name : List Char} (h : Accepted name) : isStrictName name ↔ '\n' ∉ name := by
  constructor
  · exact fun hstrict hmem => absurd (isNameChar_of_mem hstrict _ hmem) (by decide)
  · intro hnone
    obtain ⟨core, tail, rfl, hcore, rfl | rfl⟩ := h
    · rwa [append_nil]
    · exact absurd (mem_append_right core mem_cons_self) hnone

theorem trim_accepted {tail : List Char} (hcore : isStrictName core) (htail : tail = [] ∨ tail = ['\n']) :
    trim (core ++ tail) = core := by
  have hseen : ∀ c ∈ core, isSpace c = false := fun c hc => (isNameChar_case (isNameChar_of_mem hcore c hc)).1
  have hblank : ∀ c ∈ tail, isSpace c := by
    rcases htail with rfl | rfl
    · exact nofun
    · exact all_eq_true.1 rfl
  rw [trim_append_blank hblank, trim, trimLeft, dropWhile_eq_self_iff.2, trimRight_eq_rdropWhile,
    rdropWhile_eq_self_iff.2]
  · exact fun hne => by simpa using hseen _ (getLast_mem hne)
  · exact fun hpos => by simpa using hseen _ (getElem_mem hpos)

theorem nameErrors_eq_nil (v : Value) : nameErrors v = .ok [] ↔ ∃ s, v = .str s ∧ Accepted s.toList := by
  unfold nameErrors
  constructor
  · intro h
    split at h
    · cases h
    · split at h
      · next s _ =>
        refine ⟨s, rfl, (isName_iff _).1 ?_⟩
        split at h
        · cases h
        · split at h
          · assumption
          · cases h
      · cases h
  · rintro ⟨s, rfl, h⟩
    have hname := (isName_iff _).2 h
    obtain ⟨core, tail, hs, hcore, htail⟩ := h
    have htrim : trim s.toList = core := hs ▸ trim_accepted hcore htail
    have hne : core ≠ [] := by rintro rfl; cases hcore
    have htruthy : s ≠ "" := by
      rintro rfl
      exact hne (append_eq_nil_iff.1 hs.symm).1
    simp [Value.truthy, htrim, hne, htruthy, hname]

/-! ## Requests -/

theorem check_eq_nil {g : Generator} : check g r = .ok [] ↔
    nameErrors r.name = .ok [] ∧ outputErrors r.outputDir = [] ∧ optionErrors g r.options = .ok [] := by
  simp only [check, bind_eq_ok_iff]
  constructor
  · rintro ⟨names, hnames, options, hoptions, h⟩
    simp only [pure, Except.pure, Except.ok.injEq, append_eq_nil_iff] at h
    obtain ⟨⟨rfl, houtput⟩, rfl⟩ := h
    exact ⟨hnames, houtput, hoptions⟩
  · rintro ⟨hnames, houtput, hoptions⟩
    exact ⟨[], hnames, [], hoptions, by rw [houtput]; rfl⟩

theorem runNamed_succeeded {label : String} {s : Scaffold} (h : runNamed label r = .ok s)
    (hs : s.succeeded) : ∃ g, check g r = .ok [] ∧ filesOf g r = .ok s.files := by
  unfold runNamed at h
  split at h
  · next g _ =>
    refine ⟨g, ?_⟩
    obtain ⟨errors, herrors, h⟩ := bind_eq_ok_iff.1 h
    split at h
    · obtain ⟨files, hfiles, h⟩ := bind_eq_ok_iff.1 h
      cases h
      exact ⟨herrors, hfiles⟩
    · next hne =>
      cases h
      exact absurd (isEmpty_iff.1 hs) hne
  · cases h
    cases hs

theorem run_named (g : Generator) {name : List Char} (h : Accepted name) :
    ∃ s, runNamed g.label { name := .str (String.ofList name) } = .ok s ∧ s.succeeded := by
  have hcheck : check g { name := .str (String.ofList name) } = .ok [] := by
    refine check_eq_nil.2 ⟨(nameErrors_eq_nil _).2 ⟨_, rfl, by rwa [String.toList_ofList]⟩,
      show outputErrors (.str "generated") = [] by decide, ?_⟩
    cases g <;> rfl
  have hfiles : ∃ files, filesOf g { name := .str (String.ofList name) } = .ok files := by
    cases g <;> exact ⟨_, rfl⟩
  obtain ⟨files, hfiles⟩ := hfiles
  refine ⟨{ generator := g.label, files }, ?_, rfl⟩
  rw [runNamed, show Generator.ofLabel? g.label = some g by cases g <;> decide]
  show run g _ = _
  rw [run, hcheck]
  show (filesOf g _ >>= _) = _
  rw [hfiles]
  rfl

/-- **The names that pass**: a request that is carried out has a strict name, or one with a line feed behind it, so its
name is strict if and only if no line feed is in it; and each generator carries out a request with nothing but such a
name. -/
theorem runNamed_names (label : String) (r : ScaffoldRequest) :
    (∀ s, runNamed label r = .ok s → s.succeeded = true → ∃ name, r.name = .str name ∧ Accepted name.toList ∧
      (isStrictName name.toList = true ↔ '\n' ∉ name.toList)) ∧
    ∀ (g : Generator) (name : List Char), label = g.label → r = { name := .str (String.ofList name) } → Accepted name →
      ∃ s, runNamed label r = .ok s ∧ s.succeeded = true := by
  refine ⟨fun s h hs => ?_, fun g name hlabel hr hname => hlabel ▸ hr ▸ run_named g hname⟩
  obtain ⟨g, hcheck, -⟩ := runNamed_succeeded h hs
  obtain ⟨name, hr, hname⟩ := (nameErrors_eq_nil _).1 (check_eq_nil.1 hcheck).1
  exact ⟨name, hr, hname, hname.isStrictName_iff⟩

theorem runNamed_names_model :
    ∃ s, runNamed "model" { name := .str "order-item\n" } = .ok s ∧ s.succeeded = true ∧
      ∃ name, Value.str "order-item\n" = .str name ∧ Accepted name.toList ∧
        (isStrictName name.toList = true ↔ '\n' ∉ name.toList) := by
  obtain ⟨hstrict, hpass⟩ := runNamed_names "model" { name := .str "order-item\n" }
  obtain ⟨s, hrun, hs⟩ := hpass .model "order-item\n".toList rfl rfl ⟨"order-item".toList, ['\n'], rfl, rfl, .inr rfl⟩
  exact ⟨s, hrun, hs, hstrict s hrun hs⟩

/-- A name with a line feed is no strict one; it passes, and breaks a text in quotes. -/
theorem runNamed_line_feed : ∃ s, runNamed "api-route" { name := .str "users\n" } = .ok s ∧ s.succeeded = true ∧
    isStrictName "users\n".toList = false ∧
    s.files.any (fun f => occurs "message: 'users\n GET endpoint'".toList f.content) = true :=
  ⟨_, rfl, rfl, by decide, by decide +kernel⟩

end SourceBench.Scaffold
