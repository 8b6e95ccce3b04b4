import SourceBench.Proofs.Text.Lines
import SourceBench.Text.Naming

/-!
# Characters of written forms

Which characters stand in a text whose words were joined or parted, and the case of plain characters, which is settled
one by one (`ascii_forall`).  A text without what a form takes out is in that form already (`pascalCase_of_joined`,
`parted_of_clear`), so every written form of a plain text stays as it is when it is written again.
-/
namespace SourceBench.Text

open List

variable {cs : List Char} {x mark : Char} {c : Char} {p : Char → Bool} {open_ : Bool} {r : List Char}

@[elab_as_elim]
theorem ascii_forall {motive : Char → Prop} (hc : c.toNat < 128) (h : ∀ n < 128, motive (Char.ofNat n)) : motive c :=
  Char.ofNat_toNat c ▸ h c.toNat hc

theorem lower_eq_map (h : ∀ c ∈ cs, c.toNat < 128) : lower cs = cs.map Char.toLower := by
  have hafter : ∀ before, lowerAfter before cs = cs.map Char.toLower := by
    induction cs with
    | nil => exact fun _ => rfl
    | cons c r ih =>
      intro before
      obtain ⟨hc, hr⟩ := forall_mem_cons.1 h
      rw [lowerAfter, if_neg (by simp; omega), lowerChar, if_pos hc, ih hr]
      rfl
  exact hafter []

theorem mem_joinWords {fresh : Bool} (h : x ∈ joinWords fresh cs) :
    ∃ c ∈ cs, isDivider c = false ∧ (x = c ∨ x ∈ upperChar c) := by
  induction cs generalizing fresh with
  | nil => cases h
  | cons c r ih =>
    have hrest : ∀ {fresh}, x ∈ joinWords fresh r → ∃ d ∈ c :: r, isDivider d = false ∧ (x = d ∨ x ∈ upperChar d) :=
      fun h => by
      obtain ⟨d, hd, hx⟩ := ih h
      exact ⟨d, mem_cons_of_mem c hd, hx⟩
    rw [joinWords] at h
    split at h
    · exact hrest h
    · next hc =>
      rcases mem_append.1 h with h | h
      · refine ⟨c, mem_cons_self, by simpa using hc, ?_⟩
        split at h
        · exact .inr h
        · exact .inl (mem_singleton.1 h)
      · exact hrest h

theorem mem_markCapitals (h : x ∈ markCapitals mark cs) : x = mark ∨ x ∈ cs := by
  fun_induction markCapitals mark cs with
  | case1 => cases h
  | case2 c => exact .inr h
  | case3 c d r _ ih => grind
  | case4 c d r _ ih => grind

theorem mem_squeeze (h : x ∈ squeeze p mark open_ cs) : x = mark ∨ x ∈ cs ∧ p x = false := by
  induction cs generalizing open_ with
  | nil => cases h
  | cons c r ih =>
    rw [squeeze] at h
    grind

/-! ## Texts in their form -/

theorem trim_eq_self (h : ∀ c ∈ cs, isSpace c = false) : trim cs = cs := by
  cases cs with
  | nil => rfl
  | cons c r =>
    rw [trim_cons (h c mem_cons_self), trimRight_eq_rdropWhile, rdropWhile_eq_self_iff]
    exact fun hne => by simp [h _ (getLast_mem hne)]

theorem joinWords_eq_self (h : ∀ c ∈ cs, isDivider c = false) : joinWords false cs = cs := by
  induction cs with
  | nil => rfl
  | cons c r ih =>
    obtain ⟨hc, hr⟩ := forall_mem_cons.1 h
    rw [joinWords, hc, ih hr]
    rfl

theorem markCapitals_eq_self (h : ∀ c ∈ cs, isBig c = false) : markCapitals mark cs = cs := by
  fun_induction markCapitals mark cs with
  | case1 => rfl
  | case2 c => rfl
  | case3 c d r hcd ih => simp [h d (by simp)] at hcd
  | case4 c d r _ ih => rw [ih fun x hx => h x (mem_cons_of_mem c hx)]

theorem squeeze_eq_self (h : ∀ c ∈ cs, p c = false) : squeeze p mark open_ cs = cs := by
  induction cs generalizing open_ with
  | nil => rfl
  | cons c r ih =>
    obtain ⟨hc, hr⟩ := forall_mem_cons.1 h
    simp [squeeze, hc, ih hr]

def isPlain (c : Char) : Bool := c.toNat < 128 && !isDivider c

theorem isPlain_iff : isPlain c ↔ c.toNat < 128 ∧ isDivider c = false := by
  simp [isPlain]

theorem isPlain_case (h : isPlain c) : isPlain c.toUpper ∧ isPlain c.toLower ∧
    c.toUpper.toUpper = c.toUpper ∧ c.toUpper.toLower = c.toLower ∧ c.toLower.toUpper = c.toUpper :=
  ascii_forall (isPlain_iff.1 h).1 (motive := fun c => isPlain c → isPlain c.toUpper ∧ isPlain c.toLower ∧
    c.toUpper.toUpper = c.toUpper ∧ c.toUpper.toLower = c.toLower ∧ c.toLower.toUpper = c.toUpper) (by decide +kernel) h

/-! ## Joined words -/

theorem mapFirst_upper (h : c.toNat < 128) (r : List Char) : mapFirst upper (c :: r) = c.toUpper :: r := by
  rw [mapFirst, upper, flatMap_singleton, upperChar, if_pos h]
  rfl

theorem pascalCase_of_joined (h : ∀ x ∈ c :: r, isPlain x) : pascalCase (c :: r) = c.toUpper :: r := by
  have hdivider : ∀ x ∈ c :: r, isDivider x = false := fun x hx => (isPlain_iff.1 (h x hx)).2
  have hspace : ∀ x ∈ c :: r, isSpace x = false := fun x hx => (Bool.or_eq_false_iff.1 (hdivider x hx)).2
  rw [pascalCase, trim_eq_self hspace, joinWords_eq_self hdivider, mapFirst_upper (isPlain_iff.1 (h c mem_cons_self)).1]

theorem camelCase_of_pascalCase (hc : c.toNat < 128) (h : pascalCase cs = c :: r) : camelCase cs = c.toLower :: r := by
  rw [camelCase, h, mapFirst, lower_eq_map (by simpa using hc)]
  rfl

theorem mem_of_mem_trim (h : x ∈ trim cs) : x ∈ cs :=
  (dropWhile_suffix _).subset ((trimRight_isPrefix _).subset h)

theorem isPlain_joinWords (h : ∀ c ∈ cs, c.toNat < 128) : ∀ x ∈ joinWords false (trim cs), isPlain x := by
  intro x hx
  obtain ⟨c, hc, hdivider, hx⟩ := mem_joinWords hx
  have hascii := h c (mem_of_mem_trim hc)
  have hplain := isPlain_iff.2 ⟨hascii, hdivider⟩
  rcases hx with rfl | hx
  · exact hplain
  · rw [upperChar, if_pos hascii, mem_singleton] at hx
    exact hx ▸ (isPlain_case hplain).1

theorem pascalCase_cases (h : ∀ c ∈ cs, c.toNat < 128) :
    pascalCase cs = [] ∨ ∃ c r, (∀ x ∈ c :: r, isPlain x) ∧ pascalCase cs = c.toUpper :: r := by
  have hplain := isPlain_joinWords h
  cases hjoined : joinWords false (trim cs) with
  | nil => exact .inl (by rw [pascalCase, hjoined]; rfl)
  | cons c r =>
    rw [hjoined] at hplain
    exact .inr ⟨c, r, hplain, by rw [pascalCase, hjoined, mapFirst_upper (isPlain_iff.1 (hplain c mem_cons_self)).1]⟩

/-! ## Parted words -/

/-- Words parted by a mark, where white space and another character become marks as well. -/
def parted (other mark : Char) (cs : List Char) : List Char :=
  lower (squeeze (fun c => isSpace c || c == other) mark false (markCapitals mark (trim cs)))

/-- Plain characters that parting words leaves as they are. -/
def isClear (other c : Char) : Bool := c.toNat < 128 && !(isSpace c || c == other) && !isCapital c

variable {other : Char}

theorem isClear_iff : isClear other c ↔ c.toNat < 128 ∧ (isSpace c || c == other) = false ∧ isCapital c = false := by
  simp only [isClear, Bool.and_eq_true, decide_eq_true_eq, Bool.not_eq_true', and_assoc]

theorem isClear_case (h : isClear other c) : isBig c = false ∧ c.toLower = c :=
  ascii_forall (isClear_iff.1 h).1 (motive := fun c => isCapital c = false → isBig c = false ∧ c.toLower = c)
    (by decide +kernel) (isClear_iff.1 h).2.2

theorem parted_of_clear (h : ∀ c ∈ cs, isClear other c) : parted other mark cs = cs := by
  have hclear := fun c hc => isClear_iff.1 (h c hc)
  rw [parted, trim_eq_self fun c hc => (Bool.or_eq_false_iff.1 (hclear c hc).2.1).1,
    markCapitals_eq_self fun c hc => (isClear_case (h c hc)).1, squeeze_eq_self fun c hc => (hclear c hc).2.1,
    lower_eq_map fun c hc => (hclear c hc).1]
  exact (map_congr_left fun c hc => (isClear_case (h c hc)).2).trans (map_id cs)

theorem isClear_toLower (hother : other = '-' ∨ other = '_') (hc : c.toNat < 128)
    (h : (isSpace c || c == other) = false) : isClear other c.toLower := by
  refine ascii_forall hc (motive := fun c => (isSpace c || c == other) = false → isClear other c.toLower) ?_ h
  rcases hother with rfl | rfl
  · decide +kernel
  · decide +kernel

theorem isClear_parted (hother : other = '-' ∨ other = '_') (hmark : isClear other mark)
    (h : ∀ c ∈ cs, c.toNat < 128) : ∀ x ∈ parted other mark cs, isClear other x := by
  have hparts : ∀ c ∈ squeeze (fun c => isSpace c || c == other) mark false (markCapitals mark (trim cs)),
      c.toNat < 128 ∧ (isSpace c || c == other) = false := by
    intro c hc
    obtain ⟨hascii, hclear, -⟩ := isClear_iff.1 hmark
    rcases mem_squeeze hc with rfl | ⟨hc, hgap⟩
    · exact ⟨hascii, hclear⟩
    · rcases mem_markCapitals hc with rfl | hc
      · exact ⟨hascii, hgap⟩
      · exact ⟨h c (mem_of_mem_trim hc), hgap⟩
  intro x hx
  rw [parted, lower_eq_map fun c hc => (hparts c hc).1] at hx
  obtain ⟨c, hc, rfl⟩ := mem_map.1 hx
  exact isClear_toLower hother (hparts c hc).1 (hparts c hc).2

/-! ## Written forms -/

/-- **The written forms of a plain text are stable:** each stays as it is when it is written again, the two joined forms
lead to each other, and none has the characters that it takes out. -/
theorem written_forms_stable (cs : List Char) (h : ∀ c ∈ cs, c.toNat < 128) :
    (pascalCase (pascalCase cs) = pascalCase cs ∧ pascalCase (camelCase cs) = pascalCase cs ∧
      camelCase (pascalCase cs) = camelCase cs ∧ kebabCase (kebabCase cs) = kebabCase cs ∧
      snakeCase (snakeCase cs) = snakeCase cs) ∧
    (∀ c ∈ pascalCase cs ++ camelCase cs, c ≠ '-' ∧ c ≠ '_' ∧ isSpace c = false) ∧
    (∀ c ∈ kebabCase cs, c ≠ '_' ∧ isSpace c = false ∧ isCapital c = false) ∧
    ∀ c ∈ snakeCase cs, c ≠ '-' ∧ isSpace c = false ∧ isCapital c = false := by
  have hkebab : ∀ c ∈ kebabCase cs, isClear '_' c = true := isClear_parted (.inr rfl) (by decide) h
  have hsnake : ∀ c ∈ snakeCase cs, isClear '-' c = true := isClear_parted (.inl rfl) (by decide) h
  have hpascal : (pascalCase (pascalCase cs) = pascalCase cs ∧ pascalCase (camelCase cs) = pascalCase cs ∧
      camelCase (pascalCase cs) = camelCase cs) ∧ ∀ x ∈ pascalCase cs ++ camelCase cs, isPlain x = true := by
    rcases pascalCase_cases h with hnil | ⟨c, r, hplain, heq⟩
    · have hcamel : camelCase cs = [] := by rw [camelCase, hnil]; rfl
      rw [hcamel, hnil]
      exact ⟨⟨rfl, rfl, rfl⟩, fun x hx => absurd hx not_mem_nil⟩
    · obtain ⟨hc, hr⟩ := forall_mem_cons.1 hplain
      obtain ⟨hupper, hlower, huu, hul, hlu⟩ := isPlain_case hc
      have hcamel := camelCase_of_pascalCase (isPlain_iff.1 hupper).1 heq
      have hagain := pascalCase_of_joined (forall_mem_cons.2 ⟨hupper, hr⟩)
      rw [huu] at hagain
      rw [hul] at hcamel
      rw [hcamel, heq, hagain, camelCase_of_pascalCase (isPlain_iff.1 hupper).1 hagain, hul,
        pascalCase_of_joined (forall_mem_cons.2 ⟨hlower, hr⟩), hlu]
      exact ⟨⟨rfl, rfl, rfl⟩, forall_mem_append.2 ⟨forall_mem_cons.2 ⟨hupper, hr⟩, forall_mem_cons.2 ⟨hlower, hr⟩⟩⟩
  refine ⟨⟨hpascal.1.1, hpascal.1.2.1, hpascal.1.2.2, parted_of_clear hkebab, parted_of_clear hsnake⟩, fun c hc => ?_,
    fun c hc => ?_, fun c hc => ?_⟩
  · simpa [isDivider, and_assoc] using (isPlain_iff.1 (hpascal.2 c hc)).2
  · have := isClear_iff.1 (hkebab c hc)
    simp_all
  · have := isClear_iff.1 (hsnake c hc)
    simp_all

theorem written_forms_stable_mixed : (∀ c ∈ " -fooBar_9 x".toList, c.toNat < 128) ∧
    pascalCase (camelCase " -fooBar_9 x".toList) = pascalCase " -fooBar_9 x".toList ∧
    pascalCase " -fooBar_9 x".toList = "FooBar9X".toList ∧ kebabCase " -fooBar_9 x".toList = "-foo-bar-9-x".toList :=
  ⟨by simp, (written_forms_stable " -fooBar_9 x".toList (by simp)).1.2.1, by decide, by decide⟩

end SourceBench.Text
