import SourceBench.Proofs.Declaration.Reached
import SourceBench.Proofs.Text.Lines
import SourceBench.Proofs.Value.Texts
import SourceBench.Review

/-!
# Imports that no declaration uses

A review reports a named import, unless it is of types alone, if no declaration at any depth has its name and the name
does not occur in the written details (`Review.reports_iff`).  A name of plain characters that stands in some text of
the details occurs there, so it is not reported; any other character is escaped where details are written, so names with
a character beyond ASCII are found among the names of declarations only (`Review.find_spares_used`).
-/
namespace SourceBench

open List

namespace Text

theorem isInfix_join {mark l : List Char} : ∀ {ls : List (List Char)}, l ∈ ls → l <:+: join mark ls
  | [], h => absurd h not_mem_nil
  | [k], h => by
    rw [mem_singleton.1 h]
    exact infix_rfl
  | k :: m :: ls, h => by
    rw [join]
    rcases mem_cons.1 h with rfl | h
    · exact isInfix_append_left (isInfix_append_left infix_rfl _) _
    · exact isInfix_append_right (isInfix_join h) _

end Text

namespace Review

variable {t : Thresholds} {o : Outline} {name : String}

/-! ## What is reported -/

def Declares (o : Outline) (name : String) : Prop := ∃ d, o.tree.Reached d ∧ d.name = name

/-- The name occurs in a text, anywhere in the details of a declaration at any depth. -/
def Mentions (o : Outline) (name : String) : Prop :=
  ∃ d, o.tree.Reached d ∧ ∃ s ∈ Value.texts (.object d.details), name.toList <:+: s.toList

def Reports (t : Thresholds) (o : Outline) (name : String) : Prop :=
  ∃ i ∈ find t o, i.kind = .deadCode ∧ i.node = some name

theorem declares_iff : Declares o name ↔ ∃ d ∈ o.tree.walk, d.name = name := by
  simp only [Declares, DeclarationTree.mem_walk_iff]

theorem mentions_iff : Mentions o name ↔
    ∃ d ∈ o.tree.walk, ∃ s ∈ Value.texts (.object d.details), Text.occurs name.toList s.toList := by
  simp only [Mentions, DeclarationTree.mem_walk_iff, Text.occurs_iff]

instance : Decidable (Declares o name) := decidable_of_iff' _ declares_iff

instance : Decidable (Mentions o name) := decidable_of_iff' _ mentions_iff

instance : Decidable (Reports t o name) :=
  inferInstanceAs (Decidable (∃ i ∈ find t o, i.kind = .deadCode ∧ i.node = some name))

theorem kind_of_mem_declarationIssues {d : Declaration} {i : Issue} (h : i ∈ declarationIssues d) :
    i.kind ≠ .deadCode := by
  rcases mem_append.1 h with h | h
  all_goals
    rw [mem_singleton.1 (mem_ite_nil_right.1 h).2]
    exact nofun

theorem mem_importIssues {i : Issue} (hi : i ∈ find t o) (hkind : i.kind = .deadCode) : i ∈ importIssues o := by
  rcases mem_append.1 hi with hi | hi
  · exfalso
    rcases mem_append.1 hi with hi | hi
    · rcases mem_append.1 hi with hi | hi
      all_goals
        rw [mem_singleton.1 (mem_ite_nil_right.1 hi).2] at hkind
        cases hkind
    · obtain ⟨d, -, hd⟩ := mem_flatMap.1 hi
      exact kind_of_mem_declarationIssues hd hkind
  · exact hi

theorem isUsed_iff : isUsed o.tree.walk (detailText o.tree.walk) name ↔
    Declares o name ∨ name.toList <:+: detailText o.tree.walk := by
  rw [isUsed, Bool.or_eq_true, Text.occurs_iff, any_eq_true, declares_iff]
  simp only [beq_iff_eq]

/-- **A named import is reported unless its name is declared or occurs in the written details.** -/
theorem reports_iff : Reports t o name ↔ (∃ r ∈ o.imports, r.isTypeOnly = false ∧ name ∈ r.names) ∧
    ¬ Declares o name ∧ ¬ name.toList <:+: detailText o.tree.walk := by
  rw [← not_or, ← isUsed_iff, Bool.not_eq_true]
  constructor
  · rintro ⟨i, hi, hkind, hnode⟩
    obtain ⟨r, hr, hi⟩ := mem_flatMap.1 (mem_importIssues hi hkind)
    obtain ⟨n, hn, rfl⟩ := mem_map.1 hi
    cases hnode
    rw [mem_filter, Bool.not_eq_true'] at hr hn
    exact ⟨⟨r, hr.1, hr.2, hn.1⟩, hn.2⟩
  · rintro ⟨⟨r, hr, htype, hn⟩, hused⟩
    refine ⟨_, mem_append_right _ (mem_flatMap.2 ⟨r, mem_filter.2 ⟨hr, by simp [htype]⟩,
      mem_map.2 ⟨name, mem_filter.2 ⟨hn, by simp [hused]⟩, rfl⟩⟩), rfl, rfl⟩

/-! ## What written details show -/

theorem isInfix_detailText (hplain : ∀ c ∈ name.toList, Json.isPlain c) (h : Mentions o name) :
    name.toList <:+: detailText o.tree.walk := by
  obtain ⟨d, hd, s, hs, hname⟩ := h
  have hquote := Json.isInfix_quote hplain hname
  have hwritten := Json.quote_isInfix_write .oneLine (.object d.details) 0 hs
  have hline : Json.write .oneLine 0 (.object d.details) <:+: detailText o.tree.walk :=
    Text.isInfix_join (mem_map.2 ⟨d, DeclarationTree.mem_walk_iff.2 hd, rfl⟩)
  exact hquote.trans (hwritten.trans hline)

theorem clean_joinLines : ∀ {ls : List (List Char)}, (∀ l ∈ ls, Json.Clean l) → Json.Clean (Text.joinLines ls)
  | [], _ => Json.clean_nil
  | [l], h => h l mem_cons_self
  | l :: m :: ls, h => by
    rw [forall_mem_cons] at h
    exact (h.1.append (by decide)).append (clean_joinLines h.2)

theorem clean_detailText (ds : List Declaration) : Json.Clean (detailText ds) := by
  refine clean_joinLines fun l hl => ?_
  obtain ⟨d, -, rfl⟩ := mem_map.1 hl
  exact Json.clean_write .oneLine _ 0

/-- **Imports that are used are not reported,** as far as their names are plain.  If the name of an import is that of a
declaration at any depth, or if it is made of plain characters and occurs in a text anywhere in the details of one, then
it is not reported.  If it has a character beyond ASCII, then it is reported just if no declaration has the name,
whatever the details are. -/
theorem find_spares_used (t : Thresholds) {o : Outline} {r : ImportRecord} (hr : r ∈ o.imports)
    (htype : r.isTypeOnly = false) {name : String} (hname : name ∈ r.names) :
    (Declares o name → ¬ Reports t o name) ∧
    ((∀ c ∈ name.toList, Json.isPlain c = true) → Mentions o name → ¬ Reports t o name) ∧
    ((∃ c ∈ name.toList, 128 ≤ c.toNat) → (Reports t o name ↔ ¬ Declares o name)) := by
  refine ⟨fun hdecl hreports => ?_, fun hplain hmentions hreports => ?_, ?_⟩
  · exact (reports_iff.1 hreports).2.1 hdecl
  · exact (reports_iff.1 hreports).2.2 (isInfix_detailText hplain hmentions)
  · rintro ⟨c, hc, hforeign⟩
    have habsent : ¬ name.toList <:+: detailText o.tree.walk := fun hfound =>
      Nat.not_lt.2 hforeign (clean_detailText _ c (hfound.subset hc)).1
    rw [reports_iff]
    exact ⟨fun h => h.2.1, fun h => ⟨⟨r, hr, htype, hname⟩, h, habsent⟩⟩

def sizesSource : List Char :=
  "import \x7b Größe, Dep \x7d from 'lib';\n/** doc */\nexport function f(d: Größe, e: Dep[]): void \x7b\x7d\n".toList

def sizes : Outline := .ofSource .typescript "sizes.ts" sizesSource

theorem sizes_evaluated : ⟨"lib", ["Größe", "Dep"], none, none, false⟩ ∈ sizes.imports ∧
    (Mentions sizes "Dep" ∧ Mentions sizes "Größe") ∧ Reports {} sizes "Größe" := by
  rw [sizes, show sizesSource = _ from String.toList_ofList]
  decide +kernel

theorem find_spares_used_ascii : Mentions sizes "Dep" ∧ ¬ Reports {} sizes "Dep" := by
  obtain ⟨hr, ⟨hmentions, -⟩, -⟩ := sizes_evaluated
  exact ⟨hmentions, (find_spares_used {} hr rfl (by decide)).2.1 (all_eq_true.1 rfl) hmentions⟩

/-- **An import that is used can be reported.** -/
theorem find_reports_used : Mentions sizes "Größe" ∧ Reports {} sizes "Größe" :=
  ⟨sizes_evaluated.2.1.2, sizes_evaluated.2.2⟩

end Review
end SourceBench
