import SourceBench.Proofs.Syntax.Preface

/-!
# What the next token rules out

A `Head` is what is known of the next token: a mark, the end of the source, or a word of which one knows what it may be.
It says which leaves cannot be read here.  From that one reads off the grammar that a whole rule cannot be read
(`Head.refuses`), whatever stands behind the token (`Head.run_eq_none`).
-/
namespace SourceBench.Syntax

open List Rule Bool

variable {r : Rule} {a : Char} {w : List Char} {name : String}

/-! ## Words and marks -/

def isWord : List Char → Bool
  | [] => false
  | a :: r => isWordStart a && r.all isWordChar

def endsWord (cs : List Char) : Bool := cs.head?.all fun a => !isWordChar a && a != '\\'

/-- A character that begins neither a word nor a blank nor a comment. -/
def isMark (a : Char) : Bool := !isBlank a && !isWordChar a && a != '\\' && a != '/'

def isBare (cs : List Char) : Bool := cs.head?.all fun a => !isBlank a && a != '/'

theorem blank_space : ∀ x ∈ [' '], isBlank x := all_eq_true.1 rfl

variable {cs blank : List Char}

theorem commentLength_of_isBare (h : isBare cs) : commentLength cs = 0 := by
  fun_cases commentLength cs with
  | case1 r => exact absurd h (by simp [isBare])
  | case2 r => exact absurd h (by simp [isBare])
  | case3 => rfl

theorem skipBlank_of_isBare (hblank : ∀ x ∈ blank, isBlank x) (hcs : isBare cs) (p : Pos) :
    Cursor.skipBlank ⟨blank ++ cs, p⟩ = ⟨cs, p.afterAll blank⟩ := by
  rw [skipBlank_append hblank, Cursor.skipBlank]
  cases cs with
  | nil => rfl
  | cons a r =>
    have ha : isBlank a = false := by simp_all [isBare]
    rw [takeWhile_cons, if_neg (by rw [ha]; decide)]
    rfl

theorem trivia_of_isBare (hblank : ∀ x ∈ blank, isBlank x) (hcs : isBare cs) (p : Pos) :
    Cursor.trivia ⟨blank ++ cs, p⟩ = ([], ⟨cs, p.afterAll blank⟩) := by
  have hskip := skipBlank_of_isBare hblank hcs p
  rw [Cursor.trivia]
  cases (blank ++ cs).length with
  | zero => rw [trivia, hskip]
  | succ n => simp only [trivia, hskip, commentLength_of_isBare hcs]

theorem wordEscapeLength_of_ne (h : a ≠ '\\') (r : List Char) : wordEscapeLength (a :: r) = 0 := by
  rw [wordEscapeLength]
  all_goals
    intro r' hr'
    cases hr'
    exact h rfl

theorem endsWord_of_mark (hblank : ∀ x ∈ blank, isBlank x) (ha : isMark a) (cs : List Char) :
    endsWord (blank ++ a :: cs) := by
  cases blank with
  | nil => simp_all [endsWord, isMark]
  | cons x blank =>
    have hx : isBlank x := hblank x mem_cons_self
    have hne : x ≠ '\\' := by
      rintro rfl
      exact absurd hx (by decide)
    simp [endsWord, isWordChar, hx, hne]

theorem wordTailLength_append {cs : List Char} (hcs : endsWord cs) : ∀ {w : List Char} {n : Nat},
    w.all isWordChar → w.length ≤ n → wordTailLength n (w ++ cs) = w.length
  | [], 0, _, _ => by rw [wordTailLength]; rfl
  | [], n + 1, _, _ => by
    cases cs with
    | nil => rfl
    | cons a r =>
      have ha : isWordChar a = false ∧ a ≠ '\\' := by simpa [endsWord] using hcs
      rw [nil_append, wordTailLength, if_neg (by rw [ha.1]; decide), wordEscapeLength_of_ne ha.2]
      rfl
  | a :: w, n + 1, hw, hn => by
    rw [all_cons, and_eq_true] at hw
    rw [cons_append, wordTailLength, if_pos hw.1, wordTailLength_append hcs hw.2 (Nat.le_of_succ_le_succ hn),
      length_cons, Nat.add_comm]

theorem wordLength_append (hw : isWord w) (hcs : endsWord cs) : wordLength (w ++ cs) = w.length := by
  cases w with
  | nil => cases hw
  | cons a r =>
    rw [isWord, and_eq_true] at hw
    have ha : isWordChar a := by
      have := hw.1
      rw [isWordStart, and_eq_true] at this
      exact this.1
    rw [cons_append, wordLength, if_pos (by rw [hw.1]; rfl), ← cons_append]
    refine wordTailLength_append hcs ?_ ?_
    · rw [all_cons, ha, hw.2]
      rfl
    · rw [length_append, length_cons]
      omega

theorem isBare_of_isWord (hw : isWord w) (cs : List Char) : isBare (w ++ cs) := by
  cases w with
  | nil => cases hw
  | cons a r =>
    rw [isWord, isWordStart, isWordChar] at hw
    have hslash : a ≠ '/' := by
      rintro rfl
      exact absurd hw (by simp)
    simp_all [isBare]

theorem wordLength_eq_zero (h : cs.head?.all (fun a => !isWordChar a && a != '\\')) : wordLength cs = 0 := by
  cases cs with
  | nil => rfl
  | cons a r =>
    have ha : isWordChar a = false ∧ a ≠ '\\' := by simpa using h
    rw [wordLength, isWordStart, ha.1, wordEscapeLength_of_ne ha.2]
    rfl

theorem isPrefixOf_eq_false {text : List Char} (h : text.head?.any (some · != cs.head?)) :
    text.isPrefixOf cs = false := by
  cases text with
  | nil => cases h
  | cons a t =>
    cases cs with
    | nil => rfl
    | cons b r =>
      have hab : a ≠ b := by simpa using h
      rw [isPrefixOf, beq_eq_false_iff_ne.2 hab, Bool.false_and]

theorem numberLength_eq_zero (h : cs.head?.all (fun a => !isDigit a && a != '.')) : numberLength cs = 0 := by
  cases cs with
  | nil => rfl
  | cons a r =>
    have ha : isDigit a = false ∧ a ≠ '.' := by simpa using h
    have hdigits : digitsLength isDigit (a :: r) = 0 := by
      cases r <;> simp [digitsLength, ha.1]
    have hdecimal : decimalLength (a :: r) = 0 := by
      rw [decimalLength, hdigits, drop_zero]
      split
      · rfl
      · rename_i heq
        cases heq
        exact absurd rfl ha.2
      · rfl
    have hzero : a ≠ '0' := by
      rintro rfl
      exact absurd ha.1 (by decide)
    rw [numberLength]
    · exact hdecimal
    all_goals
      intro r' hr'
      cases hr'
      exact hzero rfl

theorem length_privateName_eq_zero (h : cs.head? ≠ some '#') : Lexeme.privateName.length cs = 0 := by
  rw [Lexeme.length]
  rintro r rfl
  exact h rfl

theorem length_hashBang_eq_zero (h : cs.head? ≠ some '#') : Lexeme.hashBang.length cs = 0 := by
  rw [Lexeme.length]
  rintro r rfl
  exact h rfl

/-! ## Heads -/

/-- How much of the text a leaf takes, if the rule is for one. -/
def Rule.measure : Rule → List Char → Nat
  | punct text stops, cs => punctLength text stops cs
  | word text, cs => keywordLength text cs
  | lexeme _ l, cs => l.length cs
  | _, _ => 1

/-- What is known of the next token, and the leaves that it is not. -/
structure Head where
  At : List Char → Prop
  dead : Rule → Bool
  isBare : ∀ {cs}, At cs → isBare cs = true
  measure_eq_zero : ∀ {cs r}, At cs → dead r = true → r.measure cs = 0

/-- The leaves that do not begin with the mark `a`, or at the end of the source. -/
def deadAtMark (a : Option Char) : Rule → Bool
  | .punct t _ => t.toList.head?.any (some · != a)
  | .word t => t.toList.head?.any (some · != a)
  | .lexeme _ (.exactly t) => t.toList.head?.any (some · != a)
  | .lexeme _ .name => true
  | .lexeme _ .anyWord => true
  | .lexeme _ .looseWord => true
  | .lexeme _ .privateName => a != some '#'
  | .lexeme _ .hashBang => a != some '#'
  | .lexeme _ .number => a.all fun a => !isDigit a && a != '.'
  | _ => false

theorem measure_eq_zero_of_mark {a : Option Char} (ha : a.all isMark) (hcs : cs.head? = a)
    (hr : deadAtMark a r) : r.measure cs = 0 := by
  have hword : wordLength cs = 0 := by
    refine wordLength_eq_zero (hcs ▸ ?_)
    cases a <;> simp_all [isMark]
  have hprefix : ∀ {t : String}, t.toList.head?.any (some · != a) → t.toList.isPrefixOf cs = false :=
    fun ht => isPrefixOf_eq_false (hcs ▸ ht)
  have hkeyword : ∀ {t : String}, t.toList.head?.any (some · != a) → keywordLength t cs = 0 := fun ht => by
    rw [keywordLength, hprefix ht]
    rfl
  cases r with
  | punct t _ =>
    show punctLength _ _ _ = 0
    rw [punctLength, hprefix hr]
    rfl
  | word t => exact hkeyword hr
  | lexeme k l =>
    show l.length cs = 0
    cases l with
    | exactly t => exact hkeyword hr
    | name => simp [Lexeme.length, hword]
    | anyWord => exact hword
    | looseWord => simp [Lexeme.length, hword]
    | privateName => exact length_privateName_eq_zero (by rw [hcs]; exact bne_iff_ne.1 hr)
    | hashBang => exact length_hashBang_eq_zero (by rw [hcs]; exact bne_iff_ne.1 hr)
    | number => exact numberLength_eq_zero (hcs ▸ hr)
    | _ => cases hr
  | _ => cases hr

def Head.mark (a : Option Char) : Head where
  At cs := a.all isMark = true ∧ cs.head? = a
  dead := deadAtMark a
  isBare := by
    rintro cs ⟨ha, hcs⟩
    cases a <;> simp_all [Syntax.isBare, isMark]
  measure_eq_zero hcs hr := measure_eq_zero_of_mark hcs.1 hcs.2 hr

/-- The leaves that a word is not which may be one of `mayBe`, and a name if `named`. -/
def deadAtWord (mayBe : String → Bool) (named : Bool) : Rule → Bool
  | .punct t _ => t.toList.head?.any (!isWordChar ·)
  | .word t => !mayBe t
  | .lexeme _ (.exactly t) => !mayBe t
  | .lexeme _ .name => !named
  | .lexeme _ .looseWord => looseWords.all (!mayBe ·)
  | .lexeme _ .privateName => true
  | .lexeme _ .hashBang => true
  | .lexeme _ .number => true
  | _ => false

theorem measure_eq_zero_of_word {mayBe : String → Bool} {named : Bool} {w : String} (hw : isWord w.toList)
    (hcs : endsWord cs) (hmay : mayBe w) (hnamed : keywords.contains w = false → named)
    (hr : deadAtWord mayBe named r) :
    r.measure (w.toList ++ cs) = 0 := by
  have hlength := wordLength_append hw hcs
  have hkeyword : ∀ {t : String}, (!mayBe t) → keywordLength t (w.toList ++ cs) = 0 := fun {t} ht => by
    have hne : t ≠ w := by
      rintro rfl
      rw [hmay] at ht
      cases ht
    rw [keywordLength, hlength, if_neg]
    rintro h
    obtain ⟨hpre, hlen⟩ := Bool.and_eq_true_iff.1 h
    refine hne (String.toList_inj.1 ?_)
    obtain ⟨u, hu⟩ := isPrefixOf_iff_prefix.1 hpre
    exact (append_inj hu (beq_iff_eq.1 hlen).symm).1
  obtain ⟨a, r', haw, hstart⟩ : ∃ a r', w.toList = a :: r' ∧ isWordStart a := by
    cases hlist : w.toList with
    | nil => rw [hlist] at hw; cases hw
    | cons a r' =>
      rw [hlist, isWord, and_eq_true] at hw
      exact ⟨a, r', rfl, hw.1⟩
  rw [isWordStart, and_eq_true] at hstart
  have hhash : (w.toList ++ cs).head? ≠ some '#' := by
    rw [haw, cons_append, head?_cons]
    rintro h
    cases h
    exact absurd hstart.1 (by decide)
  cases r with
  | punct t _ =>
    have hpre : t.toList.isPrefixOf (w.toList ++ cs) = false := by
      refine isPrefixOf_eq_false ?_
      obtain ⟨b, hb, hbw⟩ := (Option.any_eq_true _ _).1 hr
      rw [hb, haw]
      have hba : b ≠ a := by
        rintro rfl
        rw [hstart.1] at hbw
        cases hbw
      simpa using hba
    show punctLength _ _ _ = 0
    rw [punctLength, hpre]
    rfl
  | word t => exact hkeyword hr
  | lexeme k l =>
    show l.length (w.toList ++ cs) = 0
    cases l with
    | exactly t => exact hkeyword hr
    | name =>
      have hin : keywords.contains w := by
        cases hc : keywords.contains w with
        | true => rfl
        | false => rw [deadAtWord, hnamed hc] at hr; cases hr
      simp only [Lexeme.length, hlength, take_left]
      rw [if_pos]
      exact contains_iff_mem.2 (mem_map_of_mem (contains_iff_mem.1 hin))
    | looseWord =>
      simp only [Lexeme.length, hlength, take_left]
      rw [if_neg]
      intro hin
      obtain ⟨t, ht, heq⟩ := mem_map.1 (contains_iff_mem.1 hin)
      obtain rfl := String.toList_inj.1 heq
      have := all_eq_true.1 hr t ht
      rw [hmay] at this
      cases this
    | privateName => exact length_privateName_eq_zero hhash
    | hashBang => exact length_hashBang_eq_zero hhash
    | number =>
      refine numberLength_eq_zero ?_
      rw [haw, cons_append, head?_cons]
      have hdot : a ≠ '.' := by
        rintro rfl
        exact absurd hstart.1 (by decide)
      simpa using ⟨by simpa using hstart.2, hdot⟩
    | _ => cases hr
  | _ => cases hr

/-- The next token is a word; `mayBe` holds of it, and if it is no keyword then `named`. -/
def Head.word (mayBe : String → Bool) (named : Bool) : Head where
  At cs := ∃ w r, cs = w.toList ++ r ∧ isWord w.toList = true ∧ endsWord r = true ∧ mayBe w = true ∧
    (keywords.contains w = false → named = true)
  dead := deadAtWord mayBe named
  isBare := by
    rintro _ ⟨w, cs, rfl, hw, -⟩
    exact isBare_of_isWord hw cs
  measure_eq_zero := by
    rintro _ r ⟨w, cs, rfl, hw, hcs, hmay, hnamed⟩ hr
    exact measure_eq_zero_of_word hw hcs hmay hnamed hr

/-! ## Rules that a head refuses -/

/-- Reading the rule passes over nothing, where `refuses` says what cannot be read. -/
def idles (refuses : Rule → Bool) : Rule → Bool
  | .opt r => refuses r
  | .many r => refuses r
  | .ahead _ => true
  | .notAhead _ => true
  | .steady => true
  | .closing => true
  | .operandEnd => true
  | .typedArrow => true
  | _ => false

/-- One of the rules is refused, and those before it pass over nothing. -/
def refusesInOrder (refuses : Rule → Bool) : List Rule → Bool
  | [] => false
  | r :: rs => refuses r || (idles refuses r && refusesInOrder refuses rs)

/-- The rule cannot be read at the head.  `n` bounds the depth of rules in rules. -/
def Head.refuses (h : Head) : Nat → Rule → Bool
  | 0, _ => false
  | n + 1, .ref x => h.refuses n (grammar x)
  | n + 1, .seq rs => refusesInOrder (h.refuses n) rs
  | n + 1, .alt rs => rs.all (h.refuses n)
  | n + 1, .node _ r => h.refuses n r
  | n + 1, .role _ r => h.refuses n r
  | n + 1, .ahead r => h.refuses n r
  | n + 1, .under _ r => h.refuses n r
  | n + 1, .chain _ base _ => h.refuses n base
  | n + 1, .only _ r => h.refuses n r
  | n + 1, .among _ r => h.refuses n r
  | _ + 1, r => h.dead r

section
variable {refuses : Rule → Bool} {cur : Cursor}

theorem cursor_eq_of_idles (hrefuses : ∀ r, refuses r → ∀ n c e, r.run grammar n c ⟨cur, e⟩ = none)
    (hr : idles refuses r) {n : Nat} {c : Context} {e : Bool} {ts : List Tree} {s' : State}
    (h : r.run grammar n c ⟨cur, e⟩ = some (ts, s')) : s'.cursor = cur := by
  cases n with
  | zero => cases h
  | succ n =>
    cases r with
    | opt r =>
      simp only [run, hrefuses r hr n c e] at h
      cases h
      rfl
    | many r =>
      have hstop : repeatedly (r.run grammar n c) n ⟨cur, e⟩ = ([], ⟨cur, e⟩) := by
        cases n with
        | zero => rfl
        | succ n => simp only [repeatedly, hrefuses r hr (n + 1) c e]
      simp only [run, hstop] at h
      cases h
      rfl
    | ahead r =>
      simp only [run] at h
      split at h <;> cases h
      rfl
    | notAhead r =>
      simp only [run] at h
      split at h <;> cases h
      rfl
    | steady =>
      simp only [run] at h
      split at h <;> cases h
      rfl
    | closing =>
      simp only [run] at h
      split at h <;> cases h
      rfl
    | operandEnd =>
      cases h
      rfl
    | typedArrow =>
      simp only [run] at h
      split at h <;> cases h
      rfl
    | _ => cases hr

theorem inOrder_eq_none (hrefuses : ∀ r, refuses r → ∀ n c e, r.run grammar n c ⟨cur, e⟩ = none) (n : Nat)
    (c : Context) :
    ∀ (rs : List Rule), refusesInOrder refuses rs → ∀ e, inOrder (run grammar n c) rs ⟨cur, e⟩ = none
  | [], hrs, _ => by cases hrs
  | r :: rs, hrs, e => by
    rw [inOrder]
    cases hread : r.run grammar n c ⟨cur, e⟩ with
    | none => rfl
    | some x =>
      -- what stands before the refused rule was read without passing over anything
      obtain ⟨ts, ⟨cur', e'⟩⟩ := x
      rw [refusesInOrder, Bool.or_eq_true, and_eq_true] at hrs
      rcases hrs with hr | ⟨hr, hrs⟩
      · rw [hrefuses r hr n c e] at hread
        cases hread
      · have hcur : cur' = cur := cursor_eq_of_idles hrefuses hr hread
        simp only [hcur, inOrder_eq_none hrefuses n c rs hrs e']

theorem firstOf_eq_none {read : Rule → State → Reading} {s : State} : ∀ {rs : List Rule}, (∀ r ∈ rs, read r s = none) →
    firstOf read rs s = none
  | [], _ => rfl
  | r :: rs, h => by
    obtain ⟨hr, hrs⟩ := forall_mem_cons.1 h
    rw [firstOf, hr]
    exact firstOf_eq_none hrs

end

section
variable {h : Head} {cur : Cursor} (hcur : h.At cur.trivia.2.rest)

include hcur

theorem run_eq_none_of_dead (hr : h.dead r) (n : Nat) (c : Context) (e : Bool) : r.run grammar n c ⟨cur, e⟩ = none := by
  have hmeasure := h.measure_eq_zero hcur hr
  have htoken : ∀ k : Kind, State.token ⟨cur, e⟩ k r.measure = none := fun k => by
    simp only [State.token, hmeasure]
  cases n with
  | zero => rfl
  | succ n =>
    cases r with
    | punct t stops => exact htoken .token
    | word t => exact htoken .token
    | lexeme k l => exact htoken k
    | _ => cases hmeasure

/-- **What a head refuses cannot be read**, whatever stands before and behind the head. -/
theorem Head.run_eq_none : ∀ (k : Nat) (r : Rule), h.refuses k r → ∀ (n : Nat) (c : Context) (e : Bool),
    r.run grammar n c ⟨cur, e⟩ = none := by
  intro k
  induction k with
  | zero => exact fun _ hr => by cases hr
  | succ k ih =>
    intro r hr n c e
    cases n with
    | zero => rfl
    | succ n =>
      cases r with
      | ref x => exact ih (grammar x) hr n c e
      | seq rs => exact inOrder_eq_none ih n c rs hr e
      | alt rs => exact firstOf_eq_none fun r hr' => ih r (all_eq_true.1 hr r hr') n c e
      | node k r => simp only [run, ih r hr n c e]
      | role f r => simp only [run, ih r hr n c e]
      | ahead r => simp only [run, ih r hr n c e]
      | under x r => exact ih r hr n (c.shift x) e
      | chain isType base links => simp only [run, ih base hr n c e]
      | only d r => simp only [run, ih r hr n c e, ite_self]
      | among ks r => simp only [run, ih r hr n c e]
      | _ => exact run_eq_none_of_dead hcur hr (n + 1) c e

end

theorem Head.at_trivia {h : Head} (hcs : h.At cs) (hblank : ∀ x ∈ blank, isBlank x) (p : Pos) :
    h.At (Cursor.trivia ⟨blank ++ cs, p⟩).2.rest := by
  rwa [trivia_of_isBare hblank (h.isBare hcs)]

/-! ## Plain names -/

/-- Words that are a name only in some places, or begin something at the place of a name. -/
def contextualKeywords : List String :=
  ["abstract", "any", "as", "async", "boolean", "declare", "from", "get", "interface", "let", "module",
    "namespace", "number",
   "object", "override", "private", "protected", "public", "readonly", "set", "static", "string", "symbol", "type",
   "undefined"]

def isFreeWord (w : String) : Bool := !keywords.contains w && !contextualKeywords.contains w

def isPlainName (name : String) : Bool := isWord name.toList && isFreeWord name

def Head.plainName : Head := .word isFreeWord true

def Head.exactly (w : String) : Head := .word (· == w) (!keywords.contains w)

theorem isWord_of_isPlainName (h : isPlainName name) : isWord name.toList :=
  (Bool.and_eq_true_iff.1 h).1

theorem plainName_at (h : isPlainName name) (hcs : endsWord cs) : Head.plainName.At (name.toList ++ cs) :=
  ⟨name, cs, rfl, isWord_of_isPlainName h, hcs, (Bool.and_eq_true_iff.1 h).2, fun _ => rfl⟩

theorem exactly_at {w : String} (h : isWord w.toList) (hcs : endsWord cs) : (Head.exactly w).At (w.toList ++ cs) :=
  ⟨w, cs, rfl, h, hcs, beq_self_eq_true w, fun hw => by rw [hw]; rfl⟩

end SourceBench.Syntax
