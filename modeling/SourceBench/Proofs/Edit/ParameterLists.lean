import SourceBench.Edit.Parameters
import SourceBench.Proofs.Text.Lines

/-!
# Parameter lists are taken apart where they were joined

A scan of a parameter list counts the brackets that are open (`depthBehind`) and ends a part at a comma outside of all
of them.  White space around a part does not change the count (`depthBehind_trim`), so parts that leave no bracket open,
the last one apart, come back from the text that joins them (`split_of_joined`).  The parts of any text are such
(`split_parts`), however its brackets stand, and so are parameters in which brackets match (`Bracketed.depthBehind`).
-/
namespace SourceBench.Parameters

open List
open Text

variable {c : Char} {xs a b : List Char} {commas : Bool}

/-! ## Open brackets -/

/-- How many brackets are open behind a text; nothing if a comma stands in it outside of all brackets. -/
def depthBehind (depth : Nat) (previous : Option Char) : List Char → Option Nat
  | [] => some depth
  | c :: r =>
    let depth := depthAfter depth previous c
    if c == ',' && depth == 0 then none else depthBehind depth (some c) r

def isPlain (c : Char) : Bool := !isOpening c && !isClosing c && c != ','

theorem isPlain_of_isSpace (h : isSpace c) : isPlain c := by
  by_contra hplain
  have hc : c ∈ ['(', '<', '\x7b', '[', ')', '>', '\x7d', ']', ','] := by
    simp only [isPlain, isOpening, isClosing, Bool.and_eq_true, Bool.not_eq_true', Bool.or_eq_false_iff,
      beq_eq_false_iff_ne, bne_iff_ne] at hplain
    simp only [mem_cons, not_mem_nil, or_false]
    tauto
  have hseen : ['(', '<', '\x7b', '[', ')', '>', '\x7d', ']', ','].all (fun d => !isSpace d) := rfl
  have hnot := all_eq_true.1 hseen c hc
  rw [h] at hnot
  cases hnot

theorem depthAfter_of_isPlain (h : isPlain c) (d : Nat) (p : Option Char) : depthAfter d p c = d := by
  simp only [isPlain, Bool.and_eq_true, Bool.not_eq_true', bne_iff_ne] at h
  obtain ⟨⟨hopen, hclose⟩, -⟩ := h
  have harrow : (c == '>') = false := by
    by_contra heq
    rw [Bool.not_eq_false, beq_iff_eq] at heq
    rw [heq] at hclose
    cases hclose
  simp [depthAfter, hopen, hclose, harrow]

theorem depthAfter_comma (d : Nat) (p : Option Char) : depthAfter d p ',' = d := by
  simp [depthAfter, isOpening, isClosing]

theorem depthBehind_cons_plain (h : isPlain c) (d : Nat) (p : Option Char) (r : List Char) :
    depthBehind d p (c :: r) = depthBehind d (some c) r := by
  have hcomma : (c == ',') = false := by
    simp only [isPlain, Bool.and_eq_true, bne_iff_ne] at h
    simpa using h.2
  simp [depthBehind, depthAfter_of_isPlain h, hcomma]

theorem depthBehind_of_isPlain : ∀ {xs : List Char}, (∀ c ∈ xs, isPlain c) → ∀ (d : Nat) (p : Option Char),
    depthBehind d p xs = some d
  | [], _, _, _ => rfl
  | c :: xs, h, d, p => by
    rw [forall_mem_cons] at h
    rw [depthBehind_cons_plain h.1, depthBehind_of_isPlain h.2]

theorem depthBehind_append : ∀ (xs ys : List Char) (d : Nat) (p : Option Char), depthBehind d p (xs ++ ys) =
    (depthBehind d p xs).bind fun e => depthBehind e (xs.getLast?.or p) ys
  | [], _, _, _ => rfl
  | c :: xs, ys, d, p => by
    have hlast : (c :: xs).getLast?.or p = xs.getLast?.or (some c) := by
      rw [getLast?_cons]
      cases xs.getLast? <;> rfl
    rw [cons_append, depthBehind, depthBehind, hlast]
    split
    · rfl
    · exact depthBehind_append xs ys _ _

/-- What stands before a text matters to its brackets only if it may begin an arrow. -/
theorem depthBehind_congr {p q : Option Char} (hp : p ≠ some '=') (hq : q ≠ some '=') (d : Nat) :
    ∀ xs : List Char, depthBehind d p xs = depthBehind d q xs
  | [] => rfl
  | c :: xs => by simp [depthBehind, depthAfter, hp, hq]

theorem depthBehind_space (ha : ∀ c ∈ a, isSpace c) (hb : ∀ c ∈ b, isSpace c) (d : Nat)
    (xs : List Char) : depthBehind d none (a ++ xs ++ b) = depthBehind d none xs := by
  have hlast : a.getLast?.or none ≠ some '=' := by
    rw [Option.or_none]
    intro h
    have := ha _ (mem_of_getLast? h)
    revert this
    decide
  have hbehind : (fun e => depthBehind e ((a ++ xs).getLast?.or none) b) = some :=
    funext fun e => depthBehind_of_isPlain (fun c hc => isPlain_of_isSpace (hb c hc)) e _
  rw [depthBehind_append, hbehind, Option.bind_fun_some, depthBehind_append,
    depthBehind_of_isPlain fun c hc => isPlain_of_isSpace (ha c hc)]
  exact depthBehind_congr hlast (by simp) d xs

theorem exists_comma_of_depthBehind : ∀ {cs : List Char} {d : Nat} {p : Option Char}, depthBehind d p cs = none →
    ∃ xs rest, cs = xs ++ ',' :: rest ∧ depthBehind d p xs = some 0
  | [], _, _, h => by cases h
  | c :: cs, d, p, h => by
    by_cases hends : (c == ',' && depthAfter d p c == 0)
    · simp only [Bool.and_eq_true, beq_iff_eq] at hends
      obtain ⟨rfl, hzero⟩ := hends
      rw [depthAfter_comma] at hzero
      exact ⟨[], cs, rfl, congrArg some hzero⟩
    · simp only [depthBehind, if_neg hends] at h
      obtain ⟨xs, rest, rfl, hxs⟩ := exists_comma_of_depthBehind h
      exact ⟨c :: xs, rest, rfl, by simp only [depthBehind, if_neg hends, hxs]⟩

/-! ## Ends of parts -/

/-- There is something in a text, and no white space at its ends. -/
structure Trimmed (p : List Char) : Prop where
  ne_nil : p ≠ []
  head : ∀ c ∈ p.head?, isSpace c = false
  last : ∀ c ∈ p.getLast?, isSpace c = false

theorem exists_trim (cs : List Char) : ∃ a b, cs = a ++ trim cs ++ b ∧ (∀ c ∈ a, isSpace c) ∧ ∀ c ∈ b, isSpace c := by
  refine ⟨cs.takeWhile isSpace, (trimLeft cs).rtakeWhile isSpace, ?_, fun c hc => mem_takeWhile_imp hc,
    fun c hc => mem_rtakeWhile_imp hc⟩
  rw [append_assoc, trim, trimRight_eq_rdropWhile, rdropWhile_append_rtakeWhile, trimLeft,
    takeWhile_append_dropWhile]

theorem depthBehind_trim (d : Nat) (cs : List Char) : depthBehind d none (trim cs) = depthBehind d none cs := by
  obtain ⟨a, b, hcs, ha, hb⟩ := exists_trim cs
  conv_rhs => rw [hcs]
  rw [depthBehind_space ha hb]

variable {cs : List Char} {ps : List (List Char)}

theorem trimmed_trim (h : trim cs ≠ []) : Trimmed (trim cs) where
  ne_nil := h
  head := by
    intro c hc
    rcases trim_cases cs with hnil | ⟨x, r, htrim, hx⟩
    · exact absurd hnil h
    · rw [htrim, head?_cons, Option.mem_some_iff] at hc
      rwa [← hc]
  last := by
    intro c hc
    obtain ⟨hne, rfl⟩ := mem_getLast?_eq_getLast hc
    have hlast := rdropWhile_last_not isSpace (trimLeft cs) hne
    rwa [Bool.not_eq_true] at hlast

namespace Trimmed

variable {p : List Char}

theorem trim_padded (h : Trimmed p) (ha : ∀ c ∈ a, isSpace c) (hb : ∀ c ∈ b, isSpace c) : trim (a ++ p ++ b) = p := by
  obtain ⟨c, r, rfl⟩ := exists_cons_of_ne_nil h.ne_nil
  rw [append_assoc, trim_append_space ha, trim_append_blank hb, trim_cons (h.head c rfl), trimRight]
  have hlast : (c :: r).reverse.dropWhile isSpace = (c :: r).reverse := by
    rw [dropWhile_eq_self_iff]
    intro hpos
    rw [Bool.not_eq_true, getElem_zero_eq_head, head_reverse]
    exact h.last _ (getLast?_eq_some_getLast _)
  rw [hlast, reverse_reverse]

end Trimmed

/-! ## Parts -/

/-- What a parameter list is taken apart into: trimmed parts in which no comma is outside of all brackets.  Only the
last one may leave brackets open. -/
inductive Parts : List (List Char) → Prop where
  | nil : Parts []
  | last {p : List Char} {d : Nat} (hp : Trimmed p) (hd : depthBehind 0 none p = some d) : Parts [p]
  | cons {p : List Char} {ps : List (List Char)} (hp : Trimmed p) (hd : depthBehind 0 none p = some 0)
      (hps : Parts ps) :
    Parts (p :: ps)

theorem Parts.trimmed (h : Parts ps) : ∀ p ∈ ps, Trimmed p := by
  induction h with
  | nil => simp
  | last hp hd => simpa using hp
  | cons hp hd hps ih => exact forall_mem_cons.2 ⟨hp, ih⟩

theorem splitFrom_append : ∀ {xs : List Char} {d e : Nat} {part : List Char}, depthBehind d part.head? xs = some e →
    ∀ rest : List Char, splitFrom d part (xs ++ rest) = splitFrom e (xs.reverse ++ part) rest
  | [], d, e, part, h, rest => by
    cases h
    rfl
  | c :: xs, d, e, part, h, rest => by
    rw [depthBehind] at h
    split at h
    · cases h
    · rename_i hends
      rw [cons_append, splitFrom, if_neg hends, splitFrom_append h]
      simp

def kept (xs : List Char) : List (List Char) := [trim xs].filter (!·.isEmpty)

theorem split_of_depthBehind {d : Nat} (h : depthBehind 0 none cs = some d) : split cs = kept cs := by
  have hscan : splitFrom 0 [] (cs ++ []) = splitFrom d (cs.reverse ++ []) [] := splitFrom_append h []
  rw [append_nil, append_nil] at hscan
  rw [split, hscan, splitFrom, reverse_reverse, kept]

theorem split_append_comma (h : depthBehind 0 none xs = some 0) (rest : List Char) :
    split (xs ++ ',' :: rest) = kept xs ++ split rest := by
  have hscan : splitFrom 0 [] (xs ++ ',' :: rest) = trim xs :: splitFrom 0 [] rest := by
    have hscan : splitFrom 0 [] (xs ++ ',' :: rest) = splitFrom 0 (xs.reverse ++ []) (',' :: rest) :=
      splitFrom_append h _
    rw [hscan, splitFrom, depthAfter_comma, append_nil, reverse_reverse]
    rfl
  rw [split, hscan, ← singleton_append, filter_append, kept, split]

theorem split_induction {P : List Char → Prop} (last : ∀ xs d, depthBehind 0 none xs = some d → P xs)
    (part : ∀ xs rest, depthBehind 0 none xs = some 0 → P rest → P (xs ++ ',' :: rest)) (cs : List Char) : P cs := by
  induction hn : cs.length using Nat.strongRecOn generalizing cs with
  | ind n ih =>
    subst hn
    cases hd : depthBehind 0 none cs with
    | some d => exact last cs d hd
    | none =>
      obtain ⟨xs, rest, rfl, hxs⟩ := exists_comma_of_depthBehind hd
      refine part xs rest hxs (ih rest.length ?_ rest rfl)
      rw [length_append, length_cons]
      omega

theorem kept_cases (xs : List Char) : (trim xs = [] ∧ kept xs = []) ∨ (Trimmed (trim xs) ∧ kept xs = [trim xs]) := by
  by_cases h : trim xs = []
  · exact .inl ⟨h, by simp [kept, h]⟩
  · exact .inr ⟨trimmed_trim h, by simpa [kept] using h⟩

theorem split_parts (cs : List Char) : Parts (split cs) := by
  induction cs using split_induction with
  | last xs d hd =>
    rw [split_of_depthBehind hd]
    rcases kept_cases xs with ⟨-, hkept⟩ | ⟨htrim, hkept⟩
    · rw [hkept]
      exact .nil
    · rw [hkept]
      exact .last htrim (by rwa [depthBehind_trim])
  | part xs rest hd ih =>
    rw [split_append_comma hd]
    rcases kept_cases xs with ⟨-, hkept⟩ | ⟨htrim, hkept⟩
    · rwa [hkept]
    · rw [hkept]
      exact .cons htrim (by rwa [depthBehind_trim]) ih

/-! ## Joining -/

/-- Texts joined by commas, each with any white space on both sides. -/
inductive Joined : List (List Char) → List Char → Prop where
  | nil : Joined [] []
  | single (p : List Char) : Joined [p] p
  | cons {a b cs q : List Char} {ps : List (List Char)} (p : List Char) (ha : ∀ c ∈ a, isSpace c = true)
      (hb : ∀ c ∈ b, isSpace c = true) (h : Joined (q :: ps) cs) : Joined (p :: q :: ps) (p ++ a ++ ',' :: (b ++ cs))

theorem joined_join : ∀ ps : List (List Char), Joined ps (join ", ".toList ps)
  | [] => .nil
  | [p] => .single p
  | p :: q :: ps => by
    have hjoined := Joined.cons (a := []) (b := [' ']) p (by simp) (all_eq_true.1 rfl) (joined_join (q :: ps))
    rw [join]
    simpa using hjoined

theorem Parts.split_space_append (h : Joined ps cs) (hps : Parts ps) :
    ∀ {b : List Char}, (∀ c ∈ b, isSpace c) → split (b ++ cs) = ps := by
  -- White space in front is what is left of the last comma.
  have hkept : ∀ {p a b : List Char}, Trimmed p → (∀ c ∈ a, isSpace c) → (∀ c ∈ b, isSpace c) →
      kept (b ++ p ++ a) = [p] := fun hp ha hb => by
    rw [kept, hp.trim_padded hb ha]
    simp [hp.ne_nil]
  induction h with
  | nil =>
    intro b hb
    have hdepth : depthBehind 0 none (b ++ []) = some 0 := by
      simpa using depthBehind_of_isPlain (fun c hc => isPlain_of_isSpace (hb c hc)) 0 none
    rw [split_of_depthBehind hdepth, append_nil, kept, trim_eq_nil.2 hb]
    rfl
  | single p =>
    intro b hb
    have hdepth : ∃ d, depthBehind 0 none p = some d := by
      cases hps with
      | last hp hd => exact ⟨_, hd⟩
      | cons hp hd _ => exact ⟨_, hd⟩
    obtain ⟨d, hd⟩ := hdepth
    have hspaced := depthBehind_space (b := []) hb (by simp) 0 p
    have hpart := hkept (a := []) (hps.trimmed p mem_cons_self) (by simp) hb
    rw [append_nil] at hspaced hpart
    rw [split_of_depthBehind (hspaced.trans hd), hpart]
  | @cons a b' cs q ps p ha hb' _ ih =>
    intro b hb
    cases hps with
    | cons hp hd hps =>
      have hcut : b ++ (p ++ a ++ ',' :: (b' ++ cs)) = b ++ p ++ a ++ ',' :: (b' ++ cs) := by simp
      rw [hcut, split_append_comma ((depthBehind_space hb ha 0 p).trans hd), hkept hp ha hb, ih hps hb',
        singleton_append]

theorem split_of_joined (h : Joined ps cs) (hps : Parts ps) : split cs = ps :=
  hps.split_space_append h (b := []) (by simp)

/-! ## Brackets that match -/

def closerOf : Char → Option Char
  | '(' => some ')'
  | '<' => some '>'
  | '\x7b' => some '\x7d'
  | '[' => some ']'
  | _ => none

/-- Text in which brackets match.  `commas`: it may have commas outside of its brackets, as what stands in brackets
may. -/
inductive Bracketed : Bool → List Char → Prop where
  | nil {commas : Bool} : Bracketed commas []
  | plain {commas : Bool} {c : Char} (h : isPlain c = true) : Bracketed commas [c]
  | comma : Bracketed true [',']
  | arrow {commas : Bool} : Bracketed commas ['=', '>']
  | pair {commas : Bool} {o z : Char} {inner : List Char} (h : closerOf o = some z) (hinner : Bracketed true inner)
      (hend : z = '>' → inner.getLast? ≠ some '=') : Bracketed commas (o :: (inner ++ [z]))
  | append {commas : Bool} {xs ys : List Char} (hx : Bracketed commas xs) (hy : Bracketed commas ys) :
    Bracketed commas (xs ++ ys)

theorem Bracketed.of_all : ∀ {xs : List Char}, xs.all isPlain → Bracketed commas xs
  | [], _ => .nil
  | c :: xs, h => by
    rw [all_cons, Bool.and_eq_true] at h
    exact .append (.plain h.1) (of_all h.2)

theorem of_closerOf {o z : Char} (h : closerOf o = some z) :
    isOpening o ∧ o ≠ '=' ∧ isOpening z = false ∧ isClosing z ∧ z ≠ ',' := by
  unfold closerOf at h
  split at h <;> cases h <;> decide

/-- **A scan leaves a text whose brackets match at the depth at which it came to it.** -/
theorem Bracketed.depthBehind (h : Bracketed commas xs) :
    ∀ {d : Nat}, (commas → 0 < d) → ∀ p : Option Char, Parameters.depthBehind d p xs = some d := by
  induction h with
  | nil =>
    intro d _ p
    rfl
  | plain hc =>
    intro d _ p
    rw [depthBehind_cons_plain hc]
    rfl
  | comma =>
    intro d hd p
    have hpos := hd rfl
    simp only [Parameters.depthBehind, depthAfter_comma]
    rw [if_neg (by simp; omega)]
  | arrow =>
    intro d _ p
    rw [depthBehind_cons_plain rfl]
    simp [Parameters.depthBehind, depthAfter, isOpening]
  | @pair _ o z inner hoz _ hend ih =>
    intro d _ p
    obtain ⟨hopen, hequals, hopen', hclose, hcomma⟩ := of_closerOf hoz
    have hopens : Parameters.depthBehind d p (o :: (inner ++ [z]))
        = Parameters.depthBehind (d + 1) (some o) (inner ++ [z]) := by
      simp [Parameters.depthBehind, depthAfter, hopen]
    -- The closing bracket is no arrow: before it stand the last character inside or the opening bracket.
    have hlast : (z == '>' && inner.getLast?.or (some o) == some '=') = false := by
      rw [Bool.and_eq_false_iff, beq_eq_false_iff_ne, beq_eq_false_iff_ne]
      by_cases hz : z = '>'
      · refine .inr fun heq => ?_
        cases hi : inner.getLast? with
        | none =>
          rw [hi] at heq
          exact hequals (Option.some.inj heq)
        | some x =>
          rw [hi] at heq
          exact hend hz (hi.trans heq)
      · exact .inl hz
    have hcloses : depthAfter (d + 1) (inner.getLast?.or (some o)) z = d := by
      rw [depthAfter, hopen', hlast, hclose]
      simp
    rw [hopens, depthBehind_append, ih (fun _ => Nat.succ_pos d), Option.bind_some, Parameters.depthBehind, hcloses]
    simp [hcomma, Parameters.depthBehind]
  | append _ _ ihx ihy =>
    intro d hd p
    rw [depthBehind_append, ihx hd, Option.bind_some, ihy hd]

/-- A parameter: trimmed, with brackets that match, and without commas outside of them. -/
structure IsParameter (p : List Char) : Prop extends Trimmed p where
  bracketed : Bracketed false p

theorem parts_of_isParameter : ∀ {ps : List (List Char)}, (∀ p ∈ ps, IsParameter p) → Parts ps
  | [], _ => .nil
  | p :: ps, h => by
    rw [forall_mem_cons] at h
    exact .cons h.1.toTrimmed (h.1.bracketed.depthBehind (by simp) none) (parts_of_isParameter h.2)

/-- **A parameter list is taken apart into the parameters that it was joined from,** whatever white space is around its
commas. -/
theorem split_joined_parameters {ps : List (List Char)} {cs : List Char} (hps : ∀ p ∈ ps, IsParameter p)
    (h : Joined ps cs) :
    split cs = ps :=
  split_of_joined h (parts_of_isParameter hps)

def callback : List Char := "f: (a, b) => R<T[], U>".toList

def identity : List Char := "x = y => y".toList

theorem callback_isParameter : IsParameter callback := by
  have htrim : trim callback = callback := by decide
  refine ⟨htrim ▸ trimmed_trim (by decide), ?_⟩
  have hparts : callback = "f: ".toList ++ ('(' :: (("a".toList ++ ([','] ++ " b".toList)) ++ [')']) ++
      (" ".toList ++ (['=', '>'] ++ (" R".toList ++
        ('<' :: (("T".toList ++ ('[' :: ([] ++ [']']) ++ ([','] ++ " U".toList))) ++ ['>'])))))) := by decide
  rw [hparts]
  refine .append (.of_all rfl) (.append (.pair rfl ?_ (by decide)) (.append (.of_all rfl)
    (.append .arrow (.append (.of_all rfl) (.pair rfl ?_ (by decide))))))
  · exact .append (.of_all rfl) (.append .comma (.of_all rfl))
  · exact .append (.of_all rfl) (.append (.pair rfl .nil (by decide)) (.append .comma (.of_all rfl)))

theorem identity_isParameter : IsParameter identity := by
  have htrim : trim identity = identity := by decide
  refine ⟨htrim ▸ trimmed_trim (by decide), ?_⟩
  have hparts : identity = "x = y ".toList ++ (['=', '>'] ++ " y".toList) := by decide
  rw [hparts]
  exact .append (.of_all rfl) (.append .arrow (.of_all rfl))

theorem split_joined_arrows : (∀ p ∈ [callback, identity], IsParameter p) ∧
    Joined [callback, identity] "f: (a, b) => R<T[], U>\t ,\n\u00a0x = y => y".toList ∧
    split "f: (a, b) => R<T[], U>\t ,\n\u00a0x = y => y".toList = [callback, identity] := by
  have hps : ∀ p ∈ [callback, identity], IsParameter p := by
    simpa using ⟨callback_isParameter, identity_isParameter⟩
  have hjoined : Joined [callback, identity] "f: (a, b) => R<T[], U>\t ,\n\u00a0x = y => y".toList :=
    .cons (a := "\t ".toList) (b := "\n\u00a0".toList) callback (all_eq_true.1 rfl) (all_eq_true.1 rfl)
      (.single identity)
  exact ⟨hps, hjoined, split_joined_parameters hps hjoined⟩

/-! ## Normal forms -/

theorem withType_cases (p : List Char) : withType p = p ∨ withType p = p ++ ": unknown".toList := by
  unfold withType
  split
  · exact .inl rfl
  · exact .inr rfl

theorem withType_withType (p : List Char) : withType (withType p) = withType p := by
  by_cases h : (p.contains ':' || p.contains '=')
  · have hp : withType p = p := if_pos h
    rw [hp, hp]
  · have hp : withType p = p ++ ": unknown".toList := if_neg h
    rw [hp, withType, if_pos (by simp)]

theorem Trimmed.withType {p : List Char} (h : Trimmed p) : Trimmed (withType p) := by
  rcases withType_cases p with heq | heq
  · rwa [heq]
  · rw [heq]
    refine ⟨by simp, ?_, ?_⟩
    · rw [head?_append_of_ne_nil _ h.ne_nil]
      exact h.head
    · rw [getLast?_append_of_ne_nil _ (by decide)]
      rintro c ⟨⟩
      rfl

theorem depthBehind_withType (d : Nat) (p : List Char) : depthBehind d none (withType p) = depthBehind d none p := by
  rcases withType_cases p with heq | heq
  · rw [heq]
  · have hbehind : (fun e => depthBehind e (p.getLast?.or none) ": unknown".toList) = some :=
      funext fun e => depthBehind_of_isPlain (all_eq_true.1 rfl) e _
    rw [heq, depthBehind_append, hbehind, Option.bind_fun_some]

theorem Parts.map_withType (h : Parts ps) : Parts (ps.map withType) := by
  induction h with
  | nil => exact .nil
  | last hp hd => exact .last hp.withType ((depthBehind_withType 0 _).trans hd)
  | cons hp hd _ ih => exact .cons hp.withType ((depthBehind_withType 0 _).trans hd) ih

theorem render_render (cs : List Char) : render (render cs) = render cs := by
  have hsplit : split (render cs) = (split cs).map withType :=
    split_of_joined (joined_join _) (split_parts cs).map_withType
  have htyped : ((split cs).map withType).map withType = (split cs).map withType := by
    rw [map_map]
    exact map_congr_left fun p _ => withType_withType p
  rw [render, hsplit, htyped, ← render]

/-- The first text is the second one without some of its commas. -/
inductive LosesCommas : List Char → List Char → Prop where
  | nil : LosesCommas [] []
  | keep {xs ys : List Char} (c : Char) (h : LosesCommas xs ys) : LosesCommas (c :: xs) (c :: ys)
  | lose {xs ys : List Char} (h : LosesCommas xs ys) : LosesCommas xs (',' :: ys)

theorem LosesCommas.append_left {ys : List Char} (h : LosesCommas xs ys) :
    ∀ zs : List Char, LosesCommas (zs ++ xs) (zs ++ ys)
  | [] => h
  | z :: zs => .keep z (append_left h zs)

theorem losesCommas_refl (xs : List Char) : LosesCommas xs xs := by
  have := LosesCommas.nil.append_left xs
  rwa [append_nil] at this

theorem seen_flatten_kept (xs : List Char) : seen (kept xs).flatten = seen xs := by
  rcases kept_cases xs with ⟨htrim, hkept⟩ | ⟨-, hkept⟩
  · rw [hkept, ← seen_trim xs, htrim]
    rfl
  · rw [hkept, flatten_singleton, seen_trim]

theorem split_losesCommas (cs : List Char) : LosesCommas (seen (split cs).flatten) (seen cs) := by
  induction cs using split_induction with
  | last xs d hd =>
    rw [split_of_depthBehind hd, seen_flatten_kept]
    exact losesCommas_refl _
  | part xs rest hd ih =>
    rw [split_append_comma hd, flatten_append, seen_append, seen_flatten_kept, seen_append]
    exact (LosesCommas.lose ih).append_left (seen xs)

/-- **Parameter lists have normal forms,** whether their brackets match or not: taking apart what was put together from
parts gives these parts, and rendering twice is rendering once.  The parts are not empty, have no white space at their
ends, and are all that is seen in the text but for some commas. -/
theorem split_normal (cs : List Char) : split (join ", ".toList (split cs)) = split cs ∧
    render (render cs) = render cs ∧
    (∀ p ∈ split cs, Trimmed p) ∧ LosesCommas (seen (split cs).flatten) (seen cs) :=
  ⟨split_of_joined (joined_join _) (split_parts cs), render_render cs, (split_parts cs).trimmed, split_losesCommas cs⟩

end SourceBench.Parameters
