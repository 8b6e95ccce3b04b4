import SourceBench.Proofs.Edit.Memory

/-!
# New members

A new member takes the place of the white space before the closing brace of its class, and all other bytes stay
(`Members.Inserted.added`).  The place is between the braces, as the body of a class stands in braces in every text that
follows the grammar (`Members.inBraces_of_classNamed`) and the scan for the end of its contents stops behind the opening
one (`Members.contentEnd_split`).  Indentation is read off the lines of the class and of its first member
(`Bytes.indents_indentAt`).
-/
namespace SourceBench

open List Bytes Option

open Syntax Utf8

variable {b : UInt8} {bytes : Bytes} {v : View}

/-! ## Indentation -/

namespace Bytes

/-- `indent` is all the blanks and tabs that the line of a place begins with. -/
def Indents (bytes : Bytes) (offset : Nat) (indent : List Char) : Prop :=
  ∃ before rest, bytes = before ++ encode indent ++ rest ∧ (∀ b ∈ before.getLast?, b = 10) ∧ before.length ≤ offset ∧
    10 ∉ (bytes.take offset).drop before.length ∧ (∀ c ∈ indent, c = ' ' ∨ c = '\t') ∧
      ∀ b ∈ rest.head?, isIndent b = false

variable {bytes : Bytes} {indent : List Char} {n : Nat}

theorem Indents.plain (h : Indents bytes n indent) : '\n' ∉ indent := by
  obtain ⟨-, -, -, -, -, -, hindent, -⟩ := h
  intro hmem
  rcases hindent _ hmem with h | h <;> cases h

theorem eq_of_isIndent (h : isIndent b) : b = 32 ∨ b = 9 := by
  simpa [isIndent] using h

theorem encode_of_isIndent : ∀ {bs : Bytes}, (∀ b ∈ bs, isIndent b) → encode (bs.map fun b => Char.ofNat b.toNat) = bs
  | [], _ => rfl
  | b :: bs, h => by
    obtain ⟨hb, hbs⟩ := forall_mem_cons.1 h
    rw [map_cons, ← singleton_append, encode_append, encode_of_isIndent hbs]
    rcases eq_of_isIndent hb with rfl | rfl <;> rfl

theorem lineStart_nat (bytes : Bytes) (n : Nat) : lineStart bytes n = ((bytes.take n).rdropWhile (· != 10)).length := by
  have hline := congrArg length (rdropWhile_append_rtakeWhile (p := (· != 10)) (l := bytes.take n))
  rw [length_append, rtakeWhile, length_reverse] at hline
  rw [lineStart, Splice.cutPoint_nat, afterLastBreak, ← take_eq_take_min]
  omega

theorem indents_indentAt (bytes : Bytes) (n : Nat) : Indents bytes n (indentAt bytes n) := by
  rw [indentAt, lineStart_nat]
  -- `before` ends with the last line feed before the place, and the line goes on from there.
  generalize hbefore : (bytes.take n).rdropWhile (· != 10) = before
  have hline : before ++ (bytes.take n).rtakeWhile (· != 10) = bytes.take n := by
    rw [← hbefore, rdropWhile_append_rtakeWhile]
  have hstart : before <+: bytes := (prefix_append _ _).trans (hline ▸ take_prefix n bytes)
  refine ⟨before, (bytes.drop before.length).dropWhile isIndent, ?_, ?_, ?_, ?_, ?_, ?_⟩
  · rw [encode_of_isIndent fun b hb => mem_takeWhile_imp hb, append_assoc, takeWhile_append_dropWhile]
    exact (prefix_iff_eq_append.1 hstart).symm
  · intro b hb
    obtain ⟨hne, rfl⟩ := mem_getLast?_eq_getLast hb
    subst hbefore
    simpa using rdropWhile_last_not (· != 10) _ hne
  · rw [← hbefore]
    exact (List.rdropWhile_prefix _ _).length_le.trans (length_take_le _ _)
  · rw [← hline, drop_left]
    intro hmem
    simpa using mem_rtakeWhile_imp hmem
  · intro c hc
    obtain ⟨b, hb, rfl⟩ := mem_map.1 hc
    rcases eq_of_isIndent (mem_takeWhile_imp hb) with rfl | rfl <;> decide
  · intro b hb
    have := head?_dropWhile_not isIndent (bytes.drop before.length)
    rw [hb] at this
    exact this

end Bytes

/-! ## Between the braces -/

namespace View

variable {text w : List Char} {f : Role} {k : Kind} {s : Span} {root : Tree}

theorem textOf_leaf (hparse : parse .typescript text = some root) (h : Tree.leaf f k s w ∈ root.nodes) :
    Reading.textOf text (.leaf f k s w) = w := by
  have hnodes := Layout.parse_nodes hparse
  obtain ⟨items, d, e, rfl, -⟩ := parse_covers hparse
  rcases Layout.mem_nodes_node.1 h with heq | ⟨u, hu, hleaf⟩
  · cases heq
  · obtain ⟨⟨c, d, hcovers, hc⟩, -⟩ := hnodes _ (Layout.mem_nodesOf.2 ⟨u, hu, hleaf⟩)
    rw [Reading.textOf, hcovers.span_eq, Layout.slice_of_passes hc hcovers.2.1]

theorem byte_of_leaf (hparse : parse .typescript text = some root) (h : Tree.leaf f k s w ∈ root.nodes)
    (hw : encode w = [b]) : (encode text)[s.start.byte]? = some b := by
  have hbytes := (parse_coherent hparse _ h).bytes
  rw [textOf_leaf hparse h, hw] at hbytes
  have hhead := congrArg head? hbytes
  rw [head?_take] at hhead
  split at hhead
  · cases hhead
  · rwa [head?_drop] at hhead

end View

namespace Members

variable {text : List Char} {name : String} {c : Declaration} {body : Nat × Nat}

theorem opening_of_startsWithBrace {b : Tree} (hplaced : b.Placed) (hstart : b.StartsWithBrace) :
    ∃ f s, Tree.leaf f .token s ['\x7b'] ∈ b.children ∧ s.start.byte = b.start := by
  obtain ⟨f, s, cs, hcs⟩ := hstart
  obtain ⟨c, d, hcovers⟩ := hplaced
  refine ⟨f, s, hcs ▸ mem_cons_self, ?_⟩
  cases b with
  | leaf r k span w => cases hcs
  | node r k span cs' =>
    obtain rfl : cs' = _ := hcs
    rw [hcovers.start_eq]
    obtain ⟨-, e, hleaf, -⟩ := hcovers
    exact hleaf.start_eq

/-- A range begins with an opening brace and ends with a closing one. -/
def InBraces (bytes : Bytes) (body : Nat × Nat) : Prop :=
  bytes[body.1]? = some 123 ∧ bytes[body.2 - 1]? = some 125 ∧ body.1 < body.2

instance (bytes : Bytes) (body : Nat × Nat) : Decidable (InBraces bytes body) := inferInstanceAs (Decidable (_ ∧ _ ∧ _))

theorem InBraces.lt {body : Nat × Nat} (h : InBraces bytes body) : body.1 < body.2 - 1 := by
  obtain ⟨hopen, hclose, hlt⟩ := h
  have hne : body.1 ≠ body.2 - 1 := fun heq => by
    rw [heq, hclose] at hopen
    cases hopen
  omega

/-- **The body of a class stands in braces**, which are two bytes of the text. -/
theorem inBraces_of_classNamed [Recovery] {root : Tree} (hparse : parse .typescript text = some root)
    (h : classNamed (.ofText text) name = .ok (c, body)) : InBraces (encode text) body := by
  obtain ⟨b, hb, rfl, hplaced, hstart, hend⟩ := body_of_classNamed hparse h
  obtain ⟨f, s, hfirst, hopen⟩ := opening_of_startsWithBrace hplaced hstart
  obtain ⟨f', s', hlast, hclose⟩ := closing_of_endsWithBrace hplaced hend
  refine ⟨?_, ?_, hplaced.start_lt_stop⟩
  · rw [show (Reading.rangeOf b).1 = b.start from rfl, ← hopen]
    exact View.byte_of_leaf hparse (Layout.nodes_trans hb (Layout.mem_nodes_of_child hfirst)) rfl
  · rw [show (Reading.rangeOf b).2 = b.stop from rfl, ← hclose, Nat.add_sub_cancel]
    exact View.byte_of_leaf hparse (Layout.nodes_trans hb (Layout.mem_nodes_of_child hlast)) rfl

theorem inBraces_of_ofText [Recovery] (h : classNamed (.ofText text) name = .ok (c, body))
    (hbroken : parse .typescript text = none → InBraces (encode text) body) : InBraces (encode text) body := by
  cases hparse : parse .typescript text with
  | none => exact hbroken hparse
  | some root => exact inBraces_of_classNamed hparse h

/-- **The contents of a body end** behind the opening brace or another byte that is no white space, and only white space
follows up to the closing brace. -/
theorem contentEnd_split {o z : Nat} (ho : bytes[o]? = some b) (hb : isSpace b = false)
    (hoz : o < z) (hz : z ≤ bytes.length) : ∃ front ws, bytes.take z = front ++ ws ∧
      front.length = contentEnd bytes o z ∧
      (∀ x ∈ ws, isSpace x) ∧ o < front.length ∧ ∀ x ∈ front.getLast?, isSpace x = false := by
  generalize hinside : (bytes.take z).drop (o + 1) = inside
  have hends : bytes.take z = bytes.take (o + 1) ++ inside := by
    have htake : (bytes.take z).take (o + 1) = bytes.take (o + 1) := by rw [take_take, Nat.min_eq_left hoz]
    rw [← hinside, ← htake, take_append_drop]
  have hparts := rdropWhile_append_rtakeWhile (p := isSpace) (l := inside)
  have hlength : z = o + 1 + inside.length := by
    have := congrArg length hends
    rw [length_append, length_take, length_take] at this
    omega
  refine ⟨bytes.take (o + 1) ++ inside.rdropWhile isSpace, inside.rtakeWhile isSpace, ?_, ?_,
    fun x hx => mem_rtakeWhile_imp hx, ?_, ?_⟩
  · rw [append_assoc, hparts, hends]
  · have := congrArg length hparts
    rw [length_append, rtakeWhile, length_reverse] at this
    simp only [contentEnd, hinside]
    rw [length_append, length_take]
    omega
  · rw [length_append, length_take]
    omega
  · intro x hx
    by_cases hnil : inside.rdropWhile isSpace = []
    · -- Nothing but white space is between the braces.
      rw [hnil, append_nil, getLast?_take, if_neg (by omega), Nat.add_sub_cancel, ho, some_or] at hx
      cases hx
      exact hb
    · rw [getLast?_append_of_ne_nil _ hnil, getLast?_eq_some_getLast hnil, mem_some_iff] at hx
      simpa [hx] using rdropWhile_last_not isSpace inside hnil

/-! ## Putting lines into a class -/

def padded (inner line : List Char) : List Char := if line.isEmpty then [] else inner ++ line

/-- What is written for a new member: line feeds, its lines, and the indentation of the closing brace on the line that
this comes to stand on. -/
def block (lead outer inner : List Char) (lines : List (List Char)) : List Char :=
  lead ++ Text.joinLines (lines.map (padded inner)) ++ '\n' :: outer

/-- A text was put behind the contents of a body, in the place of what follows up to the last byte of the body. -/
def Inserted (bytes bytes' : Bytes) (body : Nat × Nat) (inserted : List Char) : Prop :=
  bytes' = bytes.take (contentEnd bytes body.1 (body.2 - 1)) ++ encode inserted ++ bytes.drop (body.2 - 1)

theorem insertLines_inserted (bytes : Bytes) (v : View) (c : Declaration) (body : Nat × Nat) (lines : List (List Char))
    (gap : Bool) : ∃ lead, (lead = ['\n'] ∨ lead = ['\n', '\n']) ∧
      Inserted bytes (Splice.applyAll (insertLines bytes v c body lines gap).edits bytes) body
        (block lead (classIndent bytes c) (memberIndent bytes v c) lines) := by
  refine ⟨if gap && body.1 + 1 < contentEnd bytes body.1 (body.2 - 1) then ['\n', '\n'] else ['\n'], ?_, ?_⟩
  · split
    · exact .inr rfl
    · exact .inl rfl
  · exact Splice.apply_replace _ _ _ _

/-- A text was put into a class: the bytes are kept but for white space before the closing brace of its body, and
`inserted` stands in the place of that. -/
structure Added (bytes bytes' : Bytes) (body : Nat × Nat) (front ws back : Bytes) (inserted : List Char) : Prop where
  before : bytes = front ++ ws ++ back
  after : bytes' = front ++ encode inserted ++ back
  space : ∀ b ∈ ws, isSpace b = true
  opens : bytes[body.1]? = some 123 ∧ body.1 < front.length
  closes : back.head? = some 125 ∧ front.length + ws.length = body.2 - 1
  solid : ∀ b ∈ front.getLast?, isSpace b = false

theorem Inserted.added {bytes' : Bytes} {inserted : List Char} (h : Inserted bytes bytes' body inserted)
    (hbraces : InBraces bytes body) : ∃ front ws back, Added bytes bytes' body front ws back inserted := by
  have hlt := hbraces.lt
  obtain ⟨hopen, hclose, -⟩ := hbraces
  have hz : body.2 - 1 < bytes.length := (List.getElem?_eq_some_iff.1 hclose).1
  obtain ⟨front, ws, htake, hstop, hspace, hin, hsolid⟩ := contentEnd_split hopen (by decide) hlt (Nat.le_of_lt hz)
  have hlength : front.length + ws.length = body.2 - 1 := by
    rw [← List.length_append, ← htake, List.length_take, Nat.min_eq_left (Nat.le_of_lt hz)]
  have hbytes : bytes = front ++ ws ++ bytes.drop (body.2 - 1) := by
    rw [← htake, List.take_append_drop]
  have hfront : bytes.take (contentEnd bytes body.1 (body.2 - 1)) = front := by
    rw [← hstop, hbytes, append_assoc, take_left]
  refine ⟨front, ws, bytes.drop (body.2 - 1), hbytes, ?_, hspace, ⟨hopen, hin⟩, ⟨?_, hlength⟩, hsolid⟩
  · rw [h, hfront]
  · rw [List.head?_drop, hclose]

theorem splitOn_block {lead outer inner : List Char} {lines : List (List Char)}
    (hlead : lead = ['\n'] ∨ lead = ['\n', '\n']) (houter : '\n' ∉ outer) (hinner : '\n' ∉ inner)
    (hne : lines ≠ []) (hlines : ∀ l ∈ lines, '\n' ∉ l) : Text.splitOn '\n' (block lead outer inner lines)
      = lead.map (fun _ => []) ++ lines.map (padded inner) ++ [outer] := by
  have hpadded : ∀ l ∈ lines.map (padded inner), '\n' ∉ l := by
    intro l hl
    obtain ⟨m, hm, rfl⟩ := mem_map.1 hl
    unfold padded
    split
    · exact not_mem_nil
    · simpa [hinner] using hlines m hm
  obtain ⟨x, xs, hxs⟩ := exists_cons_of_ne_nil (mt map_eq_nil_iff.1 hne)
  have hjoined : block lead outer inner lines
      = Text.join ['\n'] (lead.map (fun _ => []) ++ lines.map (padded inner) ++ [outer]) := by
    unfold block Text.joinLines
    rw [hxs]
    rcases hlead with rfl | rfl <;> simp [Text.join_cons]
  rw [hjoined]
  refine Text.splitOn_join (by simp) fun l hl => ?_
  rcases mem_append.1 hl with hl | hl
  · rcases mem_append.1 hl with hl | hl
    · obtain ⟨-, -, rfl⟩ := mem_map.1 hl
      exact not_mem_nil
    · exact hpadded l hl
  · rwa [mem_singleton.1 hl]

/-- The lines of the member that an operation adds, with the indentation they have among themselves: a property is one,
and a method has its head, the lines of its body and the closing brace. -/
def newLines (bytes : Bytes) (v : View) (c : Declaration) : Operation → List (List Char)
  | .addProperty op => [propertyText op]
  | .addMethod op => [signature op] ++ bodyLines (stepOf bytes v c) op.body ++ [['\x7d']]
  | _ => []

/-- `inner` is the indentation of the members of a class: that of the first member, or one step more than `outer`. -/
def IndentsMembers (bytes : Bytes) (v : View) (c : Declaration) (outer inner : List Char) : Prop :=
  match v.outline.tree.membersOf c with
  | m :: _ => Indents bytes m.startByte inner
  | [] => inner = outer ++ indentStep

theorem indentsMembers_memberIndent (bytes : Bytes) (v : View) (c : Declaration) :
    IndentsMembers bytes v c (classIndent bytes c) (memberIndent bytes v c) := by
  unfold IndentsMembers memberIndent
  cases v.outline.tree.membersOf c with
  | nil => rfl
  | cons m ms => exact indents_indentAt bytes m.startByte

theorem IndentsMembers.plain {outer inner : List Char}
    (h : IndentsMembers bytes v c outer inner) (houter : '\n' ∉ outer) : '\n' ∉ inner := by
  unfold IndentsMembers at h
  split at h
  · exact h.plain
  · subst h
    simpa [indentStep] using houter

end Members

variable {op : Operation} {owner : String}

theorem Operation.looks_of_memberOwner? (h : op.memberOwner? = some owner) : op.looks := by
  cases op with
  | addProperty op => rfl
  | addMethod op => rfl
  | _ => cases h

theorem Members.newLines_ne_nil (h : op.memberOwner? = some owner) (bytes : Bytes) (v : View) (c : Declaration) :
    newLines bytes v c op ≠ [] := by
  cases op with
  | addProperty op => exact cons_ne_nil _ _
  | addMethod op => exact cons_ne_nil _ _
  | _ => cases h

theorem Operation.plan_of_memberOwner? (howner : op.memberOwner? = some owner) {p : Plan}
    (h : op.plan bytes v = .ok p) : ∃ c body gap,
      classNamed v owner = .ok (c, body) ∧ p = Members.insertLines bytes v c body
        (Members.newLines bytes v c op) gap := by
  cases op with
  | addProperty op =>
    cases howner
    obtain ⟨c, body, hclass, hp⟩ := Members.addProperty_eq_ok h
    exact ⟨c, body, _, hclass, hp⟩
  | addMethod op =>
    cases howner
    obtain ⟨c, body, hclass, hp⟩ := Members.addMethod_eq_ok h
    exact ⟨c, body, _, hclass, hp⟩
  | _ => cases howner

namespace Document

open Members

/-- **A new member takes no byte away but white space.**  In a document that was reached in any way, an operation that
adds a member and succeeds keeps all bytes but white space before the closing brace of the class; there it writes line
feeds, the lines of the member, each indented as members are if it is not empty, and the indentation of the class on a
last line.  Only of a text that breaks the grammar has it to be said that the body stands in braces. -/
theorem addMember_keeps [Recovery] {source : List Char} {as : List Access} {d : Document}
    (hd : d = (ofText source).accessAll as) {op : Operation} {owner : String} (howner : op.memberOwner? = some owner)
    {p : Plan} (h : (d.perform op).2 = .ok p) :
    ∃ text c body outer inner lead, d.text? = some text ∧
      (View.ofText text).outline.tree.find? .classDecl owner = some c ∧ c.bodyRange = some body ∧
      Bytes.Indents d.bytes c.startByte outer ∧ IndentsMembers d.bytes (.ofText text) c outer inner ∧
      (lead = ['\n'] ∨ lead = ['\n', '\n']) ∧
      ((parse .typescript text = none → InBraces d.bytes body) → ∃ front ws back,
        Added d.bytes (d.perform op).1.bytes body front ws back
          (block lead outer inner (newLines d.bytes (.ofText text) c op))) ∧
      ((∀ l ∈ newLines d.bytes (.ofText text) c op, '\n' ∉ l) →
        Text.splitOn '\n' (block lead outer inner (newLines d.bytes (.ofText text) c op))
          = lead.map (fun _ => []) ++ (newLines d.bytes (.ofText text) c op).map (padded inner) ++ [outer]) := by
  have hcoherent : d.Coherent := hd ▸ accessAll_coherent as (coherent_ofText source)
  obtain ⟨text, htext, hbytes, hplan, hresult⟩ := plan_of_perform hcoherent (Operation.looks_of_memberOwner? howner) h
  obtain ⟨c, body, gap, hclass, rfl⟩ := Operation.plan_of_memberOwner? howner hplan
  obtain ⟨lead, hlead, hinserted⟩ := insertLines_inserted (encode text) (.ofText text) c body
    (newLines (encode text) (.ofText text) c op) gap
  obtain ⟨hfind, hrange⟩ := of_classNamed hclass
  have houter := Bytes.indents_indentAt (encode text) c.startByte
  have hinner := indentsMembers_memberIndent (encode text) (.ofText text) c
  rw [hresult, hbytes]
  exact ⟨text, c, body, _, _, lead, htext, hfind, hrange, houter, hinner, hlead,
    fun hbroken => hinserted.added (inBraces_of_ofText hclass hbroken),
    splitOn_block hlead houter.plain (hinner.plain houter.plain) (newLines_ne_nil howner _ _ _)⟩

/-- A class, and a block that lacks its closing brace. -/
def commentedSource : List Char := "class Å \x7b\n\tx = '字'; // §\n \n\x7d\n\x7b\n".toList

def commentedAccesses : List Access := [.perform (.addProperty ⟨"Å", "y", "number", .null, .bool true⟩), .readOutline]

def commentedClass : Document := (ofText commentedSource).accessAll commentedAccesses

def callsBoth : Operation := .addMethod ⟨"Å", "m", "", "void", "  a();\n\n  b();\n"⟩

def commentedClassGrown : List Char :=
  "class Å \x7b\n\tx = '字'; // §\n\treadonly y: number;\n\n\tm(): void \x7b\n\t\ta();\n\n\t\tb();\n\t\x7d\n\x7d\n\x7b\n"
    |>.toList

theorem addMember_keeps_comment :
    (∃ p, (commentedClass.perform callsBoth).2 = .ok p) ∧ callsBoth.memberOwner? = some "Å" ∧
      ∃ text c body outer inner lead front ws back, commentedClass.text? = some text ∧
        parse .typescript text = none ∧
        (View.ofText text).outline.tree.find? .classDecl "Å" = some c ∧ c.bodyRange = some body ∧
        InBraces commentedClass.bytes body ∧ Bytes.Indents commentedClass.bytes c.startByte outer ∧
        IndentsMembers commentedClass.bytes (.ofText text) c outer inner ∧
        Added commentedClass.bytes (encode commentedClassGrown) body front ws back
          (block lead outer inner (newLines commentedClass.bytes (.ofText text) c callsBoth)) := by
  obtain ⟨⟨p, hp⟩, hbytes, hbroken⟩ : (∃ p, (commentedClass.perform callsBoth).2 = .ok p) ∧
      (commentedClass.perform callsBoth).1.bytes = encode commentedClassGrown ∧
      ∀ text ∈ commentedClass.text?, parse .typescript text = none ∧
        ∀ c ∈ (View.ofText text).outline.tree.find? .classDecl "Å", ∀ body ∈ c.bodyRange,
          InBraces commentedClass.bytes body := by
    rw [commentedClass, show commentedSource = _ from String.toList_ofList,
      show commentedClassGrown = _ from String.toList_ofList]
    decide +kernel
  have hreached : commentedClass = (ofText commentedSource).accessAll commentedAccesses := rfl
  obtain ⟨text, c, body, outer, inner, lead, htext, hfind, hrange, houter, hinner, -, hadded, -⟩ :=
    addMember_keeps hreached rfl hp
  obtain ⟨hnone, hbraces⟩ := hbroken text htext
  have hbody := hbraces c hfind body hrange
  obtain ⟨front, ws, back, hadded⟩ := hadded fun _ => hbody
  rw [hbytes] at hadded
  exact ⟨⟨p, hp⟩, rfl, text, c, body, outer, inner, lead, front, ws, back, htext, hnone, hfind, hrange, hbody, houter,
    hinner, hadded⟩

end Document
end SourceBench
