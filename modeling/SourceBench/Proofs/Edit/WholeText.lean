import SourceBench.Proofs.Edit.ImportSeat
import SourceBench.Proofs.Edit.MemberRenaming
import SourceBench.Proofs.Edit.SymbolRenaming
import SourceBench.Proofs.Syntax.Bodies

/-!
# Edits between characters

All splices that operations plan cut a text between its characters, so what they leave is a text again
(`Operation.planOn_writes`).  Places come from the ends of trees, from scanning over blanks, which are characters of one
byte, and from the closing brace of a class, which is one too.  Only where a text breaks the grammar can the brace be
missing, and then a new member may part a character (`Document.addProperty_parts_character`).  But for that, a document
that began as a text is one after each operation, carried out or not (`Document.performAll_text`).
-/
namespace SourceBench

open List Reading Layout View

open Syntax Utf8

variable {p : Plan} {v : View} {t : Tree} {bytes : Bytes} {op : AddProperty} {text : List Char} {a z : Nat}

namespace Plan

def Writes (text : List Char) (p : Plan) : Prop := ∃ result, Splice.applyAll p.edits (encode text) = encode result

theorem writes_of_edits_nil (h : p.edits = []) : p.Writes text := ⟨text, by rw [h]; rfl⟩

theorem writes_replace (ha : Cut text a) (hz : Cut text z) (new : List Char) :
    (one (.replace a z new)).Writes text := by
  obtain ⟨before, -, -, hbefore, htake, -⟩ := ha.sides
  obtain ⟨front, after, hafter, hfront, -, hdrop⟩ := hz.sides
  refine ⟨before ++ new ++ after, ?_⟩
  have hcut : ∀ {n : Nat}, Cut text n → cutPoint (encode text).length (n : Int) = n := fun hn => by
    obtain ⟨x, y, rfl, rfl⟩ := hn
    exact Splice.cutPoint_of_le (by simp)
  show Splice.apply (.replace a z new) (encode text) = _
  simp only [Splice.apply, Splice.replace, hcut ha, hcut hz, htake, hdrop, encode_append]

theorem writes_insertAt (ha : Cut text a) (new : List Char) : (one (.insertAt a new)).Writes text :=
  writes_replace ha ha new

end Plan

/-! ## Imports and exports -/

namespace Imports

theorem cut_of_mem [SoundRecovery] (ht : t ∈ (ofText text).tree.nodes) : Cut text t.start ∧ Cut text t.stop :=
  (ofText_coherent text t ht).cut

theorem add_writes [SoundRecovery] {op : AddImport} (h : add (encode text) (.ofText text) op = .ok p) :
    p.Writes text := by
  rw [add_eq] at h
  cases hask : (tableOf (encode text) (.ofText text)).ask op with
  | error e =>
    rw [hask] at h
    cases h
  | ok x =>
    rw [hask] at h
    cases h
    obtain ⟨-, -, -, result, -, -, -, hresult, -⟩ := after_seated hask
    exact ⟨result, by rw [applyAll_planOf, hresult]⟩

theorem removeStatement_writes [SoundRecovery] (ht : t ∈ (ofText text).tree.nodes) :
    (removeStatement (encode text) t).Writes text := by
  obtain ⟨hstart, hstop⟩ := cut_of_mem ht
  refine Plan.writes_replace hstart ?_ []
  split
  · rename_i rest hrest
    have hnext := hstop.step hrest (by decide)
    have hline : (encode text).drop (t.stop + 1) = 10 :: rest := by
      rw [← drop_drop, hrest]
      rfl
    exact hnext.step hline (by decide)
  · rename_i rest hrest
    exact hstop.step hrest (by decide)
  · exact hstop

theorem remove_writes [SoundRecovery] (text : List Char) (op : RemoveImport) :
    (remove (encode text) (.ofText text) op).Writes text := by
  unfold remove
  split
  · exact Plan.writes_of_edits_nil rfl
  · rename_i t m hfind
    have ht : t ∈ (ofText text).tree.nodes :=
      mem_nodes_of_child (mem_children_of_mem_statements (mem_of_find?_eq_some hfind))
    have hpart : ∀ {k : Kind} {u : Tree}, (childOfKind t .importClause).bind (childOfKind · k) = some u →
        Cut text u.start ∧ Cut text u.stop := fun hu => by
      obtain ⟨clause, hclause, hu⟩ := Option.bind_eq_some_iff.1 hu
      exact cut_of_mem (nodes_trans (nodes_trans ht (mem_nodes_of_child
        (mem_children_of_childOfKind hclause))) (mem_nodes_of_child (mem_children_of_childOfKind hu)))
    by_cases hall : op.names.isEmpty
    · rw [if_pos hall]
      exact removeStatement_writes ht
    · rw [if_neg hall]
      dsimp only
      split
      · exact removeStatement_writes ht
      split
      · exact Plan.writes_of_edits_nil rfl
      split
      · rename_i n d hn hd
        split
        · exact Plan.writes_replace (hpart hd).2 (hpart hn).2 []
        · exact Plan.writes_replace (hpart hn).1 (hpart hn).2 _
      · rename_i n hn hd
        exact Plan.writes_replace (hpart hn).1 (hpart hn).2 _
      · exact Plan.writes_of_edits_nil rfl

theorem addExport_writes (text : List Char) (op : AddExport) : (addExport (encode text) op).Writes text :=
  Plan.writes_insertAt (cut_length text) _

end Imports

/-! ## Members -/

namespace Members

theorem lt_of_isSpace {b : UInt8} (h : Bytes.isSpace b) : b < 0x80 := by
  simp only [Bytes.isSpace, Bool.or_eq_true, Bool.and_eq_true, decide_eq_true_eq, beq_iff_eq,
    UInt8.le_iff_toNat_le] at h
  rw [UInt8.lt_iff_toNat_lt]
  rcases h with ⟨-, h⟩ | rfl
  · exact Nat.lt_of_le_of_lt h (by decide)
  · decide

theorem contentEnd_cut {closeBrace : Nat} (h : Cut text closeBrace) (openBrace : Nat) :
    Cut text (contentEnd (encode text) openBrace closeBrace) := by
  unfold contentEnd
  simp only
  generalize hinside : (((encode text).take closeBrace).drop (openBrace + 1)).reverse = inside
  have hbytes : (encode text).take closeBrace = ((encode text).take closeBrace).take (openBrace + 1)
      ++ (inside.dropWhile Bytes.isSpace).reverse ++ (inside.takeWhile Bytes.isSpace).reverse := by
    rw [append_assoc, ← reverse_append, takeWhile_append_dropWhile, ← hinside, reverse_reverse,
      take_append_drop]
  have hcut := h.back hbytes fun b hb => lt_of_isSpace (mem_takeWhile_imp (mem_reverse.1 hb))
  rwa [length_reverse] at hcut

theorem closing_of_endsWithBrace {b : Tree} (hplaced : b.Placed) (hend : b.EndsWithBrace) :
    ∃ f s, Tree.leaf f .token s ['\x7d'] ∈ b.children ∧ s.start.byte + 1 = b.stop := by
  obtain ⟨cs, f, s, hcs⟩ := hend
  have hlast : Tree.leaf f .token s ['\x7d'] ∈ b.children := by
    rw [hcs]
    exact mem_append_right _ (mem_singleton_self _)
  obtain ⟨c', d', hleaf⟩ := (hplaced.child hlast).1
  obtain ⟨c, d, hcovers⟩ := hplaced
  have hstop : s.stop.byte = b.stop := by
    have := coversAll_getLast (hcovers.children hlast) (by rw [hcs, getLast?_concat])
    rw [hcovers.stop_eq, ← this]
    rfl
  have hsize : s.stop.byte = s.start.byte + 1 := by
    have hbyte := hleaf.2.1.byte_eq
    rw [hleaf.2.2]
    exact hbyte
  exact ⟨f, s, hlast, by omega⟩

theorem namedItem?_class {source : List Char} {name : Tree} {d : Item}
    (h : namedItem? source t name = some d) (hd : d.kind = .classDecl) : isClass t.kind ∧ d.body = t.child? .body := by
  revert h
  fun_cases namedItem? source t name <;> intro h <;> cases h
  case case1 hk | case2 hk => exact ⟨by rw [hk]; rfl, rfl⟩
  all_goals cases hd

variable {name : String} {c : Declaration} {body : Nat × Nat}

section

variable [Recovery] {root : Tree} (hparse : parse .typescript text = some root)
  (h : classNamed (.ofText text) name = .ok (c, body))

include hparse h

/-- **The body of a class stands in braces** in a text that follows the grammar. -/
theorem body_of_classNamed : ∃ b ∈ root.nodes,
      body = rangeOf b ∧ b.Placed ∧ b.StartsWithBrace ∧ b.EndsWithBrace := by
  have htree : (ofText text).tree = root := treeOf_of_parse hparse
  have hcoherent : ∀ t ∈ (ofText text).tree.nodes, t.Coherent text := htree ▸ parse_coherent hparse
  obtain ⟨hfind, hrange⟩ := of_classNamed h
  obtain ⟨hmem, hparent, hkind, -⟩ := of_find? hcoherent "transform.ts" hfind
  obtain ⟨_, hg, hhead⟩ := mem_layOut hmem
  obtain ⟨g, hgroup, rfl⟩ := mem_map.1 hg
  rcases hhead with hhead | ⟨id, hmember, -⟩
  · have hitem : g.item.kind = .classDecl := by rw [← hkind, hhead]; rfl
    have hbody : g.item.body.map rangeOf = some body := by rw [← hrange, hhead]; rfl
    obtain ⟨b, hb, rfl⟩ := Option.map_eq_some_iff.1 hbody
    obtain ⟨t, ht, -, q, hgt⟩ := mem_groups hcoherent hgroup
    obtain ⟨u, hu, -, hnamed⟩ := groupsIn_named hgt (by rw [hitem]; decide)
    obtain ⟨hclass, hchild⟩ := namedItem?_class hnamed hitem
    rw [hb] at hchild
    have hmemu : u ∈ root.nodes := htree ▸ nodes_trans (mem_nodes_of_child ht) (mem_nodes_of_declaration? hu)
    have hplaced := placed_of_parse hparse hmemu fun hk => by rw [hk] at hclass; cases hclass
    exact ⟨b, nodes_trans hmemu (mem_nodes_of_child? hchild.symm), rfl,
      (hplaced.child (child?_eq_some hchild.symm).1).1, parse_opened hparse hmemu hclass hchild.symm,
      parse_embodied hparse hmemu hclass hchild.symm⟩
  · rw [parent_of_mem_membersIn hmember] at hparent
    cases hparent

theorem closeBrace_cut : Cut text (body.2 - 1) := by
  obtain ⟨b, hb, rfl, hplaced, -, hend⟩ := body_of_classNamed hparse h
  obtain ⟨f, s, hlast, hstop⟩ := closing_of_endsWithBrace hplaced hend
  have hcut := (parse_coherent hparse _ (nodes_trans hb (mem_nodes_of_child hlast))).cut.1
  rwa [show (Tree.leaf f .token s ['\x7d']).start = b.stop - 1 by show s.start.byte = _; omega] at hcut

end

theorem insertLines_writes (h : Cut text (body.2 - 1)) (v : View) (lines : List (List Char)) (gap : Bool) :
    (insertLines (encode text) v c body lines gap).Writes text :=
  Plan.writes_replace (contentEnd_cut h _) h _

theorem addProperty_eq_ok (h : addProperty bytes v op = .ok p) :
    ∃ c body, classNamed v op.owner = .ok (c, body) ∧ p = insertLines bytes v c body [propertyText op] false := by
  obtain ⟨⟨c, body⟩, hclass, h⟩ := bind_eq_ok_iff.1 h
  cases h
  exact ⟨c, body, hclass, rfl⟩

theorem addMethod_eq_ok {op : AddMethod} (h : addMethod bytes v op = .ok p) :
    ∃ c body, classNamed v op.owner = .ok (c, body) ∧ p = insertLines bytes v c body
      ([signature op] ++ bodyLines (stepOf bytes v c) op.body ++ [['\x7d']])
      (!(v.outline.tree.membersOf c).isEmpty) := by
  obtain ⟨⟨c, body⟩, hclass, h⟩ := bind_eq_ok_iff.1 h
  cases h
  exact ⟨c, body, hclass, rfl⟩

end Members

def Operation.memberOwner? : Operation → Option String
  | .addProperty op => some op.owner
  | .addMethod op => some op.owner
  | _ => none

/-- If the operation adds a member, the body of the class ends with a character of one byte. -/
def Operation.Suits [Recovery] (op : Operation) (text : List Char) : Prop :=
  ∀ owner c body, op.memberOwner? = some owner → classNamed (.ofText text) owner = .ok (c, body) → Cut text (body.2 - 1)

/-! ## Renamings -/

namespace Renaming

theorem ofMember_of_plan {op : Rename} (h : plan v op = .ok p) (hclass : ¬ InFile op) :
    ∃ owner, op.owner = .str owner ∧ ofMember v op owner = .ok p := by
  simp only [InFile, not_or, not_not, Bool.not_eq_false] at hclass
  simp only [plan, hclass.1, hclass.2, beq_self_eq_true, Bool.and_self, if_true] at h
  cases howner : op.owner with
  | str owner =>
    rw [howner] at h
    exact ⟨owner, rfl, h⟩
  | _ =>
    simp only [howner, ownerName, bind, Except.bind, throw, throwThe, MonadExceptOf.throw] at h
    cases h

theorem plan_writes [SoundRecovery] {op : Rename} (h : plan (.ofText text) op = .ok p) : p.Writes text := by
  by_cases hfile : InFile op
  · obtain ⟨hedits, -⟩ := ofSymbol_eq_ok ((plan_of_inFile hfile _).symm.trans h)
    obtain ⟨result, hresult⟩ := symbolSplices_text text op
    exact ⟨result, by rw [hedits, hresult]⟩
  · obtain ⟨owner, -, hmember⟩ := ofMember_of_plan h hfile
    obtain ⟨c, m, n, hrenames, hedits⟩ := renames_of_ok hmember
    obtain ⟨result, hresult⟩ := splicesFor_text hrenames.names
    exact ⟨result, by rw [hedits, hresult]⟩

end Renaming

/-! ## Operations -/

namespace Document

variable [Recovery]

/-- What operations make of a document one after another, whatever comes of each. -/
def performAll (d : Document) (ops : List Operation) : Document := ops.foldl (fun d op => (d.perform op).1) d

/-- Each operation suits the text that it meets, if that breaks the grammar. -/
def Suits (d : Document) (ops : List Operation) : Prop :=
  ∀ pre op post text, ops = pre ++ op :: post → (d.performAll pre).text? = some text → parse .typescript text = none →
    op.Suits text

variable {d : Document} {text : List Char} {ops : List Operation} {op : Operation}

theorem Suits.head (h : d.Suits (op :: ops)) (hbytes : d.bytes = encode text) :
    parse .typescript text = none → op.Suits text := by
  refine h [] op ops text rfl ?_
  rw [show d.performAll [] = d from rfl, text?, hbytes, decode_encode]

theorem Suits.tail (h : d.Suits (op :: ops)) : (d.perform op).1.Suits ops := fun pre op' post text hops =>
  h (op :: pre) op' post text (congrArg (op :: ·) hops)

theorem perform_bytes {bytes : Bytes} {o : Outcome} (hd : d.Coherent) (h : op.effect d.bytes = .ok (bytes, o)) :
    (d.perform op).1.bytes = bytes := by
  rw [(perform_eq hd op).2.2]
  unfold Operation.effect at h
  generalize op.planOn d.bytes = r at h ⊢
  cases r with
  | ok p => exact congrArg Prod.fst (Except.ok.inj h)
  | error e =>
    cases e with
    | refused r => exact congrArg Prod.fst (Except.ok.inj h)
    | wrongType => cases h
    | notText => cases h

theorem performAll_bytes : ∀ {ops : List Operation} {d : Document} {bytes : Bytes} {os : List (Operation × Outcome)},
    d.Coherent → Operation.effects ops d.bytes = .ok (bytes, os) → (d.performAll ops).bytes = bytes
  | [], _, _, _, _, h => congrArg Prod.fst (Except.ok.inj h)
  | op :: ops, d, _, _, hd, h => by
    obtain ⟨bytes', o, os', heffect, hrest, -⟩ := Operation.effects_cons_eq_ok.1 h
    rw [← perform_bytes hd heffect] at hrest
    show ((d.perform op).1.performAll ops).bytes = _
    exact performAll_bytes (perform_eq hd op).2.1 hrest

end Document

section

variable [SoundRecovery]

theorem Operation.planOn_writes {op : Operation} {text : List Char}
    (hsuits : parse .typescript text = none → op.Suits text) (h : op.planOn (encode text) = .ok p) : p.Writes text := by
  have hsuits : op.Suits text := fun owner c body howner hclass => by
    cases hparse : parse .typescript text with
    | none => exact hsuits hparse owner c body howner hclass
    | some root => exact Members.closeBrace_cut hparse hclass
  rw [planOn, decode_encode] at h
  cases op with
  | addImport op => exact Imports.add_writes h
  | removeImport op =>
    cases h
    exact Imports.remove_writes text op
  | addExport op =>
    cases h
    exact Imports.addExport_writes text op
  | addProperty op =>
    obtain ⟨c, body, hclass, rfl⟩ := Members.addProperty_eq_ok h
    exact Members.insertLines_writes (hsuits _ c body rfl hclass) _ _ _
  | addMethod op =>
    obtain ⟨c, body, hclass, rfl⟩ := Members.addMethod_eq_ok h
    exact Members.insertLines_writes (hsuits _ c body rfl hclass) _ _ _
  | rename op => exact Renaming.plan_writes h
  | wrap op => cases h
  | unknown tag payload => cases h

namespace Document

variable {d : Document} {text : List Char} {ops : List Operation} {op : Operation}

theorem perform_text (hd : d.Coherent) (h : d.bytes = encode text)
    (hs : parse .typescript text = none → op.Suits text) :
    (d.perform op).1.Coherent ∧ ∃ result, (d.perform op).1.bytes = encode result := by
  obtain ⟨-, hcoherent, hbytes⟩ := perform_eq hd op
  refine ⟨hcoherent, ?_⟩
  rw [hbytes, h]
  cases hplan : op.planOn (encode text) with
  | ok p => exact Operation.planOn_writes hs hplan
  | error e => exact ⟨text, rfl⟩

theorem performAll_text : ∀ (ops : List Operation) {d : Document} {text : List Char}, d.Coherent →
    d.bytes = encode text →
    d.Suits ops → ∃ result, (d.performAll ops).bytes = encode result
  | [], _, text, _, h, _ => ⟨text, h⟩
  | op :: ops, _, _, hd, h, hs => by
    obtain ⟨hd', text', h'⟩ := perform_text hd h (hs.head h)
    exact performAll_text ops hd' h' hs.tail

end Document

theorem Operation.effects_text {ops : List Operation} {text : List Char} {bytes : Bytes}
    {os : List (Operation × Outcome)}
    (hs : (Document.ofText text).Suits ops) (h : effects ops (encode text) = .ok (bytes, os)) :
    ∃ result, bytes = encode result := by
  rw [← Document.performAll_bytes (Document.coherent_ofText text) h]
  exact Document.performAll_text ops (Document.coherent_ofText text) rfl hs

end

namespace Document

section

attribute [local instance] SoundRecovery.bare

theorem suits_bare (d : Document) (ops : List Operation) : d.Suits ops := by
  intro pre op post text _ _ hparse owner c body _ hclass
  rw [View.ofText, treeOf, hparse] at hclass
  cases hclass

end

end Document
end SourceBench
