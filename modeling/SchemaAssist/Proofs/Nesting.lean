/-
# The tree of a document as nested intervals

The elements of a document take up nested intervals of its text.  Between the tags of an element its
children stand one after the other (`Element.Tiles`); only the last of them may lack an end tag, and
then it ends where the content around it does.

While a document is read, this holds of the elements that have ended, and the open ones stand on the
stack in the order of their start tags (`Stacked`).  A tag moves the place up to which the stack has
been filled from its start to its end; an end tag first ends the elements inside the one that it
matches, each of which is for a moment the unclosed last child of the next one (`Ending`).  Nothing
is asked of the tags but that they follow each other and are not empty (`Event.Ordered`), as those of
every text do (`ordered_tags`).
-/

import SchemaAssist.Proofs.Caret
import Mathlib.Logic.Relation

namespace SchemaAssist
namespace Document

open Relation (ReflTransGen)

/-! ### Nested elements -/

namespace Element

/-- Elements stand one after the other between two offsets.  Only the last one may be unclosed, and
then it ends at the second offset. -/
def Tiles : (lo : Nat) → List Element → (hi : Nat) → Prop
  | _, [], _ => True
  | lo, e :: es, hi => lo ≤ e.span.start ∧ e.span.stop ≤ hi ∧
    (e.closed = false → es = [] ∧ e.span.stop = hi) ∧ Tiles e.span.stop es hi

/-- The parts of an element follow each other, and its children stand inside its content.  An empty
tag has no content; an element without an end tag ends with its content. -/
structure Framed (e : Element) : Prop where
  startTag : e.span.start < e.span.startTagEnd
  content : e.span.startTagEnd ≤ e.span.contentEnd
  stop : e.span.contentEnd ≤ e.span.stop
  children : Tiles e.span.startTagEnd e.children e.span.contentEnd
  empty : e.selfClosing = true → e.closed = true ∧ e.children = [] ∧
    e.span.contentEnd = e.span.startTagEnd ∧ e.span.stop = e.span.startTagEnd
  unclosed : e.closed = false → e.span.contentEnd = e.span.stop

/-- An element is a child of another. -/
def HasChild (e c : Element) : Prop := c ∈ e.children

/-- An element and all below it are framed. -/
def Nested (e : Element) : Prop := ∀ d, ReflTransGen HasChild e d → d.Framed

variable {e : Element} {es : List Element} {lo mid hi hi' : Nat}

theorem nested_iff : e.Nested ↔ e.Framed ∧ ∀ c ∈ e.children, c.Nested := by
  constructor
  · intro h
    exact ⟨h e .refl, fun c hc d hd => h d (.head hc hd)⟩
  · rintro ⟨hframed, hchildren⟩ d hd
    rcases ReflTransGen.cases_head hd with rfl | ⟨c, hc, hd⟩
    · exact hframed
    · exact hchildren c hc d hd

theorem Framed.start_lt_stop (h : e.Framed) : e.span.start < e.span.stop :=
  Nat.lt_of_lt_of_le h.startTag (Nat.le_trans h.content h.stop)

theorem Tiles.stop_le (h : Tiles lo es hi) : ∀ c ∈ es, c.span.stop ≤ hi := by
  induction es generalizing lo with
  | nil => nofun
  | cons e es ih =>
    obtain ⟨-, hstop, -, hrest⟩ := h
    exact List.forall_mem_cons.2 ⟨hstop, ih hrest⟩

/-- Closed elements leave room for more. -/
theorem Tiles.mono (h : Tiles lo es hi) (hclosed : ∀ c ∈ es, c.closed = true) (hle : hi ≤ hi') :
    Tiles lo es hi' := by
  induction es generalizing lo with
  | nil => trivial
  | cons e es ih =>
    obtain ⟨hstart, hstop, -, hrest⟩ := h
    rw [List.forall_mem_cons] at hclosed
    refine ⟨hstart, Nat.le_trans hstop hle, fun hopen => ?_, ih hrest hclosed.2⟩
    rw [hclosed.1] at hopen
    cases hopen

/-- A further element follows closed ones. -/
theorem Tiles.concat (h : Tiles lo es mid) (hclosed : ∀ c ∈ es, c.closed = true)
    (hlo : lo ≤ e.span.start) (hmid : mid ≤ e.span.start) (hspan : e.span.start ≤ e.span.stop)
    (hstop : e.span.stop ≤ hi) (hopen : e.closed = false → e.span.stop = hi) :
    Tiles lo (es ++ [e]) hi := by
  induction es generalizing lo with
  | nil => exact ⟨hlo, hstop, fun hunclosed => ⟨rfl, hopen hunclosed⟩, trivial⟩
  | cons f es ih =>
    obtain ⟨hstart, hend, -, hrest⟩ := h
    rw [List.forall_mem_cons] at hclosed
    refine ⟨hstart, by omega, fun hunclosed => ?_, ih hrest hclosed.2 (by omega)⟩
    rw [hclosed.1] at hunclosed
    cases hunclosed

/-- Nothing below an element reaches past it. -/
theorem Nested.stop_le (h : e.Nested) {d : Element} (hd : ReflTransGen HasChild e d) :
    d.span.stop ≤ e.span.stop := by
  induction hd using ReflTransGen.head_induction_on with
  | refl => exact Nat.le_refl _
  | head hc _ ih =>
    obtain ⟨hframed, hchildren⟩ := nested_iff.1 h
    have hinside := hframed.children.stop_le _ hc
    have hend := hframed.stop
    have := ih (hchildren _ hc)
    omega

end Element

open Element (Tiles)

/-! ### Tags that follow each other -/

/-- Tags follow each other between two offsets, and none is empty. -/
def Event.Ordered : (lo : Nat) → List Event → (hi : Nat) → Prop
  | _, [], _ => True
  | lo, e :: es, hi => lo ≤ e.first ∧ e.first < e.stop ∧ e.stop ≤ hi ∧ Ordered e.stop es hi

theorem Event.Ordered.mono_lo {lo lo' hi : Nat} {es : List Event} (h : Event.Ordered lo es hi)
    (hlo : lo' ≤ lo) : Event.Ordered lo' es hi := by
  cases es with
  | nil => trivial
  | cons e es => exact ⟨Nat.le_trans hlo h.1, h.2⟩

theorem Event.Ordered.takeWhile {lo hi : Nat} {es : List Event} (h : Event.Ordered lo es hi)
    (p : Event → Bool) : Event.Ordered lo (es.takeWhile p) hi := by
  induction es generalizing lo with
  | nil => trivial
  | cons e es ih =>
    obtain ⟨hfirst, hspan, hstop, hrest⟩ := h
    rw [List.takeWhile_cons]
    split
    · exact ⟨hfirst, hspan, hstop, ih hrest⟩
    · trivial

/-- The tags of the end of a text follow each other. -/
theorem ordered_eventsFrom {total : Nat} {cs : List Char} (hcs : byteLength cs ≤ total) :
    Event.Ordered (total - byteLength cs) (eventsFrom total cs) total := by
  have hbracket : ('<' : Char).utf8Size = 1 := by decide
  fun_induction eventsFrom total cs with
  | case1 => trivial
  | case2 cs before rest hopen event hlexeme =>
    obtain ⟨rfl, -⟩ := Text.cutList_eq_some_iff.1 hopen
    cases event with
    | none => trivial
    | some e =>
      obtain ⟨hfirst, hspan, hend⟩ := bounds_of_lexeme hlexeme
      simp only [byteLength_append, byteLength, Option.getD_none] at hcs hfirst hspan hend ⊢
      exact ⟨by omega, by omega, by omega, trivial⟩
  | case3 cs before rest hopen event rest' hlexeme hlength ih =>
    obtain ⟨rfl, -⟩ := Text.cutList_eq_some_iff.1 hopen
    have hshorter := (suffix_of_lexeme hlexeme).length_le
    obtain ⟨taken, -, rfl, -⟩ := exists_taken_of_lexeme hlexeme
    simp only [byteLength_append, byteLength] at hcs ⊢
    have hrest := ih (by omega)
    cases event with
    | none => exact hrest.mono_lo (by omega)
    | some e =>
      obtain ⟨hfirst, hspan, hend⟩ := bounds_of_lexeme hlexeme
      simp only [byteLength_append, Option.getD_some] at hfirst hspan hend
      exact ⟨by omega, by omega, by omega, hrest.mono_lo (by omega)⟩

/-- The tags of a text follow each other inside it. -/
theorem ordered_tags (text : String) : Event.Ordered 0 (tags text) (position text) := by
  have h := ordered_eventsFrom (Nat.le_refl (position text))
  rw [position, Nat.sub_self] at h
  exact h.takeWhile _

/-! ### Open elements -/

/-- An open element filled up to an offset. -/
structure OpenElement.Filled (o : OpenElement) (hi : Nat) : Prop where
  unended : o.element.selfClosing = false ∧ o.element.closed = false
  startTag : o.element.span.start < o.element.span.startTagEnd
  reaches : o.element.span.startTagEnd ≤ hi
  children : Tiles o.element.span.startTagEnd o.element.children hi
  nested : ∀ c ∈ o.element.children, c.Nested

/-- All children of an open element are closed. -/
def OpenElement.AllClosed (o : OpenElement) : Prop := ∀ c ∈ o.element.children, c.closed = true

/-- Open elements, the innermost first, are filled up to an offset: each of them up to the start of
the one inside it. -/
def Stacked : (hi : Nat) → List OpenElement → Prop
  | _, [] => True
  | hi, o :: os => o.Filled hi ∧ o.AllClosed ∧ Stacked o.element.span.start os

/-- Open elements some of which are ended at an offset: the innermost one may have an unclosed last
child there. -/
def Ending (hi : Nat) : List OpenElement → Prop
  | [] => True
  | o :: os => o.Filled hi ∧ Stacked o.element.span.start os

namespace OpenElement

variable {o : OpenElement} {e : Element} {mid hi hi' : Nat}

theorem Filled.mono (h : o.Filled hi) (hclosed : o.AllClosed) (hle : hi ≤ hi') : o.Filled hi' :=
  { h with
    reaches := Nat.le_trans h.reaches hle
    children := h.children.mono hclosed hle }

/-- An open element takes an element that has ended as its last child. -/
theorem Filled.push (h : o.Filled mid) (hclosed : o.AllClosed) (he : e.Nested)
    (hmid : mid ≤ e.span.start) (hstop : e.span.stop ≤ hi)
    (hopen : e.closed = false → e.span.stop = hi) : (o.push e).Filled hi := by
  have hspan := (Element.nested_iff.1 he).1.start_lt_stop
  have hreaches := h.reaches
  exact {
    unended := h.unended
    startTag := h.startTag
    reaches := Nat.le_trans hreaches (by omega)
    children := h.children.concat hclosed (by omega) hmid (by omega) hstop hopen
    nested := fun c hc => (List.mem_append.1 hc).elim (h.nested c) fun hc => by
      rwa [List.mem_singleton.1 hc] }

/-- An open element may end without an end tag where it has been filled. -/
theorem Filled.nested_cutOff (h : o.Filled hi) : (o.cutOff hi).Nested :=
  Element.nested_iff.2 ⟨{
    startTag := h.startTag
    content := h.reaches
    stop := Nat.le_refl _
    children := h.children
    empty := fun hempty => by cases h.unended.1.symm.trans hempty
    unclosed := fun _ => rfl }, h.nested⟩

/-- An open element may end by an end tag that starts where it has been filled. -/
theorem Filled.nested_close (h : o.Filled hi) (hle : hi ≤ hi') : (o.close hi hi').Nested :=
  Element.nested_iff.2 ⟨{
    startTag := h.startTag
    content := h.reaches
    stop := hle
    children := h.children
    empty := fun hempty => by cases h.unended.1.symm.trans hempty
    unclosed := nofun }, h.nested⟩

end OpenElement

variable {os : List OpenElement} {hi hi' : Nat}

theorem Stacked.mono (h : Stacked hi os) (hle : hi ≤ hi') : Stacked hi' os := by
  cases os with
  | nil => trivial
  | cons o os => exact ⟨h.1.mono h.2.1 hle, h.2⟩

/-- Elements that nothing has been ended in yet may be ended anywhere further on. -/
theorem Stacked.ending (h : Stacked hi os) (hle : hi ≤ hi') : Ending hi' os := by
  cases os with
  | nil => trivial
  | cons o os => exact ⟨h.1.mono h.2.1 hle, h.2.2⟩

namespace Unfinished

variable {p : Unfinished} {e : Element} {es : List Event} {mid hi hi' : Nat}

/-- The root of a document that is still being read is closed, and nothing after it counts. -/
def RootClosed (hi : Nat) (p : Unfinished) : Prop :=
  ∀ r ∈ p.root, r.Nested ∧ r.closed = true ∧ r.span.stop ≤ hi

/-- A document that has been read up to an offset. -/
structure ReadTo (hi : Nat) (p : Unfinished) : Prop where
  root : p.RootClosed hi
  stack : Stacked hi p.stack

theorem RootClosed.mono (h : p.RootClosed hi) (hle : hi ≤ hi') : p.RootClosed hi' := fun r hr =>
  let ⟨hnested, hclosed, hstop⟩ := h r hr
  ⟨hnested, hclosed, Nat.le_trans hstop hle⟩

/-- A closed element is added where the document has been read to. -/
theorem ReadTo.attach (h : ReadTo mid p) (he : e.Nested) (hclosed : e.closed = true)
    (hmid : mid ≤ e.span.start) (hstop : e.span.stop ≤ hi) : ReadTo hi (p.attach e) := by
  obtain ⟨root, stack⟩ := p
  have hspan := (Element.nested_iff.1 he).1.start_lt_stop
  have hroot := h.root.mono (show mid ≤ hi by omega)
  cases stack with
  | nil =>
    refine ⟨fun r hr => ?_, trivial⟩
    cases root with
    | none =>
      obtain rfl := Option.some.inj hr
      exact ⟨he, hclosed, hstop⟩
    | some r' => exact hroot r hr
  | cons o os =>
    obtain ⟨hfilled, hall, hrest⟩ := h.stack
    have hpush : (o.push e).AllClosed := fun c hc =>
      (List.mem_append.1 hc).elim (hall c) fun hc => by rwa [List.mem_singleton.1 hc]
    exact ⟨hroot, hfilled.push hall he hmid hstop (fun hopen => by cases hclosed.symm.trans hopen),
      hpush, hrest⟩

/-- The innermost open element ends without an end tag, as the last child of the next one. -/
theorem ending_cutOff (h : Ending hi p.stack) : Ending hi (p.cutOff hi).stack := by
  obtain ⟨root, stack⟩ := p
  match stack with
  | [] => trivial
  | [o] => trivial
  | o :: o' :: os =>
    obtain ⟨hfilled, hfilled', hclosed, hrest⟩ := h
    exact ⟨hfilled'.push hclosed hfilled.nested_cutOff (Nat.le_refl _) (Nat.le_refl _)
      fun _ => rfl, hrest⟩

theorem ending_cutOffMany (h : Ending hi p.stack) (count : Nat) :
    Ending hi (p.cutOffMany hi count).stack := by
  induction count generalizing p with
  | zero => exact h
  | succ count ih => exact ih (ending_cutOff h)

/-- As long as an element stays open nothing becomes the root. -/
theorem root_cutOffMany {count : Nat} (h : count < p.stack.length) :
    (p.cutOffMany hi count).root = p.root := by
  induction count generalizing p with
  | zero => rfl
  | succ count ih =>
    have hlength := length_stack_cutOff p hi
    have hroot := ih (p := p.cutOff hi) (by omega)
    obtain ⟨root, stack⟩ := p
    match stack with
    | [] => exact absurd h (Nat.not_lt_zero _)
    | [o] => exact absurd h (by simp)
    | o :: o' :: os => exact hroot

/-- An end tag of the innermost open element, whose last child may be unclosed. -/
theorem ReadTo.close (hroot : p.RootClosed hi) (hstack : Ending hi p.stack) (hle : hi ≤ hi') :
    ReadTo hi' (p.close hi hi') := by
  obtain ⟨root, stack⟩ := p
  cases stack with
  | nil => exact ⟨hroot.mono hle, trivial⟩
  | cons o os =>
    obtain ⟨hfilled, hrest⟩ := hstack
    have hbefore : ReadTo o.element.span.start (⟨none, os⟩ : Unfinished) := ⟨nofun, hrest⟩
    have hafter := hbefore.attach (hfilled.nested_close hle) rfl (Nat.le_refl _) (Nat.le_refl _)
    cases os with
    | nil =>
      cases root with
      | none => exact hafter
      | some r => exact ⟨hroot.mono hle, trivial⟩
    | cons o' os => exact ⟨hroot.mono hle, hafter.stack⟩

/-- **A tag takes a document from where it starts to where it ends.** -/
theorem ReadTo.take (h : ReadTo hi p) {e : Event} (hfirst : hi ≤ e.first)
    (hspan : e.first < e.stop) : ReadTo e.stop (p.take e) := by
  cases e with
  | start first stop tag =>
    refine ⟨h.root.mono (Nat.le_of_lt (Nat.lt_of_le_of_lt hfirst hspan)), ?_, nofun,
      h.stack.mono hfirst⟩
    exact ⟨⟨rfl, rfl⟩, hspan, Nat.le_refl _, trivial, nofun⟩
  | empty first stop tag =>
    refine h.attach (Element.nested_iff.2 ⟨?_, nofun⟩) rfl hfirst (Nat.le_refl _)
    exact ⟨hspan, Nat.le_refl _, Nat.le_refl _, trivial, fun _ => ⟨rfl, rfl, rfl, rfl⟩, nofun⟩
  | finish first stop name =>
    have hroot := h.root.mono hfirst
    rw [Unfinished.take]
    split
    · exact ⟨hroot.mono (Nat.le_of_lt hspan),
        h.stack.mono (Nat.le_of_lt (Nat.lt_of_le_of_lt hfirst hspan))⟩
    · next depth hdepth =>
      obtain ⟨hlt, -⟩ := List.findIdx?_eq_some_iff_getElem.1 hdepth
      have hsame : (p.cutOffMany first depth).RootClosed first := by
        rw [RootClosed, root_cutOffMany hlt]
        exact hroot
      exact ReadTo.close hsame (ending_cutOffMany (h.stack.ending hfirst) depth)
        (Nat.le_of_lt hspan)

theorem ReadTo.foldl_take {lo : Nat} (h : ReadTo lo p) (hle : lo ≤ hi)
    (hes : Event.Ordered lo es hi) : ReadTo hi (es.foldl Unfinished.take p) := by
  induction es generalizing lo p with
  | nil => exact ⟨h.root.mono hle, h.stack.mono hle⟩
  | cons e es ih =>
    obtain ⟨hfirst, hspan, hstop, hrest⟩ := hes
    exact ih (h.take hfirst hspan) hstop hrest

/-- What a document comes to when the text ends: its root is closed, or ends with the text. -/
def Rooted (total : Nat) (root : Option Element) : Prop :=
  ∀ r ∈ root, r.Nested ∧ r.span.stop ≤ total ∧ (r.closed = false → r.span.stop = total)

theorem rooted_cutOffMany {count : Nat} (hroot : Rooted hi p.root) (hstack : Ending hi p.stack) :
    Rooted hi (p.cutOffMany hi count).root := by
  induction count generalizing p with
  | zero => exact hroot
  | succ count ih =>
    refine ih ?_ (ending_cutOff hstack)
    obtain ⟨root, stack⟩ := p
    match stack with
    | [] => exact hroot
    | o :: o' :: os => exact hroot
    | [o] =>
      intro r hr
      cases root with
      | none =>
        obtain rfl := Option.some.inj hr
        exact ⟨hstack.1.nested_cutOff, Nat.le_refl _, fun _ => rfl⟩
      | some r' => exact hroot r hr

/-- The elements that are open when the text ends are ended there. -/
theorem ReadTo.finish (h : ReadTo hi p) (hle : hi ≤ hi') : Rooted hi' (p.finish hi') := by
  refine rooted_cutOffMany (fun r hr => ?_) (h.stack.ending hle)
  obtain ⟨hnested, hclosed, hstop⟩ := h.root r hr
  exact ⟨hnested, Nat.le_trans hstop hle, fun hopen => by cases hclosed.symm.trans hopen⟩

end Unfinished

/-- **The tree of a document is a tree of nested intervals.**  For every text, every element of its
tree has a start tag, a content and an end that follow each other in the text, and between its tags
its children stand one after the other.  An empty tag has no content.  An element without an end tag
is the last child of its parent and ends with the content of it; the root, if it has no end tag,
ends with the text. -/
theorem framed_read {text : String} {root : Element} (hroot : read text = some root) :
    (∀ e, ReflTransGen Element.HasChild root e → e.Framed ∧ e.span.stop ≤ text.utf8ByteSize) ∧
      (root.closed = false → root.span.stop = text.utf8ByteSize) := by
  have hstart : Unfinished.ReadTo 0 .empty := ⟨nofun, trivial⟩
  have hread := hstart.foldl_take (Nat.zero_le _) (ordered_tags text)
  obtain ⟨hnested, hstop, hopen⟩ := hread.finish (position_le text) root (read_eq text ▸ hroot)
  exact ⟨fun e he => ⟨hnested e he, Nat.le_trans (hnested.stop_le he) hstop⟩, hopen⟩

/-- The second child of the root is ended without the end tag of the element inside it, an end tag
matches nothing, and the root and its last child end with the text. -/
theorem framed_read_unclosed :
    let text := "<r><a>1</a><b><d></b></x><e>"
    ∃ root, read text = some root ∧
      root.children.map (fun c => (c.closed, c.span)) =
        [(true, ⟨3, 6, 7, 11⟩), (true, ⟨11, 14, 17, 21⟩), (false, ⟨25, 28, 28, 28⟩)] ∧
      (∀ e, ReflTransGen Element.HasChild root e → e.Framed ∧ e.span.stop ≤ text.utf8ByteSize) ∧
      root.closed = false ∧ root.span.stop = text.utf8ByteSize := by
  intro text
  have hread : (read text).map (fun root =>
      (root.closed, root.children.map fun c => (c.closed, c.span))) =
      some (false,
        [(true, ⟨3, 6, 7, 11⟩), (true, ⟨11, 14, 17, 21⟩), (false, ⟨25, 28, 28, 28⟩)]) := by
    decide +kernel
  obtain ⟨root, hroot, hshape⟩ := Option.map_eq_some_iff.1 hread
  obtain ⟨hclosed, hchildren⟩ := Prod.mk.inj hshape
  obtain ⟨hframed, hopen⟩ := framed_read hroot
  exact ⟨root, hroot, hchildren, hframed, hclosed, hopen hclosed⟩

end Document
end SchemaAssist
