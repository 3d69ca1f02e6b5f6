/-
# The tags of elements

Every element of a document comes from one tag of its text, at the same offsets and with the same
attributes, and has the name that is written in the tag, resolved in the scope inside the element
(`Element.Tagged`).  This is so while the document is read: the scope of an open element is the one
inside it, whatever has been opened and ended in it, and an element that has ended is attached where
it was opened (`Unfinished.Tagged.take`).  Tags start at different offsets, so that an element tells
its tag (`tagAt?_of_opening`).
-/

import SchemaAssist.Proofs.Containment

namespace SchemaAssist
namespace Document

open OpenElement (scopeOf nameOf)

/-! ### Elements and their tags -/

/-- The tag of an event that opens an element. -/
def Event.tag? : Event → Option Tag
  | .start _ _ tag => some tag
  | .empty _ _ tag => some tag
  | .finish .. => none

namespace Element

/-- The event that opens an element by a tag. -/
def opening (e : Element) (tag : Tag) : Event :=
  if e.selfClosing then .empty e.span.start e.span.startTagEnd tag
  else .start e.span.start e.span.startTagEnd tag

@[simp] theorem first_opening (e : Element) (tag : Tag) : (e.opening tag).first = e.span.start := by
  unfold opening
  split <;> rfl

@[simp] theorem stop_opening (e : Element) (tag : Tag) :
    (e.opening tag).stop = e.span.startTagEnd := by
  unfold opening
  split <;> rfl

@[simp] theorem tag?_opening (e : Element) (tag : Tag) : (e.opening tag).tag? = some tag := by
  unfold opening
  split <;> rfl

/-- An element in a scope comes from one of some tags: it has the attributes of the tag and the name
that the tag's name stands for inside it. -/
def ComesFrom (tags : List Event) (outer : Scope) (e : Element) : Prop :=
  ∃ tag, e.opening tag ∈ tags ∧ e.attributes = tag.attributes ∧
    e.name = nameOf (scopeOf outer e.attributes) tag.name

/-- An element in a scope, and all inside it in the scopes there, come from some tags. -/
inductive Tagged (tags : List Event) : (outer : Scope) → Element → Prop
  | intro {outer : Scope} {e : Element} (own : e.ComesFrom tags outer)
      (inside : ∀ c ∈ e.children, Tagged tags (scopeOf outer e.attributes) c) : Tagged tags outer e

end Element

/-! ### Open elements -/

/-- The scope inside the innermost of some open elements. -/
def innermostScope (os : List OpenElement) : Scope := (os.head?.map (·.scope)).getD .empty

/-- An open element in a scope comes from one of some tags, and so do its children in the scope
inside it. -/
structure OpenElement.Tagged (tags : List Event) (outer : Scope) (o : OpenElement) : Prop where
  own : o.element.ComesFrom tags outer
  scope : o.scope = scopeOf outer o.element.attributes
  inside : ∀ c ∈ o.element.children, c.Tagged tags o.scope

/-- Open elements, the innermost first, come from some tags, each in the scope of the next one. -/
def TaggedStack (tags : List Event) : List OpenElement → Prop
  | [] => True
  | o :: os => o.Tagged tags (innermostScope os) ∧ TaggedStack tags os

namespace OpenElement

variable {tags : List Event} {outer : Scope} {o : OpenElement} {e : Element}

/-- However an open element ends, it is still the element of its tag. -/
theorem Tagged.ended (h : o.Tagged tags outer) (contentEnd stop : Nat) (closed : Bool) :
    Element.Tagged tags outer { o.element with
      span := { o.element.span with contentEnd, stop }, closed } :=
  .intro h.own fun c hc => h.scope ▸ h.inside c hc

theorem Tagged.push (h : o.Tagged tags outer) (he : e.Tagged tags o.scope) :
    (o.push e).Tagged tags outer :=
  { own := h.own
    scope := h.scope
    inside := fun c hc => (List.mem_append.1 hc).elim (h.inside c) fun hc => by
      rwa [List.mem_singleton.1 hc] }

end OpenElement

/-! ### Reading -/

namespace Unfinished

variable {tags : List Event} {p : Unfinished} {e : Element}

/-- All elements of a document read in part come from some tags. -/
structure Tagged (tags : List Event) (p : Unfinished) : Prop where
  root : ∀ root ∈ p.root, root.Tagged tags .empty
  stack : TaggedStack tags p.stack

/-- An element is attached where it was opened. -/
theorem Tagged.attach (h : p.Tagged tags) (he : e.Tagged tags (innermostScope p.stack)) :
    (p.attach e).Tagged tags := by
  obtain ⟨root, stack⟩ := p
  cases stack with
  | nil =>
    refine ⟨fun r hr => ?_, trivial⟩
    cases root with
    | none =>
      obtain rfl := Option.some.inj hr
      exact he
    | some r' => exact h.root r hr
  | cons o os =>
    obtain ⟨htop, hrest⟩ := h.stack
    exact ⟨h.root, htop.push he, hrest⟩

theorem Tagged.cutOff (h : p.Tagged tags) (offset : Nat) : (p.cutOff offset).Tagged tags := by
  obtain ⟨root, stack⟩ := p
  cases stack with
  | nil => exact h
  | cons o os =>
    obtain ⟨htop, hrest⟩ := h.stack
    exact Tagged.attach ⟨h.root, hrest⟩ (htop.ended offset offset _)

theorem Tagged.cutOffMany (h : p.Tagged tags) (offset count : Nat) :
    (p.cutOffMany offset count).Tagged tags := by
  induction count generalizing p with
  | zero => exact h
  | succ count ih => exact ih (h.cutOff offset)

theorem Tagged.close (h : p.Tagged tags) (first stop : Nat) : (p.close first stop).Tagged tags := by
  obtain ⟨root, stack⟩ := p
  cases stack with
  | nil => exact h
  | cons o os =>
    obtain ⟨htop, hrest⟩ := h.stack
    exact Tagged.attach ⟨h.root, hrest⟩ (htop.ended first stop true)

/-- An element that one of the tags opens here comes from it. -/
theorem comesFrom_ofTag {outer : Scope} {first stop : Nat} {tag : Tag} (selfClosing closed : Bool)
    (hevent : (if selfClosing then Event.empty first stop tag else .start first stop tag) ∈ tags) :
    Element.ComesFrom tags outer { (OpenElement.ofTag outer first stop tag).element with
      closed, selfClosing } :=
  ⟨tag, hevent, rfl, rfl⟩

/-- **What a tag adds to a document comes from that tag.** -/
theorem Tagged.take (h : p.Tagged tags) {event : Event} (hevent : event ∈ tags) :
    (p.take event).Tagged tags := by
  cases event with
  | start first stop tag =>
    exact ⟨h.root, ⟨comesFrom_ofTag false false hevent, rfl, nofun⟩, h.stack⟩
  | empty first stop tag => exact h.attach (.intro (comesFrom_ofTag true true hevent) nofun)
  | finish first stop name =>
    rw [Unfinished.take]
    split
    · exact h
    · exact (h.cutOffMany _ _).close _ _

theorem Tagged.foldl_take (h : p.Tagged tags) {events : List Event}
    (hevents : ∀ event ∈ events, event ∈ tags) : (events.foldl Unfinished.take p).Tagged tags := by
  induction events generalizing p with
  | nil => exact h
  | cons event events ih =>
    rw [List.forall_mem_cons] at hevents
    exact ih (h.take hevents.1) hevents.2

end Unfinished

/-- The elements of a document come from the tags of its text. -/
theorem tagged_read {text : String} {root : Element} (hroot : read text = some root) :
    root.Tagged (tags text) .empty := by
  have hstart : Unfinished.empty.Tagged (tags text) := ⟨nofun, trivial⟩
  have hread := (hstart.foldl_take fun _ h => h).cutOffMany text.utf8ByteSize
    ((tags text).foldl Unfinished.take .empty).stack.length
  rw [read_eq] at hroot
  exact hread.root root hroot

/-! ### Elements with those around them -/

/-- The scope inside some elements, the innermost first. -/
def scopeInside : List Element → Scope
  | [] => .empty
  | e :: es => scopeOf (scopeInside es) e.attributes

/-- An element comes from a tag in the scope inside the elements around it. -/
theorem Lineage.tagged {text : String} {e : Element} {around : List Element}
    (h : Lineage (read text) (e :: around)) : e.Tagged (tags text) (scopeInside around) := by
  generalize hes : e :: around = es at h
  induction h generalizing e around with
  | root h =>
    cases hes
    exact tagged_read h
  | child _ hc ih =>
    cases hes
    obtain ⟨-, hinside⟩ := ih rfl
    exact hinside _ hc

/-! ### Tags by their offsets -/

theorem Event.Ordered.le_first {lo hi : Nat} {events : List Event} (h : Event.Ordered lo events hi) :
    ∀ event ∈ events, lo ≤ event.first := by
  induction events generalizing lo with
  | nil => nofun
  | cons event events ih =>
    obtain ⟨hfirst, hspan, -, hrest⟩ := h
    refine List.forall_mem_cons.2 ⟨hfirst, fun later hlater => ?_⟩
    exact Nat.le_trans hfirst (Nat.le_trans (Nat.le_of_lt hspan) (ih hrest later hlater))

/-- Tags that follow each other start at different offsets. -/
theorem Event.Ordered.find?_first {lo hi : Nat} {events : List Event}
    (h : Event.Ordered lo events hi) {event : Event} (hevent : event ∈ events) :
    events.find? (·.first == event.first) = some event := by
  induction events generalizing lo with
  | nil => cases hevent
  | cons head events ih =>
    obtain ⟨-, hspan, -, hrest⟩ := h
    rw [List.find?_cons]
    rcases List.mem_cons.1 hevent with rfl | hlater
    · rw [beq_self_eq_true]
    · have hbehind := hrest.le_first event hlater
      have hother : (head.first == event.first) = false := beq_eq_false_iff_ne.2 (by omega)
      rw [hother]
      exact ih hrest hlater

/-- The tag that starts at an offset of a text, if it opens an element. -/
def tagAt? (text : String) (offset : Nat) : Option Tag :=
  ((tags text).find? (·.first == offset)).bind Event.tag?

theorem tagAt?_of_opening {text : String} {e : Element} {tag : Tag}
    (h : e.opening tag ∈ tags text) : tagAt? text e.span.start = some tag := by
  have hfind := (ordered_tags text).find?_first h
  rw [Element.first_opening] at hfind
  rw [tagAt?, hfind, Option.bind_some, Element.tag?_opening]

end Document
end SchemaAssist
