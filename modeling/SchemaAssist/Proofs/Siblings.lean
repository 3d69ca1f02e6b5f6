/-
# Elements side by side

The children of an element of a document follow each other without overlap
(`Element.Nested.pairwise_children`), whether they have end tags or not.  So no child ends before
one in front of it does, and the children that end before an offset are a first part of all of them:
to stop at the first child that ends later misses none (`closedBefore_read`).
-/

import SchemaAssist.Proofs.Nesting

namespace SchemaAssist
namespace Document

open Relation (ReflTransGen)

namespace Element

variable {e : Element} {es : List Element} {lo hi : Nat}

/-- No element that stands behind an offset starts before it. -/
theorem Tiles.le_start (h : Tiles lo es hi) (hspan : ∀ c ∈ es, c.span.start < c.span.stop) :
    ∀ c ∈ es, lo ≤ c.span.start := by
  induction es generalizing lo with
  | nil => nofun
  | cons e es ih =>
    obtain ⟨hstart, -, -, hrest⟩ := h
    rw [List.forall_mem_cons] at hspan ⊢
    refine ⟨hstart, fun c hc => ?_⟩
    have hnext := ih hrest hspan.2 c hc
    exact Nat.le_trans hstart (Nat.le_trans (Nat.le_of_lt hspan.1) hnext)

/-- Of elements that stand one after the other each starts where the ones before it have ended. -/
theorem Tiles.pairwise (h : Tiles lo es hi) (hspan : ∀ c ∈ es, c.span.start < c.span.stop) :
    es.Pairwise fun c d => c.span.stop ≤ d.span.start := by
  induction es generalizing lo with
  | nil => exact .nil
  | cons e es ih =>
    obtain ⟨-, -, -, hrest⟩ := h
    rw [List.forall_mem_cons] at hspan
    exact .cons (hrest.le_start hspan.2) (ih hrest hspan.2)

theorem Nested.framed_child (h : e.Nested) : ∀ c ∈ e.children, c.Framed := fun c hc =>
  (nested_iff.1 ((nested_iff.1 h).2 c hc)).1

/-- The children of an element are in the order of the text. -/
theorem Nested.pairwise_children (h : e.Nested) :
    e.children.Pairwise fun c d => c.span.stop ≤ d.span.start :=
  (nested_iff.1 h).1.children.pairwise fun c hc => (h.framed_child c hc).start_lt_stop

/-- None of the children of an element ends before one in front of it. -/
theorem Nested.pairwise_stop (h : e.Nested) :
    e.children.Pairwise fun c d => c.span.stop ≤ d.span.stop := by
  refine h.pairwise_children.imp_of_mem fun {c d} _ hd hle => ?_
  exact Nat.le_trans hle (Nat.le_of_lt (h.framed_child d hd).start_lt_stop)

end Element

/-- Where a condition is met by all before one that meets it, the first part that meets it is all
that does. -/
theorem takeWhile_eq_filter {α : Type _} {p : α → Bool} {xs : List α}
    (h : xs.Pairwise fun x y => p y = true → p x = true) : xs.takeWhile p = xs.filter p := by
  induction xs with
  | nil => rfl
  | cons x xs ih =>
    obtain ⟨hfirst, hrest⟩ := List.pairwise_cons.1 h
    rw [List.takeWhile_cons, List.filter_cons]
    split
    · rw [ih hrest]
    · next hx =>
      have hnone : ∀ y ∈ xs, ¬ p y = true := fun y hy hpy => hx (hfirst y hy hpy)
      exact (List.filter_eq_nil_iff.2 hnone).symm

/-- A weaker condition is met by a longer first part. -/
theorem takeWhile_prefix_takeWhile {α : Type _} {p q : α → Bool} (xs : List α)
    (h : ∀ x, p x = true → q x = true) : xs.takeWhile p <+: xs.takeWhile q := by
  induction xs with
  | nil => exact List.prefix_rfl
  | cons x xs ih =>
    rw [List.takeWhile_cons, List.takeWhile_cons]
    split
    · next hx =>
      rw [if_pos (h x hx)]
      exact (List.prefix_cons_inj x).2 ih
    · exact List.nil_prefix

namespace Element

variable {e : Element}

/-- The closed children before an offset are those that are closed and end at or before it. -/
theorem Nested.closedBefore_eq (h : e.Nested) (offset : Nat) :
    e.closedBefore offset =
      (e.children.filter fun c => c.closed && decide (c.span.stop ≤ offset)).map (·.name) := by
  have hends : e.children.takeWhile (fun c => decide (c.span.stop ≤ offset)) =
      e.children.filter fun c => decide (c.span.stop ≤ offset) := by
    refine takeWhile_eq_filter (h.pairwise_stop.imp fun {c d} hle hd => ?_)
    rw [decide_eq_true_eq] at hd ⊢
    exact Nat.le_trans hle hd
  rw [closedBefore, hends, List.filter_filter]

/-- Further on, closed children are only added behind those there are. -/
theorem closedBefore_prefix (e : Element) {offset offset' : Nat} (hle : offset ≤ offset') :
    e.closedBefore offset <+: e.closedBefore offset' := by
  have hends : e.children.takeWhile (fun c => decide (c.span.stop ≤ offset)) <+:
      e.children.takeWhile fun c => decide (c.span.stop ≤ offset') := by
    refine takeWhile_prefix_takeWhile _ fun c hc => ?_
    rw [decide_eq_true_eq] at hc ⊢
    exact Nat.le_trans hc hle
  exact (hends.filter _).map _

end Element

/-- **No closed child before an offset is missed.**  For every text, of every element of its tree
the children stand in the order of the text, the closed children before an offset are all of them
that are closed and end at or before it, and those before an earlier offset come first among those
before a later one. -/
theorem closedBefore_read {text : String} {root e : Element} (hroot : read text = some root)
    (he : ReflTransGen Element.HasChild root e) :
    e.children.Pairwise (fun c d => c.span.stop ≤ d.span.start) ∧
      (∀ offset, e.closedBefore offset =
        (e.children.filter fun c => c.closed && decide (c.span.stop ≤ offset)).map (·.name)) ∧
      ∀ offset offset', offset ≤ offset' → e.closedBefore offset <+: e.closedBefore offset' := by
  have hnested : e.Nested := fun d hd => ((framed_read hroot).1 d (he.trans hd)).1
  exact ⟨hnested.pairwise_children, hnested.closedBefore_eq,
    fun _ _ hle => e.closedBefore_prefix hle⟩

/-- The second child of the root is closed around an element that is not, and the last one is ended
by the end of the text. -/
theorem closedBefore_read_unclosed :
    let text := "<r><a/><b><c></b><d/><e>1"
    ∃ root, read text = some root ∧
      (root.closedBefore 7).map (·.localName) = ["a"] ∧
      (root.closedBefore 25).map (·.localName) = ["a", "b", "d"] ∧
      root.closedBefore 7 <+: root.closedBefore 25 ∧
      ∀ offset, root.closedBefore offset =
        (root.children.filter fun c => c.closed && decide (c.span.stop ≤ offset)).map (·.name) := by
  intro text
  have hread : (read text).map (fun root =>
      ((root.closedBefore 7).map (·.localName), (root.closedBefore 25).map (·.localName))) =
      some (["a"], ["a", "b", "d"]) := by decide +kernel
  obtain ⟨root, hroot, hnames⟩ := Option.map_eq_some_iff.1 hread
  obtain ⟨hearly, hlate⟩ := Prod.mk.inj hnames
  obtain ⟨-, hclosed, hprefix⟩ := closedBefore_read hroot .refl
  exact ⟨root, hroot, hearly, hlate, hprefix 7 25 (by decide), hclosed⟩

end Document
end SchemaAssist
