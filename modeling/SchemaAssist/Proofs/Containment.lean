/-
# The elements around an offset

To find the elements whose content an offset is in, a document is searched from its root, at each
level for the first child that qualifies.  The search never has to come back: contents of siblings
have no offset in common, and an offset in the content of an element is in the content of all
elements around it.  So the search comes by every element whose content the offset is in
(`Lineage.pathAt_eq`) and by no other, each time one level further down, and the last one that it
comes to is the innermost (`pathAt_read`).
-/

import SchemaAssist.Proofs.Siblings
import Mathlib.Tactic.ByContra

namespace SchemaAssist
namespace Document

open Relation (ReflTransGen)

/-! ### Elements with those around them -/

/-- An element of a document and the elements around it, the innermost first and the root last. -/
inductive Lineage (doc : Option Element) : List Element → Prop
  | root {e : Element} (h : e ∈ doc) : Lineage doc [e]
  | child {c e : Element} {es : List Element} (h : Lineage doc (e :: es)) (hc : e.HasChild c) :
      Lineage doc (c :: e :: es)

/-- The document has an element. -/
def Has (doc : Option Element) (e : Element) : Prop := ∃ around, Lineage doc (e :: around)

/-- An element whose content an offset is in, deeper in the document than every other one whose
content the offset is in. -/
def Innermost (doc : Option Element) (offset : Nat) (e : Element) : Prop :=
  e.containsContent offset = true ∧ ∃ around, Lineage doc (e :: around) ∧
    ∀ d outer, Lineage doc (d :: outer) → d.containsContent offset = true → d ≠ e →
      outer.length < around.length

namespace Lineage

variable {doc : Option Element} {e : Element} {es around : List Element}

/-- An element is below the root. -/
theorem reflTransGen (h : Lineage doc (e :: around)) :
    ∃ root ∈ doc, ReflTransGen Element.HasChild root e := by
  generalize hes : e :: around = es at h
  induction h generalizing e around with
  | root h =>
    cases hes
    exact ⟨_, h, .refl⟩
  | child h hc ih =>
    cases hes
    obtain ⟨root, hroot, hbelow⟩ := ih rfl
    exact ⟨root, hroot, hbelow.tail hc⟩

theorem has (h : Lineage doc es) : ∀ e ∈ es, Has doc e := by
  induction h with
  | root h => exact List.forall_mem_singleton.2 ⟨[], .root h⟩
  | child h hc ih => exact List.forall_mem_cons.2 ⟨⟨_, h.child hc⟩, ih⟩

end Lineage

/-- A document has its root and what is below that. -/
theorem has_iff {doc : Option Element} {e : Element} :
    Has doc e ↔ ∃ root ∈ doc, ReflTransGen Element.HasChild root e := by
  constructor
  · rintro ⟨around, h⟩
    exact h.reflTransGen
  · rintro ⟨root, hroot, hbelow⟩
    induction hbelow with
    | refl => exact ⟨[], .root hroot⟩
    | tail _ hc ih =>
      obtain ⟨around, h⟩ := ih
      exact ⟨_, h.child hc⟩

/-- All elements of a document are framed, and so is what is inside them. -/
theorem Has.nested {text : String} {e : Element} (h : Has (read text) e) : e.Nested := by
  obtain ⟨root, hroot, hbelow⟩ := has_iff.1 h
  exact fun d hd => ((framed_read hroot).1 d (hbelow.trans hd)).1

/-! ### One step of the search -/

namespace Element

variable {c d e : Element} {es : List Element} {offset : Nat}

theorem containsContent_iff : e.containsContent offset = true ↔
    e.selfClosing = false ∧ e.span.startTagEnd ≤ offset ∧ offset ≤ e.span.contentEnd := by
  simp only [containsContent, Bool.and_eq_true, Bool.not_eq_true', decide_eq_true_eq, and_assoc]

/-- An offset is behind the opening bracket of an element and not behind its end. -/
def Spans (offset : Nat) (e : Element) : Prop := e.span.start < offset ∧ offset ≤ e.span.stop

theorem Framed.spans (h : e.Framed) (hcontains : e.containsContent offset = true) :
    e.Spans offset := by
  obtain ⟨-, hafter, hbefore⟩ := containsContent_iff.1 hcontains
  exact ⟨Nat.lt_of_lt_of_le h.startTag hafter, Nat.le_trans hbefore h.stop⟩

/-- An offset in the content of a child is in the content of its parent. -/
theorem Nested.contains_of_child (h : e.Nested) (hc : e.HasChild c)
    (hcontains : c.containsContent offset = true) : e.containsContent offset = true := by
  have hframed := (nested_iff.1 h).1
  have hstart := hframed.children.le_start (fun c hc => (h.framed_child c hc).start_lt_stop) c hc
  have hstop := hframed.children.stop_le c hc
  obtain ⟨hafter, hbefore⟩ := (h.framed_child c hc).spans hcontains
  refine containsContent_iff.2 ⟨?_, by omega, by omega⟩
  rw [Bool.eq_false_iff]
  intro hempty
  have hnone : c ∈ e.children := hc
  rw [(hframed.empty hempty).2.1] at hnone
  cases hnone

/-- No two children of an element have an offset in common. -/
theorem Nested.eq_of_spans (h : e.Nested) (hc : e.HasChild c) (hd : e.HasChild d)
    (hcspans : c.Spans offset) (hdspans : d.Spans offset) : c = d := by
  have hapart : ∀ c d : Element, c.span.stop ≤ d.span.start → ¬ (c.Spans offset ∧ d.Spans offset) := by
    rintro c d hle ⟨⟨-, hbefore⟩, hafter, -⟩
    omega
  have hone : e.children.Pairwise fun c d => c.Spans offset → d.Spans offset → c = d :=
    h.pairwise_children.imp fun hle hc hd => absurd ⟨hc, hd⟩ (hapart _ _ hle)
  have hflip : e.children.Pairwise (flip fun c d => c.Spans offset → d.Spans offset → c = d) :=
    h.pairwise_children.imp fun hle hd hc => absurd ⟨hc, hd⟩ (hapart _ _ hle)
  exact hone.forall_of_forall_of_flip (fun _ _ _ _ => rfl) hflip hc hd hcspans hdspans

theorem contains_of_find? (h : es.find? (·.containsContent offset) = some e) :
    e.containsContent offset = true := by
  simpa using List.find?_some h

/-- The first child whose content an offset is in is the only one. -/
theorem Nested.find?_children (h : e.Nested) (hc : e.HasChild c)
    (hcontains : c.containsContent offset = true) :
    e.children.find? (·.containsContent offset) = some c := by
  have hsome : (e.children.find? (·.containsContent offset)).isSome :=
    List.find?_isSome.2 ⟨c, hc, hcontains⟩
  obtain ⟨d, hfind⟩ := Option.isSome_iff_exists.1 hsome
  have hd : e.HasChild d := List.mem_of_find?_eq_some hfind
  have hdspans := (h.framed_child d hd).spans (contains_of_find? hfind)
  rw [hfind, h.eq_of_spans hd hc hdspans ((h.framed_child c hc).spans hcontains)]

/-- A path starts with the element that it is searched from. -/
theorem path_of_contains (h : e.containsContent offset = true) :
    e.path offset = e :: pathIn offset e.children := by
  rw [path_eq, if_pos h]

theorem path_of_not_contains (h : e.containsContent offset = false) : e.path offset = [] := by
  rw [path_eq, h]
  rfl

/-- Among several elements the search goes on from the first that qualifies. -/
theorem pathIn_eq (offset : Nat) (es : List Element) :
    pathIn offset es =
      ((es.find? (·.containsContent offset)).map (path offset)).getD [] := by
  induction es with
  | nil =>
    rw [pathIn]
    rfl
  | cons e es ih =>
    rw [pathIn, List.find?_cons]
    cases hcontains : e.containsContent offset with
    | false =>
      rw [path_of_not_contains hcontains]
      exact ih
    | true =>
      rw [path_of_contains hcontains, Option.map_some, Option.getD_some,
        path_of_contains hcontains]

end Element

/-! ### The whole search -/

open Element

variable {doc : Option Element} {d e : Element} {around outer : List Element} {offset : Nat}

/-- **The search comes by every element whose content an offset is in**, and by those around it
before. -/
theorem Lineage.pathAt_eq (h : Lineage doc (e :: around)) (hdoc : ∀ d, Has doc d → d.Nested)
    (hcontains : e.containsContent offset = true) :
    pathAt doc offset = around.reverse ++ e.path offset := by
  generalize hes : e :: around = es at h
  induction h generalizing e around with
  | root h =>
    cases hes
    rw [Option.mem_def.1 h]
    rfl
  | @child c e es h hc ih =>
    cases hes
    have hnested := hdoc e ⟨es, h⟩
    have hparent := hnested.contains_of_child hc hcontains
    rw [ih hparent rfl, path_of_contains hparent, pathIn_eq, hnested.find?_children hc hcontains,
      List.reverse_cons, List.append_assoc]
    rfl

/-- The search goes down from element to child. -/
theorem Lineage.append_path (h : Lineage doc (e :: around))
    (hcontains : e.containsContent offset = true) :
    Lineage doc ((e.path offset).reverse ++ around) ∧
      ∀ d ∈ e.path offset, d.containsContent offset = true := by
  generalize hpath : e.path offset = path
  induction path generalizing e around with
  | nil =>
    rw [path_of_contains hcontains] at hpath
    cases hpath
  | cons d path ih =>
    rw [path_of_contains hcontains, pathIn_eq] at hpath
    obtain ⟨rfl, hrest⟩ := List.cons.inj hpath
    cases hfind : e.children.find? (·.containsContent offset) with
    | none =>
      rw [hfind] at hrest
      obtain rfl : [] = path := hrest
      exact ⟨h, List.forall_mem_singleton.2 hcontains⟩
    | some c =>
      rw [hfind] at hrest
      have hc := contains_of_find? hfind
      obtain ⟨hlineage, hall⟩ := ih (h.child (List.mem_of_find?_eq_some hfind)) hc hrest
      refine ⟨?_, List.forall_mem_cons.2 ⟨hcontains, hall⟩⟩
      rw [List.reverse_cons, List.append_assoc]
      exact hlineage

/-- A path leads from the root down, by elements whose content the offset is in. -/
theorem lineage_pathAt (doc : Option Element) (offset : Nat) :
    (pathAt doc offset = [] ∨ Lineage doc (pathAt doc offset).reverse) ∧
      ∀ d ∈ pathAt doc offset, d.containsContent offset = true := by
  cases doc with
  | none => exact ⟨Or.inl rfl, nofun⟩
  | some root =>
    rw [pathAt]
    cases hcontains : root.containsContent offset with
    | false =>
      rw [path_of_not_contains hcontains]
      exact ⟨Or.inl rfl, nofun⟩
    | true =>
      obtain ⟨hlineage, hall⟩ := (Lineage.root rfl).append_path hcontains
      rw [List.append_nil] at hlineage
      exact ⟨Or.inr hlineage, hall⟩

theorem mem_pathAt_iff (hdoc : ∀ d, Has doc d → d.Nested) :
    e ∈ pathAt doc offset ↔ Has doc e ∧ e.containsContent offset = true := by
  obtain ⟨hlineage, hall⟩ := lineage_pathAt doc offset
  constructor
  · intro he
    refine ⟨?_, hall e he⟩
    rcases hlineage with hnil | hlineage
    · rw [hnil] at he
      cases he
    · exact hlineage.has e (List.mem_reverse.2 he)
  · rintro ⟨⟨around, h⟩, hcontains⟩
    rw [h.pathAt_eq hdoc hcontains, path_of_contains hcontains]
    exact List.mem_append_right _ List.mem_cons_self

/-- The last element of a path is the innermost one. -/
theorem innermost_of_elementAt? (hdoc : ∀ d, Has doc d → d.Nested)
    (h : elementAt? doc offset = some e) : Innermost doc offset e := by
  obtain ⟨path, hpath⟩ := List.getLast?_eq_some_iff.1 h
  obtain ⟨hlineage, hall⟩ := lineage_pathAt doc offset
  rw [hpath] at hlineage hall
  have he : Lineage doc (e :: path.reverse) := by
    rcases hlineage with hnil | hlineage
    · simp at hnil
    · rwa [List.reverse_append] at hlineage
  refine ⟨hall e (by simp), path.reverse, he, fun d outer hd hcontains hne => ?_⟩
  -- the search comes by `d` first, and goes on to `e` further down
  have hprefix := hd.pathAt_eq hdoc hcontains
  rw [hpath, path_of_contains hcontains] at hprefix
  have hlength := congrArg List.length hprefix
  simp only [List.length_append, List.length_reverse, List.length_cons, List.length_nil]
    at hlength ⊢
  by_contra hle
  have hlast : pathIn offset d.children = [] := List.length_eq_zero_iff.1 (by omega)
  rw [hlast] at hprefix
  obtain ⟨-, hsame⟩ := List.append_inj' hprefix rfl
  exact hne (List.cons.inj hsame).1.symm

/-- Only one element is the innermost one. -/
theorem Innermost.eq (hd : Innermost doc offset d) (he : Innermost doc offset e) : d = e := by
  by_contra hne
  obtain ⟨hdcontains, outer, hdlineage, hdinner⟩ := hd
  obtain ⟨hecontains, around, helineage, heinner⟩ := he
  have hlt := heinner d outer hdlineage hdcontains hne
  have hgt := hdinner e around helineage hecontains (Ne.symm hne)
  omega

/-- **The caret is found exactly.**  For every text and every offset, the path to the offset holds
those elements of the tree whose content the offset is in, no more and no fewer.  It starts at the
root and goes from element to child.  The element found at the offset is the innermost one, and none
is found only if the offset is in no element's content. -/
theorem pathAt_read (text : String) (offset : Nat) :
    (∀ e, e ∈ pathAt (read text) offset ↔
        Has (read text) e ∧ e.containsContent offset = true) ∧
      (pathAt (read text) offset = [] ∨ Lineage (read text) (pathAt (read text) offset).reverse) ∧
      (∀ e, elementAt? (read text) offset = some e ↔ Innermost (read text) offset e) ∧
      (elementAt? (read text) offset = none ↔
        ∀ e, Has (read text) e → e.containsContent offset = false) := by
  have hnested : ∀ d, Has (read text) d → d.Nested := fun d hd => hd.nested
  have hmem : ∀ e, e ∈ pathAt (read text) offset ↔
      Has (read text) e ∧ e.containsContent offset = true := fun e => mem_pathAt_iff hnested
  have hnone : elementAt? (read text) offset = none ↔
      ∀ e, Has (read text) e → e.containsContent offset = false := by
    rw [elementAt?, List.getLast?_eq_none_iff, List.eq_nil_iff_forall_not_mem]
    simp only [hmem, not_and, Bool.not_eq_true]
  refine ⟨hmem, (lineage_pathAt _ _).1, fun e => ⟨innermost_of_elementAt? hnested, fun he => ?_⟩,
    hnone⟩
  cases hfound : elementAt? (read text) offset with
  | none =>
    have hno := hnone.1 hfound e (he.2.imp fun _ h => h.1)
    rw [he.1] at hno
    cases hno
  | some d => rw [(innermost_of_elementAt? hnested hfound).eq he]

end Document
end SchemaAssist
