/-
# Substitution groups

An element may stand in for others, its heads.  Each head has a list of members in the order of
their declarations; the members of members belong to a head as well, but at a distance.

Two walks follow the members, each with a stack of elements that are to be taken off from the top.
The names that a content model accepts are those of the elements that the first one meets
(`closure`); it looks whether an element has been met when it takes it off.  The elements that may
stand in for a head are found by the second one (`expansion`), which looks before it puts an element
on the stack, and meets it when it takes it off again.
-/

import SchemaAssist.Distinct
import SchemaAssist.Schema.Components

namespace SchemaAssist

/-- The direct members of each element that is a head, by the place of the head. -/
abbrev Substitutions := Array (List ElementId)

namespace Substitutions

/-- The direct members of a head. -/
def members (s : Substitutions) (head : ElementId) : List ElementId := s[head.index]?.getD []

/-- The table with one more member of a head. -/
def add (s : Substitutions) (head member : ElementId) : Substitutions :=
  s.modify head.index (addNew · member)

theorem members_eq_nil {s : Substitutions} {d : ElementId} (h : s.size ≤ d.index) :
    s.members d = [] := by
  rw [members, Array.getElem?_eq_none h, Option.getD_none]

/-- The number of places in the table whose elements have not been met. -/
def unmet (s : Substitutions) (met : List ElementId) : Nat :=
  (List.range s.size).countP fun i => ⟨i⟩ ∉ met

theorem countP_lt_of_mem {α : Type} {p q : α → Bool} {xs : List α} {x : α}
    (hle : ∀ y, q y = true → p y = true) (hx : x ∈ xs) (hp : p x = true) (hq : q x = false) :
    xs.countP q < xs.countP p := by
  obtain ⟨before, after, rfl⟩ := List.append_of_mem hx
  have hbefore : before.countP q ≤ before.countP p := List.countP_mono_left fun y _ => hle y
  have hafter : after.countP q ≤ after.countP p := List.countP_mono_left fun y _ => hle y
  rw [List.countP_append, List.countP_append, List.countP_cons, List.countP_cons, hp, hq]
  simp only [Bool.false_eq_true, if_false, if_true]
  omega

/-- There are fewer places left once an element of the table is met. -/
theorem unmet_lt {s : Substitutions} {met met' : List ElementId} {d : ElementId}
    (hmet : ∀ e ∈ met, e ∈ met') (hd : d ∉ met) (hd' : d ∈ met') (hsize : d.index < s.size) :
    s.unmet met' < s.unmet met :=
  countP_lt_of_mem (fun _ hi => decide_eq_true fun h => of_decide_eq_true hi (hmet _ h))
    (List.mem_range.2 hsize) (decide_eq_true hd) (decide_eq_false (not_not_intro hd'))

theorem unmet_le {s : Substitutions} {met met' : List ElementId} (hmet : ∀ e ∈ met, e ∈ met') :
    s.unmet met' ≤ s.unmet met :=
  List.countP_mono_left fun _ _ hi => decide_eq_true fun h => of_decide_eq_true hi (hmet _ h)

/-- The elements met once all elements on a stack are taken off, with those met before.  The members
of an element that has not been met come to the top of the stack; any other element is passed. -/
def gather (s : Substitutions) (met : List ElementId) : List ElementId → List ElementId
  | [] => met
  | d :: rest =>
    if d ∈ met then s.gather met rest else s.gather (met ++ [d]) (s.members d ++ rest)
termination_by pending => (s.unmet met, pending.length)
decreasing_by
  · exact Prod.Lex.right _ (Nat.lt_succ_self _)
  · next hd =>
    by_cases hsize : d.index < s.size
    · exact Prod.Lex.left _ _ (unmet_lt (fun e he => List.mem_append_left _ he) hd
        (List.mem_append_right _ (List.mem_singleton_self d)) hsize)
    · rw [members_eq_nil (Nat.le_of_not_lt hsize)]
      rcases Nat.lt_or_eq_of_le (unmet_le (s := s) fun e (he : e ∈ met) =>
        List.mem_append_left [d] he) with hlt | heq
      · exact Prod.Lex.left _ _ hlt
      · rw [heq]
        exact Prod.Lex.right _ (Nat.lt_succ_self _)

/-- An element and all its members at any distance. -/
def closure (s : Substitutions) (d : ElementId) : List ElementId := s.gather [] [d]

/-- The members of an element that are neither the head whose members are looked for nor met. -/
def newMembers (s : Substitutions) (head : ElementId) (met : List ElementId) (d : ElementId) :
    List ElementId :=
  (s.members d).filter fun e => e ∉ head :: met

/-- The steps that an element on a stack is good for: itself, and, if it has been met, the members
that it would bring to the stack once more. -/
def weight (s : Substitutions) (head : ElementId) (met : List ElementId) (d : ElementId) : Nat :=
  if d ∈ head :: met then 1 + (s.newMembers head met d).length else 1

/-- The steps that a stack is good for before another element is met. -/
def stackWeight (s : Substitutions) (head : ElementId) (met : List ElementId) :
    List ElementId → Nat
  | [] => 0
  | d :: rest => s.weight head met d + s.stackWeight head met rest

theorem stackWeight_append (s : Substitutions) (head : ElementId) (met ds rest : List ElementId) :
    s.stackWeight head met (ds ++ rest) =
      s.stackWeight head met ds + s.stackWeight head met rest := by
  induction ds with
  | nil => rw [List.nil_append, stackWeight, Nat.zero_add]
  | cons d ds ih => rw [List.cons_append, stackWeight, stackWeight, ih, Nat.add_assoc]

/-- Elements that have not been met are good for one step each. -/
theorem stackWeight_of_unmet (s : Substitutions) {head : ElementId} {met ds : List ElementId}
    (h : ∀ d ∈ ds, d ∉ head :: met) : s.stackWeight head met ds = ds.length := by
  induction ds with
  | nil => rfl
  | cons d ds ih =>
    rw [List.forall_mem_cons] at h
    rw [stackWeight, weight, if_neg h.1, ih h.2, List.length_cons, Nat.add_comm]

theorem stackWeight_newMembers (s : Substitutions) (head : ElementId) (met : List ElementId)
    (d : ElementId) :
    s.stackWeight head met (s.newMembers head met d) = (s.newMembers head met d).length :=
  s.stackWeight_of_unmet fun _ he => of_decide_eq_true (List.mem_filter.1 he).2

/-- The members of a head met so far and one more element, unless that is the head. -/
def meet (head : ElementId) (met : List ElementId) (d : ElementId) : List ElementId :=
  if d = head then met else addNew met d

theorem meet_of_mem {head d : ElementId} {met : List ElementId} (h : d ∈ head :: met) :
    meet head met d = met := by
  rw [meet]
  split
  · rfl
  · next hne => exact if_pos ((List.mem_cons.1 h).resolve_left hne)

theorem meet_of_notMem {head d : ElementId} {met : List ElementId} (h : d ∉ head :: met) :
    meet head met d = met ++ [d] := by
  rw [List.mem_cons, not_or] at h
  rw [meet, if_neg h.1, addNew, if_neg h.2]

/-- Where an element without members is met, the others are good for no more steps. -/
theorem weight_le {s : Substitutions} {d : ElementId} (hd : s.members d = []) (head : ElementId)
    (met : List ElementId) (e : ElementId) :
    s.weight head (met ++ [d]) e ≤ s.weight head met e := by
  have hmore {x : ElementId} (hx : x ∈ head :: met) : x ∈ head :: (met ++ [d]) := by
    rw [← List.cons_append]
    exact List.mem_append_left [d] hx
  have hnew : (s.newMembers head (met ++ [d]) e).length ≤ (s.newMembers head met e).length := by
    rw [newMembers, newMembers, ← List.countP_eq_length_filter, ← List.countP_eq_length_filter]
    exact List.countP_mono_left fun x _ hx =>
      decide_eq_true fun h => of_decide_eq_true hx (hmore h)
  by_cases hmet : e ∈ head :: met
  · rw [weight, weight, if_pos hmet, if_pos (hmore hmet)]
    omega
  · rw [weight, weight, if_neg hmet]
    split
    · next h =>
      have hlast : e ∈ (head :: met) ++ [d] := h
      obtain rfl : e = d := List.mem_singleton.1 ((List.mem_append.1 hlast).resolve_left hmet)
      simp [newMembers, hd]
    · exact Nat.le_refl 1

theorem stackWeight_le {s : Substitutions} {d : ElementId} (hd : s.members d = [])
    (head : ElementId) (met pending : List ElementId) :
    s.stackWeight head (met ++ [d]) pending ≤ s.stackWeight head met pending := by
  induction pending with
  | nil => exact Nat.le_refl 0
  | cons e rest ih =>
    have he := weight_le hd head met e
    rw [stackWeight, stackWeight]
    omega

/-- Taking an element off the stack is a step towards the end: another element is met, or the stack
is good for one step less. -/
theorem expand_decreases (s : Substitutions) (head : ElementId) (met : List ElementId)
    (d : ElementId) (rest : List ElementId) :
    Prod.Lex (· < ·) (· < ·)
      (s.unmet (head :: meet head met d),
        s.stackWeight head (meet head met d) (s.newMembers head met d ++ rest))
      (s.unmet (head :: met), s.stackWeight head met (d :: rest)) := by
  by_cases hd : d ∈ head :: met
  · rw [meet_of_mem hd]
    refine Prod.Lex.right _ ?_
    have hnew := s.stackWeight_newMembers head met d
    rw [stackWeight_append, stackWeight, hnew, weight, if_pos hd]
    omega
  · have hmore : ∀ e ∈ head :: met, e ∈ head :: (met ++ [d]) := by
      rw [← List.cons_append]
      exact fun e he => List.mem_append_left [d] he
    rw [meet_of_notMem hd]
    by_cases hsize : d.index < s.size
    · exact Prod.Lex.left _ _ (unmet_lt hmore hd (by simp) hsize)
    · have hmembers := members_eq_nil (Nat.le_of_not_lt hsize)
      rcases Nat.lt_or_eq_of_le (unmet_le (s := s) hmore) with hlt | heq
      · exact Prod.Lex.left _ _ hlt
      · rw [heq]
        refine Prod.Lex.right _ ?_
        have hnew : s.newMembers head met d = [] := by rw [newMembers, hmembers, List.filter_nil]
        have hrest := stackWeight_le hmembers head met rest
        rw [hnew, List.nil_append]
        rw [stackWeight, weight, if_neg hd]
        omega

/-- The elements met once all elements on a stack are taken off, with those met before: the members
of the element taken off come to the top of the stack, save the head and those that have been met,
and it is met itself unless it is the head. -/
def expand (s : Substitutions) (head : ElementId) (met : List ElementId) :
    List ElementId → List ElementId
  | [] => met
  | d :: rest => s.expand head (meet head met d) (s.newMembers head met d ++ rest)
termination_by pending => (s.unmet (head :: met), s.stackWeight head met pending)
decreasing_by exact s.expand_decreases head met d rest

/-- All members of an element at any distance, without the element itself. -/
def expansion (s : Substitutions) (head : ElementId) : List ElementId := s.expand head [] [head]

end Substitutions

namespace Components

/-- The heads and members of all substitution groups, in the order of the members' declarations. -/
def memberships (c : Components) : List (ElementId × ElementId) :=
  c.elements.toList.zipIdx.flatMap fun (e, i) =>
    (e.heads.filterMap c.globalElements.find?).map fun head => (head, ⟨i⟩)

/-- The heads that are not declared. -/
def headFaults (c : Components) : List Fault :=
  c.elements.toList.flatMap fun e =>
    (e.heads.filter (!c.globalElements.has ·)).map fun head => .unknownHead head e.name

/-- The substitution groups of all elements. -/
def substitutions (c : Components) : Substitutions :=
  c.memberships.foldl (fun s (head, member) => s.add head member)
    (Array.replicate c.elements.size [])

end Components
end SchemaAssist
