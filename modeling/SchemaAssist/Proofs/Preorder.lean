/-
# Two walks, one order

The elements that belong to a substitution group at any distance are found twice, each time with a
stack, and the two walks look at different times whether an element has been met.  What they meet is
the same and comes in the same order: that of a depth-first walk, which enters an element before
those that follow it (`DepthFirst`).  For the second walk the stack may hold an element that has
been met, whose members then come to the stack once more.  They bring nothing new: by the time that
the element is reached they have all been met (`Substitutions.Idle`).
-/

import SchemaAssist.Schema.Substitution
import Mathlib.Logic.Relation

namespace SchemaAssist

/-! ### Depth-first walks -/

/-- A walk that starts from elements in turn, when some have been met: what has been met is skipped,
and from any other element the walk goes on to those that follow it before the next one starts.  The
last list is what the walk meets, in this order. -/
inductive DepthFirst {α : Type} (next : α → List α) : List α → List α → List α → Prop
  | nil (met : List α) : DepthFirst next met [] []
  | skip {met xs out : List α} {x : α} :
    x ∈ met → DepthFirst next met xs out → DepthFirst next met (x :: xs) out
  | enter {met xs below rest : List α} {x : α} : x ∉ met →
    DepthFirst next (met ++ [x]) (next x) below → DepthFirst next (met ++ x :: below) xs rest →
      DepthFirst next met (x :: xs) (x :: below ++ rest)

namespace DepthFirst

variable {α : Type} {next : α → List α} {met met' xs ys out out' : List α} {x y : α}

theorem append (h : DepthFirst next met xs out) (h' : DepthFirst next (met ++ out) ys out') :
    DepthFirst next met (xs ++ ys) (out ++ out') := by
  induction h with
  | nil met => rwa [List.append_nil] at h'
  | skip hx _ ih => exact .skip hx (ih h')
  | @enter met xs below rest x hx hbelow _ _ ih =>
    have hlater : met ++ (x :: below ++ rest) = met ++ x :: below ++ rest := by simp
    rw [hlater] at h'
    rw [List.append_assoc]
    exact .enter hx hbelow (ih h')

/-- A walk from two lists is a walk from the first and then one from the second. -/
theorem exists_append (h : DepthFirst next met (xs ++ ys) out) :
    ∃ out₁ out₂, out = out₁ ++ out₂ ∧ DepthFirst next met xs out₁ ∧
      DepthFirst next (met ++ out₁) ys out₂ := by
  induction xs generalizing met out with
  | nil => exact ⟨[], out, rfl, .nil met, by rwa [List.append_nil]⟩
  | cons x xs ih =>
    cases h with
    | skip hx h =>
      obtain ⟨out₁, out₂, rfl, h₁, h₂⟩ := ih h
      exact ⟨out₁, out₂, rfl, .skip hx h₁, h₂⟩
    | @enter _ _ below rest _ hx hbelow hrest =>
      obtain ⟨out₁, out₂, rfl, h₁, h₂⟩ := ih hrest
      refine ⟨x :: below ++ out₁, out₂, by simp, .enter hx hbelow h₁, ?_⟩
      simpa using h₂

theorem unique (h : DepthFirst next met xs out) (h' : DepthFirst next met xs out') : out = out' := by
  induction h generalizing out' with
  | nil met =>
    cases h'
    rfl
  | skip hx _ ih =>
    cases h' with
    | skip _ h' => exact ih h'
    | enter hx' _ _ => exact absurd hx hx'
  | enter hx _ _ ihbelow ihrest =>
    cases h' with
    | skip hx' _ => exact absurd hx' hx
    | enter _ hbelow hrest =>
      obtain rfl := ihbelow hbelow
      rw [ihrest hrest]

/-- Where a walk starts has been met in the end. -/
theorem mem_of_mem (h : DepthFirst next met xs out) (hx : x ∈ xs) : x ∈ met ++ out := by
  induction h with
  | nil met => cases hx
  | skip hmet _ ih =>
    rcases List.mem_cons.1 hx with rfl | hx
    · exact List.mem_append_left _ hmet
    · exact ih hx
  | enter _ _ _ _ ih =>
    rcases List.mem_cons.1 hx with rfl | hx
    · simp
    · simpa [or_assoc] using ih hx

/-- What follows an element that a walk meets has been met in the end. -/
theorem mem_of_next (h : DepthFirst next met xs out) (hx : x ∈ out) (hy : y ∈ next x) :
    y ∈ met ++ out := by
  induction h with
  | nil met => cases hx
  | skip _ _ ih => exact ih hx
  | @enter met xs below rest z _ hbelow _ ihbelow ihrest =>
    rcases List.mem_append.1 hx with hx | hx
    · have hmem : y ∈ met ++ [z] ++ below := by
        rcases List.mem_cons.1 hx with rfl | hx
        · exact hbelow.mem_of_mem hy
        · exact ihbelow hx
      have hmet : met ++ (z :: below ++ rest) = met ++ [z] ++ below ++ rest := by simp
      rw [hmet]
      exact List.mem_append_left _ hmem
    · simpa [or_assoc] using ihrest hx

/-- A walk meets an element once, and none that has been met. -/
theorem nodup (h : DepthFirst next met xs out) : out.Nodup ∧ ∀ x ∈ out, x ∉ met := by
  induction h with
  | nil met => exact ⟨List.nodup_nil, nofun⟩
  | skip _ _ ih => exact ih
  | @enter met xs below rest x hx _ _ ihbelow ihrest =>
    obtain ⟨hbelow, hfresh⟩ := ihbelow
    obtain ⟨hrest, hfresh'⟩ := ihrest
    simp only [List.mem_append, List.mem_cons, List.not_mem_nil, or_false, not_or] at hfresh hfresh'
    refine ⟨?_, fun y hy => ?_⟩
    · rw [List.nodup_append, List.nodup_cons]
      refine ⟨⟨fun hx' => (hfresh x hx').2 rfl, hbelow⟩, hrest, fun y hy z hz => ?_⟩
      rintro rfl
      rcases List.mem_cons.1 hy with rfl | hy
      · exact (hfresh' y hz).2.1 rfl
      · exact (hfresh' y hz).2.2 hy
    · rcases List.mem_append.1 hy with hy | hy
      · rcases List.mem_cons.1 hy with rfl | hy
        · exact hx
        · exact (hfresh y hy).1
      · exact (hfresh' y hy).1

/-- A walk meets only what can be reached from where it starts. -/
theorem exists_reaches (h : DepthFirst next met xs out) (hy : y ∈ out) :
    ∃ x ∈ xs, Relation.ReflTransGen (fun a b => b ∈ next a) x y := by
  induction h with
  | nil met => cases hy
  | skip _ _ ih =>
    obtain ⟨x, hx, hreach⟩ := ih hy
    exact ⟨x, List.mem_cons_of_mem _ hx, hreach⟩
  | @enter met xs below rest x _ _ _ ihbelow ihrest =>
    rcases List.mem_append.1 hy with hy | hy
    · rcases List.mem_cons.1 hy with rfl | hy
      · exact ⟨y, List.mem_cons_self, .refl⟩
      · obtain ⟨z, hz, hreach⟩ := ihbelow hy
        exact ⟨x, List.mem_cons_self, .head hz hreach⟩
    · obtain ⟨z, hz, hreach⟩ := ihrest hy
      exact ⟨z, List.mem_cons_of_mem _ hz, hreach⟩

/-- A walk from one element meets exactly what can be reached from it. -/
theorem mem_iff (h : DepthFirst next [] [x] out) :
    y ∈ out ↔ Relation.ReflTransGen (fun a b => b ∈ next a) x y := by
  constructor
  · intro hy
    obtain ⟨z, hz, hreach⟩ := h.exists_reaches hy
    obtain rfl := List.mem_singleton.1 hz
    exact hreach
  · intro hreach
    induction hreach with
    | refl => exact h.mem_of_mem List.mem_cons_self
    | tail _ hnext ih => exact h.mem_of_next ih hnext

/-- It makes no difference to a walk whether what has been met is left out where it starts. -/
theorem filter_append_iff {p : α → Bool} (hp : ∀ x ∈ xs, p x = false → x ∈ met) :
    DepthFirst next met (xs.filter p ++ ys) out ↔ DepthFirst next met (xs ++ ys) out := by
  induction xs generalizing met out with
  | nil => rfl
  | cons x xs ih =>
    rw [List.forall_mem_cons] at hp
    by_cases hx : x ∈ met
    · have hskip (zs : List α) :
          DepthFirst next met (x :: zs) out ↔ DepthFirst next met zs out := by
        refine ⟨fun h => ?_, .skip hx⟩
        cases h with
        | skip _ h => exact h
        | enter hx' _ _ => exact absurd hx hx'
      rw [List.cons_append, hskip, ← ih hp.2]
      cases hpx : p x with
      | false => rw [List.filter_cons_of_neg (by simp [hpx])]
      | true => rw [List.filter_cons_of_pos hpx, List.cons_append, hskip]
    · have hpx : p x = true := Bool.of_not_eq_false fun hpx => hx (hp.1 hpx)
      rw [List.filter_cons_of_pos hpx, List.cons_append, List.cons_append]
      have hlater (below : List α) : ∀ y ∈ xs, p y = false → y ∈ met ++ x :: below :=
        fun y hy hpy => List.mem_append_left _ (hp.2 y hy hpy)
      constructor
      · intro h
        cases h with
        | skip hx' _ => exact absurd hx' hx
        | enter _ hbelow hrest => exact .enter hx hbelow ((ih (hlater _)).1 hrest)
      · intro h
        cases h with
        | skip hx' _ => exact absurd hx' hx
        | enter _ hbelow hrest => exact .enter hx hbelow ((ih (hlater _)).2 hrest)

theorem append_iff_of_subset (hxs : ∀ x ∈ xs, x ∈ met) :
    DepthFirst next met (xs ++ ys) out ↔ DepthFirst next met ys out := by
  have hnone : xs.filter (fun _ => false) = [] := List.filter_eq_nil_iff.2 nofun
  rw [← filter_append_iff (p := fun _ => false) fun x hx _ => hxs x hx, hnone, List.nil_append]

/-- A walk has nothing to do where it has started before. -/
theorem of_again (h : DepthFirst next met (xs ++ (xs ++ ys)) out) :
    DepthFirst next met (xs ++ ys) out := by
  obtain ⟨out₁, out₂, rfl, h₁, h₂⟩ := h.exists_append
  exact h₁.append ((append_iff_of_subset fun x hx => h₁.mem_of_mem hx).1 h₂)

end DepthFirst

/-! ### The walks through substitution groups -/

namespace Substitutions

variable {s : Substitutions} {head : ElementId}

/-- **The first walk is depth-first.** -/
theorem exists_gather (s : Substitutions) (met pending : List ElementId) :
    ∃ out, s.gather met pending = met ++ out ∧ DepthFirst s.members met pending out := by
  fun_induction gather s met pending with
  | case1 met => exact ⟨[], (List.append_nil met).symm, .nil met⟩
  | case2 met d rest hd ih =>
    obtain ⟨out, heq, h⟩ := ih
    exact ⟨out, heq, .skip hd h⟩
  | case3 met d rest hd ih =>
    obtain ⟨out, heq, h⟩ := ih
    obtain ⟨below, later, rfl, hbelow, hlater⟩ := h.exists_append
    refine ⟨d :: below ++ later, by rw [heq]; simp, .enter hd hbelow ?_⟩
    simpa using hlater

/-- What stands on a stack although it has been met brings nothing new: once a walk has met what is
above it and what follows from that, its members make no difference. -/
def Idle (s : Substitutions) (met pending : List ElementId) : Prop :=
  ∀ above d below, pending = above ++ d :: below → d ∈ met →
    ∀ met', (∀ x ∈ met, x ∈ met') → (∀ x ∈ above, x ∈ met') →
      (∀ x ∈ met', x ∉ met → ∀ y ∈ s.members x, y ∈ met') →
        ∀ out, DepthFirst s.members met' (s.members d ++ below) out →
          DepthFirst s.members met' below out

theorem newMembers_eq (s : Substitutions) (head : ElementId) (met : List ElementId)
    (d : ElementId) :
    s.newMembers head met d = (s.members d).filter fun e => decide (e ∉ head :: met) := rfl

theorem mem_meet {seen : List ElementId} {d x : ElementId} :
    x ∈ head :: meet head seen d ↔ x ∈ head :: seen ∨ x = d := by
  by_cases hd : d ∈ head :: seen
  · rw [meet_of_mem hd]
    exact ⟨Or.inl, fun hx => hx.elim id fun hx => hx ▸ hd⟩
  · rw [meet_of_notMem hd]
    simp [or_assoc]

/-- Taking an element off the stack leaves nothing that brings something new. -/
theorem Idle.step {seen rest : List ElementId} {d : ElementId}
    (h : s.Idle (head :: seen) (d :: rest)) :
    s.Idle (head :: meet head seen d) (s.newMembers head seen d ++ rest) := by
  have hnew : ∀ e ∈ s.newMembers head seen d, e ∉ head :: seen := fun e he =>
    of_decide_eq_true (List.mem_filter.1 he).2
  have hmeet (x : ElementId) : x ∈ head :: meet head seen d ↔ x ∈ head :: seen ∨ x = d := mem_meet
  intro above e below heq he met hmet habove hclosed out hout
  -- The members of `d` that have not been met are on the stack now.
  have hmembers (hd : d ∈ met) (hstack : ∀ x ∈ s.newMembers head seen d, x ∈ met) :
      ∀ x ∈ s.members d, x ∈ met := by
    intro x hx
    by_cases hxmet : x ∈ head :: seen
    · exact hmet x ((hmeet x).2 (Or.inl hxmet))
    · exact hstack x (List.mem_filter.2 ⟨hx, decide_eq_true hxmet⟩)
  have hdmet : d ∈ met := hmet d ((hmeet d).2 (Or.inr rfl))
  have hrest (above' : List ElementId) (habove' : above = s.newMembers head seen d ++ above')
      (hrest : rest = above' ++ e :: below) : DepthFirst s.members met below out := by
    subst habove' hrest
    have hstack := hmembers hdmet fun x hx => habove x (List.mem_append_left _ hx)
    by_cases hold : e ∈ head :: seen
    · refine h (d :: above') e below rfl hold met (fun x hx => hmet x ((hmeet x).2 (Or.inl hx)))
        (List.forall_mem_cons.2 ⟨hdmet, fun x hx => habove x (List.mem_append_right _ hx)⟩)
        (fun x hx hxold => ?_) out hout
      by_cases hxd : x = d
      · exact hxd ▸ hstack
      · exact hclosed x hx fun hxmet => ((hmeet x).1 hxmet).elim hxold hxd
    · obtain rfl := ((hmeet e).1 he).resolve_left hold
      exact (DepthFirst.append_iff_of_subset hstack).1 hout
  rcases List.append_eq_append_iff.1 heq with ⟨above', habove', hbelow⟩ | ⟨below', hnew', hbelow⟩
  · exact hrest above' habove' hbelow
  · cases below' with
    | nil => exact hrest [] (by rw [hnew']; simp) hbelow.symm
    | cons e' below' =>
      obtain ⟨rfl, rfl⟩ := List.cons.inj hbelow
      have hfresh : e ∉ head :: seen := hnew e (hnew' ▸ by simp)
      obtain rfl := ((hmeet e).1 he).resolve_left hfresh
      -- The stack holds the members of `e` from `e` itself on.
      have hfilter : (s.members e).filter (fun x => decide (x ∉ head :: seen)) =
          (above ++ [e]) ++ below' := by
        rw [← newMembers_eq, hnew', List.append_assoc, List.singleton_append]
      rw [← DepthFirst.filter_append_iff (p := fun x => decide (x ∉ head :: seen)) fun x _ hx =>
        hmet x ((hmeet x).2 (Or.inl (Decidable.not_not.1 (of_decide_eq_false hx)))), hfilter,
        List.append_assoc] at hout
      refine DepthFirst.of_again ((DepthFirst.append_iff_of_subset fun x hx => ?_).1 hout)
      rcases List.mem_append.1 hx with hx | hx
      · exact habove x hx
      · exact List.mem_singleton.1 hx ▸ hdmet

/-- **The second walk is depth-first as well.** -/
theorem exists_expand (seen pending : List ElementId) (h : s.Idle (head :: seen) pending) :
    ∃ out, s.expand head seen pending = seen ++ out ∧
      DepthFirst s.members (head :: seen) pending out := by
  fun_induction expand s head seen pending with
  | case1 seen => exact ⟨[], (List.append_nil seen).symm, .nil _⟩
  | case2 seen d rest ih =>
    obtain ⟨out, heq, hout⟩ := ih h.step
    have hskipped {met : List ElementId} (hmet : ∀ x ∈ head :: seen, x ∈ met)
        {out : List ElementId} :
        DepthFirst s.members met (s.newMembers head seen d ++ rest) out ↔
          DepthFirst s.members met (s.members d ++ rest) out :=
      DepthFirst.filter_append_iff fun x _ hx => hmet x (Decidable.not_not.1 (of_decide_eq_false hx))
    by_cases hd : d ∈ head :: seen
    · rw [meet_of_mem hd] at heq hout ⊢
      refine ⟨out, heq, .skip hd ?_⟩
      exact h [] d rest rfl hd _ (fun _ hx => hx) nofun (fun x hx hx' => absurd hx hx') out
        ((hskipped fun _ hx => hx).1 hout)
    · rw [meet_of_notMem hd] at heq hout ⊢
      obtain ⟨below, later, rfl, hbelow, hlater⟩ :=
        ((hskipped fun x hx => List.mem_append_left [d] hx).1 hout).exists_append
      refine ⟨d :: below ++ later, by rw [heq]; simp, .enter hd hbelow ?_⟩
      simpa using hlater

/-- **Both walks from an element meet the same, in the order of a depth-first walk**, but for the
element itself. -/
theorem closure_eq (s : Substitutions) (d : ElementId) :
    s.closure d = d :: s.expansion d ∧
      DepthFirst s.members [d] (s.members d) (s.expansion d) := by
  have hidle : s.Idle [d] (s.newMembers d [] d) := by
    intro above e below heq he
    have hfresh : e ∉ [d] := of_decide_eq_true
      (List.mem_filter.1 (show e ∈ s.newMembers d [] d from heq ▸ by simp)).2
    exact absurd he hfresh
  obtain ⟨out, hexpand, hout⟩ := exists_expand [] _ hidle
  have hexpansion : s.expansion d = out := by
    rw [expansion, expand, meet, if_pos rfl, List.append_nil]
    exact hexpand
  have hwalk : DepthFirst s.members [d] (s.members d) out := by
    have hfilter : DepthFirst s.members [d] (s.members d ++ []) out :=
      (DepthFirst.filter_append_iff fun x _ hx =>
        Decidable.not_not.1 (of_decide_eq_false hx)).1 (by rwa [List.append_nil])
    rwa [List.append_nil] at hfilter
  obtain ⟨out', hgather, hout'⟩ := s.exists_gather [] [d]
  have hwhole : DepthFirst s.members [] [d] (d :: out) := by
    have hrest : DepthFirst s.members [] [d] (d :: out ++ []) :=
      .enter List.not_mem_nil hwalk (.nil _)
    rwa [List.append_nil] at hrest
  rw [hexpansion, closure, hgather, List.nil_append]
  exact ⟨hout'.unique hwhole, hwalk⟩

end Substitutions
end SchemaAssist
