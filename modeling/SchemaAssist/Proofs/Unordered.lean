/-
# Unordered groups

In an unordered group of elements that occurs once, the check keeps the names of the particles
apart, so that each name counts for one particle.  What has been taken is then known from how often
each particle has been matched (`Node.spot`), and the order plays no part: a list of names is taken
exactly if all its names are matched and no particle too often, and may end there exactly if no
particle was matched too rarely (`Automaton.run_unordered_iff`).

The members without an upper bound are offered by every unordered group anyhow, also by one whose
particles are groups, so adding them to what may come next adds nothing
(`Automaton.nextTerms_eq_candidates`).
-/

import SchemaAssist.Proofs.Overlooked
import SchemaAssist.Proofs.Suggestions

namespace SchemaAssist

namespace ContentModel
namespace Node

/-! ### Counting matches -/

/-- The names that an element leaf matches. -/
def names : Node → List Name
  | element _ _ _ names => names
  | _ => []

/-- A tree is an element leaf. -/
def IsElement (n : Node) : Prop := ∃ o leaf d names, n = element o leaf d names

/-- The progress of a leaf that has taken those of some names that it matches. -/
def taken (w : List Name) (n : Node) : Progress := .leaf (w.countP n.names.contains)

/-- The progress of an unordered group that has taken some names. -/
def spot (cs : List Node) (w : List Name) : Progress :=
  if w = [] then .fresh else .all 1 (cs.map (taken w))

/-- A leaf that has taken those of some names that it matches can take one more. -/
def Takes (w : List Name) (name : Name) (n : Node) : Prop :=
  name ∈ n.names ∧ n.occurs.Within (w.countP n.names.contains + 1)

/-- All of some names are matched, and no leaf too often. -/
def Bears (cs : List Node) (w : List Name) : Prop :=
  (∀ name ∈ w, ∃ c ∈ cs, name ∈ c.names) ∧ ∀ c ∈ cs, c.occurs.Within (w.countP c.names.contains)

/-- Leaves match different names. -/
def NamedApart (cs : List Node) : Prop := cs.Pairwise fun c d => ∀ name ∈ c.names, name ∉ d.names

section Counting

variable {cs : List Node} {c : Node} {w z : List Name} {name : Name}

theorem countP_concat_of_mem (h : name ∈ c.names) :
    (w ++ [name]).countP c.names.contains = w.countP c.names.contains + 1 := by
  simp [List.countP_append, h]

theorem countP_concat_of_notMem (h : name ∉ c.names) :
    (w ++ [name]).countP c.names.contains = w.countP c.names.contains := by
  simp [List.countP_append, h]

theorem taken_concat_of_notMem (h : name ∉ c.names) : c.taken (w ++ [name]) = c.taken w := by
  rw [taken, taken, countP_concat_of_notMem h]

theorem Bears.of_append (h : Bears cs (w ++ z)) : Bears cs w := by
  refine ⟨fun name hname => h.1 name (List.mem_append_left z hname), fun c hc => ?_⟩
  refine (h.2 c hc).mono ?_
  rw [List.countP_append]
  exact Nat.le_add_right _ _

/-- One more name is borne exactly if some leaf takes it. -/
theorem bears_concat_iff (hcs : NamedApart cs) :
    Bears cs (w ++ [name]) ↔ Bears cs w ∧ ∃ c ∈ cs, Takes w name c := by
  constructor
  · intro h
    obtain ⟨c, hc, hname⟩ := h.1 name (List.mem_append_right w (List.mem_singleton_self name))
    exact ⟨h.of_append, c, hc, hname, countP_concat_of_mem hname ▸ h.2 c hc⟩
  · rintro ⟨hw, c, hc, hname, hwithin⟩
    refine ⟨fun x hx => ?_, fun d hd => ?_⟩
    · rcases List.mem_append.1 hx with hx | hx
      · exact hw.1 x hx
      · exact ⟨c, hc, List.mem_singleton.1 hx ▸ hname⟩
    · by_cases hmem : name ∈ d.names
      · -- no other leaf matches the name
        have hdc : d = c := by
          by_contra hne
          have hsymm : Std.Symm fun c d : Node => ∀ name ∈ c.names, name ∉ d.names :=
            ⟨fun _ _ h x hx hx' => h x hx' hx⟩
          exact hcs.forall hd hc hne name hmem hname
        rw [countP_concat_of_mem hmem]
        exact hdc ▸ hwithin
      · rw [countP_concat_of_notMem hmem]
        exact hw.2 d hd

end Counting

/-! ### Steps -/

section Steps

variable {cs : List Node} {c : Node} {w : List Name} {name : Name}

theorem step_taken_of_takes (hc : c.IsElement) (h : Takes w name c) :
    ∃ t, c.step name (c.taken w) = some (c.taken (w ++ [name]), t) := by
  obtain ⟨o, leaf, d, names, rfl⟩ := hc
  have hfull : o.full (w.countP names.contains) = false := Occurs.full_eq_false_iff.2 h.2
  have hmem : name ∈ names := h.1
  have hcount : (w ++ [name]).countP names.contains = w.countP names.contains + 1 :=
    countP_concat_of_mem (c := element o leaf d names) h.1
  refine ⟨.element d, ?_⟩
  simp [step, canStart, taken, Node.names, occurs, complete, Progress.count, hfull, hmem, hcount]

theorem step_taken_eq_none (hc : c.IsElement) (h : ¬ Takes w name c) :
    c.step name (c.taken w) = none := by
  obtain ⟨o, leaf, d, names, rfl⟩ := hc
  rw [step_leaf name rfl, if_neg]
  intro hstart
  rw [Bool.and_eq_true, canStart, Bool.and_eq_true, Bool.not_eq_true'] at hstart
  exact h ⟨List.contains_iff_mem.1 hstart.2, Occurs.full_eq_false_iff.1 hstart.1.1⟩

theorem allStep_taken_eq_none (hcs : ∀ c ∈ cs, c.IsElement) (h : ∀ c ∈ cs, ¬ Takes w name c) :
    allStep name cs (cs.map (taken w)) = none := by
  induction cs with
  | nil => rfl
  | cons c cs ih =>
    rw [List.forall_mem_cons] at hcs h
    rw [List.map_cons, allStep, step_taken_eq_none hcs.1 h.1, ih hcs.2 h.2]
    rfl

/-- A name that some leaf takes counts for that leaf alone. -/
theorem allStep_taken_of_takes (hcs : ∀ c ∈ cs, c.IsElement) (hapart : NamedApart cs) (hc : c ∈ cs)
    (h : Takes w name c) :
    ∃ t, allStep name cs (cs.map (taken w)) = some (cs.map (taken (w ++ [name])), t) := by
  induction cs with
  | nil => cases hc
  | cons d cs ih =>
    rw [List.forall_mem_cons] at hcs
    rw [NamedApart, List.pairwise_cons] at hapart
    rw [List.map_cons, List.map_cons, allStep]
    rcases List.mem_cons.1 hc with rfl | hc
    · obtain ⟨t, hstep⟩ := step_taken_of_takes hcs.1 h
      have hothers : ∀ e ∈ cs, name ∉ e.names := fun e he => hapart.1 e he name h.1
      have hlater : allStep name cs (cs.map (taken w)) = none :=
        allStep_taken_eq_none hcs.2 fun e he htakes => hothers e he htakes.1
      have hsame : cs.map (taken (w ++ [name])) = cs.map (taken w) :=
        List.map_congr_left fun e he => taken_concat_of_notMem (hothers e he)
      rw [hstep, hlater, hsame]
      exact ⟨t, rfl⟩
    · have hnot : name ∉ d.names := fun hmem => hapart.1 c hc name hmem h.1
      obtain ⟨t, hlater⟩ := ih hcs.2 hapart.2 hc
      rw [step_taken_eq_none hcs.1 fun htakes => hnot htakes.1, hlater,
        taken_concat_of_notMem hnot]
      exact ⟨t, rfl⟩

/-- An unordered group that occurs once starts with its first name and then goes on inside. -/
theorem step_spot : (group .once .all cs).step name (spot cs w) =
    (allStep name cs (cs.map (taken w))).map fun (sts, t) => (.all 1 sts, t) := by
  rw [step_group, spot]
  by_cases hw : w = []
  · have hfresh : cs.map (taken w) = cs.map fun _ => .fresh := by
      rw [hw]
      rfl
    rw [if_pos hw, hfresh]
    rfl
  · rw [if_neg hw, stepInside]
    exact Option.or_none

/-- An unordered group may end where each of its leaves has been matched often enough. -/
theorem canEnd_spot_iff (hcs : ∀ c ∈ cs, c.IsElement) :
    (group .once .all cs).canEnd (spot cs w) = true ↔
      ∀ c ∈ cs, c.occurs.min ≤ w.countP c.names.contains := by
  have hleaf : ∀ c ∈ cs, (c.canEnd (c.taken w) = true ↔
      c.occurs.min ≤ w.countP c.names.contains) := by
    intro c hc
    obtain ⟨o, leaf, d, names, rfl⟩ := hcs c hc
    by_cases hcount : w.countP names.contains = 0
    · simp [canEnd, mayEnd, taken, Node.names, occurs, Progress.count, nullable, termNullable,
        Occurs.emptiable, hcount]
    · rw [canEnd, mayEnd, taken, Progress.count, Node.names, if_neg hcount, complete,
        termNullable, Bool.true_and, Bool.or_false]
      · exact decide_eq_true_iff
      all_goals
        intros
        contradiction
  have hall : allCanEnd cs (cs.map (taken w)) = true ↔ ∀ c ∈ cs, c.canEnd (c.taken w) = true := by
    clear hleaf hcs
    induction cs with
    | nil => simp [allCanEnd]
    | cons c cs ih =>
      rw [List.map_cons, allCanEnd, Bool.and_eq_true, ih, List.forall_mem_cons]
      rfl
  rw [← forall₂_congr hleaf]
  by_cases hw : w = []
  · subst hw
    have hnullable : ∀ c ∈ cs, (c.nullable = true ↔ c.canEnd (c.taken []) = true) :=
      fun c _ => Iff.rfl
    rw [← forall₂_congr hnullable, ← List.all_eq_true, ← allNullable_eq]
    rfl
  · rw [← hall, spot, if_neg hw, canEnd, mayEnd]
    simp [complete, Progress.count, occurs, Occurs.once]

end Steps

/-- The check keeps the names of the elements of an unordered group apart. -/
theorem namedApart_of_startConflict? {version : Version} {cs : List Node}
    (hcs : ∀ c ∈ cs, c.IsElement) (hnumbered : ((symbolsOf cs).map Symbol.leaf).Nodup)
    (hcheck : startConflict? version .all cs = none) : NamedApart cs := by
  rw [startConflict?_eq_none_iff] at hcheck
  induction cs with
  | nil => exact List.Pairwise.nil
  | cons c cs ih =>
    rw [List.forall_mem_cons] at hcs
    rw [List.pairwise_cons] at hcheck
    obtain ⟨o, leaf, d, names, rfl⟩ := hcs.1
    rw [symbolsOf, symbols, List.singleton_append, List.map_cons, List.nodup_cons] at hnumbered
    refine List.pairwise_cons.2 ⟨fun e he name hname hname' => ?_, ih hcs.2 hnumbered.2 hcheck.2⟩
    obtain ⟨o', leaf', d', names', rfl⟩ := hcs.2 e he
    have hleaf : leaf ≠ leaf' := by
      rintro rfl
      refine hnumbered.1 (List.mem_map.2 ⟨⟨leaf, .names names'⟩, ?_, rfl⟩)
      rw [symbolsOf_eq, List.mem_flatMap]
      exact ⟨_, he, List.mem_singleton_self _⟩
    have hnone := hcheck.1 _ he ⟨leaf, .names names⟩ (List.mem_singleton_self _)
      ⟨leaf', .names names'⟩ (List.mem_singleton_self _)
    have hany : names.any names'.contains = true :=
      List.any_eq_true.2 ⟨name, hname, List.contains_iff_mem.2 hname'⟩
    rw [Symbol.competes, bne_iff_ne.2 hleaf, Bool.true_and, Matcher.competes, hany] at hnone
    cases hnone

end Node
end ContentModel

namespace ModelGroup

/-- An element is a particle of a group and may occur. -/
def HasElement (g : ModelGroup) (d : ElementId) (o : Occurs) : Prop :=
  .element d o ∈ g.particles ∧ o.never = false

/-- Each of some names is one of an element of a group, and no element is named too often. -/
def Bears (accepts : ElementId → List Name) (g : ModelGroup) (w : List Name) : Prop :=
  (∀ name ∈ w, ∃ d o, g.HasElement d o ∧ name ∈ accepts d) ∧
    ∀ d o, g.HasElement d o → o.Within (w.countP (accepts d).contains)

/-- No element of a group is named too rarely. -/
def Fulfilled (accepts : ElementId → List Name) (g : ModelGroup) (w : List Name) : Prop :=
  ∀ d o, g.HasElement d o → o.min ≤ w.countP (accepts d).contains

section Order

variable {accepts : ElementId → List Name} {g : ModelGroup} {w w' : List Name} (h : w.Perm w')

include h

theorem bears_perm : g.Bears accepts w ↔ g.Bears accepts w' := by
  simp only [Bears, h.mem_iff, h.countP_eq]

theorem fulfilled_perm : g.Fulfilled accepts w ↔ g.Fulfilled accepts w' := by
  simp only [Fulfilled, h.countP_eq]

end Order

end ModelGroup

namespace ContentModel

section Build

variable {accepts : ElementId → List Name} {limits : Limits}

/-- Compiling elements gives a leaf for each that may occur. -/
theorem buildNodes_of_elements {ps : List Particle} {depth k k' : Nat} {cs : List Node}
    (hps : ∀ p ∈ ps, ∃ d o, p = .element d o)
    (h : buildNodes accepts limits depth ps k = .ok (cs, k')) :
    (∀ c ∈ cs, ∃ d o leaf, c = .element o leaf d (accepts d) ∧ .element d o ∈ ps ∧
      o.never = false) ∧
      ∀ d o, .element d o ∈ ps → o.never = false → ∃ leaf, .element o leaf d (accepts d) ∈ cs := by
  induction ps generalizing cs k with
  | nil =>
    cases h
    exact ⟨nofun, nofun⟩
  | cons p ps ih =>
    rw [List.forall_mem_cons] at hps
    obtain ⟨⟨d, o, rfl⟩, hps⟩ := hps
    rw [buildNodes] at h
    split at h
    next hnever =>
      obtain ⟨hleaves, hcover⟩ := ih hps h
      refine ⟨fun c hc => ?_, fun d' o' hp hmax => ?_⟩
      · obtain ⟨d', o', leaf, rfl, hp, hmax⟩ := hleaves c hc
        exact ⟨d', o', leaf, rfl, List.mem_cons_of_mem _ hp, hmax⟩
      · rcases List.mem_cons.1 hp with hp | hp
        · cases hp
          exact absurd hnever (by simp [Particle.occurs, hmax])
        · exact hcover d' o' hp hmax
    next hnever =>
      cases hcs : buildNodes accepts limits depth ps (k + 1) with
      | error e => simp [bind, Except.bind, buildNode, hcs] at h
      | ok built =>
        simp only [bind, Except.bind, buildNode, hcs, pure, Except.pure] at h
        cases h
        obtain ⟨hleaves, hcover⟩ := ih hps hcs
        refine ⟨List.forall_mem_cons.2 ⟨?_, fun c hc => ?_⟩, fun d' o' hp hmax => ?_⟩
        · exact ⟨d, o, k + 1, rfl, List.mem_cons_self, Bool.eq_false_iff.2 hnever⟩
        · obtain ⟨d', o', leaf, rfl, hp, hmax⟩ := hleaves c hc
          exact ⟨d', o', leaf, rfl, List.mem_cons_of_mem _ hp, hmax⟩
        · rcases List.mem_cons.1 hp with hp | hp
          · cases hp
            exact ⟨k + 1, List.mem_cons_self⟩
          · exact (hcover d' o' hp hmax).imp fun leaf hleaf => List.mem_cons_of_mem _ hleaf

end Build

namespace Automaton

variable {m : Automaton} {g : ModelGroup} {accepts : ElementId → List Name} {version : Version}
  {limits : Limits}

/-- What comes of a list of elements: nothing if they do not fit, else whether they may be all. -/
def verdict (m : Automaton) (w : List Name) : Option Bool :=
  match m.replayable.run w with
  | .ok st => some (m.accepting st)
  | .error _ => none

/-- The same comes of two lists that fit alike and may end alike. -/
theorem verdict_eq_of_iff {w w' : List Name}
    (hfits : (∃ st, m.replayable.run w = .ok st) ↔ ∃ st, m.replayable.run w' = .ok st)
    (hends : ∀ st st', m.replayable.run w = .ok st → m.replayable.run w' = .ok st' →
      (m.accepting st = true ↔ m.accepting st' = true)) : m.verdict w' = m.verdict w := by
  rw [verdict, verdict]
  cases hw : m.replayable.run w with
  | ok st =>
    obtain ⟨st', hw'⟩ := hfits.1 ⟨st, hw⟩
    rw [hw']
    exact congrArg some (Bool.eq_iff_iff.2 (hends st st' hw hw').symm)
  | error r =>
    cases hw' : m.replayable.run w' with
    | ok st' =>
      obtain ⟨st, hst⟩ := hfits.2 ⟨st', hw'⟩
      rw [hw] at hst
      cases hst
    | error r' => rfl

section Runs

variable {cs : List Node} (hroot : m.root = .group .once .all cs)
  (hcs : ∀ c ∈ cs, c.IsElement) (hapart : Node.NamedApart cs)

include hroot hcs hapart

/-- From where some names have led, a run takes further ones exactly if all are borne. -/
theorem runFrom_spot_iff {w z : List Name} {st : Progress} {position : Nat}
    (hw : Node.Bears cs w) :
    m.replayable.runFrom (Node.spot cs w) position z = .ok st ↔
      Node.Bears cs (w ++ z) ∧ st = Node.spot cs (w ++ z) := by
  induction z generalizing w position with
  | nil =>
    rw [List.append_nil, and_iff_right hw]
    exact ⟨fun h => (Except.ok.inj h).symm, fun h => h ▸ rfl⟩
  | cons name z ih =>
    have hstep : m.replayable.step (Node.spot cs w) name =
        (Node.allStep name cs (cs.map (Node.taken w))).map fun (sts, t) => (.all 1 sts, t) := by
      have hroot' : m.replayable.step (Node.spot cs w) name =
          m.root.step name (Node.spot cs w) := rfl
      rw [hroot', hroot, Node.step_spot]
    rw [Replayable.runFrom, hstep, List.append_cons]
    by_cases htakes : ∃ c ∈ cs, Node.Takes w name c
    · obtain ⟨c, hc, htake⟩ := htakes
      obtain ⟨t, hall⟩ := Node.allStep_taken_of_takes hcs hapart hc htake
      have hspot : Progress.all 1 (cs.map (Node.taken (w ++ [name]))) =
          Node.spot cs (w ++ [name]) := (if_neg (by simp)).symm
      rw [hall, Option.map_some]
      simp only [hspot]
      exact ih ((Node.bears_concat_iff hapart).2 ⟨hw, c, hc, htake⟩)
    · have hall : Node.allStep name cs (cs.map (Node.taken w)) = none :=
        Node.allStep_taken_eq_none hcs fun c hc htake => htakes ⟨c, hc, htake⟩
      rw [hall, Option.map_none]
      constructor
      · intro h
        cases h
      · exact fun h => absurd ((Node.bears_concat_iff hapart).1 h.1.of_append).2 htakes

end Runs

/-- An unordered group of elements compiles to a group of leaves that match different names. -/
theorem exists_leaves_of_compile (hm : compile g accepts version limits = .ok m)
    (hall : g.compositor = .all) (helements : ∀ p ∈ g.particles, ∃ d o, p = .element d o) :
    ∃ cs, m.root = .group g.occurs .all cs ∧ Node.NamedApart cs ∧
      (∀ c ∈ cs, ∃ d o leaf, c = .element o leaf d (accepts d) ∧ g.HasElement d o) ∧
      ∀ d o, g.HasElement d o → ∃ leaf, .element o leaf d (accepts d) ∈ cs := by
  obtain ⟨⟨k, hfaithful⟩, hcheck⟩ := of_compile_eq_ok hm
  obtain ⟨cs, hroot, k', hbuild⟩ : ∃ cs, m.root = .group g.occurs .all cs ∧
      ∃ k', buildNodes accepts limits 1 g.particles 0 = .ok (cs, k') := by
    rw [compile, ModelGroup.toParticle, buildNode] at hm
    split at hm
    · cases hm
    · cases hcs : buildNodes accepts limits 1 g.particles 0 with
      | error e => simp [bind, Except.bind, hcs] at hm
      | ok built =>
        simp only [bind, Except.bind, hcs, pure, Except.pure] at hm
        split at hm
        · cases hm
        · cases hm
          exact ⟨_, hall ▸ rfl, _, rfl⟩
  obtain ⟨hleaves, hcover⟩ := buildNodes_of_elements helements hbuild
  have hnumbered := hfaithful.numbered
  rw [hroot, Node.ambiguity?_group_eq_none_iff] at hcheck
  rw [hroot, Node.Numbered, Node.symbols] at hnumbered
  refine ⟨cs, hroot, Node.namedApart_of_startConflict? (fun c hc => ?_) hnumbered hcheck.1,
    hleaves, fun d o h => hcover d o h.1 h.2⟩
  obtain ⟨d, o, leaf, rfl, -⟩ := hleaves c hc
  exact ⟨o, leaf, d, accepts d, rfl⟩

/-- **Order is irrelevant in an unordered group of elements that occurs once.**  A list of names is
taken exactly if each is one of an element and no element is named too often; it may end there
exactly if no element is named too rarely; and so the same comes of it in every order. -/
theorem run_unordered_iff (hm : compile g accepts version limits = .ok m)
    (hall : g.compositor = .all) (honce : g.occurs = .once)
    (helements : ∀ p ∈ g.particles, ∃ d o, p = .element d o) (w : List Name) :
    ((∃ st, m.replayable.run w = .ok st) ↔ g.Bears accepts w) ∧
      (∀ st, m.replayable.run w = .ok st → (m.accepting st = true ↔ g.Fulfilled accepts w)) ∧
      ∀ w', w.Perm w' → m.verdict w' = m.verdict w := by
  obtain ⟨cs, hroot, hapart, hleaves, hcover⟩ := exists_leaves_of_compile hm hall helements
  rw [honce] at hroot
  have hcs : ∀ c ∈ cs, c.IsElement := fun c hc => by
    obtain ⟨d, o, leaf, rfl, -⟩ := hleaves c hc
    exact ⟨o, leaf, d, accepts d, rfl⟩
  have hrun : ∀ w st, m.replayable.run w = .ok st ↔
      Node.Bears cs w ∧ st = Node.spot cs w := fun w st =>
    runFrom_spot_iff hroot hcs hapart (w := []) ⟨nofun, fun _ _ _ _ => Nat.zero_le _⟩
  -- what holds of all leaves holds of all elements
  have hforall : ∀ P : Occurs → List Name → Prop,
      (∀ c ∈ cs, P c.occurs c.names) ↔ ∀ d o, g.HasElement d o → P o (accepts d) := by
    intro P
    constructor
    · intro h d o hd
      obtain ⟨leaf, hc⟩ := hcover d o hd
      exact h _ hc
    · intro h c hc
      obtain ⟨d, o, leaf, rfl, hd⟩ := hleaves c hc
      exact h d o hd
  have hbears : ∀ w, Node.Bears cs w ↔ g.Bears accepts w := by
    refine fun w => and_congr (forall₂_congr fun name _ => ?_)
      (hforall fun o names => o.Within (w.countP names.contains))
    have hnone := hforall fun _ names => name ∉ names
    rw [← not_iff_not]
    push Not
    exact hnone
  have hfits : ∀ w, (∃ st, m.replayable.run w = .ok st) ↔ g.Bears accepts w := fun w => by
    rw [← hbears]
    exact ⟨fun ⟨st, hst⟩ => ((hrun w st).1 hst).1, fun h => ⟨_, (hrun w _).2 ⟨h, rfl⟩⟩⟩
  have hends : ∀ w st, m.replayable.run w = .ok st →
      (m.accepting st = true ↔ g.Fulfilled accepts w) := by
    intro w st hst
    rw [((hrun w st).1 hst).2, accepting, hroot, Node.canEnd_spot_iff hcs]
    exact hforall fun o names => o.min ≤ w.countP names.contains
  refine ⟨hfits w, hends w, fun w' hperm => verdict_eq_of_iff ?_ fun st st' hst hst' => ?_⟩
  · rw [hfits w, hfits w', ModelGroup.bears_perm hperm]
  · rw [hends w st hst, hends w' st' hst', ModelGroup.fulfilled_perm hperm]

/-- Up to two elements `a` and one `b`, in any order. -/
def pair : ModelGroup := ⟨.all, [.element ⟨0⟩ ⟨0, some 2⟩, .element ⟨1⟩ .once], .once⟩

/-- The content model of `pair`. -/
def pairModel : Automaton :=
  ⟨.group .once .all [.element ⟨0, some 2⟩ 1 ⟨0⟩ (twoNames ⟨0⟩),
    .element .once 2 ⟨1⟩ (twoNames ⟨1⟩)], .unordered11⟩

/-- The `b` may stand between the elements `a` as well as behind them. -/
theorem run_unordered_iff_pair :
    compile pair twoNames .v11 {} = .ok pairModel ∧ pair.compositor = .all ∧
      pair.occurs = .once ∧ (∀ p ∈ pair.particles, ∃ d o, p = .element d o) ∧
      (["a", "a", "b"].map Name.unqualified).Perm (["a", "b", "a"].map .unqualified) ∧
      pairModel.verdict (["a", "a", "b"].map .unqualified) = some true ∧
      pairModel.verdict (["a", "b", "a"].map .unqualified) = some true := by
  have hm : compile pair twoNames .v11 {} = .ok pairModel := rfl
  have helements : ∀ p ∈ pair.particles, ∃ d o, p = .element d o := by simp [pair]
  have hperm : (["a", "a", "b"].map Name.unqualified).Perm (["a", "b", "a"].map .unqualified) := by
    decide
  have hverdict : pairModel.verdict (["a", "a", "b"].map .unqualified) = some true := rfl
  have hsame := (run_unordered_iff hm rfl rfl helements _).2.2 _ hperm
  exact ⟨hm, rfl, rfl, helements, hperm, hverdict, hsame.trans hverdict⟩

/-! ### Members without an upper bound -/

/-- **The members without an upper bound add nothing to what may come next**: whatever has been
taken, they are among the candidates, so these are what is offered, in their order. -/
theorem nextTerms_eq_candidates (hm : compile g accepts version limits = .ok m)
    (hnever : m.root.occurs.never = false) {w : List Name} {st : Progress}
    (hrun : m.replayable.run w = .ok st) :
    (∀ t ∈ m.unboundedMembers, t ∈ m.candidates st) ∧
      m.replayable.nextTerms w = .ok (m.candidates st) := by
  have hmembers : ∀ t ∈ m.unboundedMembers, t ∈ m.candidates st := fun t ht =>
    mem_candidates_of_mem_unboundedMembers hm hnever hrun ht
  refine ⟨hmembers, ?_⟩
  have hdistinct : distinct (m.candidates st) = m.candidates st :=
    distinct_eq_self (nodup_distinct _)
  have hcandidates : m.replayable.candidates st = m.candidates st := rfl
  have hoffered : m.replayable.offered st = m.candidates st := by
    rw [Replayable.offered, hcandidates, hdistinct]
    cases m.replayable.variant with
    | standard => rfl
    | unordered11 => exact addAllNew_eq_self hmembers
  rw [Replayable.nextTerms, hrun]
  exact congrArg _ hoffered

/-- Any number of elements `a` and a `b` in a sequence, in any order, all of it again and again. -/
def repeatedPair : ModelGroup :=
  ⟨.all, [.element ⟨0⟩ .anyNumber, .group .sequence [.element ⟨1⟩ .once] .once], ⟨1, none⟩⟩

/-- The content model of `repeatedPair`. -/
def repeatedPairModel : Automaton :=
  ⟨.group ⟨1, none⟩ .all [.element .anyNumber 1 ⟨0⟩ (twoNames ⟨0⟩),
    .group .once .sequence [.element .once 2 ⟨1⟩ (twoNames ⟨1⟩)]], .unordered11⟩

/-- Where the second round has only come to its `b`, an `a` may come next. -/
theorem nextTerms_eq_candidates_repeatedPair :
    compile repeatedPair twoNames .v11 {} = .ok repeatedPairModel ∧
      repeatedPairModel.variant = .unordered11 ∧
      repeatedPairModel.root.occurs.never = false ∧
      repeatedPairModel.replayable.run (["a", "b", "b"].map .unqualified) =
        .ok (.all 2 [.fresh, .sequence 1 0 (.leaf 1)]) ∧
      .element ⟨0⟩ ∈ repeatedPairModel.unboundedMembers ∧
      .element ⟨0⟩ ∈ repeatedPairModel.candidates (.all 2 [.fresh, .sequence 1 0 (.leaf 1)]) ∧
      repeatedPairModel.replayable.nextTerms (["a", "b", "b"].map .unqualified) =
        .ok [.element ⟨0⟩, .element ⟨1⟩] := by
  have hm : compile repeatedPair twoNames .v11 {} = .ok repeatedPairModel := rfl
  have hrun : repeatedPairModel.replayable.run (["a", "b", "b"].map .unqualified) =
      .ok (.all 2 [.fresh, .sequence 1 0 (.leaf 1)]) := rfl
  obtain ⟨hmembers, hnext⟩ := nextTerms_eq_candidates hm rfl hrun
  have hmember : Term.element ⟨0⟩ ∈ repeatedPairModel.unboundedMembers := List.mem_cons_self
  exact ⟨hm, rfl, rfl, hrun, hmember, hmembers _ hmember, hnext⟩

end Automaton
end ContentModel
end SchemaAssist
