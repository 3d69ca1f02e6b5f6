/-
# Particles that may never occur

A particle whose upper bound is zero stands in a model group but in no content: a group compiles as
it does without such particles and all inside them (`Automaton.compile_pruned`), and what is left
tells by its bounds alone whether the content may be empty (`Automaton.accepting_start`).

The group as it is written may tell otherwise.  A particle that may never occur has zero for its
lower bound too, so it counts as one that may be left out.  In a sequence that makes no difference,
but a choice is taken for one that may be of no elements although all its particles that may occur
need some.  The written bounds are wrong where this is not made good further up
(`Particle.Borrows`), and nowhere else.
-/

import SchemaAssist.Proofs.Resolution

namespace SchemaAssist

open ContentModel (Automaton Node buildNode buildNodes)

namespace Occurs

/-- Bounds in order that allow no occurrence ask for none. -/
theorem Valid.emptiable_of_never {o : Occurs} (ho : o.Valid) (h : o.never = true) :
    o.emptiable = true := by
  have hmax : o.max = some 0 := beq_iff_eq.1 h
  exact beq_iff_eq.2 (Nat.le_zero.1 (ho 0 hmax))

end Occurs

namespace Particle

mutual

/-- A particle without those inside it that may never occur. -/
def pruned : Particle → Particle
  | group c ps o => group c (prunedOf ps) o
  | p => p

/-- Several particles without those that may never occur, there and inside them. -/
def prunedOf : List Particle → List Particle
  | [] => []
  | p :: ps => if p.occurs.never then prunedOf ps else p.pruned :: prunedOf ps

end

variable {c : Compositor} {ps : List Particle} {o : Occurs}

theorem occurs_pruned (p : Particle) : p.pruned.occurs = p.occurs := by
  cases p <;> rfl

theorem prunedOf_eq (ps : List Particle) :
    prunedOf ps = (ps.filter fun p => !p.occurs.never).map pruned := by
  induction ps with
  | nil => rfl
  | cons p ps ih =>
    rw [prunedOf, ih, List.filter_cons]
    cases p.occurs.never <;> rfl

theorem mem_prunedOf {q : Particle} :
    q ∈ prunedOf ps ↔ ∃ p ∈ ps, p.occurs.never = false ∧ p.pruned = q := by
  simp only [prunedOf_eq, List.mem_map, List.mem_filter, Bool.not_eq_true', and_assoc]

theorem prunedOf_eq_nil_iff : prunedOf ps = [] ↔ ∀ p ∈ ps, p.occurs.never = true := by
  simp only [prunedOf_eq, List.map_eq_nil_iff, List.filter_eq_nil_iff, Bool.not_eq_true',
    Bool.not_eq_false]

theorem anyEmptiable_eq (ps : List Particle) : anyEmptiable ps = ps.any emptiable := by
  induction ps with
  | nil => rw [anyEmptiable, List.any_nil]
  | cons p ps ih => rw [anyEmptiable, ih, List.any_cons]

theorem allEmptiable_eq (ps : List Particle) : allEmptiable ps = ps.all emptiable := by
  induction ps with
  | nil => rw [allEmptiable, List.all_nil]
  | cons p ps ih => rw [allEmptiable, ih, List.all_cons]

theorem emptiable_of_occurs {p : Particle} (h : p.occurs.emptiable = true) :
    p.emptiable = true := by
  cases p with
  | group c ps o =>
    rw [emptiable, Bool.or_eq_true]
    exact Or.inl h
  | _ => simpa only [emptiable] using h

/-- A choice may be of no elements if it has no particles or one that may. -/
theorem emptiable_choice_iff : (group .choice ps o).emptiable = true ↔
    o.emptiable = true ∨ ps = [] ∨ ∃ p ∈ ps, p.emptiable = true := by
  rw [emptiable, contentEmptiable, anyEmptiable_eq, Bool.or_eq_true, Bool.or_eq_true,
    List.isEmpty_iff, List.any_eq_true]

/-- Any other group may be of no elements if all its particles may. -/
theorem emptiable_group_iff (hc : c ≠ .choice) : (group c ps o).emptiable = true ↔
    o.emptiable = true ∨ ∀ p ∈ ps, p.emptiable = true := by
  rw [emptiable, Bool.or_eq_true, contentEmptiable, allEmptiable_eq, List.all_eq_true]
  exact hc

/-- A particle counts as one that may be of no elements only because one inside it does that may
never occur. -/
inductive Borrows : Particle → Prop
  /-- Of the particles of a choice that may occur none may be of no elements by itself. -/
  | choice {ps : List Particle} {o : Occurs} {p q : Particle} (ho : o.emptiable = false)
    (hp : p ∈ ps) (hoccurs : p.occurs.never = false) (hq : q ∈ ps) (hempty : q.emptiable = true)
    (hborrow : ∀ r ∈ ps, r.occurs.never = false → r.emptiable = true → Borrows r) :
    Borrows (group .choice ps o)
  /-- All particles may be of no elements, but one that may occur not by itself. -/
  | every {c : Compositor} {ps : List Particle} {o : Occurs} {p : Particle}
    (ho : o.emptiable = false) (hc : c ≠ .choice) (hempty : ∀ q ∈ ps, q.emptiable = true)
    (hp : p ∈ ps) (hoccurs : p.occurs.never = false) (hborrow : Borrows p) :
    Borrows (group c ps o)

/-- What may be of no elements without the particles that may never occur may be so with them. -/
theorem emptiable_of_pruned {p : Particle} (hvalid : ∀ q ∈ p.subtrees, q.occurs.Valid)
    (h : p.pruned.emptiable = true) : p.emptiable = true := by
  induction p using induct with
  | group c ps o ih =>
    have hinside : ∀ p ∈ ps, p.occurs.never = false → p.pruned.emptiable = true →
        p.emptiable = true := fun p hp _ => ih p hp (forall_subtrees_of_mem hvalid hp)
    have hidle : ∀ p ∈ ps, p.occurs.never = true → p.emptiable = true := fun p hp hnever =>
      emptiable_of_occurs
        ((forall_subtrees_of_mem hvalid hp p p.self_mem_subtrees).emptiable_of_never hnever)
    rw [pruned] at h
    by_cases hc : c = .choice
    · subst hc
      rw [emptiable_choice_iff] at h ⊢
      rcases h with ho | hnone | ⟨q, hq, hempty⟩
      · exact Or.inl ho
      · cases ps with
        | nil => exact Or.inr (Or.inl rfl)
        | cons p ps =>
          have hnever := (prunedOf_eq_nil_iff.1 hnone) p List.mem_cons_self
          exact Or.inr (Or.inr ⟨p, List.mem_cons_self, hidle p List.mem_cons_self hnever⟩)
      · obtain ⟨p, hp, hoccurs, rfl⟩ := mem_prunedOf.1 hq
        exact Or.inr (Or.inr ⟨p, hp, hinside p hp hoccurs hempty⟩)
    · rw [emptiable_group_iff hc] at h ⊢
      refine h.imp_right fun h p hp => ?_
      cases hnever : p.occurs.never with
      | true => exact hidle p hp hnever
      | false => exact hinside p hp hnever (h _ (mem_prunedOf.2 ⟨p, hp, hnever, rfl⟩))
  | _ => exact h

/-- **What a particle borrows.**  A particle counts as one that may be of no elements, but does not
without those that may never occur, exactly if it borrows that from them. -/
theorem borrows_iff {p : Particle} (hvalid : ∀ q ∈ p.subtrees, q.occurs.Valid) :
    p.Borrows ↔ p.emptiable = true ∧ p.pruned.emptiable = false := by
  induction p using induct with
  | group c ps o ih =>
    have ih : ∀ p ∈ ps, p.Borrows ↔ p.emptiable = true ∧ p.pruned.emptiable = false :=
      fun p hp => ih p hp (forall_subtrees_of_mem hvalid hp)
    have hinside : ∀ p ∈ ps, p.pruned.emptiable = true → p.emptiable = true :=
      fun p hp => emptiable_of_pruned (forall_subtrees_of_mem hvalid hp)
    rw [pruned, ← Bool.not_eq_true]
    constructor
    · intro h
      cases h with
      | @choice _ _ p q ho hp hoccurs hq hempty hborrow =>
        rw [emptiable_choice_iff, emptiable_choice_iff]
        refine ⟨Or.inr (Or.inr ⟨q, hq, hempty⟩), ?_⟩
        rintro (ho' | hnone | ⟨r', hr', hempty'⟩)
        · cases ho.symm.trans ho'
        · cases hoccurs.symm.trans (prunedOf_eq_nil_iff.1 hnone p hp)
        · obtain ⟨r, hr, hoccurs', rfl⟩ := mem_prunedOf.1 hr'
          have hfalse := ((ih r hr).1 (hborrow r hr hoccurs' (hinside r hr hempty'))).2
          cases hempty'.symm.trans hfalse
      | @every _ _ _ p ho hc hempty hp hoccurs hborrow =>
        rw [emptiable_group_iff hc, emptiable_group_iff hc]
        refine ⟨Or.inr hempty, ?_⟩
        rintro (ho' | hall)
        · cases ho.symm.trans ho'
        · have htrue := hall _ (mem_prunedOf.2 ⟨p, hp, hoccurs, rfl⟩)
          cases htrue.symm.trans ((ih p hp).1 hborrow).2
    · rintro ⟨hwritten, hpruned⟩
      by_cases hc : c = .choice
      · subst hc
        rw [emptiable_choice_iff] at hwritten hpruned
        obtain ⟨ho, hsome, hneeds⟩ : o.emptiable = false ∧ prunedOf ps ≠ [] ∧
            ∀ q ∈ prunedOf ps, q.emptiable = false := by
          simpa only [not_or, not_exists, not_and, Bool.not_eq_true] using hpruned
        obtain ⟨p', hp'⟩ := List.exists_mem_of_ne_nil _ hsome
        obtain ⟨p, hp, hoccurs, -⟩ := mem_prunedOf.1 hp'
        rcases hwritten with ho' | rfl | ⟨q, hq, hempty⟩
        · cases ho.symm.trans ho'
        · cases hp
        · exact .choice ho hp hoccurs hq hempty fun r hr hoccurs' hempty' =>
            (ih r hr).2 ⟨hempty', hneeds _ (mem_prunedOf.2 ⟨r, hr, hoccurs', rfl⟩)⟩
      · rw [emptiable_group_iff hc] at hwritten hpruned
        obtain ⟨ho, hneeds⟩ := not_or.1 hpruned
        have hempty := hwritten.resolve_left ho
        push Not at hneeds
        obtain ⟨p', hp', hneeds⟩ := hneeds
        obtain ⟨p, hp, hoccurs, rfl⟩ := mem_prunedOf.1 hp'
        exact .every (Bool.eq_false_iff.2 ho) hc hempty hp hoccurs
          ((ih p hp).2 ⟨hempty p hp, Bool.eq_false_iff.2 hneeds⟩)
  | _ => exact iff_of_false nofun fun h => Bool.false_ne_true (h.2.symm.trans h.1)

/-- No particle borrows if of each choice in it all particles may occur or none. -/
theorem not_borrows {p : Particle} (h : ∀ ps o, group .choice ps o ∈ p.subtrees →
    (∀ q ∈ ps, q.occurs.never = false) ∨ ∀ q ∈ ps, q.occurs.never = true) : ¬ p.Borrows := by
  intro hborrow
  induction hborrow with
  | @choice ps o p q ho hp hoccurs hq hempty _ ih =>
    rcases h ps o (self_mem_subtrees _) with hall | hnone
    · exact ih q hq (hall q hq) hempty fun ps' o' hmem =>
        h ps' o' (mem_subtrees_group.2 (Or.inr ⟨q, hq, hmem⟩))
    · cases hoccurs.symm.trans (hnone p hp)
  | @every c ps o p ho hc hempty hp hoccurs _ ih =>
    exact ih fun ps' o' hmem => h ps' o' (mem_subtrees_group.2 (Or.inr ⟨p, hp, hmem⟩))

end Particle

namespace ModelGroup

/-- A model group without the particles in it that may never occur. -/
def pruned (g : ModelGroup) : ModelGroup := ⟨g.compositor, Particle.prunedOf g.particles, g.occurs⟩

theorem toParticle_pruned (g : ModelGroup) : g.pruned.toParticle = g.toParticle.pruned := by
  rw [toParticle, toParticle, Particle.pruned, pruned]

end ModelGroup

namespace ContentModel

variable {accepts : ElementId → List Name} {limits : Limits} {version : Version}

/-! ### Building trees step by step -/

theorem buildNodes_of_never {p : Particle} (hp : p.occurs.never = true) (ps : List Particle)
    (depth k : Nat) :
    buildNodes accepts limits depth (p :: ps) k = buildNodes accepts limits depth ps k := by
  rw [buildNodes, if_pos hp]

theorem buildNodes_of_occurs {p : Particle} (hp : p.occurs.never = false) (ps : List Particle)
    (depth k : Nat) :
    buildNodes accepts limits depth (p :: ps) k =
      (buildNode accepts limits depth p k).bind fun (n, k') =>
        (buildNodes accepts limits depth ps k').bind fun (ns, k'') => .ok (n :: ns, k'') := by
  rw [buildNodes, if_neg (by rw [hp]; exact Bool.false_ne_true)]
  rfl

theorem exists_of_bind_eq_ok {ε α β : Type*} {x : Except ε α} {f : α → Except ε β} {b : β}
    (h : x.bind f = .ok b) : ∃ a, x = .ok a ∧ f a = .ok b := by
  cases x with
  | error e => cases h
  | ok a => exact ⟨a, rfl, h⟩

theorem of_bind_eq_error {ε α β : Type*} {x : Except ε α} {f : α → Except ε β} {e : ε}
    (h : x.bind f = .error e) : x = .error e ∨ ∃ a, x = .ok a ∧ f a = .error e := by
  cases x with
  | error e' =>
    cases h
    exact Or.inl rfl
  | ok a => exact Or.inr ⟨a, rfl, h⟩

/-- Of several particles whose trees could be built the first may never occur, or its tree comes
before the others. -/
theorem exists_of_buildNodes {p : Particle} {ps : List Particle} {depth k k'' : Nat}
    {cs : List Node} (h : buildNodes accepts limits depth (p :: ps) k = .ok (cs, k'')) :
    (p.occurs.never = true ∧ buildNodes accepts limits depth ps k = .ok (cs, k'')) ∨
      p.occurs.never = false ∧ ∃ n k' ns, cs = n :: ns ∧
        buildNode accepts limits depth p k = .ok (n, k') ∧
        buildNodes accepts limits depth ps k' = .ok (ns, k'') := by
  cases hp : p.occurs.never with
  | true => exact Or.inl ⟨rfl, buildNodes_of_never hp ps depth k ▸ h⟩
  | false =>
    rw [buildNodes_of_occurs hp] at h
    obtain ⟨⟨n, k'⟩, hn, h⟩ := exists_of_bind_eq_ok h
    obtain ⟨⟨ns, _⟩, hns, h⟩ := exists_of_bind_eq_ok h
    cases h
    exact Or.inr ⟨rfl, n, k', ns, rfl, hn, hns⟩

/-- The tree of a group is a group of the trees of its particles, and the group is not too deep. -/
theorem exists_of_buildNode_group {c : Compositor} {ps : List Particle} {o : Occurs}
    {depth k k' : Nat} {n : Node}
    (h : buildNode accepts limits depth (.group c ps o) k = .ok (n, k')) :
    limits.checkModelDepth (depth + 1) = .ok () ∧ ∃ cs, n = .group o c cs ∧
      buildNodes accepts limits (depth + 1) ps k = .ok (cs, k') := by
  rw [buildNode] at h
  split at h
  · cases h
  · next hdepth =>
    obtain ⟨⟨cs, _⟩, hcs, h⟩ := exists_of_bind_eq_ok h
    cases h
    exact ⟨hdepth, cs, rfl, hcs⟩

/-! ### Compiling without the particles that may never occur -/

mutual

theorem buildNode_pruned : ∀ (p : Particle) (depth k : Nat),
    buildNode accepts limits depth p.pruned k = buildNode accepts limits depth p k
  | .group c ps o, depth, k => by
    rw [Particle.pruned, buildNode, buildNode]
    simp only [buildNodes_prunedOf ps]
  | .element .., _, _ => rfl
  | .any _, _, _ => rfl
  | .elementRef .., _, _ => rfl
  | .groupRef .., _, _ => rfl

theorem buildNodes_prunedOf : ∀ (ps : List Particle) (depth k : Nat),
    buildNodes accepts limits depth (Particle.prunedOf ps) k = buildNodes accepts limits depth ps k
  | [], _, _ => rfl
  | p :: ps, depth, k => by
    rw [Particle.prunedOf]
    cases hp : p.occurs.never with
    | true => rw [if_pos rfl, buildNodes_of_never hp, buildNodes_prunedOf ps]
    | false =>
      rw [if_neg Bool.false_ne_true, buildNodes_of_occurs hp,
        buildNodes_of_occurs (p.occurs_pruned.symm ▸ hp), buildNode_pruned p]
      simp only [buildNodes_prunedOf ps]

end

/-- Whether a group may be of no elements depends on whether its particles may. -/
theorem Node.termNullable_group {c : Compositor} {cs : List Node} {ps : List Particle} (o : Occurs)
    (h : cs.map Node.nullable = ps.map Particle.emptiable) :
    (Node.group o c cs).termNullable = Particle.contentEmptiable c ps := by
  have hlength : cs.isEmpty = ps.isEmpty := by
    simpa only [List.isEmpty_map] using congrArg List.isEmpty h
  have hany : Node.anyNullable cs = Particle.anyEmptiable ps := by
    simpa only [List.any_map, Function.id_comp, Node.anyNullable_eq, Particle.anyEmptiable_eq]
      using congrArg (List.any · id) h
  have hall : Node.allNullable cs = Particle.allEmptiable ps := by
    simpa only [List.all_map, Function.id_comp, Node.allNullable_eq, Particle.allEmptiable_eq]
      using congrArg (List.all · id) h
  cases c <;> simp only [Node.termNullable, Particle.contentEmptiable, hlength, hany, hall]

mutual

theorem nullable_of_buildNode : ∀ (p : Particle) {depth k k' : Nat} {n : Node},
    buildNode accepts limits depth p k = .ok (n, k') → n.nullable = p.pruned.emptiable
  | .group c ps o, depth, k, k', n, h => by
    obtain ⟨-, cs, rfl, hcs⟩ := exists_of_buildNode_group h
    rw [Node.nullable, Node.termNullable_group o (nullable_of_buildNodes ps hcs), Particle.pruned,
      Particle.emptiable]
    rfl
  | .element d o, depth, k, k', n, h => by
    rw [buildNode] at h
    cases h
    simp only [Node.nullable, Node.termNullable, Particle.pruned, Particle.emptiable, Bool.or_false]
    rfl
  | .any w, depth, k, k', n, h => by
    rw [buildNode] at h
    cases h
    simp only [Node.nullable, Node.termNullable, Particle.pruned, Particle.emptiable, Bool.or_false]
    rfl
  | .elementRef .., _, _, _, _, h => by
    rw [buildNode] at h
    cases h
  | .groupRef .., _, _, _, _, h => by
    rw [buildNode] at h
    cases h

/-- The trees of particles may be of no elements where the particles may that are left. -/
theorem nullable_of_buildNodes : ∀ (ps : List Particle) {depth k k' : Nat} {cs : List Node},
    buildNodes accepts limits depth ps k = .ok (cs, k') →
      cs.map Node.nullable = (Particle.prunedOf ps).map Particle.emptiable
  | [], _, _, _, _, h => by
    rw [buildNodes] at h
    cases h
    rfl
  | p :: ps, depth, k, k', cs, h => by
    rw [Particle.prunedOf]
    rcases exists_of_buildNodes h with ⟨hp, hcs⟩ | ⟨hp, n, k₁, ns, rfl, hn, hns⟩
    · rw [if_pos hp]
      exact nullable_of_buildNodes ps hcs
    · rw [if_neg (by rw [hp]; exact Bool.false_ne_true), List.map_cons, List.map_cons,
        nullable_of_buildNode p hn, nullable_of_buildNodes ps hns]

end

namespace Automaton

variable {g : ModelGroup} {m : Automaton}

/-- **A group compiles as it does without the particles that may never occur.** -/
theorem compile_pruned (g : ModelGroup) :
    compile g.pruned accepts version limits = compile g accepts version limits := by
  rw [compile, compile, ModelGroup.toParticle_pruned, buildNode_pruned]
  rfl

/-- The content may end before its first element exactly if the bounds of the group without the
particles that may never occur say so. -/
theorem accepting_start (h : compile g accepts version limits = .ok m) :
    m.accepting m.start = g.pruned.emptiable := by
  obtain ⟨⟨root, k⟩, hroot, hm⟩ := exists_of_bind_eq_ok h
  have hnullable := nullable_of_buildNode _ hroot
  rw [← ModelGroup.toParticle_pruned] at hnullable
  dsimp only at hm
  split at hm
  · cases hm
  · cases hm
    exact hnullable

/-- **The bounds as written and the content model.**  Of every group that compiles and whose bounds
are in order, the bounds say that the content may be empty wherever the content model does, and the
two agree exactly if the group does not borrow that from particles that may never occur.  They agree
if of each choice in the group all particles may occur or none. -/
theorem emptiable_eq_accepting_iff (hvalid : g.BoundsValid)
    (h : compile g accepts version limits = .ok m) :
    (m.accepting m.start = true → g.emptiable = true) ∧
      (g.emptiable = m.accepting m.start ↔ ¬ g.toParticle.Borrows) ∧
      ((∀ ps o, .group .choice ps o ∈ g.toParticle.subtrees →
        (∀ q ∈ ps, q.occurs.never = false) ∨ ∀ q ∈ ps, q.occurs.never = true) →
        g.emptiable = m.accepting m.start) := by
  have hstart : m.accepting m.start = g.toParticle.pruned.emptiable := by
    rw [accepting_start h, ModelGroup.emptiable, ModelGroup.toParticle_pruned]
  have hpruned := Particle.emptiable_of_pruned hvalid
  have hagree : g.emptiable = m.accepting m.start ↔ ¬ g.toParticle.Borrows := by
    rw [hstart, Particle.borrows_iff hvalid, ModelGroup.emptiable]
    cases hwritten : g.toParticle.emptiable <;> cases hleft : g.toParticle.pruned.emptiable <;>
      simp_all
  exact ⟨fun hempty => hpruned (hstart ▸ hempty), hagree, fun hchoices =>
    hagree.2 (Particle.not_borrows hchoices)⟩

/-- A choice of an element that may never occur and one that has to occur once. -/
def prohibitedOrOne : ModelGroup :=
  ⟨.choice, [.element ⟨0⟩ ⟨0, some 0⟩, .element ⟨1⟩ .once], .once⟩

theorem emptiable_prohibitedOrOne : prohibitedOrOne.emptiable = true :=
  Particle.emptiable_choice_iff.2
    (Or.inr (Or.inr ⟨_, List.mem_cons_self, Particle.emptiable_of_occurs rfl⟩))

/-- The content model of the choice is its second element. -/
theorem exists_compile_prohibitedOrOne :
    ∃ m, compile prohibitedOrOne twoNames .v10 {} = .ok m ∧ m.accepting m.start = false :=
  ⟨⟨.group .once .choice [.element .once 1 ⟨1⟩ (twoNames ⟨1⟩)], .standard⟩, rfl, by decide⟩

/-- The choice borrows from its first element, the only one that it may do without. -/
theorem emptiable_eq_accepting_iff_prohibitedOrOne :
    prohibitedOrOne.BoundsValid ∧ ∃ m, compile prohibitedOrOne twoNames .v10 {} = .ok m ∧
      prohibitedOrOne.emptiable ≠ m.accepting m.start ∧ prohibitedOrOne.toParticle.Borrows := by
  have hvalid : prohibitedOrOne.BoundsValid := by decide
  obtain ⟨m, hm, hstart⟩ := exists_compile_prohibitedOrOne
  have hdiffer : prohibitedOrOne.emptiable ≠ m.accepting m.start := by
    rw [emptiable_prohibitedOrOne, hstart]
    exact Bool.false_ne_true.symm
  obtain ⟨-, hagree, -⟩ := emptiable_eq_accepting_iff hvalid hm
  exact ⟨hvalid, m, hm, hdiffer, not_not.1 (mt hagree.2 hdiffer)⟩

/-- Its bounds say that the content may be empty, its content model does not. -/
theorem not_emptiable_iff_accepting_prohibitedOrOne :
    ¬ ∀ (g : ModelGroup) (accepts : ElementId → List Name) (version : Version) (limits : Limits)
      (m : Automaton), g.toParticle.Plain → g.BoundsValid →
      compile g accepts version limits = .ok m →
      (g.emptiable = true ↔ m.accepting m.start = true) := by
  intro hagree
  obtain ⟨m, hm, hstart⟩ := exists_compile_prohibitedOrOne
  have hplain : ∀ q ∈ prohibitedOrOne.toParticle.subtrees, q.isReference = false := by decide
  have haccepting := (hagree _ _ _ _ _ hplain (by decide) hm).1 emptiable_prohibitedOrOne
  rw [hstart] at haccepting
  exact Bool.false_ne_true haccepting

end Automaton
end ContentModel
end SchemaAssist
