/-
# Where the trees of a content model come from

Compiling makes a tree of each particle, unless it may never occur.  So every tree in a content
model is made of a particle of the model group (`Automaton.exists_origin`): a leaf has the element
or the wildcard of that particle, and every tree has its bounds.  The terms that a content model
offers are those of leaves (`Automaton.exists_leaf_of_offered`), and so they are terms of the model
group (`Automaton.of_offered`).
-/

import SchemaAssist.Proofs.Offers

namespace SchemaAssist

open ContentModel (Automaton Node Progress Term buildNode buildNodes)

/-! ### Particles -/

namespace Particle

theorem subtreesOf_eq (ps : List Particle) : subtreesOf ps = ps.flatMap subtrees := by
  induction ps with
  | nil => rfl
  | cons p ps ih => rw [subtreesOf, ih, List.flatMap_cons]

theorem elementsOf_eq (ps : List Particle) : elementsOf ps = ps.flatMap elements := by
  induction ps with
  | nil => rfl
  | cons p ps ih => rw [elementsOf, ih, List.flatMap_cons]

theorem wildcardsOf_eq (ps : List Particle) : wildcardsOf ps = ps.flatMap wildcards := by
  induction ps with
  | nil => rfl
  | cons p ps ih => rw [wildcardsOf, ih, List.flatMap_cons]

theorem self_mem_subtrees (p : Particle) : p ∈ p.subtrees := by
  cases p <;> simp [subtrees]

theorem mem_subtrees_group {c : Compositor} {ps : List Particle} {o : Occurs} {q : Particle} :
    q ∈ (group c ps o).subtrees ↔ q = group c ps o ∨ ∃ p ∈ ps, q ∈ p.subtrees := by
  rw [subtrees, List.mem_cons, subtreesOf_eq, List.mem_flatMap]

/-- What holds everywhere in a group holds everywhere in its particles. -/
theorem forall_subtrees_of_mem {P : Particle → Prop} {c : Compositor} {ps : List Particle}
    {o : Occurs} (h : ∀ q ∈ (group c ps o).subtrees, P q) {p : Particle} (hp : p ∈ ps) :
    ∀ q ∈ p.subtrees, P q := fun q hq => h q (mem_subtrees_group.2 (Or.inr ⟨p, hp, hq⟩))

/-- A particle is an element, a wildcard, a reference, or a group of particles. -/
theorem induct {P : Particle → Prop} (element : ∀ d o, P (.element d o)) (any : ∀ w, P (.any w))
    (group : ∀ c ps o, (∀ p ∈ ps, P p) → P (.group c ps o))
    (elementRef : ∀ n o, P (.elementRef n o)) (groupRef : ∀ n o, P (.groupRef n o)) : ∀ p, P p
  | .element d o => element d o
  | .any w => any w
  | .group c ps o => group c ps o (inductOf ps)
  | .elementRef n o => elementRef n o
  | .groupRef n o => groupRef n o
where
  inductOf : ∀ ps : List Particle, ∀ p ∈ ps, P p
    | [], _, h => absurd h List.not_mem_nil
    | p :: ps, q, h => (List.mem_cons.1 h).elim
        (fun e => e ▸ induct element any group elementRef groupRef p) (inductOf ps q)

/-- The element declarations of a particle are those of its leaves. -/
theorem mem_elements_iff {d : ElementId} (p : Particle) :
    d ∈ p.elements ↔ ∃ o, element d o ∈ p.subtrees := by
  induction p using induct with
  | element d' o => simp [elements, subtrees]
  | any w => simp [elements, subtrees]
  | group c ps o ih =>
    rw [elements, elementsOf_eq, List.mem_flatMap]
    simp only [mem_subtrees_group, reduceCtorEq, false_or]
    constructor
    · rintro ⟨p, hp, hd⟩
      obtain ⟨o, ho⟩ := (ih p hp).1 hd
      exact ⟨o, p, hp, ho⟩
    · rintro ⟨o, p, hp, ho⟩
      exact ⟨p, hp, (ih p hp).2 ⟨o, ho⟩⟩
  | elementRef n o => simp [elements, subtrees]
  | groupRef n o => simp [elements, subtrees]

/-- The wildcards of a particle are those of its leaves. -/
theorem mem_wildcards_iff {w : Wildcard} (p : Particle) : w ∈ p.wildcards ↔ any w ∈ p.subtrees := by
  induction p using induct with
  | element d o => simp [wildcards, subtrees]
  | any w' => simp [wildcards, subtrees]
  | group c ps o ih =>
    rw [wildcards, wildcardsOf_eq, List.mem_flatMap, mem_subtrees_group]
    simp only [reduceCtorEq, false_or]
    constructor
    · rintro ⟨p, hp, hw⟩
      exact ⟨p, hp, (ih p hp).1 hw⟩
    · rintro ⟨p, hp, hw⟩
      exact ⟨p, hp, (ih p hp).2 hw⟩
  | elementRef n o => simp [wildcards, subtrees]
  | groupRef n o => simp [wildcards, subtrees]

end Particle

/-- A term that an element or a wildcard of a model group makes. -/
def ContentModel.Term.Of (g : ModelGroup) : Term → Prop
  | .element d => d ∈ g.elements
  | .wildcard p => ∃ w ∈ g.wildcards, w.strictness = p

namespace ContentModel

/-! ### Trees -/

/-- A tree is what compiling makes of a particle. -/
inductive Origin (accepts : ElementId → List Name) : Particle → Node → Prop
  | element (d : ElementId) (o : Occurs) (leaf : Nat) :
    Origin accepts (.element d o) (.element o leaf d (accepts d))
  | any (w : Wildcard) (leaf : Nat) :
    Origin accepts (.any w) (.wildcard w.occurs leaf w.spaces w.strictness)
  | group (c : Compositor) (ps : List Particle) (o : Occurs) (cs : List Node) :
    Origin accepts (.group c ps o) (.group o c cs)

section Build

variable {accepts : ElementId → List Name} {limits : Limits}

theorem Origin.occurs_eq {p : Particle} {n : Node} (h : Origin accepts p n) :
    n.occurs = p.occurs := by
  cases h <;> rfl

mutual

/-- Every tree below the one that is made of a particle is made of a particle below that one. -/
theorem exists_origin_of_buildNode : ∀ (p : Particle) {depth k : Nat} {n : Node} {k' : Nat},
    buildNode accepts limits depth p k = .ok (n, k') →
      ∀ m ∈ n.subtrees, ∃ q ∈ p.subtrees, Origin accepts q m
  | .element d o, depth, k, n, k', h => by
    rw [buildNode] at h
    cases h
    intro m hm
    rw [Node.subtrees_of_leaf rfl, List.mem_singleton] at hm
    exact ⟨_, Particle.self_mem_subtrees _, hm ▸ .element d o _⟩
  | .any w, depth, k, n, k', h => by
    rw [buildNode] at h
    cases h
    intro m hm
    rw [Node.subtrees_of_leaf rfl, List.mem_singleton] at hm
    exact ⟨_, Particle.self_mem_subtrees _, hm ▸ .any w _⟩
  | .group c ps o, depth, k, n, k', h => by
    rw [buildNode] at h
    split at h
    · cases h
    · cases hcs : buildNodes accepts limits (depth + 1) ps k with
      | error e =>
        rw [hcs] at h
        cases h
      | ok built =>
        rw [hcs] at h
        cases h
        intro m hm
        rcases Node.mem_subtrees_group.1 hm with rfl | ⟨n, hn, hm⟩
        · exact ⟨_, Particle.self_mem_subtrees _, .group c ps o _⟩
        · obtain ⟨p, hp, q, hq, horigin⟩ := exists_origin_of_buildNodes ps hcs n hn m hm
          exact ⟨q, Particle.mem_subtrees_group.2 (Or.inr ⟨p, hp, hq⟩), horigin⟩
  | .elementRef .., depth, k, n, k', h => by
    rw [buildNode] at h
    cases h
  | .groupRef .., depth, k, n, k', h => by
    rw [buildNode] at h
    cases h

theorem exists_origin_of_buildNodes : ∀ (ps : List Particle) {depth k : Nat} {cs : List Node}
    {k' : Nat}, buildNodes accepts limits depth ps k = .ok (cs, k') →
      ∀ n ∈ cs, ∀ m ∈ n.subtrees, ∃ p ∈ ps, ∃ q ∈ p.subtrees, Origin accepts q m
  | [], depth, k, cs, k', h => by
    rw [buildNodes] at h
    cases h
    nofun
  | p :: ps, depth, k, cs, k', h => by
    rw [buildNodes] at h
    split at h
    · intro n hn m hm
      obtain ⟨q, hq, horigin⟩ := exists_origin_of_buildNodes ps h n hn m hm
      exact ⟨q, List.mem_cons_of_mem _ hq, horigin⟩
    · cases hc : buildNode accepts limits depth p k with
      | error e =>
        rw [hc] at h
        cases h
      | ok built =>
        obtain ⟨c, k₁⟩ := built
        rw [hc] at h
        cases hcs : buildNodes accepts limits depth ps k₁ with
        | error e => simp [bind, Except.bind, hcs] at h
        | ok built' =>
          simp only [bind, Except.bind, hcs, pure, Except.pure] at h
          cases h
          refine List.forall_mem_cons.2 ⟨fun m hm => ?_, fun n hn m hm => ?_⟩
          · exact ⟨p, List.mem_cons_self, exists_origin_of_buildNode p hc m hm⟩
          · obtain ⟨q, hq, horigin⟩ := exists_origin_of_buildNodes ps hcs n hn m hm
            exact ⟨q, List.mem_cons_of_mem _ hq, horigin⟩

end

end Build

namespace Automaton

variable {m : Automaton} {g : ModelGroup} {accepts : ElementId → List Name} {version : Version}
  {limits : Limits} {l : Node} {t : Term}

/-- **Every tree of a content model is made of a particle of the model group.** -/
theorem exists_origin (h : compile g accepts version limits = .ok m) (hl : l ∈ m.root.subtrees) :
    ∃ p ∈ g.toParticle.subtrees, Origin accepts p l := by
  rw [compile] at h
  cases hroot : buildNode accepts limits 0 g.toParticle 0 with
  | error e => simp [bind, Except.bind, hroot] at h
  | ok built =>
    obtain ⟨root, k⟩ := built
    simp only [bind, Except.bind, hroot] at h
    split at h
    · cases h
    · cases h
      exact exists_origin_of_buildNode _ hroot l hl

/-- The term of a leaf is a term of the model group. -/
theorem of_leafTerm? (h : compile g accepts version limits = .ok m) (hl : l ∈ m.root.subtrees)
    (ht : l.leafTerm? = some t) : t.Of g := by
  obtain ⟨p, hp, horigin⟩ := exists_origin h hl
  cases horigin with
  | element d o leaf =>
    cases ht
    exact mem_distinct.2 ((Particle.mem_elements_iff _).2 ⟨o, hp⟩)
  | any w leaf =>
    cases ht
    exact ⟨w, (Particle.mem_wildcards_iff _).2 hp, rfl⟩
  | group c ps o cs => cases ht

/-- The terms offered in a state are those of leaves, the members without an upper bound of an
unordered group included. -/
theorem exists_leaf_of_offered {st : Progress} (ht : t ∈ m.replayable.offered st) :
    ∃ l ∈ m.root.subtrees, l.leafTerm? = some t := by
  have hcandidate (ht : t ∈ m.candidates st) : ∃ l ∈ m.root.subtrees, l.leafTerm? = some t := by
    obtain ⟨l, hl, hterm⟩ := mem_candidates.1 ht
    exact ⟨l, Node.nextLeaves_subset m.root st hl, hterm⟩
  rw [Replayable.offered] at ht
  split at ht
  · exact hcandidate (mem_distinct.1 ht)
  · rcases mem_addAllNew.1 ht with ht | ht
    · exact hcandidate (mem_distinct.1 ht)
    · change t ∈ m.unboundedMembers at ht
      rw [unboundedMembers] at ht
      split at ht
      · next o c cs hroot =>
        obtain ⟨l, hl, hterm⟩ := List.mem_filterMap.1 ht
        refine ⟨l, ?_, hterm⟩
        rw [hroot]
        exact Node.mem_subtrees_group.2 (Or.inr ⟨l, (List.mem_filter.1 hl).1, l.self_mem_subtrees⟩)
      · cases ht

/-- **The terms that a content model offers are terms of the model group.** -/
theorem of_offered (h : compile g accepts version limits = .ok m) {st : Progress}
    (ht : t ∈ m.replayable.offered st) : t.Of g := by
  obtain ⟨l, hl, hterm⟩ := exists_leaf_of_offered ht
  exact of_leafTerm? h hl hterm

end Automaton
end ContentModel
end SchemaAssist
