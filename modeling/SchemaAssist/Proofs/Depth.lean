/-
# How deep groups nest

The depth of a particle is the number of groups that stand in one another in it; what may never
occur inside it does not count.  It is what compiling measures: a group compiles only if it is no
deeper than the limit (`Automaton.depth_le_of_compile`), and none is refused for its depth that is
not deeper (`Automaton.lt_depth_of_compile`).

Expansion leaves out what stands in one group more than the limit allows, whether groups stand there
by themselves or by name.  What is left there is a group without particles, one level too deep, so
that the cut can be told from the depth of what comes out (`Components.isCut_iff`).
-/

import SchemaAssist.Proofs.Pruning
import SchemaAssist.Proofs.References

namespace SchemaAssist

open ContentModel (Node buildNode buildNodes)

namespace Particle

mutual

/-- The number of groups nested in a particle, itself included. -/
def depth : Particle → Nat
  | group _ ps _ => depthOf ps + 1
  | _ => 0

/-- The number of groups nested in particles, without those that may never occur. -/
def depthOf : List Particle → Nat
  | [] => 0
  | p :: ps => if p.occurs.never then depthOf ps else max p.depth (depthOf ps)

end

variable {ps qs : List Particle} {n : Nat}

theorem depth_group (c : Compositor) (ps : List Particle) (o : Occurs) :
    (group c ps o).depth = depthOf ps + 1 := by rw [depth]

theorem depthOf_le_iff :
    depthOf ps ≤ n ↔ ∀ p ∈ ps, p.occurs.never = false → p.depth ≤ n := by
  induction ps with
  | nil => exact iff_of_true (by rw [depthOf]; exact Nat.zero_le n) nofun
  | cons p ps ih =>
    rw [depthOf, List.forall_mem_cons, ← ih]
    cases p.occurs.never with
    | true => simp
    | false => simp

theorem depth_le_depthOf {p : Particle} (hp : p ∈ ps) (ho : p.occurs.never = false) :
    p.depth ≤ depthOf ps := depthOf_le_iff.1 (Nat.le_refl _) p hp ho

/-- Particles are as deep as the deepest of those that may occur. -/
theorem exists_depth_eq (h : 0 < depthOf ps) :
    ∃ p ∈ ps, p.occurs.never = false ∧ p.depth = depthOf ps := by
  by_contra hnone
  push Not at hnone
  have hless : depthOf ps ≤ depthOf ps - 1 := depthOf_le_iff.2 fun p hp ho => by
    have hle := depth_le_depthOf hp ho
    have hne := hnone p hp ho
    omega
  omega

theorem depthOf_append (ps qs : List Particle) :
    depthOf (ps ++ qs) = max (depthOf ps) (depthOf qs) := by
  induction ps with
  | nil => rw [List.nil_append, depthOf, Nat.zero_max]
  | cons p ps ih =>
    rw [List.cons_append, depthOf, depthOf, ih]
    split
    · rfl
    · rw [Nat.max_assoc]

end Particle

open Particle (depthOf)

/-- The number of groups nested in a group, itself included. -/
def ModelGroup.depth (g : ModelGroup) : Nat := g.toParticle.depth

theorem ModelGroup.depth_eq (g : ModelGroup) : g.depth = depthOf g.particles + 1 :=
  Particle.depth_group ..

/-! ### The limit on compiling -/

theorem Limits.checkModelDepth_eq_ok_iff {limits : Limits} {n : Nat} :
    limits.checkModelDepth n = .ok () ↔ n ≤ limits.modelDepth := by
  rw [checkModelDepth, check]
  split
  · exact iff_of_false nofun (by omega)
  · exact iff_of_true rfl (by omega)

namespace ContentModel

variable {accepts : ElementId → List Name} {limits : Limits} {version : Version}

mutual

/-- A particle whose tree could be built is not too deep. -/
theorem depth_le_of_buildNode : ∀ (p : Particle) {depth k k' : Nat} {n : Node},
    buildNode accepts limits depth p k = .ok (n, k') →
      p.depth = 0 ∨ depth + p.depth ≤ limits.modelDepth
  | .group c ps o, depth, k, k', n, h => by
    obtain ⟨hdepth, cs, -, hcs⟩ := exists_of_buildNode_group h
    have hroot := Limits.checkModelDepth_eq_ok_iff.1 hdepth
    have hinside := depthOf_le_of_buildNodes ps hcs
    rw [Particle.depth_group]
    omega
  | .element .., _, _, _, _, _ => Or.inl (by rw [Particle.depth]; nofun)
  | .any _, _, _, _, _, _ => Or.inl (by rw [Particle.depth]; nofun)
  | .elementRef .., _, _, _, _, _ => Or.inl (by rw [Particle.depth]; nofun)
  | .groupRef .., _, _, _, _, _ => Or.inl (by rw [Particle.depth]; nofun)

theorem depthOf_le_of_buildNodes : ∀ (ps : List Particle) {depth k k' : Nat} {cs : List Node},
    buildNodes accepts limits depth ps k = .ok (cs, k') →
      depthOf ps = 0 ∨ depth + depthOf ps ≤ limits.modelDepth
  | [], _, _, _, _, _ => Or.inl (by rw [depthOf])
  | p :: ps, depth, k, k', cs, h => by
    rw [depthOf]
    rcases exists_of_buildNodes h with ⟨hp, hcs⟩ | ⟨hp, n, k₁, ns, -, hn, hns⟩
    · rw [if_pos hp]
      exact depthOf_le_of_buildNodes ps hcs
    · rw [if_neg (by rw [hp]; exact Bool.false_ne_true)]
      have hfirst := depth_le_of_buildNode p hn
      have hrest := depthOf_le_of_buildNodes ps hns
      omega

end

mutual

/-- A particle whose tree was refused for a group too deep is too deep. -/
theorem lt_depth_of_buildNode {found : Nat} : ∀ (p : Particle) {depth k : Nat},
    buildNode accepts limits depth p k = .error (.tooDeep found) →
      limits.modelDepth < depth + p.depth
  | .group c ps o, depth, k, h => by
    rw [Particle.depth_group]
    rw [buildNode] at h
    split at h
    · next hdepth =>
      have hroot : ¬ depth + 1 ≤ limits.modelDepth := fun hle => by
        cases hdepth.symm.trans (Limits.checkModelDepth_eq_ok_iff.2 hle)
      omega
    · rcases of_bind_eq_error h with h | ⟨_, -, h⟩
      · have hinside := lt_depthOf_of_buildNodes ps h
        omega
      · cases h
  | .element .., _, _, h => by rw [buildNode] at h; cases h
  | .any _, _, _, h => by rw [buildNode] at h; cases h
  | .elementRef .., _, _, h => by rw [buildNode] at h; cases h
  | .groupRef .., _, _, h => by rw [buildNode] at h; cases h

theorem lt_depthOf_of_buildNodes {found : Nat} : ∀ (ps : List Particle) {depth k : Nat},
    buildNodes accepts limits depth ps k = .error (.tooDeep found) →
      limits.modelDepth < depth + depthOf ps
  | [], _, _, h => by rw [buildNodes] at h; cases h
  | p :: ps, depth, k, h => by
    rw [depthOf]
    cases hp : p.occurs.never with
    | true =>
      rw [buildNodes_of_never hp] at h
      rw [if_pos rfl]
      exact lt_depthOf_of_buildNodes ps h
    | false =>
      rw [buildNodes_of_occurs hp] at h
      rw [if_neg Bool.false_ne_true]
      rcases of_bind_eq_error h with h | ⟨_, -, h⟩
      · have hfirst := lt_depth_of_buildNode p h
        omega
      · rcases of_bind_eq_error h with h | ⟨_, -, h⟩
        · have hrest := lt_depthOf_of_buildNodes ps h
          omega
        · cases h

end

namespace Automaton

variable {g : ModelGroup} {m : Automaton}

/-- A group that compiles is not deeper than the limit. -/
theorem depth_le_of_compile (h : compile g accepts version limits = .ok m) :
    g.depth ≤ limits.modelDepth := by
  obtain ⟨⟨root, k⟩, hroot, -⟩ := exists_of_bind_eq_ok h
  have hdepth := depth_le_of_buildNode _ hroot
  have hpos : g.toParticle.depth = depthOf g.particles + 1 := g.depth_eq
  rw [ModelGroup.depth]
  omega

/-- A group that is refused for its depth is deeper than the limit. -/
theorem lt_depth_of_compile {found : Nat}
    (h : compile g accepts version limits = .error (.tooDeep found)) :
    limits.modelDepth < g.depth := by
  rcases of_bind_eq_error h with hroot | ⟨⟨root, k⟩, -, h⟩
  · have hdepth := lt_depth_of_buildNode _ hroot
    rw [ModelGroup.depth]
    omega
  · dsimp only at h
    split at h
    · cases h
    · cases h

end Automaton
end ContentModel

/-! ### The limit on expansion -/

namespace Components

variable {c : Components} {room : Nat} {around : List Name} {ps : List Particle}

/-- Expansion with room for some more nested groups leaves out particles that can occur: it comes to
a group for which there is no room, through groups and references that may occur. -/
inductive IsCut (c : Components) : (room : Nat) → (around : List Name) → List Particle → Prop
  | here {around : List Name} {ps : List Particle} : IsCut c 0 around ps
  | group {room : Nat} {around : List Name} {ps : List Particle} {k : Compositor}
    {qs : List Particle} {o : Occurs} (hp : .group k qs o ∈ ps) (ho : o.never = false)
    (h : IsCut c room around qs) : IsCut c (room + 1) around ps
  | groupRef {room : Nat} {around : List Name} {ps : List Particle} {n : Name} {o : Occurs}
    {g : ModelGroup} (hp : .groupRef n o ∈ ps) (ho : o.never = false) (hn : n ∉ around)
    (hg : c.groups.find? n = some g) (h : IsCut c room (n :: around) g.particles) :
    IsCut c (room + 1) around ps

theorem expandParticle_groupRef {n : Name} {g : ModelGroup} (hn : n ∉ around)
    (hg : c.groups.find? n = some g) (room : Nat) (o : Occurs) :
    (c.expandParticle room around (.groupRef n o)).1 =
      some (.group g.compositor (c.expandParticles room (n :: around) g.particles).1 o) := by
  rw [expandParticle, if_neg hn, hg]

/-- What expansion makes of a particle: a group of what it makes of those inside, or no group. -/
theorem of_expandParticle {p q : Particle} (h : (c.expandParticle room around p).1 = some q) :
    (∃ k qs o, p = .group k qs o ∧ q = .group k (c.expandParticles room around qs).1 o) ∨
      (∃ n o g, p = .groupRef n o ∧ n ∉ around ∧ c.groups.find? n = some g ∧
        q = .group g.compositor (c.expandParticles room (n :: around) g.particles).1 o) ∨
      q.depth = 0 := by
  cases p with
  | group k qs o =>
    cases h
    exact Or.inl ⟨k, qs, o, rfl, rfl⟩
  | groupRef n o =>
    rw [expandParticle] at h
    split at h
    · cases h
    · next hn =>
      split at h
      · next g hg =>
        cases h
        exact Or.inr (Or.inl ⟨n, o, g, rfl, hn, hg, rfl⟩)
      · cases h
  | elementRef n o =>
    rw [expandParticle] at h
    split at h
    · cases h
      exact Or.inr (Or.inr rfl)
    · cases h
  | element d o =>
    cases h
    exact Or.inr (Or.inr rfl)
  | any w =>
    cases h
    exact Or.inr (Or.inr rfl)

/-- A group that comes out of expansion adds one level to what is in it. -/
theorem depthOf_lt_expandParticles {p : Particle} {k : Compositor} {qs : List Particle} {o : Occurs}
    (hp : p ∈ ps) (hq : (c.expandParticle room around p).1 = some (.group k qs o))
    (ho : o.never = false) :
    depthOf qs + 1 ≤ depthOf (c.expandParticles (room + 1) around ps).1 := by
  have hmem : .group k qs o ∈ (c.expandParticles (room + 1) around ps).1 := by
    rw [expandParticles_succ]
    exact List.mem_filterMap.2 ⟨p, hp, hq⟩
  have hle := Particle.depth_le_depthOf hmem ho
  rwa [Particle.depth_group] at hle

/-- Expansion leaves no more nested groups than there was room for. -/
theorem depthOf_expandParticles_le (c : Components) (room : Nat) (around : List Name)
    (ps : List Particle) : depthOf (c.expandParticles room around ps).1 ≤ room := by
  induction room generalizing around ps with
  | zero => exact Nat.le_refl 0
  | succ room ih =>
    rw [expandParticles_succ]
    refine Particle.depthOf_le_iff.2 fun q hq _ => ?_
    obtain ⟨p, -, hp⟩ := List.mem_filterMap.1 hq
    rcases of_expandParticle hp with ⟨k, qs, o, -, rfl⟩ | ⟨n, o, g, -, -, -, rfl⟩ | hzero
    · rw [Particle.depth_group]
      exact Nat.succ_le_succ (ih around qs)
    · rw [Particle.depth_group]
      exact Nat.succ_le_succ (ih (n :: around) g.particles)
    · omega

/-- **A cut shows in the depth of what is left.** -/
theorem isCut_iff :
    c.IsCut room around ps ↔ depthOf (c.expandParticles room around ps).1 = room := by
  constructor
  · intro h
    induction h with
    | here => rfl
    | @group room around ps k qs o hp ho _ ih =>
      refine Nat.le_antisymm (depthOf_expandParticles_le ..) ?_
      have hexpanded : (c.expandParticle room around (.group k qs o)).1 =
          some (.group k (c.expandParticles room around qs).1 o) := rfl
      have hle := depthOf_lt_expandParticles hp hexpanded ho
      rwa [ih] at hle
    | @groupRef room around ps n o g hp ho hn hg _ ih =>
      refine Nat.le_antisymm (depthOf_expandParticles_le ..) ?_
      have hle := depthOf_lt_expandParticles hp (expandParticle_groupRef hn hg room o) ho
      rwa [ih] at hle
  · intro h
    induction room generalizing around ps with
    | zero => exact .here
    | succ room ih =>
      rw [expandParticles_succ] at h
      obtain ⟨q, hq, ho, hdepth⟩ := Particle.exists_depth_eq (by rw [h]; exact Nat.succ_pos room)
      rw [h] at hdepth
      obtain ⟨p, hp, hq⟩ := List.mem_filterMap.1 hq
      rcases of_expandParticle hq with ⟨k, qs, o, rfl, rfl⟩ | ⟨n, o, g, rfl, hn, hg, rfl⟩ | hzero
      · rw [Particle.depth_group] at hdepth
        exact .group hp ho (ih (Nat.succ.inj hdepth))
      · rw [Particle.depth_group] at hdepth
        exact .groupRef hp ho hn hg (ih (Nat.succ.inj hdepth))
      · omega

/-- A cut is reported. -/
theorem IsCut.mem_faults (h : c.IsCut room around ps) :
    .modelDepth (.modelDepth (c.limits.modelDepth + 1) c.limits.modelDepth) ∈
      (c.expandParticles room around ps).2 := by
  induction h with
  | here => exact List.mem_cons_self
  | group hp _ _ ih =>
    rw [expandParticles_succ]
    exact List.mem_flatMap.2 ⟨_, hp, ih⟩
  | @groupRef room around ps n o g hp _ hn hg _ ih =>
    rw [expandParticles_succ]
    refine List.mem_flatMap.2 ⟨_, hp, ?_⟩
    rw [expandParticle, if_neg hn, hg]
    exact ih

/-- A model group that can occur is cut short when its references are looked up: something that can
occur in it is left out because of the limit on nested groups. -/
def CutShort (c : Components) (g : ModelGroup) : Prop :=
  g.occurs.never = false ∧ c.IsCut c.limits.modelDepth [] g.particles

/-- What is left of a group that is cut short is just too deep. -/
theorem CutShort.depth_eq {g : ModelGroup} (h : c.CutShort g) :
    (c.expandGroup g).1.depth = c.limits.modelDepth + 1 := by
  rw [ModelGroup.depth_eq]
  exact congrArg (· + 1) (isCut_iff.1 h.2)

theorem cutShort_iff {g : ModelGroup} : c.CutShort g ↔
    g.occurs.never = false ∧ (c.expandGroup g).1.depth = c.limits.modelDepth + 1 := by
  refine and_congr_right fun _ => ?_
  rw [isCut_iff, ModelGroup.depth_eq]
  exact (Nat.succ_inj).symm

/-- A group that is cut short is reported. -/
theorem CutShort.mem_faults {g : ModelGroup} (h : c.CutShort g) :
    .modelDepth (.modelDepth (c.limits.modelDepth + 1) c.limits.modelDepth) ∈
      (c.expandGroup g).2 := h.2.mem_faults

end Components

namespace ModelGroup

/-- A sequence of nothing but one group, once. -/
def IsLone (g : ModelGroup) : Prop := ∃ c ps o, g = ⟨.sequence, [.group c ps o], .once⟩

/-- The only group in a sequence is one level less deep. -/
theorem IsLone.depth_unwrap {g : ModelGroup} (h : g.IsLone) (hdepth : 1 < g.depth) :
    g.unwrap.depth + 1 = g.depth := by
  obtain ⟨c, ps, o, rfl⟩ := h
  have hunwrap : unwrap ⟨.sequence, [.group c ps o], .once⟩ = ⟨c, ps, o⟩ := rfl
  rw [hunwrap, depth_eq, depth_eq]
  rw [depth_eq, depthOf] at hdepth
  rw [depthOf]
  split at hdepth
  · next hnever =>
    rw [depthOf] at hdepth
    omega
  · next hoccurs => rw [if_neg hoccurs, Particle.depth_group, depthOf, Nat.max_zero]

theorem unwrap_of_not_isLone {g : ModelGroup} (h : ¬ g.IsLone) : g.unwrap = g := by
  rw [unwrap.eq_def]
  split
  · exact absurd ⟨_, _, _, rfl⟩ h
  · rfl

end ModelGroup

namespace Components.CutShort

variable {c : Components} {g : ModelGroup}

/-- What is left of a group that is cut short stays too deep where it is not the only thing in a
sequence. -/
theorem depth_unwrap_of_not_isLone (h : c.CutShort g) (hlone : ¬ (c.expandGroup g).1.IsLone) :
    (c.expandGroup g).1.unwrap.depth = c.limits.modelDepth + 1 := by
  rw [ModelGroup.unwrap_of_not_isLone hlone, h.depth_eq]

/-- Where it is the only thing in a sequence, the sequence is dropped and the depth is allowed. -/
theorem depth_unwrap_of_isLone (h : c.CutShort g) (hlone : (c.expandGroup g).1.IsLone) :
    (c.expandGroup g).1.unwrap.depth = c.limits.modelDepth := by
  have hroom : c.limits.modelDepth ≠ 0 := fun hnone => by
    obtain ⟨k, ps, o, hg⟩ := hlone
    have hparticles : (c.expandParticles c.limits.modelDepth [] g.particles).1 = [.group k ps o] :=
      congrArg ModelGroup.particles hg
    rw [hnone] at hparticles
    cases hparticles
  have hdepth := h.depth_eq
  have hunwrap := hlone.depth_unwrap (by omega)
  omega

end Components.CutShort
end SchemaAssist
