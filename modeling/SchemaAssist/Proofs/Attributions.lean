/-
# Attributed words

A letter of a content is an element's name together with the leaf of the content model that the
element is attributed to.  The attributed words of a model group are read off its particles: a leaf
makes a letter of each name that it matches, the compositors combine the words of their particles
(`Compositor.combine`), and bounds repeat them (`Occurs.words`).  Particles that may never occur are
left out, and the leaves that are left are numbered from one, from left to right.

A compiled tree has attributed words as well, and compiling keeps them (`buildNode_faithful`): what
is proved of the words of trees is proved of the words of model groups.
-/

import SchemaAssist.ContentModel.Compile
import SchemaAssist.Proofs.Words

namespace SchemaAssist

open ContentModel (Matcher Symbol Node Refusal buildNode buildNodes)

/-- A leaf of a content model: its number, and whether it is a wildcard. -/
structure Leaf where
  number : Nat
  isWildcard : Bool
  deriving DecidableEq, Repr

/-- The name of an element and the leaf that it is attributed to. -/
abbrev Letter := Name × Leaf

namespace ContentModel

/-- A matcher of namespaces is one of a wildcard. -/
def Matcher.isWildcard : Matcher → Bool
  | names _ => false
  | spaces _ => true

namespace Symbol

/-- The leaf of a symbol. -/
def toLeaf (s : Symbol) : Leaf := ⟨s.leaf, s.matcher.isWildcard⟩

/-- A letter attributes an element to the leaf of a symbol, which matches its name. -/
def Reads (s : Symbol) (a : Letter) : Prop := s.matcher.matchesName a.1 = true ∧ a.2 = s.toLeaf

/-- The words of one letter that a leaf makes. -/
def words (s : Symbol) : Language Letter := {w | ∃ a, s.Reads a ∧ w = [a]}

end Symbol
end ContentModel

namespace Particle

mutual

/-- The number of leaves of a particle, without those that may never occur. -/
def leaves : Particle → Nat
  | element .. => 1
  | any _ => 1
  | group _ ps _ => leavesOf ps
  | elementRef .. => 0
  | groupRef .. => 0

/-- The number of leaves of several particles, without those that may never occur. -/
def leavesOf : List Particle → Nat
  | [] => 0
  | p :: ps => if p.occurs.never then leavesOf ps else p.leaves + leavesOf ps

end

mutual

/-- The attributed words of one occurrence of a particle, whose leaves are numbered from the given
number on; a reference that is not resolved has none. -/
def occurrence (accepts : ElementId → List Name) : Particle → Nat → Language Letter
  | element d _, k => Symbol.words ⟨k + 1, .names (accepts d)⟩
  | any w, k => Symbol.words ⟨k + 1, .spaces w.spaces⟩
  | group c ps _, k => c.combine (wordsOf accepts ps k)
  | elementRef .., _ => 0
  | groupRef .., _ => 0

/-- The attributed words of each of several particles, without those that may never occur. -/
def wordsOf (accepts : ElementId → List Name) : List Particle → Nat → List (Language Letter)
  | [], _ => []
  | p :: ps, k =>
    if p.occurs.never then wordsOf accepts ps k
    else p.occurs.words (occurrence accepts p k) :: wordsOf accepts ps (k + p.leaves)

end

mutual

/-- The words of one occurrence of a particle; a reference that is not resolved has none. -/
def contents (accepts : ElementId → List Name) : Particle → Language Name
  | element d _ => {w | ∃ n ∈ accepts d, w = [n]}
  | any wildcard => {w | ∃ n, wildcard.admits n = true ∧ w = [n]}
  | group c ps _ => c.combine (contentsOf accepts ps)
  | elementRef .. => 0
  | groupRef .. => 0

/-- The words of each of several particles, without those that may never occur. -/
def contentsOf (accepts : ElementId → List Name) : List Particle → List (Language Name)
  | [] => []
  | p :: ps =>
    if p.occurs.never then contentsOf accepts ps
    else p.occurs.words (contents accepts p) :: contentsOf accepts ps

end

mutual

/-- The names of the attributed words of a particle are its words. -/
theorem map_occurrence (accepts : ElementId → List Name) :
    ∀ (p : Particle) (k : Nat), (p.occurrence accepts k).map Prod.fst = p.contents accepts
  | element d o, k => by
    ext w
    constructor
    · rintro ⟨w, ⟨a, ⟨ha, -⟩, rfl⟩, rfl⟩
      exact ⟨a.1, List.contains_iff_mem.1 ha, rfl⟩
    · rintro ⟨n, hn, rfl⟩
      exact ⟨[(n, _)], ⟨_, ⟨List.contains_iff_mem.2 hn, rfl⟩, rfl⟩, rfl⟩
  | any wildcard, k => by
    ext w
    constructor
    · rintro ⟨w, ⟨a, ⟨ha, -⟩, rfl⟩, rfl⟩
      exact ⟨a.1, ha, rfl⟩
    · rintro ⟨n, hn, rfl⟩
      exact ⟨[(n, _)], ⟨(n, _), ⟨hn, rfl⟩, rfl⟩, rfl⟩
  | group c ps o, k => by
    rw [occurrence, contents, Compositor.map_combine, map_wordsOf]
  | elementRef .., k => by rw [occurrence, contents, map_zero]
  | groupRef .., k => by rw [occurrence, contents, map_zero]

theorem map_wordsOf (accepts : ElementId → List Name) :
    ∀ (ps : List Particle) (k : Nat),
      (wordsOf accepts ps k).map (Language.map Prod.fst) = contentsOf accepts ps
  | [], k => rfl
  | p :: ps, k => by
    rw [wordsOf, contentsOf]
    split
    · exact map_wordsOf accepts ps k
    · rw [List.map_cons, Occurs.map_words, map_occurrence, map_wordsOf]

end

mutual

/-- A particle and all below it. -/
def subtrees : Particle → List Particle
  | p@(group _ ps _) => p :: subtreesOf ps
  | p => [p]

/-- Several particles and all below them. -/
def subtreesOf : List Particle → List Particle
  | [] => []
  | p :: ps => p.subtrees ++ subtreesOf ps

end

/-- A leaf matches at least one name. -/
def MatchesSome (accepts : ElementId → List Name) : Particle → Prop
  | element d _ => ∃ n, n ∈ accepts d
  | any w => ∃ n, w.admits n = true
  | _ => True

end Particle

namespace ModelGroup

/-- The attributed words of a model group: every way to attribute the elements of a content to the
leaves. -/
def attributions (accepts : ElementId → List Name) (g : ModelGroup) : Language Letter :=
  g.occurs.words (g.toParticle.occurrence accepts 0)

/-- The contents that a model group admits. -/
def language (accepts : ElementId → List Name) (g : ModelGroup) : Language Name :=
  g.occurs.words (g.toParticle.contents accepts)

/-- A content is admitted exactly if its elements can be attributed. -/
theorem map_attributions (accepts : ElementId → List Name) (g : ModelGroup) :
    (g.attributions accepts).map Prod.fst = g.language accepts := by
  rw [attributions, Occurs.map_words, Particle.map_occurrence, language]

/-- All bounds of a model group are in order. -/
def BoundsValid (g : ModelGroup) : Prop := ∀ p ∈ g.toParticle.subtrees, p.occurs.Valid

instance (g : ModelGroup) : Decidable g.BoundsValid :=
  inferInstanceAs (Decidable (∀ p ∈ g.toParticle.subtrees, p.occurs.Valid))

/-- Every leaf of a model group matches at least one name. -/
def LeavesMatch (accepts : ElementId → List Name) (g : ModelGroup) : Prop :=
  ∀ p ∈ g.toParticle.subtrees, p.MatchesSome accepts

/-- Elements match something if their declarations have names. -/
theorem leavesMatch_of_elements {accepts : ElementId → List Name} {g : ModelGroup}
    (hg : ∀ p ∈ g.particles, ∃ d o, p = .element d o) (haccepts : ∀ d, ∃ n, n ∈ accepts d) :
    g.LeavesMatch accepts := by
  have hsubtrees : ∀ ps : List Particle, (∀ p ∈ ps, ∃ d o, p = .element d o) →
      Particle.subtreesOf ps = ps := by
    intro ps hps
    induction ps with
    | nil => rfl
    | cons p ps ih =>
      rw [List.forall_mem_cons] at hps
      obtain ⟨⟨d, o, rfl⟩, hps⟩ := hps
      simp [Particle.subtreesOf, Particle.subtrees, ih hps]
  intro p hp
  rw [toParticle, Particle.subtrees, hsubtrees _ hg] at hp
  rcases List.mem_cons.1 hp with rfl | hp
  · trivial
  · obtain ⟨d, o, rfl⟩ := hg p hp
    exact haccepts d

end ModelGroup

/-- Two declarations, called `a` and `b`. -/
def twoNames (d : ElementId) : List Name := [.unqualified (if d.index = 0 then "a" else "b")]

theorem exists_mem_twoNames (d : ElementId) : ∃ n, n ∈ twoNames d := ⟨_, List.mem_cons_self⟩

namespace ContentModel
namespace Node

/-- The leaf that a tree is and what it matches; a group is none. -/
def symbol? : Node → Option Symbol
  | element _ k _ accepts => some ⟨k, .names accepts⟩
  | wildcard _ k spaces _ => some ⟨k, .spaces spaces⟩
  | group .. => none

/-- The trees right below a tree. -/
def children : Node → List Node
  | group _ _ cs => cs
  | _ => []

mutual

/-- The leaves of a tree, from left to right. -/
def symbols : Node → List Symbol
  | element _ k _ accepts => [⟨k, .names accepts⟩]
  | wildcard _ k spaces _ => [⟨k, .spaces spaces⟩]
  | group _ _ cs => symbolsOf cs

/-- The leaves of several trees, from left to right. -/
def symbolsOf : List Node → List Symbol
  | [] => []
  | c :: cs => c.symbols ++ symbolsOf cs

end

mutual

/-- A tree and all below it. -/
def subtrees : Node → List Node
  | n@(group _ _ cs) => n :: subtreesOf cs
  | n => [n]

/-- Several trees and all below them. -/
def subtreesOf : List Node → List Node
  | [] => []
  | c :: cs => c.subtrees ++ subtreesOf cs

end

mutual

/-- The attributed words of one occurrence of a tree. -/
def occurrence : Node → Language Letter
  | element _ k _ accepts => Symbol.words ⟨k, .names accepts⟩
  | wildcard _ k spaces _ => Symbol.words ⟨k, .spaces spaces⟩
  | group _ c cs => c.combine (wordsOf cs)

/-- The attributed words of each of several trees. -/
def wordsOf : List Node → List (Language Letter)
  | [] => []
  | c :: cs => c.occurs.words c.occurrence :: wordsOf cs

end

/-- The attributed words of a tree. -/
def words (n : Node) : Language Letter := n.occurs.words n.occurrence

/-- All bounds of a tree are in order. -/
def Ordered (n : Node) : Prop := ∀ m ∈ n.subtrees, m.occurs.Valid

/-- Every leaf of a tree matches at least one name. -/
def Matchable (n : Node) : Prop :=
  ∀ m ∈ n.subtrees, ∀ s, m.symbol? = some s → ∃ name, s.matcher.matchesName name = true

/-- Below the root of a tree there is no particle that may never occur. -/
def Trimmed (n : Node) : Prop := ∀ m ∈ n.subtrees, ∀ c ∈ m.children, c.occurs.never = false

/-- The leaves of a tree have different numbers. -/
def Numbered (n : Node) : Prop := (n.symbols.map Symbol.leaf).Nodup

/-- A tree is a leaf or a group of trees. -/
theorem induct {P : Node → Prop} (leaf : ∀ n s, n.symbol? = some s → P n)
    (group : ∀ o c cs, (∀ m ∈ cs, P m) → P (.group o c cs)) : ∀ n, P n
  | element .. => leaf _ _ rfl
  | wildcard .. => leaf _ _ rfl
  | .group o c cs => group o c cs (inductOf cs)
where
  inductOf : ∀ cs : List Node, ∀ m ∈ cs, P m
    | [], _, h => absurd h List.not_mem_nil
    | c :: cs, m, h => (List.mem_cons.1 h).elim (fun e => e ▸ induct leaf group c) (inductOf cs m)

theorem symbolsOf_eq (cs : List Node) : symbolsOf cs = cs.flatMap symbols := by
  induction cs with
  | nil => rfl
  | cons c cs ih => rw [symbolsOf, ih, List.flatMap_cons]

theorem subtreesOf_eq (cs : List Node) : subtreesOf cs = cs.flatMap subtrees := by
  induction cs with
  | nil => rfl
  | cons c cs ih => rw [subtreesOf, ih, List.flatMap_cons]

theorem wordsOf_eq (cs : List Node) : wordsOf cs = cs.map words := by
  induction cs with
  | nil => rfl
  | cons c cs ih => rw [wordsOf, ih, List.map_cons, words]

section Leaves

variable {n : Node} {s : Symbol} (hs : n.symbol? = some s)

include hs

theorem symbols_of_leaf : n.symbols = [s] := by
  cases n <;> cases hs <;> rfl

theorem occurrence_of_leaf : n.occurrence = s.words := by
  cases n <;> cases hs <;> rfl

theorem subtrees_of_leaf : n.subtrees = [n] := by
  cases n <;> cases hs <;> rfl

end Leaves

theorem self_mem_subtrees (n : Node) : n ∈ n.subtrees := by
  cases n <;> simp [subtrees]

theorem mem_subtrees_group {o : Occurs} {c : Compositor} {cs : List Node} {m : Node} :
    m ∈ (group o c cs).subtrees ↔ m = group o c cs ∨ ∃ n ∈ cs, m ∈ n.subtrees := by
  rw [subtrees, List.mem_cons, subtreesOf_eq, List.mem_flatMap]

section Groups

variable {o : Occurs} {c : Compositor} {cs : List Node} {m : Node}

theorem Ordered.valid {n : Node} (h : n.Ordered) : n.occurs.Valid := h n n.self_mem_subtrees

theorem Ordered.of_mem (h : (group o c cs).Ordered) (hm : m ∈ cs) : m.Ordered :=
  fun x hx => h x (mem_subtrees_group.2 (Or.inr ⟨m, hm, hx⟩))

theorem Matchable.of_mem (h : (group o c cs).Matchable) (hm : m ∈ cs) : m.Matchable :=
  fun x hx => h x (mem_subtrees_group.2 (Or.inr ⟨m, hm, hx⟩))

theorem Matchable.exists_reads {n : Node} {s : Symbol} (h : n.Matchable)
    (hs : n.symbol? = some s) : ∃ a, s.Reads a :=
  (h n n.self_mem_subtrees s hs).imp' (fun name => (name, s.toLeaf)) fun _ hname => ⟨hname, rfl⟩

theorem Trimmed.of_mem (h : (group o c cs).Trimmed) (hm : m ∈ cs) : m.Trimmed :=
  fun x hx => h x (mem_subtrees_group.2 (Or.inr ⟨m, hm, hx⟩))

theorem Trimmed.never_eq_false (h : (group o c cs).Trimmed) (hm : m ∈ cs) :
    m.occurs.never = false := h _ (self_mem_subtrees _) m hm

end Groups

end Node

/-- What compiling a particle whose leaves are numbered from `k` on keeps of it. -/
structure Faithful (accepts : ElementId → List Name) (p : Particle) (k : Nat) (n : Node)
    (k' : Nat) : Prop where
  occurs : n.occurs = p.occurs
  occurrence : n.occurrence = p.occurrence accepts k
  leaves : k' = k + p.leaves
  numbers : n.symbols.map Symbol.leaf = List.range' (k + 1) p.leaves
  trimmed : n.Trimmed
  ordered : (∀ q ∈ p.subtrees, q.occurs.Valid) → n.Ordered
  matchable : (∀ q ∈ p.subtrees, q.MatchesSome accepts) → n.Matchable

/-- What compiling several particles whose leaves are numbered from `k` on keeps of them. -/
structure FaithfulList (accepts : ElementId → List Name) (ps : List Particle) (k : Nat)
    (cs : List Node) (k' : Nat) : Prop where
  words : Node.wordsOf cs = Particle.wordsOf accepts ps k
  leaves : k' = k + Particle.leavesOf ps
  numbers : (Node.symbolsOf cs).map Symbol.leaf = List.range' (k + 1) (Particle.leavesOf ps)
  present : ∀ c ∈ cs, c.occurs.never = false
  trimmed : ∀ c ∈ cs, c.Trimmed
  ordered : (∀ q ∈ Particle.subtreesOf ps, q.occurs.Valid) → ∀ c ∈ cs, c.Ordered
  matchable : (∀ q ∈ Particle.subtreesOf ps, q.MatchesSome accepts) → ∀ c ∈ cs, c.Matchable

/-- A tree that is a leaf is faithful to a particle that is the same leaf. -/
theorem Faithful.of_leaf {accepts : ElementId → List Name} {p : Particle} {k : Nat} {n : Node}
    {s : Symbol} (hs : n.symbol? = some s) (hk : s.leaf = k + 1) (hleaves : p.leaves = 1)
    (hp : p ∈ p.subtrees) (hoccurs : n.occurs = p.occurs)
    (hoccurrence : s.words = p.occurrence accepts k)
    (hmatch : p.MatchesSome accepts → ∃ name, s.matcher.matchesName name = true) :
    Faithful accepts p k n (k + 1) where
  occurs := hoccurs
  occurrence := (Node.occurrence_of_leaf hs).trans hoccurrence
  leaves := by rw [hleaves]
  numbers := by simp [Node.symbols_of_leaf hs, hleaves, hk]
  trimmed m hm := by
    rw [Node.subtrees_of_leaf hs, List.mem_singleton] at hm
    subst hm
    cases m <;> cases hs <;> simp [Node.children]
  ordered h m hm := by
    rw [Node.subtrees_of_leaf hs, List.mem_singleton] at hm
    exact hm ▸ hoccurs ▸ h p hp
  matchable h m hm t ht := by
    rw [Node.subtrees_of_leaf hs, List.mem_singleton] at hm
    subst hm
    obtain rfl := Option.some.inj (hs.symm.trans ht)
    exact hmatch (h p hp)

/-- A group of faithful trees is faithful to a group of their particles. -/
theorem FaithfulList.group {accepts : ElementId → List Name} {ps : List Particle} {k k' : Nat}
    {cs : List Node} (h : FaithfulList accepts ps k cs k') (o : Occurs) (c : Compositor) :
    Faithful accepts (.group c ps o) k (.group o c cs) k' where
  occurs := rfl
  occurrence := by rw [Node.occurrence, Particle.occurrence, h.words]
  leaves := h.leaves
  numbers := h.numbers
  trimmed m hm := by
    rcases Node.mem_subtrees_group.1 hm with rfl | ⟨n, hn, hm⟩
    · exact h.present
    · exact h.trimmed n hn m hm
  ordered hp m hm := by
    rw [Particle.subtrees] at hp
    rcases Node.mem_subtrees_group.1 hm with rfl | ⟨n, hn, hm⟩
    · exact hp _ List.mem_cons_self
    · exact h.ordered (fun q hq => hp q (List.mem_cons_of_mem _ hq)) n hn m hm
  matchable hp m hm s hs := by
    rw [Particle.subtrees] at hp
    rcases Node.mem_subtrees_group.1 hm with rfl | ⟨n, hn, hm⟩
    · cases hs
    · exact h.matchable (fun q hq => hp q (List.mem_cons_of_mem _ hq)) n hn m hm s hs

/-- No trees are faithful to no particles. -/
theorem FaithfulList.nil (accepts : ElementId → List Name) (k : Nat) :
    FaithfulList accepts [] k [] k where
  words := rfl
  leaves := rfl
  numbers := rfl
  present := nofun
  trimmed := nofun
  ordered _ := nofun
  matchable _ := nofun

/-- A particle that may never occur leaves no trace. -/
theorem FaithfulList.skip {accepts : ElementId → List Name} {p : Particle} {ps : List Particle}
    {k k' : Nat} {cs : List Node} (hp : p.occurs.never = true)
    (h : FaithfulList accepts ps k cs k') : FaithfulList accepts (p :: ps) k cs k' where
  words := by rw [h.words, Particle.wordsOf, if_pos hp]
  leaves := by rw [h.leaves, Particle.leavesOf, if_pos hp]
  numbers := by rw [h.numbers, Particle.leavesOf, if_pos hp]
  present := h.present
  trimmed := h.trimmed
  ordered hq := h.ordered fun q hq' => hq q (List.mem_append_right _ hq')
  matchable hq := h.matchable fun q hq' => hq q (List.mem_append_right _ hq')

/-- A faithful tree before faithful trees. -/
theorem FaithfulList.cons {accepts : ElementId → List Name} {p : Particle} {ps : List Particle}
    {k k' k'' : Nat} {c : Node} {cs : List Node} (hp : p.occurs.never = false)
    (hc : Faithful accepts p k c k') (h : FaithfulList accepts ps k' cs k'') :
    FaithfulList accepts (p :: ps) k (c :: cs) k'' where
  words := by
    rw [Node.wordsOf, hc.occurs, hc.occurrence, h.words, Particle.wordsOf, if_neg (by simp [hp]),
      hc.leaves]
  leaves := by rw [h.leaves, hc.leaves, Particle.leavesOf, if_neg (by simp [hp]), Nat.add_assoc]
  numbers := by
    rw [Node.symbolsOf, List.map_append, hc.numbers, h.numbers, Particle.leavesOf,
      if_neg (by simp [hp]), hc.leaves, show k + p.leaves + 1 = k + 1 + 1 * p.leaves by omega,
      List.range'_append]
  present := List.forall_mem_cons.2 ⟨hc.occurs ▸ hp, h.present⟩
  trimmed := List.forall_mem_cons.2 ⟨hc.trimmed, h.trimmed⟩
  ordered hq := List.forall_mem_cons.2
    ⟨hc.ordered fun q hq' => hq q (List.mem_append_left _ hq'),
      h.ordered fun q hq' => hq q (List.mem_append_right _ hq')⟩
  matchable hq := List.forall_mem_cons.2
    ⟨hc.matchable fun q hq' => hq q (List.mem_append_left _ hq'),
      h.matchable fun q hq' => hq q (List.mem_append_right _ hq')⟩

section Build

variable {accepts : ElementId → List Name} {limits : Limits}

mutual

/-- **Compiling keeps the words of a particle.** -/
theorem buildNode_faithful : ∀ (p : Particle) {depth k : Nat} {n : Node} {k' : Nat},
    buildNode accepts limits depth p k = .ok (n, k') → Faithful accepts p k n k'
  | .element d o, depth, k, n, k', h => by
    rw [buildNode] at h
    cases h
    exact .of_leaf rfl rfl rfl List.mem_cons_self rfl rfl fun ⟨name, hname⟩ =>
      ⟨name, List.contains_iff_mem.2 hname⟩
  | .any w, depth, k, n, k', h => by
    rw [buildNode] at h
    cases h
    exact .of_leaf rfl rfl rfl List.mem_cons_self rfl rfl id
  | .group c ps o, depth, k, n, k', h => by
    rw [buildNode] at h
    split at h
    · cases h
    · cases hcs : buildNodes accepts limits (depth + 1) ps k with
      | error e =>
        rw [hcs] at h
        cases h
      | ok built =>
        rw [hcs] at h
        cases h
        exact (buildNodes_faithful ps hcs).group o c
  | .elementRef .., depth, k, n, k', h => by
    rw [buildNode] at h
    cases h
  | .groupRef .., depth, k, n, k', h => by
    rw [buildNode] at h
    cases h

theorem buildNodes_faithful : ∀ (ps : List Particle) {depth k : Nat} {cs : List Node} {k' : Nat},
    buildNodes accepts limits depth ps k = .ok (cs, k') → FaithfulList accepts ps k cs k'
  | [], depth, k, cs, k', h => by
    rw [buildNodes] at h
    cases h
    exact .nil accepts k
  | p :: ps, depth, k, cs, k', h => by
    rw [buildNodes] at h
    split at h <;> rename_i hp
    · exact (buildNodes_faithful ps h).skip hp
    · cases hc : buildNode accepts limits depth p k with
      | error e =>
        rw [hc] at h
        cases h
      | ok built =>
        obtain ⟨c, k₁⟩ := built
        rw [hc] at h
        cases hcs : buildNodes accepts limits depth ps k₁ with
        | error e => simp [bind, Except.bind, hcs] at h
        | ok built' =>
          simp only [bind, Except.bind, hcs, pure, Except.pure] at h
          cases h
          have hp' := Bool.eq_false_iff.2 hp
          exact .cons hp' (buildNode_faithful p hc) (buildNodes_faithful ps hcs)

end

mutual

/-- Building a tree looks for no ambiguities. -/
theorem buildNode_ne_ambiguous {a : Ambiguity} : ∀ (p : Particle) {depth k : Nat},
    buildNode accepts limits depth p k ≠ .error (.ambiguous a)
  | .element .., _, _ => by simp [buildNode]
  | .any _, _, _ => by simp [buildNode]
  | .group c ps o, depth, k => by
    rw [buildNode]
    split
    · simp
    · cases hcs : buildNodes accepts limits (depth + 1) ps k with
      | error e =>
        rintro h
        cases h
        exact buildNodes_ne_ambiguous ps hcs
      | ok built => rintro ⟨⟩
  | .elementRef .., _, _ => by simp [buildNode]
  | .groupRef .., _, _ => by simp [buildNode]

theorem buildNodes_ne_ambiguous {a : Ambiguity} : ∀ (ps : List Particle) {depth k : Nat},
    buildNodes accepts limits depth ps k ≠ .error (.ambiguous a)
  | [], _, _ => by simp [buildNodes]
  | p :: ps, depth, k => by
    rw [buildNodes]
    split
    · exact buildNodes_ne_ambiguous ps
    · intro h
      cases hc : buildNode accepts limits depth p k with
      | error e =>
        rw [hc] at h
        cases h
        exact buildNode_ne_ambiguous p hc
      | ok built =>
        obtain ⟨c, k₁⟩ := built
        cases hcs : buildNodes accepts limits depth ps k₁ with
        | error e =>
          simp only [bind, Except.bind, hc, hcs] at h
          cases h
          exact buildNodes_ne_ambiguous ps hcs
        | ok built' => simp [bind, Except.bind, hc, hcs, pure, Except.pure] at h

end

namespace Automaton

variable {g : ModelGroup} {version : Version}

/-- A compiled content model comes from a faithful tree in which the check finds no ambiguity. -/
theorem of_compile_eq_ok {m : Automaton} (h : compile g accepts version limits = .ok m) :
    (∃ k, Faithful accepts g.toParticle 0 m.root k) ∧ m.root.ambiguity? version = none := by
  rw [compile] at h
  cases hroot : buildNode accepts limits 0 g.toParticle 0 with
  | error e => simp [bind, Except.bind, hroot] at h
  | ok built =>
    obtain ⟨root, k⟩ := built
    simp only [bind, Except.bind, hroot] at h
    cases ha : root.ambiguity? version with
    | some a => simp [ha] at h
    | none =>
      simp only [ha] at h
      cases h
      exact ⟨⟨k, buildNode_faithful _ hroot⟩, ha⟩

/-- A model group is refused as ambiguous for what the check finds in a faithful tree. -/
theorem of_compile_eq_ambiguous {a : Ambiguity}
    (h : compile g accepts version limits = .error (.ambiguous a)) :
    ∃ root k, buildNode accepts limits 0 g.toParticle 0 = .ok (root, k) ∧
      root.ambiguity? version = some a := by
  rw [compile] at h
  cases hroot : buildNode accepts limits 0 g.toParticle 0 with
  | error e =>
    simp only [bind, Except.bind, hroot] at h
    cases h
    exact absurd hroot (buildNode_ne_ambiguous _)
  | ok built =>
    obtain ⟨root, k⟩ := built
    simp only [bind, Except.bind, hroot] at h
    cases ha : root.ambiguity? version with
    | none => simp [ha] at h
    | some b =>
      simp only [ha] at h
      cases h
      exact ⟨root, k, rfl, ha⟩

end Automaton

end Build

/-- The words of a faithful tree are those of its particle. -/
theorem Faithful.words_eq {accepts : ElementId → List Name} {g : ModelGroup} {n : Node} {k : Nat}
    (h : Faithful accepts g.toParticle 0 n k) : n.words = g.attributions accepts := by
  rw [Node.words, h.occurs, h.occurrence, ModelGroup.attributions]
  rfl

/-- The leaves of a faithful tree have different numbers. -/
theorem Faithful.numbered {accepts : ElementId → List Name} {p : Particle} {k k' : Nat} {n : Node}
    (h : Faithful accepts p k n k') : n.Numbered := by
  rw [Node.Numbered, h.numbers]
  exact List.nodup_range'

end ContentModel

end SchemaAssist
