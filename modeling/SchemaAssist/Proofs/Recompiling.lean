/-
# Compiling under other identifiers

Whether a content model is ambiguous, and what is said of it then, depends on its leaves, on the names
that they match and on the first of these (`ContentModel.Node.ambiguity?_relabel`).  So a model group
under other identifiers is compiled to the same content model under other identifiers
(`ContentModel.Automaton.compile_rename_of_ok`), or refused in the same words
(`ContentModel.Automaton.compile_rename_of_error`), and the model is replayed alike.
-/

import SchemaAssist.Proofs.Relabeling
import SchemaAssist.Proofs.Renaming

namespace SchemaAssist

open Referring (rename)

section Distinct

variable {α β : Type} [DecidableEq α] [DecidableEq β] {g : α → β}

/-- What is new under other names is new. -/
theorem addAllNew_map (hg : g.Injective) (xs ys : List α) :
    addAllNew (xs.map g) (ys.map g) = (addAllNew xs ys).map g := by
  induction ys generalizing xs with
  | nil => rfl
  | cons y ys ih =>
    have hnew : addNew (xs.map g) (g y) = (addNew xs y).map g := by
      by_cases hy : y ∈ xs
      · rw [addNew, addNew, if_pos hy, if_pos (List.mem_map_of_mem hy)]
      · rw [addNew, addNew, if_neg hy, if_neg fun h => hy ((List.mem_map_of_injective hg).1 h),
          List.map_append, List.map_singleton]
    change addAllNew (addNew (xs.map g) (g y)) (ys.map g) = _
    rw [hnew, ih]
    rfl

theorem distinct_map (hg : g.Injective) (xs : List α) :
    distinct (xs.map g) = (distinct xs).map g := addAllNew_map hg [] xs

end Distinct

namespace ContentModel

/-! ### Leaves that compete -/

/-- Two matchers match the same and are called the same. -/
inductive Matcher.Like : Matcher → Matcher → Prop
  | names {xs ys : List Name} : SameNames xs ys → Like (.names xs) (.names ys)
  | spaces (s : Spaces) : Like (.spaces s) (.spaces s)

/-- Two leaves have the same number and match the same. -/
structure Symbol.Like (s s' : Symbol) : Prop where
  leaf_eq : s.leaf = s'.leaf
  matcher : s.matcher.Like s'.matcher

theorem Matcher.Like.describe_eq {x x' : Matcher} (h : x.Like x') : x.describe = x'.describe := by
  cases h with
  | names h => rw [describe, describe, h.head?_eq]
  | spaces s => rfl

theorem Matcher.Like.competes_eq {version : Version} {x x' y y' : Matcher} (hx : x.Like x')
    (hy : y.Like y') : x.competes version y = x'.competes version y' := by
  cases hx with
  | @names xs xs' hx =>
    cases hy with
    | @names ys ys' hy =>
      have hcontains : ys.contains = ys'.contains := funext hy.contains_eq
      rw [competes, competes, hcontains, hx.any_eq]
    | spaces s => rw [competes, competes, hx.any_eq]
  | spaces s =>
    cases hy with
    | names hy => rw [competes, competes, hy.any_eq]
    | spaces s' => rfl

theorem Symbol.Like.competes_eq {version : Version} {x x' y y' : Symbol} (hx : x.Like x')
    (hy : y.Like y') : x.competes version y = x'.competes version y' := by
  rw [competes, competes, hx.leaf_eq, hy.leaf_eq, hx.matcher.competes_eq hy.matcher]

/-- Lists of the same leaves. -/
abbrev SymbolsLike : List Symbol → List Symbol → Prop := List.Forall₂ Symbol.Like

variable {version : Version} {xs xs' ys ys' : List Symbol}

theorem find?_competes_of_like {x x' : Symbol} (hx : x.Like x') (hys : SymbolsLike ys ys') :
    (ys.find? (x.competes version)).map (·.matcher.describe) =
      (ys'.find? (x'.competes version)).map (·.matcher.describe) := by
  induction hys with
  | nil => rfl
  | cons hy _ ih =>
    rw [List.find?_cons, List.find?_cons, hx.competes_eq hy]
    split
    · exact congrArg some hy.matcher.describe_eq
    · exact ih

/-- What the message of an ambiguity tells. -/
def Ambiguity.told (a : Ambiguity) : String × String × Compositor :=
  (a.left.describe, a.right.describe, a.compositor)

theorem Ambiguity.message_eq_of_told {x y : Ambiguity} (h : x.told = y.told) :
    x.message = y.message := by
  obtain ⟨hleft, hrest⟩ := Prod.mk.inj h
  obtain ⟨hright, hcompositor⟩ := Prod.mk.inj hrest
  unfold message
  dsimp only
  rw [hleft, hright, hcompositor]

/-- The same leaves compete, and the same is told of them. -/
theorem told_conflict?_of_like (version : Version) (c : Compositor) (hxs : SymbolsLike xs xs')
    (hys : SymbolsLike ys ys') : (conflict? version c xs ys).map Ambiguity.told =
      (conflict? version c xs' ys').map Ambiguity.told := by
  induction hxs with
  | nil => rfl
  | @cons x x' xs xs' hx _ ih =>
    have hcons (x : Symbol) (xs ys : List Symbol) :
        (conflict? version c (x :: xs) ys).map Ambiguity.told =
          (((ys.find? (x.competes version)).map (·.matcher.describe)).map
            fun right => (x.matcher.describe, right, c)).or
              ((conflict? version c xs ys).map Ambiguity.told) := by
      rw [conflict?, List.findSome?_cons]
      cases ys.find? (x.competes version) <;> rfl
    rw [hcons, hcons, ih, find?_competes_of_like hx hys, hx.matcher.describe_eq]

namespace Node

variable {f : ElementId → ElementId} {a : ElementId → List Name} {n : Node} {cs : List Node}

/-- A tree under other identifiers starts with the same leaves. -/
def StartsAlike (f : ElementId → ElementId) (a : ElementId → List Name) (n : Node) : Prop :=
  SymbolsLike n.firstSymbols (n.relabel f a).firstSymbols

theorem symbolsLike_ite {b : Bool} (h : SymbolsLike xs ys) :
    SymbolsLike (if b then xs else []) (if b then ys else []) := by
  split
  · exact h
  · exact .nil

section FirstSymbols

variable (h : ∀ m ∈ cs, StartsAlike f a m)

include h

theorem sequenceFirstSymbols_relabel :
    SymbolsLike (sequenceFirstSymbols cs) (sequenceFirstSymbols (cs.map (relabel f a))) := by
  induction cs with
  | nil => exact .nil
  | cons m cs ih =>
    rw [List.forall_mem_cons] at h
    rw [List.map_cons, sequenceFirstSymbols, sequenceFirstSymbols, nullable_relabel]
    exact List.rel_append h.1 (symbolsLike_ite (ih h.2))

theorem eachFirstSymbols_relabel :
    SymbolsLike (eachFirstSymbols cs) (eachFirstSymbols (cs.map (relabel f a))) := by
  induction cs with
  | nil => exact .nil
  | cons m cs ih =>
    rw [List.forall_mem_cons] at h
    exact List.rel_append h.1 (ih h.2)

end FirstSymbols

theorem firstSymbols_relabel (h : n.NamedAs a) : StartsAlike f a n := by
  induction n using induct with
  | leaf n s hs =>
    cases n with
    | element o leaf d names =>
      exact .cons ⟨rfl, .names (h o leaf d names (self_mem_subtrees _))⟩ .nil
    | wildcard o leaf spaces p => exact .cons ⟨rfl, .spaces spaces⟩ .nil
    | group => cases hs
  | group o c cs ih =>
    have hcs : ∀ m ∈ cs, StartsAlike f a m := fun m hm => ih m hm (h.of_mem hm)
    rw [StartsAlike, relabel_group]
    cases c with
    | sequence => exact sequenceFirstSymbols_relabel hcs
    | choice => exact eachFirstSymbols_relabel hcs
    | all => exact eachFirstSymbols_relabel hcs

section EndSymbols

variable (hnamed : ∀ m ∈ cs, m.NamedAs a)
  (h : ∀ m ∈ cs, SymbolsLike m.termEndSymbols (m.relabel f a).termEndSymbols)

include hnamed h

theorem sequenceEndSymbols_relabel :
    SymbolsLike (sequenceEndSymbols cs) (sequenceEndSymbols (cs.map (relabel f a))) := by
  induction cs with
  | nil => exact .nil
  | cons m cs ih =>
    rw [List.forall_mem_cons] at h hnamed
    have hnullable : (cs.map (relabel f a)).all nullable = cs.all nullable := by
      rw [← allNullable_eq, ← allNullable_eq, allNullable_relabel]
    have hfirst := firstSymbols_relabel (f := f) hnamed.1
    rw [List.map_cons, sequenceEndSymbols, sequenceEndSymbols, hnullable, occurs_relabel,
      nullable_relabel]
    split
    · exact List.rel_append (List.rel_append (List.rel_append h.1 (symbolsLike_ite hfirst))
        (symbolsLike_ite hfirst)) (ih hnamed.2 h.2)
    · exact ih hnamed.2 h.2

theorem eachEndSymbols_relabel :
    SymbolsLike (eachEndSymbols cs) (eachEndSymbols (cs.map (relabel f a))) := by
  induction cs with
  | nil => exact .nil
  | cons m cs ih =>
    rw [List.forall_mem_cons] at h hnamed
    rw [List.map_cons, eachEndSymbols, eachEndSymbols, occurs_relabel]
    exact List.rel_append (List.rel_append h.1
      (symbolsLike_ite (firstSymbols_relabel hnamed.1))) (ih hnamed.2 h.2)

end EndSymbols

theorem termEndSymbols_relabel (h : n.NamedAs a) :
    SymbolsLike n.termEndSymbols (n.relabel f a).termEndSymbols := by
  induction n using induct with
  | leaf n s hs =>
    cases n with
    | group => cases hs
    | _ => exact .nil
  | group o c cs ih =>
    have hnamed : ∀ m ∈ cs, m.NamedAs a := fun m hm => h.of_mem hm
    have hcs : ∀ m ∈ cs, SymbolsLike m.termEndSymbols (m.relabel f a).termEndSymbols :=
      fun m hm => ih m hm (hnamed m hm)
    rw [relabel_group]
    cases c with
    | sequence => exact sequenceEndSymbols_relabel hnamed hcs
    | choice => exact eachEndSymbols_relabel hnamed hcs
    | all => exact eachEndSymbols_relabel hnamed hcs

theorem endSymbols_relabel (h : n.NamedAs a) :
    SymbolsLike n.endSymbols (n.relabel f a).endSymbols := by
  rw [endSymbols, endSymbols, occurs_relabel]
  exact List.rel_append (termEndSymbols_relabel h) (symbolsLike_ite (firstSymbols_relabel h))

section Conflicts

variable (h : ∀ m ∈ cs, m.NamedAs a)

include h

theorem followConflict?_relabel {tail tail' : List Symbol} (htail : SymbolsLike tail tail') :
    (followConflict? version tail' (cs.map (relabel f a))).map Ambiguity.told =
      (followConflict? version tail cs).map Ambiguity.told := by
  induction cs with
  | nil => rfl
  | cons m cs ih =>
    rw [List.forall_mem_cons] at h
    have hor (tail : List Symbol) (m : Node) (cs : List Node) :
        followConflict? version tail (m :: cs) =
          (conflict? version .sequence tail m.firstSymbols).or
            (if m.nullable then followConflict? version tail cs else none) := by
      rw [followConflict?]
      cases conflict? version .sequence tail m.firstSymbols <;> rfl
    rw [List.map_cons, hor, hor, nullable_relabel, Option.map_or, Option.map_or,
      ← told_conflict?_of_like _ .sequence htail (firstSymbols_relabel h.1),
      apply_ite (Option.map Ambiguity.told), apply_ite (Option.map Ambiguity.told), ih h.2]

theorem sequenceConflict?_relabel :
    (sequenceConflict? version (cs.map (relabel f a))).map Ambiguity.told =
      (sequenceConflict? version cs).map Ambiguity.told := by
  induction cs with
  | nil => rfl
  | cons m cs ih =>
    rw [List.forall_mem_cons] at h
    rw [List.map_cons, sequenceConflict?, sequenceConflict?, Option.map_or, Option.map_or,
      followConflict?_relabel h.2 (endSymbols_relabel h.1), ih h.2]

theorem findSome?_conflict?_relabel (c : Compositor) (hxs : SymbolsLike xs xs') :
    ((cs.map (relabel f a)).findSome? fun d => conflict? version c xs' d.firstSymbols).map
        Ambiguity.told =
      (cs.findSome? fun d => conflict? version c xs d.firstSymbols).map Ambiguity.told := by
  induction cs with
  | nil => rfl
  | cons m cs ih =>
    rw [List.forall_mem_cons] at h
    have hor (xs : List Symbol) (m : Node) (cs : List Node) :
        ((m :: cs).findSome? fun d => conflict? version c xs d.firstSymbols) =
          (conflict? version c xs m.firstSymbols).or
            (cs.findSome? fun d => conflict? version c xs d.firstSymbols) := by
      rw [List.findSome?_cons]
      cases conflict? version c xs m.firstSymbols <;> rfl
    rw [List.map_cons, hor, hor, Option.map_or, Option.map_or, ih h.2,
      told_conflict?_of_like _ c hxs (firstSymbols_relabel h.1)]

theorem startConflict?_relabel (c : Compositor) :
    (startConflict? version c (cs.map (relabel f a))).map Ambiguity.told =
      (startConflict? version c cs).map Ambiguity.told := by
  induction cs with
  | nil => rfl
  | cons m cs ih =>
    rw [List.forall_mem_cons] at h
    rw [List.map_cons, startConflict?, startConflict?, Option.map_or, Option.map_or, ih h.2,
      findSome?_conflict?_relabel h.2 c (firstSymbols_relabel h.1)]

theorem siblingConflict?_relabel (c : Compositor) :
    (siblingConflict? version c (cs.map (relabel f a))).map Ambiguity.told =
      (siblingConflict? version c cs).map Ambiguity.told := by
  cases c with
  | sequence => exact sequenceConflict?_relabel h
  | choice => exact startConflict?_relabel h .choice
  | all => exact startConflict?_relabel h .all

end Conflicts

/-- **A tree under other identifiers is ambiguous for the same reason.** -/
theorem ambiguity?_relabel (f : ElementId → ElementId) (version : Version) (h : n.NamedAs a) :
    ((n.relabel f a).ambiguity? version).map Ambiguity.told =
      (n.ambiguity? version).map Ambiguity.told := by
  induction n using induct with
  | leaf n s hs =>
    cases n with
    | group => cases hs
    | _ => rfl
  | group o c cs ih =>
    have hnamed : ∀ m ∈ cs, m.NamedAs a := fun m hm => h.of_mem hm
    have hinside : (ambiguityIn? version (cs.map (relabel f a))).map Ambiguity.told =
        (ambiguityIn? version cs).map Ambiguity.told := by
      clear h
      induction cs with
      | nil => rfl
      | cons m cs ihcs =>
        rw [List.forall_mem_cons] at ih hnamed
        rw [List.map_cons, ambiguityIn?, ambiguityIn?, Option.map_or, Option.map_or,
          ih.1 hnamed.1, ihcs ih.2 hnamed.2]
    have hrepeat := told_conflict?_of_like version c
      (termEndSymbols_relabel (f := f) h) (firstSymbols_relabel (f := f) h)
    rw [relabel_group] at hrepeat ⊢
    rw [ambiguity?, ambiguity?, Option.map_or, Option.map_or, Option.map_or, Option.map_or,
      siblingConflict?_relabel hnamed, hinside, apply_ite (Option.map Ambiguity.told),
      apply_ite (Option.map Ambiguity.told), hrepeat]

end Node

/-! ### Compiling -/

section Build

variable {ρ : Renaming} {accepts accepts' : ElementId → List Name} {limits : Limits}

/-- The names accepted for an element under its other identifier. -/
def acceptsUnder (ρ : Renaming) (accepts' : ElementId → List Name) (d : ElementId) : List Name :=
  accepts' (ρ.element d)

mutual

/-- The tree of a particle under other identifiers. -/
theorem buildNode_renamed : ∀ (p : Particle) (depth k : Nat),
    buildNode accepts' limits depth (p.renamed ρ) k = (buildNode accepts limits depth p k).map
      (Prod.map (Node.relabel ρ.element (acceptsUnder ρ accepts')) id)
  | .element d o, _, _ => rfl
  | .any w, _, _ => rfl
  | .group c ps o, depth, k => by
    rw [Particle.renamed, buildNode, buildNode]
    cases limits.checkModelDepth (depth + 1) with
    | error e => rfl
    | ok _ =>
      have hps := buildNodes_renamed ps (depth + 1) k
      dsimp only
      rw [hps]
      cases buildNodes accepts limits (depth + 1) ps k with
      | error e => rfl
      | ok built =>
        have hgroup := Node.relabel_group (f := ρ.element) (a := acceptsUnder ρ accepts') o c built.1
        exact congrArg (fun n => Except.ok (n, built.2)) hgroup.symm
  | .elementRef n o, _, _ => rfl
  | .groupRef n o, _, _ => rfl

/-- The trees of particles under other identifiers. -/
theorem buildNodes_renamed : ∀ (ps : List Particle) (depth k : Nat),
    buildNodes accepts' limits depth (Particle.renamedAll ρ ps) k =
      (buildNodes accepts limits depth ps k).map
        (Prod.map (List.map (Node.relabel ρ.element (acceptsUnder ρ accepts'))) id)
  | [], _, _ => rfl
  | p :: ps, depth, k => by
    have hoccurs : (p.renamed ρ).occurs = p.occurs := by cases p <;> rfl
    rw [Particle.renamedAll, buildNodes, buildNodes, hoccurs, buildNode_renamed p]
    split
    · exact buildNodes_renamed ps depth k
    · cases buildNode accepts limits depth p k with
      | error e => rfl
      | ok built =>
        change (buildNodes accepts' limits depth (Particle.renamedAll ρ ps) built.2 >>= _) =
          Except.map _ (buildNodes accepts limits depth ps built.2 >>= _)
        rw [buildNodes_renamed ps]
        cases buildNodes accepts limits depth ps built.2 <;> rfl

end

end Build

namespace Automaton

variable {f : ElementId → ElementId} {a : ElementId → List Name} {m : Automaton}

/-- A content model with other identifiers, and with the names that are accepted for its
declarations. -/
def relabel (f : ElementId → ElementId) (a : ElementId → List Name) (m : Automaton) : Automaton :=
  ⟨m.root.relabel f a, m.variant⟩

section Compile

variable {ρ : Renaming} {accepts accepts' : ElementId → List Name} {version : Version}
  {limits : Limits} {g : ModelGroup}

/-- The leaves of a tree that is made of a particle match the names of their declarations. -/
theorem namedAs_of_buildNode {p : Particle} {depth k k' : Nat} {n : Node}
    (h : buildNode accepts limits depth p k = .ok (n, k'))
    (hnames : ∀ d ∈ p.elements, SameNames (accepts d) (a d)) : n.NamedAs a := by
  intro o leaf d names hleaf
  obtain ⟨q, hq, horigin⟩ := exists_origin_of_buildNode p h _ hleaf
  cases horigin with
  | element => exact hnames d ((Particle.mem_elements_iff _).2 ⟨o, hq⟩)

/-- A tree that has been made of a model group is a content model unless it is ambiguous. -/
def ofRoot (version : Version) (c : Compositor) (root : Node) : Except Refusal Automaton :=
  match root.ambiguity? version with
  | some a => .error (.ambiguous a)
  | none => .ok ⟨root, variantOf version c⟩

theorem compile_eq (g : ModelGroup) (accepts : ElementId → List Name) (version : Version)
    (limits : Limits) : compile g accepts version limits =
      (buildNode accepts limits 0 g.toParticle 0).bind fun built =>
        ofRoot version g.compositor built.1 := rfl

theorem ofRoot_of_none {c : Compositor} {root : Node} (h : root.ambiguity? version = none) :
    ofRoot version c root = .ok ⟨root, variantOf version c⟩ := by
  rw [ofRoot, h]

theorem ofRoot_of_some {c : Compositor} {root : Node} {x : Ambiguity}
    (h : root.ambiguity? version = some x) : ofRoot version c root = .error (.ambiguous x) := by
  rw [ofRoot, h]

theorem buildNode_toParticle_rename (accepts accepts' : ElementId → List Name) :
    buildNode accepts' limits 0 (rename ρ g).toParticle 0 = (buildNode accepts limits 0 g.toParticle 0).map
      (Prod.map (Node.relabel ρ.element (acceptsUnder ρ accepts')) id) := by
  have htoParticle : (rename ρ g).toParticle = g.toParticle.renamed ρ :=
    (Particle.renamed_group ρ g.compositor g.particles g.occurs).symm
  rw [htoParticle, buildNode_renamed]

variable (hnames : ∀ d ∈ g.toParticle.elements,
  SameNames (accepts d) (acceptsUnder ρ accepts' d))

include hnames

/-- **A model group under other identifiers is compiled to the same content model**, but for
identifiers. -/
theorem compile_rename_of_ok (h : compile g accepts version limits = .ok m) :
    m.root.NamedAs (acceptsUnder ρ accepts') ∧ compile (rename ρ g) accepts' version limits =
      .ok (m.relabel ρ.element (acceptsUnder ρ accepts')) := by
  rw [compile_eq] at h ⊢
  rw [buildNode_toParticle_rename accepts]
  cases hroot : buildNode accepts limits 0 g.toParticle 0 with
  | error e =>
    rw [hroot] at h
    cases h
  | ok built =>
    rw [hroot] at h
    have hnamed : built.1.NamedAs (acceptsUnder ρ accepts') := namedAs_of_buildNode hroot hnames
    have htold := Node.ambiguity?_relabel ρ.element version hnamed
    change ofRoot version g.compositor built.1 = .ok m at h
    change _ ∧ ofRoot version g.compositor (built.1.relabel ρ.element _) = _
    cases hx : built.1.ambiguity? version with
    | some x =>
      rw [ofRoot_of_some hx] at h
      cases h
    | none =>
      have hnone : Option.map Ambiguity.told _ = none :=
        htold.trans (congrArg (Option.map Ambiguity.told) hx)
      rw [ofRoot_of_none hx] at h
      cases h
      exact ⟨hnamed, ofRoot_of_none (Option.map_eq_none_iff.1 hnone)⟩

/-- **A model group under other identifiers is refused in the same words.** -/
theorem compile_rename_of_error {r : Refusal} (h : compile g accepts version limits = .error r) :
    ∃ r', compile (rename ρ g) accepts' version limits = .error r' ∧
      r'.message = r.message := by
  rw [compile_eq] at h ⊢
  rw [buildNode_toParticle_rename accepts]
  cases hroot : buildNode accepts limits 0 g.toParticle 0 with
  | error e =>
    rw [hroot] at h
    obtain rfl : e = r := Except.error.inj h
    exact ⟨e, rfl, rfl⟩
  | ok built =>
    rw [hroot] at h
    have hnamed : built.1.NamedAs (acceptsUnder ρ accepts') := namedAs_of_buildNode hroot hnames
    have htold := Node.ambiguity?_relabel ρ.element version hnamed
    change ofRoot version g.compositor built.1 = .error r at h
    change ∃ r', ofRoot version g.compositor (built.1.relabel ρ.element _) = .error r' ∧ _
    cases hx : built.1.ambiguity? version with
    | some x =>
      have hsome : Option.map Ambiguity.told _ = some x.told :=
        htold.trans (congrArg (Option.map Ambiguity.told) hx)
      obtain ⟨y, hy, hxy⟩ := Option.map_eq_some_iff.1 hsome
      rw [ofRoot_of_some hx] at h
      obtain rfl : .ambiguous x = r := Except.error.inj h
      refine ⟨.ambiguous y, ofRoot_of_some hy, ?_⟩
      exact congrArg ("ambiguous content model: " ++ ·) (Ambiguity.message_eq_of_told hxy)
    | none =>
      rw [ofRoot_of_none hx] at h
      cases h

end Compile

/-! ### Replaying -/

section Replay

variable (h : m.root.NamedAs a)

include h

theorem step_relabel (st : Progress) (name : Name) :
    (m.relabel f a).step st name = (m.step st name).map (Prod.map id (Term.relabel f)) :=
  Node.step_relabel name h st

/-- **A content model under other identifiers is replayed alike.** -/
theorem run_relabel (names : List Name) :
    (m.relabel f a).replayable.run names = m.replayable.run names := by
  have hrun (st : Progress) (position : Nat) :
      (m.relabel f a).replayable.runFrom st position names =
        m.replayable.runFrom st position names := by
    induction names generalizing st position with
    | nil => rfl
    | cons n ns ih =>
      have hstep : (m.relabel f a).replayable.step st n = _ := step_relabel h st n
      have hstep' : m.replayable.step st n = m.step st n := rfl
      rw [Replayable.runFrom, Replayable.runFrom, hstep, hstep']
      cases m.step st n with
      | none => rfl
      | some found => exact ih found.1 (position + 1)
  exact hrun _ 0

end Replay

theorem leafTerm?_relabel (n : Node) :
    (n.relabel f a).leafTerm? = n.leafTerm?.map (Term.relabel f) := by
  cases n <;> rfl

theorem unboundedMembers_relabel (m : Automaton) :
    (m.relabel f a).unboundedMembers = m.unboundedMembers.map (Term.relabel f) := by
  obtain ⟨root, variant⟩ := m
  cases variant with
  | standard => rfl
  | unordered11 =>
    cases root with
    | group o c cs =>
      change ((Node.relabelAll f a cs).filter _).filterMap _ = (List.filterMap _ _).map _
      rw [Node.relabelAll_eq, List.filter_map, List.filterMap_map, List.map_filterMap]
      have hoccurs : (fun n : Node => n.occurs.unbounded) ∘ Node.relabel f a =
          fun n => n.occurs.unbounded := funext fun n => by simp
      rw [hoccurs]
      exact List.filterMap_congr fun n _ => leafTerm?_relabel n
    | _ => rfl

/-- **A content model under other identifiers offers the same terms**, but for identifiers. -/
theorem offered_relabel (hf : f.Injective) (m : Automaton) (st : Progress) :
    (m.relabel f a).replayable.offered st =
      (m.replayable.offered st).map (Term.relabel f) := by
  have hcandidates : (m.relabel f a).candidates st = (m.candidates st).map (Term.relabel f) := by
    change distinct ((m.root.relabel f a).nextTerms st) = (distinct (m.root.nextTerms st)).map _
    rw [Node.nextTerms_relabel, distinct_map (Term.relabel_inj hf)]
  have hvariant : (m.relabel f a).replayable.variant = m.replayable.variant := rfl
  have hstandard : distinct ((m.relabel f a).replayable.candidates st) =
      (distinct (m.replayable.candidates st)).map (Term.relabel f) := by
    rw [← distinct_map (Term.relabel_inj hf)]
    exact congrArg distinct hcandidates
  have hunbounded : (m.relabel f a).replayable.unboundedMembers =
      m.replayable.unboundedMembers.map (Term.relabel f) := unboundedMembers_relabel m
  rw [Replayable.offered, Replayable.offered, hvariant]
  split
  · exact hstandard
  · rw [hstandard, hunbounded, addAllNew_map (Term.relabel_inj hf)]

end Automaton
end ContentModel
end SchemaAssist
