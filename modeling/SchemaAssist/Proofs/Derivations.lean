/-
# What a type comes to

The bases of simple types are looked up first, and then every type is derived once, after the types
that it comes from.  What a type comes to does not depend on when that happens: it follows from what
the names that it refers to stand for and from what its base comes to (`Components.Derived`), as long
as no type comes from itself.  What is reported, and which built-in types are called for, is settled
type by type as well.
-/

import SchemaAssist.Proofs.Lookups
import Mathlib.Logic.Relation
import Mathlib.Data.List.Perm.Subperm

namespace SchemaAssist

open Relation (ReflTransGen TransGen)

namespace Components

variable {c₀ c : Components} {T B : Array TypeDef} {keys keys' : List String}

/-- Nothing changes where an entry is replaced by itself. -/
theorem setIfInBounds_of_getElem? {α : Type} {as : Array α} {i : Nat} {a : α} (h : as[i]? = some a) :
    as.setIfInBounds i a = as := by
  refine Array.ext_getElem? fun j => ?_
  rw [Array.getElem?_setIfInBounds]
  split
  · next hij =>
    subst hij
    rw [if_pos (Array.getElem?_eq_some_iff.1 h).1, h]
  · rfl

theorem run_type? (t : TypeId) (c : Components) : (type? t).run c = (c.types[t.index]?, c) := rfl

theorem run_setType (t : TypeId) (d : TypeDef) (c : Components) :
    (setType t d).run c = ((), { c with types := c.types.setIfInBounds t.index d }) := rfl

/-- A type that is replaced by itself stays. -/
theorem run_setType_of_getElem? {t : TypeId} {d : TypeDef} {c : Components}
    (h : c.types[t.index]? = some d) : (setType t d).run c = ((), c) := by
  rw [run_setType, setIfInBounds_of_getElem? h]

namespace Midway

theorem getElem?_types (h : Midway c₀ T keys c) {i : Nat} (hi : i < c₀.types.size) :
    c.types[i]? = T[i]? := by
  rw [h.types, Array.getElem?_append_left (h.size ▸ hi)]

theorem getElem?_builtin (h : Midway c₀ T keys c) {k : String} (hk : k ∈ keys) :
    c.types[(c₀.builtinId keys k).index]? = some (Builtin.definition k) := by
  have hlt := List.idxOf_lt_length_of_mem hk
  rw [h.types, builtinId, Array.getElem?_append_right (by rw [h.size]; exact Nat.le_add_right _ _),
    h.size, Nat.add_sub_cancel_left]
  simp [hlt]

theorem setType (h : Midway c₀ T keys c) {t : TypeId} (ht : t.index < c₀.types.size) (d : TypeDef) :
    Midway c₀ (T.setIfInBounds t.index d) keys ((setType t d).run c).2 := by
  rw [run_setType]
  refine ⟨{ h.frame with }, by rw [Array.size_setIfInBounds, h.size], ?_, h.builtins, h.nodup⟩
  dsimp only
  rw [h.types, Array.setIfInBounds_append_left (h.size ▸ ht)]

end Midway

/-! ### Bases of simple types -/

/-- A type whose base has been looked up, if it is a simple one. -/
def Based (c : Components) (keys : List String) : TypeDef → TypeDef → Prop
  | .simple st, d =>
    if st.builtin then d = .simple st
    else ∃ b?, Referred c keys st.base b? ∧ d = .simple { st with base? := b? }
  | .complex ct, d => d = .complex ct

/-- A simple type stays simple. -/
theorem Based.exists_simple {st : SimpleType} {d : TypeDef} (h : Based c keys (.simple st) d) :
    ∃ st', d = .simple st' := by
  rw [Based] at h
  split at h
  · exact ⟨st, h⟩
  · obtain ⟨b?, -, rfl⟩ := h
    exact ⟨_, rfl⟩

/-- What is wrong with the base of a simple type. -/
def baseFaults (c : Components) : TypeDef → List Fault
  | .simple st =>
    if st.builtin then [] else c.typeFaults (.simpleType (TypeDef.simple st).label) st.base
  | .complex _ => []

/-- The built-in type that the base of a simple type calls for. -/
def calledByBase (c : Components) : TypeDef → List String
  | .simple st => if st.builtin then [] else c.calledBy st.base
  | .complex _ => []

theorem Based.mono {d d' : TypeDef} (h : Based c keys d d') (hkeys : keys <+: keys') :
    Based c keys' d d' := by
  cases d with
  | simple st =>
    rw [Based] at h ⊢
    split
    · next hb => rwa [if_pos hb] at h
    · next hb =>
      rw [if_neg hb] at h
      obtain ⟨b?, hbase, rfl⟩ := h
      exact ⟨b?, hbase.mono hkeys, rfl⟩
  | complex ct => exact h

theorem exists_resolveBase (h : Midway c₀ T keys c) {i : Nat} {d : TypeDef} (hd : T[i]? = some d) :
    ∃ d', Based c₀ (addAllNew keys (c₀.calledByBase d)) d d' ∧
      Midway c₀ (T.setIfInBounds i d') (addAllNew keys (c₀.calledByBase d))
        ((resolveBase ⟨i⟩).run c).2 ∧
      ((resolveBase ⟨i⟩).run c).2.elements = c.elements ∧
      ((resolveBase ⟨i⟩).run c).2.problems.toList =
        c.problems.toList ++ (c₀.baseFaults d).map Fault.problem := by
  have hi : i < c₀.types.size := h.size ▸ (Array.getElem?_eq_some_iff.1 hd).1
  have htype : c.types[i]? = some d := (h.getElem?_types hi).trans hd
  have hsame : T.setIfInBounds i d = T := setIfInBounds_of_getElem? hd
  rw [resolveBase, run_bind, run_type?]
  dsimp only
  rw [htype]
  cases d with
  | complex ct => exact ⟨_, rfl, hsame.symm ▸ h, rfl, (List.append_nil _).symm⟩
  | simple st =>
    dsimp only
    rw [calledByBase, baseFaults]
    by_cases hb : st.builtin = true
    · have hskip : ¬ (!st.builtin) = true := by simp [hb]
      rw [if_pos hb, if_pos hb, if_neg hskip]
      exact ⟨.simple st, by rw [Based, if_pos hb], hsame.symm ▸ h, rfl, (List.append_nil _).symm⟩
    · have hlook : (!st.builtin) = true := by simp [hb]
      obtain ⟨hmidway, helements, hproblems, hfound⟩ :=
        looks_typeOf? st.base (.simpleType (TypeDef.simple st).label) T keys c h
      rw [if_neg hb, if_neg hb, if_pos hlook]
      refine ⟨.simple { st with base? := _ }, ?_, hmidway.setType (t := ⟨i⟩) hi _, helements,
        hproblems⟩
      rw [Based, if_neg hb]
      exact ⟨_, hfound, rfl⟩

/-- The bases of simple types have been looked up, and the complex types are as they were. -/
theorem exists_forM_resolveBase {is : List Nat} (hnodup : is.Nodup)
    (his : ∀ i ∈ is, i < c₀.types.size) (h : Midway c₀ T keys c) :
    ∃ T', Midway c₀ T' (addAllNew keys (is.flatMap fun i => T[i]?.toList.flatMap c₀.calledByBase))
        ((is.forM fun i => resolveBase ⟨i⟩).run c).2 ∧
      ((is.forM fun i => resolveBase ⟨i⟩).run c).2.elements = c.elements ∧
      ((is.forM fun i => resolveBase ⟨i⟩).run c).2.problems.toList = c.problems.toList ++
        (is.flatMap fun i => T[i]?.toList.flatMap c₀.baseFaults).map Fault.problem ∧
      ∀ i d, T[i]? = some d → ∃ d', T'[i]? = some d' ∧ if i ∈ is then Based c₀
        (addAllNew keys (is.flatMap fun i => T[i]?.toList.flatMap c₀.calledByBase)) d d'
        else d' = d := by
  induction is generalizing T keys c with
  | nil => exact ⟨T, h, rfl, (List.append_nil _).symm, fun i d hd => ⟨d, hd, by simp⟩⟩
  | cons i is ih =>
    rw [List.nodup_cons] at hnodup
    rw [List.forall_mem_cons] at his
    have hi : i < T.size := h.size.symm ▸ his.1
    have hd : T[i]? = some T[i] := Array.getElem?_eq_getElem hi
    obtain ⟨d', hbased, hmidway, helements, hproblems⟩ := exists_resolveBase h hd
    obtain ⟨T', hmidway', helements', hproblems', hT'⟩ := ih hnodup.2 his.2 hmidway
    have hsame (j : Nat) (hj : j ∈ is) : (T.setIfInBounds i d')[j]? = T[j]? := by
      rw [Array.getElem?_setIfInBounds_ne]
      rintro rfl
      exact hnodup.1 hj
    have hflat {α : Type} (f : TypeDef → List α) :
        (is.flatMap fun j => (T.setIfInBounds i d')[j]?.toList.flatMap f) =
          is.flatMap fun j => T[j]?.toList.flatMap f :=
      List.flatMap_congr fun j hj => by rw [hsame j hj]
    rw [hflat] at hmidway' hproblems' hT'
    have hfirst {α : Type} (f : TypeDef → List α) :
        ((i :: is).flatMap fun j => T[j]?.toList.flatMap f) =
          f T[i] ++ is.flatMap fun j => T[j]?.toList.flatMap f := by
      rw [List.flatMap_cons, hd, Option.toList_some, List.flatMap_singleton]
    rw [hfirst, hfirst, addAllNew_append, List.map_append, ← List.append_assoc, ← hproblems]
    refine ⟨T', hmidway', helements'.trans helements, hproblems', fun j d hj => ?_⟩
    by_cases hij : j = i
    · subst hij
      obtain rfl : T[j] = d := Option.some.inj (hd.symm.trans hj)
      have hset : (T.setIfInBounds j d')[j]? = some d' := by
        rw [Array.getElem?_setIfInBounds_self_of_lt hi]
      obtain ⟨d'', hd'', hrest⟩ := hT' j d' hset
      rw [if_neg hnodup.1] at hrest
      refine ⟨d'', hd'', ?_⟩
      rw [if_pos List.mem_cons_self, hrest]
      exact hbased.mono (prefix_addAllNew _ _)
    · have hset : (T.setIfInBounds i d')[j]? = some d := by
        rw [Array.getElem?_setIfInBounds_ne fun heq => hij heq.symm, hj]
      obtain ⟨d'', hd'', hrest⟩ := hT' j d hset
      refine ⟨d'', hd'', ?_⟩
      simpa [hij] using hrest

/-- Going through the places of a table is going through the table. -/
theorem flatMap_range_getElem? {α β : Type} (as : Array α) (f : α → List β) :
    ((List.range as.size).flatMap fun i => as[i]?.toList.flatMap f) = as.toList.flatMap f := by
  obtain ⟨as⟩ := as
  simp only [List.size_toArray, List.getElem?_toArray]
  induction as with
  | nil => rfl
  | cons a as ih =>
    rw [List.length_cons, List.range_succ_eq_map, List.flatMap_cons, List.flatMap_cons,
      List.flatMap_map, List.getElem?_cons_zero, Option.toList_some, List.flatMap_singleton]
    exact congrArg (f a ++ ·) ih

/-- The bases of all simple types have been looked up. -/
theorem exists_resolveBases (h : Midway c₀ T [] c) :
    ∃ T', Midway c₀ T' (addAllNew [] (T.toList.flatMap c₀.calledByBase)) (resolveBases.run c).2 ∧
      (resolveBases.run c).2.elements = c.elements ∧
      (resolveBases.run c).2.problems.toList =
        c.problems.toList ++ (T.toList.flatMap c₀.baseFaults).map Fault.problem ∧
      ∀ (i : Nat) d, T[i]? = some d → ∃ d', T'[i]? = some d' ∧
        Based c₀ (addAllNew [] (T.toList.flatMap c₀.calledByBase)) d d' := by
  have hsize : c.types.size = T.size := by rw [h.types, List.map_nil, Array.append_empty]
  have hrun : resolveBases.run c = ((List.range T.size).forM fun i => resolveBase ⟨i⟩).run c := by
    rw [← hsize]
    rfl
  have hlt : ∀ i ∈ List.range T.size, i < c₀.types.size :=
    fun i hi => h.size ▸ List.mem_range.1 hi
  have hall := exists_forM_resolveBase List.nodup_range hlt h
  rw [flatMap_range_getElem?, flatMap_range_getElem?, ← hrun] at hall
  obtain ⟨T', hmidway, helements, hproblems, hT'⟩ := hall
  refine ⟨T', hmidway, helements, hproblems, fun i d hd => ?_⟩
  obtain ⟨d', hd', hbased⟩ := hT' i d hd
  rw [if_pos (List.mem_range.2 (Array.getElem?_eq_some_iff.1 hd).1)] at hbased
  exact ⟨d', hd', hbased⟩

/-! ### Derivation -/

/-- A type derives from another one that the documents define. -/
def DerivesFrom (c : Components) (t u : TypeId) : Prop :=
  ∃ ct method base, c.types[t.index]? = some (.complex ct) ∧
    ct.derivation? = some (method, base) ∧ c.globalTypes.find? base = some u

/-- Where no way leads back, everything has a rank above that of what it leads to. -/
theorem exists_rank {α : Type} {R : α → α → Prop} {all : List α} (hall : ∀ a b, R a b → b ∈ all)
    (hacyclic : ∀ a, ¬ TransGen R a a) :
    ∃ rank : α → Nat, (∀ a b, R a b → rank b < rank a) ∧ ∀ a, rank a ≤ all.length := by
  classical
  refine ⟨fun a => all.countP fun b => TransGen R a b, fun a b hab => ?_,
    fun a => List.countP_le_length⟩
  exact Substitutions.countP_lt_of_mem
    (fun x hx => decide_eq_true ((of_decide_eq_true hx).head hab)) (hall a b hab)
    (decide_eq_true (.single hab)) (decide_eq_false (hacyclic b))

end Components

namespace ComplexType

/-- A type whose attributes have been looked up. -/
def withUses (ct : ComplexType) (uses : List AttributeUse) : ComplexType :=
  { ct with attributes := uses, attributeGroups := [] }

/-- A type without the attributes that must not be there. -/
def pruned (ct : ComplexType) : ComplexType :=
  { ct with attributes := ct.attributes.filter (!·.prohibited) }

end ComplexType

namespace Components

variable {c₀ c c₁ : Components} {keys keys' K : List String} {path entered done : List TypeId}

/-- What the attributes of a complex type come to. -/
def Attributed (c : Components) (keys : List String) (ct : ComplexType) : List AttributeUse → Prop :=
  List.Forall₂ (Used c keys) (c.usesToLookUp ct.attributes ct.attributeGroups)

/-- What a type comes to. -/
inductive Derived (c : Components) (keys : List String) : TypeId → TypeDef → Prop
  | simple {t : TypeId} {st : SimpleType} {d : TypeDef} :
    c.types[t.index]? = some (.simple st) → Based c keys (.simple st) d → Derived c keys t d
  /-- Nothing is taken on where there is no base. -/
  | alone {t : TypeId} {ct : ComplexType} {uses : List AttributeUse} :
    c.types[t.index]? = some (.complex ct) → Attributed c keys ct uses →
      (∀ method base, ct.derivation? = some (method, base) → Named c keys base none) →
        Derived c keys t (.complex (ct.withUses uses).pruned)
  | derived {t u : TypeId} {ct : ComplexType} {uses : List AttributeUse} {method : Derivation}
      {base : Name} {d : TypeDef} :
    c.types[t.index]? = some (.complex ct) → Attributed c keys ct uses →
      ct.derivation? = some (method, base) → Named c keys base (some u) → Derived c keys u d →
        Derived c keys t (.complex ((ct.withUses uses).derive c.version method u d).pruned)
  | builtin {k : String} : k ∈ keys →
    Derived c keys (c.builtinId keys k) (Builtin.definition k)

/-- What is wrong with the attributes and the base of a complex type. -/
def derivationFaults (c : Components) : TypeDef → List Fault
  | .simple _ => []
  | .complex ct => c.usesFaults ct.attributes ct.attributeGroups ++
    match ct.derivation? with
    | none => []
    | some (_, base) => if c.knows base then [] else [.unknownBase base (TypeDef.complex ct).label]

/-- The built-in types that a complex type calls for. -/
def calledByDerivation (c : Components) : TypeDef → List String
  | .simple _ => []
  | .complex ct => c.calledByUses ct.attributes ct.attributeGroups ++
    match ct.derivation? with
    | none => []
    | some (_, base) => c.called base

theorem Attributed.mono {ct : ComplexType} {uses : List AttributeUse}
    (h : Attributed c keys ct uses) (hkeys : keys <+: keys') : Attributed c keys' ct uses :=
  h.imp fun _ _ hused => hused.mono hkeys

theorem Derived.mono {t : TypeId} {d : TypeDef} (h : Derived c keys t d) (hkeys : keys <+: keys') :
    Derived c keys' t d := by
  induction h with
  | simple ht hd => exact .simple ht (hd.mono hkeys)
  | alone ht huses hbase =>
    exact .alone ht (huses.mono hkeys) fun method base h => (hbase method base h).mono hkeys
  | derived ht huses hderivation hbase _ ih =>
    exact .derived ht (huses.mono hkeys) hderivation (hbase.mono hkeys) ih
  | builtin hk =>
    rw [← builtinId_mono hkeys hk]
    exact .builtin (hkeys.subset hk)

/-- What a complex type refers to: its attributes and its base. -/
def lookUp (ct : ComplexType) : Building (List AttributeUse × Option (Derivation × TypeId)) := do
  let uses ← resolveUses ct.attributes ct.attributeGroups
  match ct.derivation? with
  | none => return (uses, none)
  | some (method, base) =>
    match ← typeNamed? base with
    | none =>
      report (.unknownBase base (TypeDef.complex ct).label)
      return (uses, none)
    | some b => return (uses, some (method, b))

/-- The attributes and the base of a complex type have been found. -/
def LookedUp (c : Components) (ct : ComplexType) (keys : List String) :
    List AttributeUse × Option (Derivation × TypeId) → Prop
  | (uses, none) => Attributed c keys ct uses ∧
    ∀ method base, ct.derivation? = some (method, base) → Named c keys base none
  | (uses, some (method, b)) => Attributed c keys ct uses ∧
    ∃ base, ct.derivation? = some (method, base) ∧ Named c keys base (some b)

theorem looks_lookUp (ct : ComplexType) : Looks c₀ (lookUp ct) (LookedUp c₀ ct)
    (c₀.derivationFaults (.complex ct)) (c₀.calledByDerivation (.complex ct)) := by
  rw [lookUp, derivationFaults, calledByDerivation]
  refine (looks_resolveUses ct.attributes ct.attributeGroups).bind
    (fun _ _ _ hkeys h => h.imp fun _ _ h => h.mono hkeys) fun _ uses _ => ?_
  cases hct : ct.derivation? with
  | none => exact .pure fun keys huses => ⟨huses, fun _ _ h => by rw [hct] at h; cases h⟩
  | some derivation =>
    obtain ⟨method, base⟩ := derivation
    have hlooks : Looks c₀ (typeNamed? base >>= fun b? => match b? with
        | none => report (.unknownBase base (TypeDef.complex ct).label) >>= fun _ =>
          (pure (uses, none) : Building (List AttributeUse × Option (Derivation × TypeId)))
        | some b => pure (uses, some (method, b)))
        (fun keys found => Attributed c₀ keys ct uses → LookedUp c₀ ct keys found)
        ([] ++ if c₀.knows base then [] else [.unknownBase base (TypeDef.complex ct).label])
        (c₀.called base ++ []) := by
      refine (looks_typeNamed? base).bind (fun _ _ _ hkeys h => h.mono hkeys) fun keys b? h => ?_
      rw [← h.isSome]
      cases b? with
      | none =>
        refine (looks_report _).bind (fun _ _ _ _ _ => trivial) fun _ _ _ => .pure ?_
        exact fun keys _ hbase huses => ⟨huses, fun method' base' h => by
          rw [hct] at h
          cases h
          exact hbase⟩
      | some b => exact .pure fun keys hbase huses => ⟨huses, base, hct, hbase⟩
    rwa [List.append_nil, List.nil_append] at hlooks

/-! ### Types on the way

While types are derived, each type of the documents is there, done as it is to be or still as its
base has been found. -/

section Types

variable {P : List String → TypeId → TypeDef → Prop} {done : List TypeId}

/-- What is looked up changes nothing about types. -/
theorem Midway.types_looks {c' : Components} (hT : Midway c₀ T keys c) (hT' : Midway c₀ T keys' c')
    (hkeys : keys <+: keys') (hP : ∀ t d, P keys t d → P keys' t d)
    (h : ∀ (t : TypeId) d, c₀.types[t.index]? = some d → ∃ d', c.types[t.index]? = some d' ∧
      if t ∈ done then P keys t d' else Based c₀ keys d d') :
    ∀ (t : TypeId) d, c₀.types[t.index]? = some d → ∃ d', c'.types[t.index]? = some d' ∧
      if t ∈ done then P keys' t d' else Based c₀ keys' d d' := by
  intro t d ht
  obtain ⟨d', hd', hd⟩ := h t d ht
  have hlt := (Array.getElem?_eq_some_iff.1 ht).1
  refine ⟨d', by rw [hT'.getElem?_types hlt, ← hT.getElem?_types hlt, hd'], ?_⟩
  split
  · next hmem =>
    rw [if_pos hmem] at hd
    exact hP t d' hd
  · next hmem =>
    rw [if_neg hmem] at hd
    exact hd.mono hkeys

/-- A type that is replaced by what it is to be is done, and the others stay. -/
theorem types_setType {t : TypeId} {d : TypeDef} (hd : P keys t d)
    (h : ∀ (s : TypeId) d, c₀.types[s.index]? = some d → ∃ d', c.types[s.index]? = some d' ∧
      if s ∈ done then P keys s d' else Based c₀ keys d d') :
    ∀ (s : TypeId) d', c₀.types[s.index]? = some d' →
      ∃ d'', ((setType t d).run c).2.types[s.index]? = some d'' ∧
        if s ∈ t :: done then P keys s d'' else Based c₀ keys d' d'' := by
  intro s d' hs
  obtain ⟨d'', hd'', hs'⟩ := h s d' hs
  rw [run_setType]
  dsimp only
  by_cases hst : s = t
  · subst hst
    have hlt := (Array.getElem?_eq_some_iff.1 hd'').1
    exact ⟨d, Array.getElem?_setIfInBounds_self_of_lt hlt, by rwa [if_pos List.mem_cons_self]⟩
  · have hindex : t.index ≠ s.index := fun heq => hst (congrArg TypeId.mk heq).symm
    refine ⟨d'', by rw [Array.getElem?_setIfInBounds_ne hindex, hd''], ?_⟩
    simpa only [List.mem_cons, hst, false_or] using hs'

end Types

/-! ### Deriving every type once -/

/-- What the type of an identifier gives, by what each type gives. -/
def atType {α : Type} (c : Components) (f : TypeDef → List α) (t : TypeId) : List α :=
  c.types[t.index]?.toList.flatMap f

/-- The built-in types that have been called for once some types have been entered. -/
def calledAfter (c : Components) (K : List String) (entered : List TypeId) : List String :=
  addAllNew K (entered.flatMap (c.atType c.calledByDerivation))

/-- Derivation on the way: the types in `path` wait for their bases, those in `entered` have been
looked up in this order, and those in `done` have come to what they come to.  `K` are the built-in
types called for before. -/
structure Stage (c₀ c₁ : Components) (K : List String) (path entered done : List TypeId)
    (c : Components) : Prop where
  nodup : entered.Nodup
  lt : ∀ t ∈ entered, t.index < c₀.types.size
  waiting : ∀ t ∈ path, t ∈ entered
  mem : ∀ t : TypeId, t.index < c₀.types.size → (t ∈ entered ↔ t ∈ done ∨ t ∈ path)
  midway : ∃ T, Midway c₀ T (c₀.calledAfter K entered) c
  elements : c.elements = c₁.elements
  problems : c.problems.toList = c₁.problems.toList ++
    (entered.flatMap (c₀.atType c₀.derivationFaults)).map Fault.problem
  types : ∀ (t : TypeId) d, c₀.types[t.index]? = some d → ∃ d', c.types[t.index]? = some d' ∧
    if t ∈ done then Derived c₀ (c₀.calledAfter K entered) t d'
    else Based c₀ (c₀.calledAfter K entered) d d'

theorem calledAfter_append (c : Components) (K : List String) (entered more : List TypeId) :
    c.calledAfter K (entered ++ more) = c.calledAfter (c.calledAfter K entered) more := by
  rw [calledAfter, List.flatMap_append, addAllNew_append]
  rfl

theorem prefix_calledAfter (c : Components) (K : List String) (entered more : List TypeId) :
    c.calledAfter K entered <+: c.calledAfter K (entered ++ more) := by
  rw [calledAfter_append]
  exact prefix_addAllNew _ _

theorem atType_of_getElem? {α : Type} {f : TypeDef → List α} {t : TypeId} {d : TypeDef}
    (ht : c.types[t.index]? = some d) : c.atType f t = f d := by
  rw [atType, ht, Option.toList_some, List.flatMap_singleton]

namespace Stage

variable {t : TypeId} {d : TypeDef}

/-- A type that nothing is known about is there as its base has been found. -/
theorem exists_based (h : Stage c₀ c₁ K path entered done c) (ht : c₀.types[t.index]? = some d)
    (hdone : t ∉ done) :
    ∃ d', c.types[t.index]? = some d' ∧ Based c₀ (c₀.calledAfter K entered) d d' := by
  obtain ⟨d', hd', hbased⟩ := h.types t d ht
  rw [if_neg hdone] at hbased
  exact ⟨d', hd', hbased⟩

/-- A type has been entered when what it refers to has been looked up. -/
theorem enter (h : Stage c₀ c₁ K path entered done c) {α : Type} {x : Building α}
    {found : List String → α → Prop} (ht : c₀.types[t.index]? = some d) (hdone : t ∉ done)
    (hpath : t ∉ path)
    (hx : Looks c₀ x found (c₀.derivationFaults d) (c₀.calledByDerivation d)) :
    Stage c₀ c₁ K (t :: path) (entered ++ [t]) done (x.run c).2 ∧
      found (c₀.calledAfter K (entered ++ [t])) (x.run c).1 := by
  have hlt := (Array.getElem?_eq_some_iff.1 ht).1
  have hentered : t ∉ entered := fun h' => (h.mem t hlt).1 h' |>.elim hdone hpath
  have hcalled : c₀.calledAfter K (entered ++ [t]) =
      addAllNew (c₀.calledAfter K entered) (c₀.calledByDerivation d) := by
    rw [calledAfter_append, calledAfter, List.flatMap_singleton, atType_of_getElem? ht]
  have hle := c₀.prefix_calledAfter K entered [t]
  obtain ⟨T, hT⟩ := h.midway
  obtain ⟨hmidway, helements, hproblems, hfound⟩ := hx T _ c hT
  rw [← hcalled] at hmidway hfound
  refine ⟨⟨?_, ?_, ?_, ?_, ⟨T, hmidway⟩, helements.trans h.elements, ?_, ?_⟩, hfound⟩
  · exact List.concat_eq_append ▸ List.Nodup.concat hentered h.nodup
  · exact List.forall_mem_append.2 ⟨h.lt, List.forall_mem_singleton.2 hlt⟩
  · exact List.forall_mem_cons.2 ⟨List.mem_append_right _ (List.mem_singleton_self t),
      fun s hs => List.mem_append_left _ (h.waiting s hs)⟩
  · intro s hs
    rw [List.mem_append, h.mem s hs, List.mem_singleton, List.mem_cons]
    tauto
  · rw [hproblems, h.problems, List.flatMap_append, List.flatMap_singleton, atType_of_getElem? ht,
      List.map_append, List.append_assoc]
  · exact hT.types_looks hmidway hle (fun _ _ h => h.mono hle) h.types

/-- A type that waits is done when it has been replaced by what it comes to. -/
theorem finish (h : Stage c₀ c₁ K (t :: path) entered done c) (ht : t.index < c₀.types.size)
    (hd : Derived c₀ (c₀.calledAfter K entered) t d) :
    Stage c₀ c₁ K path entered (t :: done) ((setType t d).run c).2 := by
  obtain ⟨T, hT⟩ := h.midway
  refine ⟨h.nodup, h.lt, fun s hs => h.waiting s (List.mem_cons_of_mem t hs), ?_,
    ⟨_, hT.setType ht d⟩, h.elements, h.problems, ?_⟩
  · intro s hs
    rw [h.mem s hs, List.mem_cons, List.mem_cons]
    tauto
  · exact types_setType hd h.types

/-- A simple type is done as soon as it is met. -/
theorem finish_simple (h : Stage c₀ c₁ K path entered done c) {st : SimpleType}
    (ht : c₀.types[t.index]? = some (.simple st)) (hdone : t ∉ done) (hpath : t ∉ path) :
    Stage c₀ c₁ K path (entered ++ [t]) (t :: done) c := by
  have hnothing : Looks c₀ (pure () : Building Unit) (fun _ _ => True) [] [] :=
    .pure fun _ => trivial
  obtain ⟨hstage, -⟩ := h.enter ht hdone hpath hnothing
  obtain ⟨d', hd', hbased⟩ := hstage.exists_based ht hdone
  have hfinished := hstage.finish (Array.getElem?_eq_some_iff.1 ht).1 (.simple ht hbased)
  rwa [run_setType_of_getElem? hd'] at hfinished

/-- A built-in type is done as it is. -/
theorem finish_builtin (h : Stage c₀ c₁ K path entered done c) (ht : c₀.types.size ≤ t.index) :
    Stage c₀ c₁ K path entered (t :: done) c := by
  refine ⟨h.nodup, h.lt, h.waiting, fun s hs => ?_, h.midway, h.elements, h.problems,
    fun s d hs => ?_⟩
  · have hne : s ≠ t := by
      rintro rfl
      exact absurd hs (Nat.not_lt.2 ht)
    rw [h.mem s hs, List.mem_cons, or_iff_right hne]
  · have hne : s ≠ t := by
      rintro rfl
      exact absurd (Array.getElem?_eq_some_iff.1 hs).1 (Nat.not_lt.2 ht)
    simpa only [List.mem_cons, hne, false_or] using h.types s d hs

end Stage

section Runs

variable {room : Nat} {t : TypeId}

theorem run_derive_of_mem (h : t ∈ done) (c : Components) :
    ((derive (room + 1) path t).run done).run c = (((), done), c) := by
  rw [derive]
  change ((if t ∈ done then pure () else _ : Deriving Unit).run done).run c = _
  rw [if_pos h]
  rfl

theorem run_lift_bind {α β : Type} (x : Building α) (f : α → Deriving β) (done : List TypeId)
    (c : Components) : ((liftM x >>= f).run done).run c =
      ((f (x.run c).1).run done).run (x.run c).2 := rfl

theorem run_derive_simple (h : t ∉ done) {st : SimpleType}
    (ht : c.types[t.index]? = some (.simple st)) :
    ((derive (room + 1) path t).run done).run c = (((), t :: done), c) := by
  rw [derive]
  change ((if t ∈ done then pure () else _ : Deriving Unit).run done).run c = _
  rw [if_neg h, run_lift_bind, run_type?, ht]
  rfl

/-- What is done with a complex type that has been looked up. -/
def settle (room : Nat) (path : List TypeId) (t : TypeId) (ct : ComplexType)
    (found : List AttributeUse × Option (Derivation × TypeId)) : Deriving Unit := do
  let ct' ← match found.2 with
    | none => pure (ct.withUses found.1)
    | some (method, b) =>
      if b = t then
        report (.selfDerivation (TypeDef.complex ct).label)
        pure (ct.withUses found.1)
      else
        derive room (t :: path) b
        match ← type? b with
        | some d => pure ((ct.withUses found.1).derive (← getThe Components).version method b d)
        | none => pure (ct.withUses found.1)
  setType t (.complex ct'.pruned)
  modifyThe (List TypeId) (t :: ·)

/-- A complex type is looked up first. -/
theorem run_derive_complex (h : t ∉ done) (hpath : t ∉ path) {ct : ComplexType}
    (ht : c.types[t.index]? = some (.complex ct)) :
    ((derive (room + 1) path t).run done).run c =
      ((settle room path t ct ((lookUp ct).run c).1).run done).run ((lookUp ct).run c).2 := by
  rw [derive]
  change ((if t ∈ done then pure () else _ : Deriving Unit).run done).run c = _
  rw [if_neg h, run_lift_bind, run_type?, ht]
  dsimp only
  rw [if_neg hpath, run_lift_bind, lookUp, run_bind]
  obtain ⟨name?, content, mixed, attributes, groups, derivation?, isAbstract, documentation?⟩ := ct
  dsimp only
  generalize (resolveUses attributes groups).run c = r
  cases derivation? with
  | none => rfl
  | some derivation =>
    obtain ⟨method, base⟩ := derivation
    dsimp only
    rw [run_lift_bind, run_bind]
    generalize (typeNamed? base).run r.2 = s
    obtain ⟨b?, c'⟩ := s
    cases b? with
    | none => rfl
    | some b => rfl

/-- A type with a base is done when that has been derived. -/
theorem run_settle {ct : ComplexType} {uses : List AttributeUse} {method : Derivation} {b : TypeId}
    (hb : b ≠ t) {done' : List TypeId} {c' : Components} {d : TypeDef}
    (hrun : ((derive room (t :: path) b).run done).run c = (((), done'), c'))
    (hd : c'.types[b.index]? = some d) :
    ((settle room path t ct (uses, some (method, b))).run done).run c = (((), t :: done'),
      ((setType t (.complex ((ct.withUses uses).derive c'.version method b d).pruned)).run
        c').2) := by
  have hbind {α : Type} (f : Unit → Deriving α) :
      ((derive room (t :: path) b >>= f).run done).run c = ((f ()).run done').run c' := by
    change ((f ((derive room (t :: path) b).run done |>.run c).1.1).run
      ((derive room (t :: path) b).run done |>.run c).1.2).run
        ((derive room (t :: path) b).run done |>.run c).2 = _
    rw [hrun]
  rw [settle]
  dsimp only
  rw [if_neg hb, hbind, run_lift_bind, run_type?]
  dsimp only
  rw [hd]
  rfl

end Runs

namespace Stage

variable {room : Nat} {t : TypeId} {rank : TypeId → Nat}

/-- Deriving a built-in type changes nothing. -/
theorem derive_builtin (room : Nat) (h : Stage c₀ c₁ K path entered done c) {k : String}
    (hk : k ∈ c₀.calledAfter K entered) (ht : t = c₀.builtinId (c₀.calledAfter K entered) k) :
    ∃ done', ((derive (room + 1) path t).run done).run c = (((), done'), c) ∧
      Stage c₀ c₁ K path entered done' c ∧ t ∈ done' ∧ ∀ s ∈ done, s ∈ done' := by
  have hge : c₀.types.size ≤ t.index := by
    rw [ht]
    exact Nat.le_add_right _ _
  have hpath : t ∉ path := fun hmem => Nat.not_lt.2 hge (h.lt t (h.waiting t hmem))
  obtain ⟨T, hT⟩ := h.midway
  have htype : c.types[t.index]? = some (Builtin.definition k) := by
    rw [ht]
    exact hT.getElem?_builtin hk
  by_cases hdone : t ∈ done
  · exact ⟨done, run_derive_of_mem hdone c, h, hdone, fun _ hs => hs⟩
  · refine ⟨t :: done, ?_, h.finish_builtin hge, List.mem_cons_self,
      fun _ hs => List.mem_cons_of_mem t hs⟩
    rw [Builtin.definition] at htype
    split at htype
    · rw [run_derive_complex hdone hpath htype]
      exact congrArg (fun r : Unit × Components => (((), t :: done), r.2))
        (run_setType_of_getElem? htype)
    · exact run_derive_simple hdone htype

/-- A type with a base is done when that has been derived. -/
theorem settle {ct : ComplexType} {uses : List AttributeUse} {method : Derivation} {base : Name}
    {b : TypeId} (hget : c₀.types[t.index]? = some (.complex ct))
    (huses : Attributed c₀ (c₀.calledAfter K entered) ct uses)
    (hderivation : ct.derivation? = some (method, base))
    (hbase : Named c₀ (c₀.calledAfter K entered) base (some b)) (hb : b ≠ t)
    {entered' done' : List TypeId} {c' : Components} {d : TypeDef}
    (hle : c₀.calledAfter K entered <+: c₀.calledAfter K entered')
    (hrun : ((derive room (t :: path) b).run done).run c = (((), done'), c'))
    (hstage : Stage c₀ c₁ K (t :: path) entered' done' c') (hd : c'.types[b.index]? = some d)
    (hderived : Derived c₀ (c₀.calledAfter K entered') b d) :
    ∃ c'', ((Components.settle room path t ct (uses, some (method, b))).run done).run c =
        (((), t :: done'), c'') ∧
      Stage c₀ c₁ K path entered' (t :: done') c'' := by
  have hversion : c'.version = c₀.version := hstage.midway.elim fun _ h => h.frame.version
  refine ⟨_, run_settle hb hrun hd, ?_⟩
  rw [hversion]
  exact hstage.finish (Array.getElem?_eq_some_iff.1 hget).1 (.derived hget (huses.mono hle)
    hderivation (hbase.mono hle) hderived)

/-- A base has been derived, whether the documents define it or it is built in. -/
theorem derive_base (h : Stage c₀ c₁ K path entered done c) {base : Name} {b : TypeId}
    (hglobal : ∀ n u, c₀.globalTypes.find? n = some u → u.index < c₀.types.size)
    (hbase : Named c₀ (c₀.calledAfter K entered) base (some b)) (hroom : 0 < room)
    (hdefined : c₀.globalTypes.find? base = some b →
      ∃ more done' c', ((derive room path b).run done).run c = (((), done'), c') ∧
        Stage c₀ c₁ K path (entered ++ more) done' c' ∧ b ∈ done' ∧ ∀ s ∈ done, s ∈ done') :
    ∃ more done' c' d, ((derive room path b).run done).run c = (((), done'), c') ∧
      Stage c₀ c₁ K path (entered ++ more) done' c' ∧ (∀ s ∈ done, s ∈ done') ∧
      c'.types[b.index]? = some d ∧ Derived c₀ (c₀.calledAfter K (entered ++ more)) b d := by
  cases hbase with
  | global hn =>
    obtain ⟨more, done', c', hrun, hstage, hmem, hkept⟩ := hdefined hn
    obtain ⟨d, hd, hderived⟩ := hstage.types b _ (Array.getElem?_eq_getElem (hglobal base b hn))
    rw [if_pos hmem] at hderived
    exact ⟨more, done', c', d, hrun, hstage, hkept, hd, hderived⟩
  | builtin hn hbuiltin hk =>
    obtain ⟨room, rfl⟩ : ∃ r, room = r + 1 := ⟨room - 1, by omega⟩
    obtain ⟨done', hrun, hstage, -, hkept⟩ := h.derive_builtin room hk rfl
    obtain ⟨T, hT⟩ := hstage.midway
    refine ⟨[], done', c, _, hrun, by rwa [List.append_nil], hkept, hT.getElem?_builtin hk, ?_⟩
    rw [List.append_nil]
    exact .builtin hk

/-- **Deriving a type leaves it and all types that it comes from derived**, as long as no type comes
from itself. -/
theorem derive (hglobal : ∀ n u, c₀.globalTypes.find? n = some u → u.index < c₀.types.size)
    (hrank : ∀ t u, DerivesFrom c₀ t u → rank u < rank t)
    (h : Stage c₀ c₁ K path entered done c) (ht : t.index < c₀.types.size)
    (hpath : ∀ p ∈ path, rank t < rank p) (hroom : rank t + 1 < room) :
    ∃ more done' c', ((derive room path t).run done).run c = (((), done'), c') ∧
      Stage c₀ c₁ K path (entered ++ more) done' c' ∧ t ∈ done' ∧ ∀ s ∈ done, s ∈ done' := by
  induction room generalizing path entered done c t with
  | zero => exact absurd hroom (Nat.not_lt_zero _)
  | succ room ih =>
    have hnotMem : t ∉ path := fun hmem => Nat.lt_irrefl _ (hpath t hmem)
    by_cases hdone : t ∈ done
    · exact ⟨[], done, c, run_derive_of_mem hdone c, by rwa [List.append_nil], hdone, fun _ hs => hs⟩
    · have hget := Array.getElem?_eq_getElem ht
      obtain ⟨d, hd, hbased⟩ := h.exists_based hget hdone
      cases hct : c₀.types[t.index] with
      | simple st =>
        rw [hct] at hget hbased
        obtain ⟨st', rfl⟩ := hbased.exists_simple
        exact ⟨[t], t :: done, c, run_derive_simple hdone hd, h.finish_simple hget hdone hnotMem,
          List.mem_cons_self, fun _ hs => List.mem_cons_of_mem t hs⟩
      | complex ct =>
        rw [hct] at hget hbased
        obtain rfl : d = .complex ct := hbased
        obtain ⟨hstage, hfound⟩ := h.enter hget hdone hnotMem (looks_lookUp ct)
        rw [run_derive_complex hdone hnotMem hd]
        generalize (lookUp ct).run c = r at hstage hfound
        obtain ⟨⟨uses, derivation?⟩, c'⟩ := r
        cases derivation? with
        | none =>
          obtain ⟨huses, hbase⟩ := hfound
          exact ⟨[t], t :: done, _, rfl, hstage.finish ht (.alone hget huses hbase),
            List.mem_cons_self, fun _ hs => List.mem_cons_of_mem t hs⟩
        | some derivation =>
          obtain ⟨method, b⟩ := derivation
          obtain ⟨huses, base, hderivation, hbase⟩ := hfound
          have hlower (hn : c₀.globalTypes.find? base = some b) : rank b < rank t :=
            hrank t b ⟨ct, method, base, hget, hderivation, hn⟩
          have hb : b ≠ t := by
            intro heq
            cases hbase with
            | global hn => exact absurd (hlower hn) (heq ▸ Nat.lt_irrefl _)
            | builtin => exact ne_builtinId hget _ heq.symm
          obtain ⟨more, done₂, c₂, d, hrun, hstage₂, hkept, hd, hderived⟩ :=
            hstage.derive_base hglobal hbase (by omega) fun hn =>
              ih hstage (hglobal base b hn) (List.forall_mem_cons.2 ⟨hlower hn, fun p hp =>
                Nat.lt_trans (hlower hn) (hpath p hp)⟩) (Nat.lt_of_le_of_lt (hlower hn) (by omega))
          obtain ⟨c₃, hrun₃, hstage₃⟩ := settle hget huses hderivation hbase hb
            (c₀.prefix_calledAfter K _ more) hrun hstage₂ hd hderived
          rw [List.append_assoc] at hstage₃
          exact ⟨[t] ++ more, t :: done₂, c₃, hrun₃, hstage₃, List.mem_cons_self,
            fun s hs => List.mem_cons_of_mem t (hkept s hs)⟩

/-- Types that are derived in turn are all derived in the end. -/
theorem forM_derive (room : Nat) (is : List Nat)
    (hglobal : ∀ n u, c₀.globalTypes.find? n = some u → u.index < c₀.types.size)
    (hrank : ∀ t u, DerivesFrom c₀ t u → rank u < rank t) (hK : K.Nodup)
    (his : ∀ i ∈ is, i < c₀.types.size + K.length) (hroom : ∀ t, rank t + 1 < room)
    (h : Stage c₀ c₁ K [] entered done c) :
    ∃ entered' done' c', ((is.forM fun i => Components.derive room [] ⟨i⟩).run done).run c =
        (((), done'), c') ∧
      Stage c₀ c₁ K [] entered' done' c' ∧ (∀ s ∈ done, s ∈ done') ∧
      ∀ i ∈ is, i < c₀.types.size → ⟨i⟩ ∈ done' := by
  induction is generalizing entered done c with
  | nil => exact ⟨entered, done, c, rfl, h, fun _ hs => hs, nofun⟩
  | cons i is ih =>
    rw [List.forall_mem_cons] at his
    have hstep : ∃ more done₁ c', ((Components.derive room [] ⟨i⟩).run done).run c =
        (((), done₁), c') ∧ Stage c₀ c₁ K [] (entered ++ more) done₁ c' ∧ ⟨i⟩ ∈ done₁ ∧
          ∀ s ∈ done, s ∈ done₁ := by
      by_cases hi : i < c₀.types.size
      · exact h.derive hglobal hrank hi nofun (hroom _)
      · have hlt : i - c₀.types.size < K.length := by omega
        have hk : K[i - c₀.types.size] ∈ K := List.getElem_mem hlt
        have hle : K <+: c₀.calledAfter K entered := prefix_addAllNew _ _
        have ht : (⟨i⟩ : TypeId) = c₀.builtinId (c₀.calledAfter K entered) K[i - c₀.types.size] := by
          rw [builtinId_mono hle hk, builtinId, hK.idxOf_getElem]
          congr 1
          omega
        obtain ⟨room, rfl⟩ : ∃ r, room = r + 1 := ⟨room - 1, by have := hroom ⟨i⟩; omega⟩
        obtain ⟨done₁, hrun, hstage, hmem, hkept⟩ :=
          h.derive_builtin room (hle.subset hk) ht
        exact ⟨[], done₁, c, hrun, by rwa [List.append_nil], hmem, hkept⟩
    obtain ⟨more, done₁, c', hrun, hstage, hmem, hkept⟩ := hstep
    obtain ⟨entered', done', c'', hrun', hstage', hkept', hall⟩ := ih his.2 hstage
    refine ⟨entered', done', c'', ?_, hstage', fun s hs => hkept' s (hkept s hs), ?_⟩
    · have hbind : (((i :: is).forM fun i => Components.derive room [] ⟨i⟩).run done).run c =
          ((is.forM fun i => Components.derive room [] ⟨i⟩).run
            ((Components.derive room [] ⟨i⟩).run done |>.run c).1.2).run
              ((Components.derive room [] ⟨i⟩).run done |>.run c).2 := rfl
      rw [hbind, hrun, hrun']
    · exact List.forall_mem_cons.2 ⟨fun _ => hkept' _ hmem, hall⟩

end Stage

/-- **Every type comes to something**, and what is reported on the way is what is wrong with each of
them in some order. -/
theorem exists_deriveTypes (hacyclic : ∀ t, ¬ TransGen (DerivesFrom c₀) t t)
    (hglobal : ∀ n u, c₀.globalTypes.find? n = some u → u.index < c₀.types.size)
    (h : Midway c₀ T K c)
    (hbased : ∀ (t : TypeId) d, c₀.types[t.index]? = some d → ∃ d', T[t.index]? = some d' ∧
      Based c₀ K d d') :
    ∃ entered done, Stage c₀ c K [] entered done (deriveTypes.run c).2 ∧
      entered.Perm ((List.range c₀.types.size).map TypeId.mk) ∧
      ∀ t : TypeId, t.index < c₀.types.size → t ∈ done := by
  have hsize : c.types.size = c₀.types.size + K.length := by
    rw [h.types, Array.size_append, h.size]
    simp
  have hall (t u : TypeId) (htu : DerivesFrom c₀ t u) :
      u ∈ (List.range c₀.types.size).map TypeId.mk := by
    obtain ⟨_, _, base, -, -, hbase⟩ := htu
    exact List.mem_map.2 ⟨u.index, List.mem_range.2 (hglobal base u hbase), rfl⟩
  obtain ⟨rank, hrank, hbound⟩ := exists_rank hall hacyclic
  rw [List.length_map, List.length_range] at hbound
  have hstart : Stage c₀ c K [] [] [] c :=
    { nodup := List.nodup_nil
      lt := nofun
      waiting := nofun
      mem := by simp
      midway := ⟨T, h⟩
      elements := rfl
      problems := (List.append_nil _).symm
      types := fun t d ht => by
        obtain ⟨d', hd', hd⟩ := hbased t d ht
        refine ⟨d', (h.getElem?_types (Array.getElem?_eq_some_iff.1 ht).1).trans hd', ?_⟩
        rwa [if_neg List.not_mem_nil] }
  obtain ⟨entered, done, c', hrun, hstage, -, hdone⟩ :=
    hstart.forM_derive (c.types.size + 2) (List.range c.types.size) hglobal hrank h.nodup
      (fun i hi => hsize ▸ List.mem_range.1 hi) fun t => by have := hbound t; omega
  have hmem (t : TypeId) (ht : t.index < c₀.types.size) : t ∈ done :=
    hdone t.index (List.mem_range.2 (by omega)) ht
  refine ⟨entered, done, ?_, ?_, hmem⟩
  · have hderive : (deriveTypes.run c).2 =
        (((List.range c.types.size).forM fun i => derive (c.types.size + 2) [] ⟨i⟩).run [] |>.run
          c).2 := rfl
    rw [hderive, hrun]
    exact hstage
  · have hnodup : ((List.range c₀.types.size).map TypeId.mk).Nodup :=
      List.nodup_range.map fun _ _ h => congrArg TypeId.index h
    refine (List.perm_ext_iff_of_nodup hstage.nodup hnodup).2 fun t => ?_
    constructor
    · intro ht
      exact List.mem_map.2 ⟨t.index, List.mem_range.2 (hstage.lt t ht), rfl⟩
    · intro ht
      obtain ⟨i, hi, rfl⟩ := List.mem_map.1 ht
      have hlt := List.mem_range.1 hi
      exact (hstage.mem _ hlt).2 (Or.inl (hmem _ hlt))

end Components
end SchemaAssist
