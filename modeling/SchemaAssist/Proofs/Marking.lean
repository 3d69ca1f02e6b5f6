/-
# How types are marked while they are derived

The bound on how far derivation goes on the way to a base hides what it does: a type is marked as
waiting while its base is derived and as done when it has been derived itself.  `Components.Visits`
says this without a bound, and `Components.visits_derive` that the bound is never reached: only
types that are there at the start have bases, so no more than these can wait.

What a name stands for settles where the way leads.  It may call for a built-in type, which is
numbered behind those that are there (`Components.Grown`); nothing else about names and bases
changes on the way.
-/

import SchemaAssist.Proofs.Flattening
import SchemaAssist.Proofs.Heredity

namespace SchemaAssist

/-- A complex type that derives from a base, where the base is there. -/
def ComplexType.onto (version : Version) (ct : ComplexType) (method : Derivation) (b : TypeId) :
    Option TypeDef → ComplexType
  | some d => ct.derive version method b d
  | none => ct

namespace Components

open Building (Maintains Maintained)

/-- Which types wait for their bases, the last one first, and which ones are done. -/
structure Marks where
  waiting : List TypeId := []
  done : List TypeId := []

namespace Marks

/-- A type waits from now on. -/
def enter (m : Marks) (t : TypeId) : Marks := { m with waiting := t :: m.waiting }

/-- A type does not wait any more, and is done. -/
def leave (m : Marks) (t : TypeId) : Marks := ⟨m.waiting.erase t, t :: m.done⟩

end Marks

/-- Deriving a type, as far as it goes. -/
inductive Visits : TypeId → Marks → Components → Marks → Components → Prop
  | done {t : TypeId} {m : Marks} {c : Components} : t ∈ m.done → Visits t m c m c
  /-- A type that is not complex is done as it is. -/
  | simple {t : TypeId} {m : Marks} {c : Components} : t ∉ m.done →
    (∀ ct, c.types[t.index]? ≠ some (.complex ct)) →
      Visits t m c { m with done := t :: m.done } c
  /-- A type that waits closes a circle. -/
  | circular {t : TypeId} {m : Marks} {c : Components} {ct : ComplexType} : t ∉ m.done →
    c.types[t.index]? = some (.complex ct) → t ∈ m.waiting →
      Visits t m c m ((report (.circularDerivation (TypeDef.complex ct).label)).run c).2
  /-- Nothing is taken on where there is no base. -/
  | alone {t : TypeId} {m : Marks} {c c' : Components} {ct : ComplexType}
    {uses : List AttributeUse} : t ∉ m.done → c.types[t.index]? = some (.complex ct) →
      t ∉ m.waiting → (lookUp ct).run c = ((uses, none), c') →
        Visits t m c ((m.enter t).leave t)
          ((setType t (.complex (ct.withUses uses).pruned)).run c').2
  /-- Nothing is taken on from the type itself. -/
  | self {t : TypeId} {m : Marks} {c c' : Components} {ct : ComplexType}
    {uses : List AttributeUse} {method : Derivation} : t ∉ m.done →
      c.types[t.index]? = some (.complex ct) → t ∉ m.waiting →
        (lookUp ct).run c = ((uses, some (method, t)), c') →
          Visits t m c ((m.enter t).leave t)
            ((setType t (.complex (ct.withUses uses).pruned)).run
              ((report (.selfDerivation (TypeDef.complex ct).label)).run c').2).2
  /-- The base is derived first. -/
  | derived {t b : TypeId} {m m' : Marks} {c c' c'' : Components} {ct : ComplexType}
    {uses : List AttributeUse} {method : Derivation} : t ∉ m.done →
      c.types[t.index]? = some (.complex ct) → t ∉ m.waiting →
        (lookUp ct).run c = ((uses, some (method, b)), c') → b ≠ t →
          Visits b (m.enter t) c' m' c'' →
            Visits t m c (m'.leave t) ((setType t (.complex ((ct.withUses uses).onto c''.version
              method b c''.types[b.index]?).pruned)).run c'').2

/-- Deriving types in turn. -/
inductive VisitsInTurn : List TypeId → Marks → Components → Marks → Components → Prop
  | nil {m : Marks} {c : Components} : VisitsInTurn [] m c m c
  | cons {t : TypeId} {ts : List TypeId} {m m' m'' : Marks} {c c' c'' : Components} :
    Visits t m c m' c' → VisitsInTurn ts m' c' m'' c'' → VisitsInTurn (t :: ts) m c m'' c''

/-- A type that is visited while none waits is done afterwards. -/
theorem Visits.mem_done {t : TypeId} {done : List TypeId} {m' : Marks} {c c' : Components}
    (h : Visits t ⟨[], done⟩ c m' c') : t ∈ m'.done := by
  cases h with
  | done hdone => exact hdone
  | circular _ _ hwaiting => cases hwaiting
  | simple | alone | self | derived => exact List.mem_cons_self

/-! ### What stays on the way -/

/-- The name and the base of a complex type. -/
def lineage? (c : Components) (t : TypeId) : Option (Option Name × Option (Derivation × Name)) :=
  c.types[t.index]?.bind fun d => d.complex?.map fun ct => (ct.name?, ct.derivation?)

theorem lineage?_of_complex {c : Components} {t : TypeId} {ct : ComplexType}
    (ht : c.types[t.index]? = some (.complex ct)) :
    c.lineage? t = some (ct.name?, ct.derivation?) := by
  rw [lineage?, ht]
  rfl

theorem lineage?_of_size_le {c : Components} {t : TypeId} (ht : c.types.size ≤ t.index) :
    c.lineage? t = none := by
  rw [lineage?, Array.getElem?_eq_none ht]
  rfl

/-- Components that differ from earlier ones by built-in types that have been called for, and by
what types have taken on. -/
structure Grown (c₀ c : Components) : Prop where
  globalTypes : c.globalTypes = c₀.globalTypes
  attributeGroups : c.attributeGroups = c₀.attributeGroups
  kept : ∀ k t, c₀.builtins.lookup k = some t → c.builtins.lookup k = some t
  called : ∀ k t, c.builtins.lookup k = some t →
    c₀.builtins.lookup k = some t ∨ c₀.types.size ≤ t.index
  size : c₀.types.size ≤ c.types.size
  lineage : ∀ t : TypeId, t.index < c₀.types.size → c.lineage? t = c₀.lineage? t
  baseless : ∀ (t : TypeId) n? d?, c₀.types.size ≤ t.index →
    c.lineage? t = some (n?, d?) → d? = none

theorem Grown.refl (c : Components) : Grown c c where
  globalTypes := rfl
  attributeGroups := rfl
  kept := fun _ _ h => h
  called := fun _ _ h => .inl h
  size := Nat.le_refl _
  lineage := fun _ _ => rfl
  baseless := fun t n? d? ht h => by rw [lineage?_of_size_le ht] at h; cases h

/-- A complex type has the name and the base that it had. -/
def Kin (c₀ : Components) (t : TypeId) (ct : ComplexType) : Prop :=
  if t.index < c₀.types.size then c₀.lineage? t = some (ct.name?, ct.derivation?)
  else ct.derivation? = none

namespace Grown

variable {c₀ c : Components} {t : TypeId} {ct : ComplexType}

theorem kin (h : Grown c₀ c) (ht : c.types[t.index]? = some (.complex ct)) : Kin c₀ t ct := by
  have hlineage := lineage?_of_complex ht
  rw [Kin]
  split
  · next hlt => rw [← h.lineage t hlt, hlineage]
  · next hge => exact h.baseless t _ _ (Nat.le_of_not_lt hge) hlineage

/-- Only types that were there at first have bases. -/
theorem lt_of_derivation (h : Grown c₀ c) (ht : c.types[t.index]? = some (.complex ct))
    {method : Derivation} {base : Name} (hderivation : ct.derivation? = some (method, base)) :
    t.index < c₀.types.size := by
  by_contra hge
  have hkin := h.kin ht
  rw [Kin, if_neg hge, hderivation] at hkin
  cases hkin

theorem report (h : Grown c₀ c) (f : Fault) : Grown c₀ ((report f).run c).2 := { h with }

/-- A complex type may be replaced by one that has its name and its base. -/
theorem setType (h : Grown c₀ c) {ct' : ComplexType} (hkin : Kin c₀ t ct)
    (hname : ct'.name? = ct.name?) (hderivation : ct'.derivation? = ct.derivation?) :
    Grown c₀ ((setType t (.complex ct')).run c).2 := by
  have hset (u : TypeId) : ((Components.setType t (.complex ct')).run c).2.lineage? u =
      if t = u ∧ u.index < c.types.size then some (ct.name?, ct.derivation?) else c.lineage? u := by
    rw [lineage?, run_setType]
    dsimp only
    rw [Array.getElem?_setIfInBounds]
    by_cases htu : t = u
    · subst htu
      by_cases hlt : t.index < c.types.size
      · rw [if_pos rfl, if_pos hlt, if_pos ⟨rfl, hlt⟩, ← hname, ← hderivation]
        rfl
      · rw [if_pos rfl, if_neg hlt, if_neg fun h => hlt h.2,
          lineage?_of_size_le (Nat.le_of_not_lt hlt)]
        rfl
    · rw [if_neg fun heq => htu (congrArg TypeId.mk heq), if_neg fun h => htu h.1, lineage?]
  refine ⟨h.globalTypes, h.attributeGroups, h.kept, h.called, ?_, fun u hu => ?_,
    fun u n? d? hu hlineage => ?_⟩
  · exact Nat.le_trans h.size (Nat.le_of_eq Array.size_setIfInBounds.symm)
  · rw [hset]
    split
    · next hself =>
      obtain ⟨rfl, -⟩ := hself
      rw [Kin, if_pos hu] at hkin
      exact hkin.symm
    · exact h.lineage u hu
  · rw [hset] at hlineage
    split at hlineage
    · next hself =>
      obtain ⟨rfl, -⟩ := hself
      cases hlineage
      rwa [Kin, if_neg (Nat.not_lt.2 hu)] at hkin
    · exact h.baseless u n? d? hu hlineage

end Grown

theorem grown_builtinType (c₀ : Components) (k : String) :
    Maintained (Grown c₀) (builtinType k) := by
  intro c hc
  refine ⟨?_, trivial⟩
  rw [run_builtinType]
  cases hlookup : c.builtins.lookup k with
  | some t => exact hc
  | none =>
    dsimp only
    have hpush (u : TypeId) (n? : Option Name) (d? : Option (Derivation × Name))
        (hlineage : lineage? { c with
          types := c.types.push (Builtin.definition k)
          builtins := (k, ⟨c.types.size⟩) :: c.builtins } u = some (n?, d?)) :
        u.index = c.types.size ∧ d? = none ∨ c.lineage? u = some (n?, d?) := by
      rw [lineage?] at hlineage
      dsimp only at hlineage
      rw [Array.getElem?_push] at hlineage
      split at hlineage
      · next hu =>
        refine .inl ⟨hu, ?_⟩
        rw [Builtin.definition] at hlineage
        split at hlineage <;> cases hlineage
        rfl
      · exact .inr hlineage
    refine ⟨hc.globalTypes, hc.attributeGroups, fun k' t ht => ?_, fun k' t ht => ?_, ?_,
      fun u hu => ?_, fun u n? d? hu hlineage => ?_⟩
    · have hne : k' ≠ k := by
        rintro rfl
        rw [hc.kept _ t ht] at hlookup
        cases hlookup
      dsimp only
      rw [List.lookup_cons, beq_false_of_ne hne]
      exact hc.kept k' t ht
    · dsimp only at ht
      rw [List.lookup_cons] at ht
      split at ht
      · cases ht
        exact .inr hc.size
      · exact hc.called k' t ht
    · rw [Array.size_push]
      exact Nat.le_succ_of_le hc.size
    · rw [← hc.lineage u hu, lineage?, lineage?, Array.getElem?_push,
        if_neg (Nat.ne_of_lt (Nat.lt_of_lt_of_le hu hc.size))]
    · obtain ⟨-, hnone⟩ | hold := hpush u n? d? hlineage
      · exact hnone
      · exact hc.baseless u n? d? hu hold

/-! ### Looking something up -/

/-- What holds whichever built-in types are called for, and whatever of a kind is reported. -/
structure Robust (Tolerated : Fault → Prop) (I : Components → Prop) : Prop where
  report : ∀ f, Tolerated f → Maintained I (report f)
  builtinType : ∀ k, Maintained I (builtinType k)

end Components

/-- A type that waits for itself. -/
def Fault.circular? : Fault → Option String
  | .circularDerivation label => some label
  | _ => none

/-- A type that is its own base. -/
def Fault.selfDerived? : Fault → Option String
  | .selfDerivation label => some label
  | _ => none

/-- A fault that is not about a circle of types. -/
def Fault.Straight (f : Fault) : Prop := f.circular? = none ∧ f.selfDerived? = none

namespace Components

open Building (Maintains Maintained)

/-- What a name stands for at first, or else a built-in type that has been called for since. -/
def Stands (c₀ : Components) (n : Name) (b? : Option TypeId) : Prop :=
  b? = ((typeNamed? n).run c₀).1 ∨ ∃ b b₀, b? = some b ∧ ((typeNamed? n).run c₀).1 = some b₀ ∧
    c₀.types.size ≤ b.index ∧ c₀.types.size ≤ b₀.index

/-- What has been found as the base of a complex type. -/
def Founded (c₀ : Components) (ct : ComplexType) (b? : Option TypeId) : Prop :=
  match ct.derivation? with
  | none => b? = none
  | some (_, base) => Stands c₀ base b?

theorem run_typeNamed? (n : Name) (c : Components) : ((typeNamed? n).run c).1 =
    match c.globalTypes.find? n with
    | some t => some t
    | none =>
      if Builtin.isAnyType n || Builtin.isSimpleType n then
        some ((c.builtins.lookup n.localName).getD ⟨c.types.size⟩)
      else none := by
  rw [typeNamed?, run_bind]
  change ((match c.globalTypes.find? n with | some t => _ | none => _ :
    Building (Option TypeId)).run c).1 = _
  cases c.globalTypes.find? n with
  | some t => rfl
  | none =>
    dsimp only
    split
    · rw [run_bind, run_builtinType]
      cases c.builtins.lookup n.localName <;> rfl
    · rfl

theorem Grown.stands {c₀ c : Components} (h : Grown c₀ c) (n : Name) :
    Stands c₀ n ((typeNamed? n).run c).1 := by
  rw [Stands, run_typeNamed?, run_typeNamed?, h.globalTypes]
  cases c₀.globalTypes.find? n with
  | some t => exact .inl rfl
  | none =>
    dsimp only
    split
    · cases hnew : c.builtins.lookup n.localName with
      | some t =>
        rcases h.called _ t hnew with hold | hge
        · rw [hold]
          exact .inl rfl
        · cases hold : c₀.builtins.lookup n.localName with
          | none => exact .inr ⟨t, ⟨c₀.types.size⟩, rfl, rfl, hge, Nat.le_refl _⟩
          | some t' =>
            rw [h.kept _ t' hold] at hnew
            cases hnew
            exact .inl rfl
      | none =>
        cases hold : c₀.builtins.lookup n.localName with
        | none => exact .inr ⟨⟨c.types.size⟩, ⟨c₀.types.size⟩, rfl, rfl, h.size, Nat.le_refl _⟩
        | some t' =>
          rw [h.kept _ t' hold] at hnew
          cases hnew
    · exact .inl rfl

namespace Robust

variable {c₀ : Components} {I : Components → Prop} (hI : Robust Fault.Straight I)

include hI

theorem typeNamed? (n : Name) : Maintains I (typeNamed? n) fun _ => True := by
  refine .get_bind fun c _ => ?_
  split
  · exact .pure trivial
  · split
    · exact (hI.builtinType _).bind fun _ _ => .pure trivial
    · exact .pure trivial

theorem typeOf? (ref : TypeRef) (referrer : Referrer) : Maintained I (typeOf? ref referrer) := by
  cases ref with
  | unspecified => exact .pure trivial
  | definition t => exact .pure trivial
  | named n =>
    refine (hI.typeNamed? n).bind fun t? _ => ?_
    split
    · exact (hI.report _ ⟨rfl, rfl⟩).bind fun _ _ => .pure trivial
    · exact .pure trivial

theorem resolveUse (a : AttributeUse) : Maintained I (resolveUse a) := by
  have hdereference : Maintained I (dereference a) := by
    rw [dereference]
    split
    · exact .pure trivial
    · refine .get_bind fun c _ => ?_
      split
      · exact .pure trivial
      · exact (hI.report _ ⟨rfl, rfl⟩).bind fun _ _ => .pure trivial
  exact hdereference.bind fun _ _ => (hI.typeOf? _ _).bind fun _ _ => .pure trivial

theorem resolveUses (own : List AttributeUse) (groups : List Name) :
    Maintained I (resolveUses own groups) := by
  refine .get_bind fun c _ => ?_
  have hreports (faults : List Fault) (hfaults : ∀ f ∈ faults, f.Straight) :
      Maintained I (faults.forM Components.report) := by
    induction faults with
    | nil => exact .pure trivial
    | cons f faults ih =>
      rw [List.forall_mem_cons] at hfaults
      exact (hI.report f hfaults.1).bind fun _ _ => ih hfaults.2
  have hstraight : ∀ f ∈ (c.usesOfGroups groups).2, f.Straight := by
    intro f hf
    obtain ⟨r, rfl | rfl⟩ := (c.flattens_usesOfGroups groups).2.exists_of_mem_faults hf
    · exact ⟨rfl, rfl⟩
    · exact ⟨rfl, rfl⟩
  dsimp only
  exact (hreports _ hstraight).bind fun _ _ => .mapM hI.resolveUse _

/-- What a complex type refers to is looked up, and its base is found. -/
theorem lookUp (hgrown : ∀ c, I c → Grown c₀ c) (ct : ComplexType) :
    Maintains I (lookUp ct) fun found => Founded c₀ ct (found.2.map Prod.snd) := by
  refine (hI.resolveUses _ _).bind fun uses _ => ?_
  split
  · next hct => exact .pure (by rw [Founded, hct]; rfl)
  · next method base hct =>
    have hfounded : ∀ b?, Founded c₀ ct b? ↔ Stands c₀ base b? := fun b? => by rw [Founded, hct]
    have hbase : Maintains I (Components.typeNamed? base) fun b? => Stands c₀ base b? :=
      fun c hc => ⟨(hI.typeNamed? base c hc).1, (hgrown c hc).stands base⟩
    refine hbase.bind fun b? hb => ?_
    cases b? with
    | none => exact (hI.report _ ⟨rfl, rfl⟩).bind fun _ _ => .pure ((hfounded _).2 hb)
    | some b => exact .pure ((hfounded _).2 hb)

end Robust

theorem robust_grown (c₀ : Components) : Robust Fault.Straight (Grown c₀) where
  report := fun f _ _ hc => ⟨hc.report f, trivial⟩
  builtinType := grown_builtinType c₀

/-! ### The bound is never reached -/

end Components

namespace ComplexType

variable (version : Version) (ct : ComplexType) (method : Derivation) (b : TypeId)

theorem name?_onto (d? : Option TypeDef) : (ct.onto version method b d?).name? = ct.name? := by
  rcases d? with - | (st | base)
  · rfl
  · rw [onto, derive]
    split <;> rfl
  · cases method <;> rfl

theorem derivation?_onto (d? : Option TypeDef) :
    (ct.onto version method b d?).derivation? = ct.derivation? := by
  rcases d? with - | (st | base)
  · rfl
  · rw [onto, derive]
    split <;> rfl
  · cases method <;> rfl

end ComplexType

namespace Components

variable {c₀ c : Components} {room : Nat} {path done : List TypeId} {t : TypeId}

/-- What is not a complex type is done as soon as it is met. -/
theorem run_derive_of_forall_ne (h : t ∉ done)
    (ht : ∀ ct, c.types[t.index]? ≠ some (.complex ct)) :
    ((derive (room + 1) path t).run done).run c = (((), t :: done), c) := by
  rw [derive]
  change ((if t ∈ done then pure () else _ : Deriving Unit).run done).run c = _
  rw [if_neg h, run_lift_bind, run_type?]
  dsimp only
  split
  · next ct hct => exact absurd hct (ht ct)
  · rfl

theorem run_derive_circular (h : t ∉ done) (hpath : t ∈ path) {ct : ComplexType}
    (ht : c.types[t.index]? = some (.complex ct)) :
    ((derive (room + 1) path t).run done).run c = (((), done),
      ((report (.circularDerivation (TypeDef.complex ct).label)).run c).2) := by
  rw [derive]
  change ((if t ∈ done then pure () else _ : Deriving Unit).run done).run c = _
  rw [if_neg h, run_lift_bind, run_type?, ht]
  dsimp only
  rw [if_pos hpath]
  rfl

theorem run_settle_self (ct : ComplexType) (uses : List AttributeUse) (method : Derivation) :
    ((settle room path t ct (uses, some (method, t))).run done).run c = (((), t :: done),
      ((setType t (.complex (ct.withUses uses).pruned)).run
        ((report (.selfDerivation (TypeDef.complex ct).label)).run c).2).2) := by
  rw [settle]
  dsimp only
  rw [if_pos rfl]
  rfl

theorem run_settle_onto {ct : ComplexType} {uses : List AttributeUse} {method : Derivation}
    {b : TypeId} (hb : b ≠ t) {done' : List TypeId} {c' : Components}
    (hrun : ((derive room (t :: path) b).run done).run c = (((), done'), c')) :
    ((settle room path t ct (uses, some (method, b))).run done).run c = (((), t :: done'),
      ((setType t (.complex ((ct.withUses uses).onto c'.version method b
        c'.types[b.index]?).pruned)).run c').2) := by
  cases hd : c'.types[b.index]? with
  | some d => exact run_settle hb hrun hd
  | none =>
    have hbind {α : Type} (f : Unit → Deriving α) :
        ((derive room (t :: path) b >>= f).run done).run c = ((f ()).run done').run c' := by
      change ((f ((derive room (t :: path) b).run done |>.run c).1.1).run
        ((derive room (t :: path) b).run done |>.run c).1.2).run
          ((derive room (t :: path) b).run done |>.run c).2 = _
      rw [hrun]
    rw [settle]
    dsimp only
    rw [if_neg hb, hbind, run_lift_bind, run_type?]
    dsimp only
    rw [hd]
    rfl

/-- Different types that were there at first are no more than there were. -/
theorem length_le_of_nodup {ts : List TypeId} (hnodup : ts.Nodup) {size : Nat}
    (hlt : ∀ t ∈ ts, t.index < size) : ts.length ≤ size := by
  have hsubset : ts ⊆ (List.range size).map TypeId.mk := fun t ht =>
    List.mem_map.2 ⟨t.index, List.mem_range.2 (hlt t ht), rfl⟩
  have hle := (hnodup.subperm hsubset).length_le
  rwa [List.length_map, List.length_range] at hle

/-- **Deriving a type goes as far as it goes**: there is room for all types that may wait. -/
theorem visits_derive (hgrown : Grown c₀ c) (hnodup : path.Nodup)
    (hlt : ∀ w ∈ path, w.index < c₀.types.size)
    (hroom : c₀.types.size + 2 ≤ room + path.length) (done : List TypeId) (t : TypeId) :
    ∃ done' c', ((derive room path t).run done).run c = (((), done'), c') ∧
      Visits t ⟨path, done⟩ c ⟨path, done'⟩ c' := by
  induction room generalizing path done c t with
  | zero =>
    have hle := length_le_of_nodup hnodup hlt
    omega
  | succ room ih =>
    by_cases hdone : t ∈ done
    · exact ⟨done, c, run_derive_of_mem hdone c, .done hdone⟩
    · by_cases hcomplex : ∃ ct, c.types[t.index]? = some (.complex ct)
      · obtain ⟨ct, ht⟩ := hcomplex
        by_cases hpath : t ∈ path
        · exact ⟨done, _, run_derive_circular hdone hpath ht, .circular hdone ht hpath⟩
        · have hleave (done' : List TypeId) :
              (⟨path, t :: done'⟩ : Marks) = Marks.leave ⟨t :: path, done'⟩ t := by
            rw [Marks.leave, List.erase_cons_head]
          obtain ⟨hgrown', hfounded⟩ :=
            (robust_grown c₀).lookUp (fun _ h => h) ct c hgrown
          rw [run_derive_complex hdone hpath ht]
          obtain ⟨⟨⟨uses, found?⟩, c'⟩, hrun⟩ : ∃ r, (lookUp ct).run c = r := ⟨_, rfl⟩
          rw [hrun] at hgrown' hfounded ⊢
          rcases found? with - | ⟨method, b⟩
          · exact ⟨t :: done, _, rfl, hleave done ▸ .alone hdone ht hpath hrun⟩
          · by_cases hb : b = t
            · subst hb
              exact ⟨b :: done, _, run_settle_self ct uses method,
                hleave done ▸ .self hdone ht hpath hrun⟩
            · -- a type with a base was there at first
              have hindex : t.index < c₀.types.size := by
                cases hderivation : ct.derivation? with
                | none => rw [Founded, hderivation] at hfounded; cases hfounded
                | some derivation => exact hgrown.lt_of_derivation ht hderivation
              obtain ⟨done', c'', hrun', hvisits⟩ : ∃ done' c'',
                  ((derive room (t :: path) b).run done).run c' = (((), done'), c'') ∧
                    Visits b ⟨t :: path, done⟩ c' ⟨t :: path, done'⟩ c'' :=
                ih hgrown' (List.nodup_cons.2 ⟨hpath, hnodup⟩)
                  (List.forall_mem_cons.2 ⟨hindex, hlt⟩) (by rw [List.length_cons]; omega) done b
              exact ⟨t :: done', _, run_settle_onto hb hrun',
                hleave done' ▸ .derived hdone ht hpath hrun hb hvisits⟩
      · have hnone (ct : ComplexType) : c.types[t.index]? ≠ some (.complex ct) :=
          fun ht => hcomplex ⟨ct, ht⟩
        exact ⟨t :: done, c, run_derive_of_forall_ne hdone hnone, .simple hdone hnone⟩

/-- Derivation keeps names and bases, and numbers nothing but built-in types. -/
theorem Visits.grown {m m' : Marks} {c' : Components} (h : Visits t m c m' c')
    (hgrown : Grown c₀ c) : Grown c₀ c' := by
  have hlookUp {c c' : Components} {ct : ComplexType}
      {found : List AttributeUse × Option (Derivation × TypeId)} (hgrown : Grown c₀ c)
      (hrun : (lookUp ct).run c = (found, c')) : Grown c₀ c' := by
    obtain ⟨hgrown', -⟩ := (robust_grown c₀).lookUp (fun _ h => h) ct c hgrown
    rwa [hrun] at hgrown'
  induction h with
  | done => exact hgrown
  | simple => exact hgrown
  | circular => exact hgrown.report _
  | alone _ ht _ hrun => exact (hlookUp hgrown hrun).setType (hgrown.kin ht) rfl rfl
  | self _ ht _ hrun =>
    exact ((hlookUp hgrown hrun).report _).setType (hgrown.kin ht) rfl rfl
  | derived _ ht _ hrun _ _ ih =>
    exact (ih (hlookUp hgrown hrun)).setType (hgrown.kin ht) (ComplexType.name?_onto ..)
      (ComplexType.derivation?_onto ..)

theorem Marks.waiting_leave_enter (m : Marks) (t : TypeId) :
    ((m.enter t).leave t).waiting = m.waiting := List.erase_cons_head ..

/-- What waits for its base waits until that is derived, and no longer. -/
theorem Visits.waiting {m m' : Marks} {c' : Components} (h : Visits t m c m' c') :
    m'.waiting = m.waiting := by
  induction h with
  | done => rfl
  | simple => rfl
  | circular => rfl
  | alone => exact Marks.waiting_leave_enter _ _
  | self => exact Marks.waiting_leave_enter _ _
  | derived _ _ _ _ _ _ ih =>
    rw [Marks.leave, ih]
    exact List.erase_cons_head ..

/-- What is done stays done. -/
theorem Visits.subset {m m' : Marks} {c' : Components} (h : Visits t m c m' c') :
    m.done ⊆ m'.done := by
  induction h with
  | done => exact List.Subset.refl _
  | circular => exact List.Subset.refl _
  | simple => exact List.subset_cons_self _ _
  | alone => exact List.subset_cons_self _ _
  | self => exact List.subset_cons_self _ _
  | derived _ _ _ _ _ _ ih => exact List.subset_cons_of_subset _ ih

theorem VisitsInTurn.subset {ts : List TypeId} {m m' : Marks} {c' : Components}
    (h : VisitsInTurn ts m c m' c') : m.done ⊆ m'.done := by
  induction h with
  | nil => exact List.Subset.refl _
  | cons hvisits _ ih => exact List.Subset.trans hvisits.subset ih

/-- Types are derived in turn as far as that goes. -/
theorem visitsInTurn_forM_derive (hgrown : Grown c₀ c) (hroom : c₀.types.size + 2 ≤ room)
    (is : List Nat) (done : List TypeId) :
    ∃ done' c', ((is.forM fun i => derive room [] ⟨i⟩).run done).run c = (((), done'), c') ∧
      VisitsInTurn (is.map TypeId.mk) ⟨[], done⟩ c ⟨[], done'⟩ c' ∧
      ∀ i ∈ is, ⟨i⟩ ∈ done' := by
  induction is generalizing done c with
  | nil => exact ⟨done, c, rfl, .nil, nofun⟩
  | cons i is ih =>
    obtain ⟨done₁, c₁, hrun, hvisits⟩ :=
      visits_derive hgrown List.nodup_nil nofun hroom done ⟨i⟩
    obtain ⟨done', c', hrun', hrest, hdone⟩ := ih (hvisits.grown hgrown) done₁
    have hbind : (((i :: is).forM fun i => derive room [] ⟨i⟩).run done).run c =
        ((is.forM fun i => derive room [] ⟨i⟩).run ((derive room [] ⟨i⟩).run done |>.run c).1.2).run
          ((derive room [] ⟨i⟩).run done |>.run c).2 := rfl
    refine ⟨done', c', ?_, .cons hvisits hrest, ?_⟩
    · rw [hbind, hrun, hrun']
    · exact List.forall_mem_cons.2 ⟨hrest.subset hvisits.mem_done, hdone⟩

/-- Going through all types, from those on that are done. -/
def deriveInTurn (c : Components) : Deriving Unit :=
  (List.range c.types.size).forM fun i => derive (c.types.size + 2) [] ⟨i⟩

/-- All types are derived as far as that goes, and are done in the end. -/
theorem visitsInTurn_deriveTypes (c : Components) :
    ∃ done, (c.deriveInTurn.run []).run c = (((), done), (deriveTypes.run c).2) ∧
      VisitsInTurn ((List.range c.types.size).map TypeId.mk) ⟨[], []⟩ c ⟨[], done⟩
        (deriveTypes.run c).2 ∧
      ∀ t : TypeId, t.index < c.types.size → t ∈ done := by
  obtain ⟨done, c', hrun, hvisits, hdone⟩ :=
    visitsInTurn_forM_derive (.refl c) (Nat.le_refl _) (List.range c.types.size) []
  have hfinal : (deriveTypes.run c).2 = c' := congrArg Prod.snd hrun
  rw [hfinal]
  exact ⟨done, hrun, hvisits, fun t ht => hdone t.index (List.mem_range.2 ht)⟩

end Components
end SchemaAssist
