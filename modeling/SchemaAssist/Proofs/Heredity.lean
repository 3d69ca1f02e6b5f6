/-
# What types pass on

Once model groups have been expanded, looking up references does three things to the complex types
of components: it adds the type of any content, it gives a type its attributes, and it derives a
type from a base, at most once.  What types have before they are derived and what bases pass on to them
(`Components.Hereditary`) settles what they have afterwards (`Components.Hereditary.lookedUp`),
whether or not types derive from themselves.
-/

import SchemaAssist.Proofs.Outcomes

namespace SchemaAssist

/-! ### Steps that maintain something -/

namespace Building

variable {α β γ : Type} {I : Components → Prop} {P : α → Prop} {Q : β → Prop}

/-- A step that maintains what holds of the components, and whose value has a property. -/
def Maintains (I : Components → Prop) (x : Building α) (P : α → Prop) : Prop :=
  ∀ c, I c → I (x.run c).2 ∧ P (x.run c).1

/-- A step that maintains what holds of the components. -/
abbrev Maintained (I : Components → Prop) (x : Building α) : Prop := Maintains I x fun _ => True

namespace Maintains

theorem pure {a : α} (h : P a) : Maintains I (pure a) P := fun _ hc => ⟨hc, h⟩

theorem bind {x : Building α} {f : α → Building β} (hx : Maintains I x P)
    (hf : ∀ a, P a → Maintains I (f a) Q) : Maintains I (x >>= f) Q := by
  intro c hc
  obtain ⟨hkept, hvalue⟩ := hx c hc
  exact hf _ hvalue _ hkept

/-- A step that depends on the components. -/
theorem get_bind {f : Components → Building β} (hf : ∀ c, I c → Maintains I (f c) Q) :
    Maintains I (get >>= f) Q := fun c hc => hf c hc c hc

theorem modify {f : Components → Components} (hf : ∀ c, I c → I (f c)) :
    Maintained I (modify f) := fun c hc => ⟨hf c hc, trivial⟩

theorem forM {f : γ → Building PUnit} (h : ∀ a, Maintained I (f a)) (as : List γ) :
    Maintained I (as.forM f) := by
  induction as with
  | nil => exact .pure trivial
  | cons a as ih => exact (h a).bind fun _ _ => ih

theorem mapM {f : γ → Building α} (h : ∀ a, Maintained I (f a)) (as : List γ) :
    Maintained I (as.mapM f) := by
  induction as with
  | nil => exact .pure trivial
  | cons a as ih =>
    rw [List.mapM_cons]
    exact (h a).bind fun _ _ => ih.bind fun _ _ => .pure trivial

theorem findSomeM? {f : γ → Building (Option α)} (h : ∀ a, Maintained I (f a)) (as : List γ) :
    Maintained I (as.findSomeM? f) := by
  induction as with
  | nil => exact .pure trivial
  | cons a as ih =>
    refine (h a).bind fun b? _ => ?_
    cases b? with
    | none => exact ih
    | some b => exact .pure trivial

end Maintains
end Building

namespace Components

open Building (Maintains Maintained)

namespace Deriving

variable {α β γ : Type} {J : List TypeId → Components → Prop} {P : α → Prop} {Q : β → Prop}

/-- A step of derivation that maintains what holds of the components and the types that are done,
from given types that are done on. -/
def MaintainsFrom (J : List TypeId → Components → Prop) (done : List TypeId) (x : Deriving α)
    (P : α → Prop) : Prop :=
  ∀ c, J done c → J ((x.run done).run c).1.2 ((x.run done).run c).2 ∧ P ((x.run done).run c).1.1

/-- A step of derivation that maintains what holds of the components and the types that are done. -/
def Maintains (J : List TypeId → Components → Prop) (x : Deriving α) (P : α → Prop) : Prop :=
  ∀ done, MaintainsFrom J done x P

/-- Looking something up changes nothing about which types are done. -/
theorem MaintainsFrom.lift_bind {done : List TypeId} {x : Building α} {f : α → Deriving β}
    (hx : Building.Maintains (J done) x P) (hf : ∀ a, P a → MaintainsFrom J done (f a) Q) :
    MaintainsFrom J done (liftM x >>= f) Q := by
  intro c hc
  obtain ⟨hkept, hvalue⟩ := hx c hc
  exact hf _ hvalue _ hkept

namespace Maintains

theorem pure {a : α} (h : P a) : Deriving.Maintains J (pure a) P := fun _ _ hc => ⟨hc, h⟩

theorem bind {x : Deriving α} {f : α → Deriving β} (hx : Deriving.Maintains J x P)
    (hf : ∀ a, P a → Deriving.Maintains J (f a) Q) : Deriving.Maintains J (x >>= f) Q := by
  intro done c hc
  obtain ⟨hkept, hvalue⟩ := hx done c hc
  exact hf _ hvalue _ _ hkept

/-- A step that depends on which types are done. -/
theorem done_bind {f : List TypeId → Deriving β} (hf : ∀ done, MaintainsFrom J done (f done) Q) :
    Deriving.Maintains J (getThe (List TypeId) >>= f) Q := fun done c hc => hf done c hc

/-- A step that depends on the components. -/
theorem get_bind {f : Components → Deriving β}
    (hf : ∀ done c, J done c → MaintainsFrom J done (f c) Q) :
    Deriving.Maintains J (getThe Components >>= f) Q := fun done c hc => hf done c hc c hc

theorem lift {x : Building α} (h : ∀ done, Building.Maintains (J done) x P) :
    Deriving.Maintains J (liftM x) P := fun done c hc => h done c hc

theorem forM {f : γ → Deriving PUnit} (h : ∀ a, Deriving.Maintains J (f a) fun _ => True)
    (as : List γ) : Deriving.Maintains J (as.forM f) fun _ => True := by
  induction as with
  | nil => exact .pure trivial
  | cons a as ih => exact (h a).bind fun _ _ => ih

end Maintains
end Deriving

/-! ### Properties of complex types -/

/-- Properties of complex types, by their places, before and after derivation. -/
structure Hereditary (c₀ : Components) (Fresh Final : TypeId → ComplexType → Prop) : Prop where
  /-- The type of any content comes behind the types that there are. -/
  anyType : ∀ t : TypeId, c₀.types.size ≤ t.index → Fresh t Builtin.anyType
  fresh_uses : ∀ t ct attributes attributeGroups, Fresh t ct →
    Fresh t { ct with attributes, attributeGroups }
  final_uses : ∀ t ct attributes, Final t ct → Final t { ct with attributes }
  final : ∀ t ct, Fresh t ct → Final t ct
  derived : ∀ t ct method n b base, ct.derivation? = some (method, n) → Fresh t ct →
    (∀ ct', base = .complex ct' → Final b ct') → Final t (ct.derive c₀.version method b base)

/-- All complex types have the one property, and those that are not done the other one. -/
structure Endowed (c₀ : Components) (Fresh Final : TypeId → ComplexType → Prop)
    (done : List TypeId) (c : Components) : Prop where
  version : c.version = c₀.version
  limits : c.limits = c₀.limits
  size : c₀.types.size ≤ c.types.size
  types : ∀ (t : TypeId) ct, c.types[t.index]? = some (.complex ct) → Final t ct
  fresh : ∀ (t : TypeId) ct, c.types[t.index]? = some (.complex ct) → t ∉ done → Fresh t ct

section Steps

variable {c₀ : Components} {Fresh Final : TypeId → ComplexType → Prop} {done : List TypeId}

theorem endowed_report (f : Fault) : Maintained (Endowed c₀ Fresh Final done) (report f) :=
  .modify fun _ hc => { hc with }

/-- A complex type at a place has the one property. -/
theorem endowed_type? (t : TypeId) :
    Maintains (Endowed c₀ Fresh Final done) (type? t) fun d? =>
      ∀ ct, d? = some (.complex ct) → Final t ct :=
  .get_bind fun _ hc => .pure fun ct hct => hc.types t ct hct

/-- A complex type at a place that is not done has the other one. -/
theorem fresh_type? {t : TypeId} (ht : t ∉ done) :
    Maintains (Endowed c₀ Fresh Final done) (type? t) fun d? =>
      ∀ ct, d? = some (.complex ct) → Fresh t ct :=
  .get_bind fun _ hc => .pure fun ct hct => hc.fresh t ct hct ht

/-- A type takes the place of another. -/
theorem getElem?_setType {c : Components} {t u : TypeId} {d d' : TypeDef}
    (h : (c.types.setIfInBounds t.index d)[u.index]? = some d') :
    (t = u ∧ d' = d) ∨ c.types[u.index]? = some d' := by
  rw [Array.getElem?_setIfInBounds] at h
  split at h
  · next hindex =>
    split at h
    · exact Or.inl ⟨congrArg TypeId.mk hindex, (Option.some.inj h).symm⟩
    · cases h
  · exact Or.inr h

/-- Simple types do not matter. -/
theorem endowed_setSimple (t : TypeId) (st : SimpleType) :
    Maintained (Endowed c₀ Fresh Final done) (setType t (.simple st)) := by
  refine .modify fun c hc => { hc with
    size := by rw [Array.size_setIfInBounds]; exact hc.size
    types := fun u ct hct => ?_
    fresh := fun u ct hct => ?_ }
  · rcases getElem?_setType hct with ⟨-, hsimple⟩ | hold
    · cases hsimple
    · exact hc.types u ct hold
  · rcases getElem?_setType hct with ⟨-, hsimple⟩ | hold
    · cases hsimple
    · exact hc.fresh u ct hold

theorem endowed_setElementType (d : ElementId) (t : TypeId) :
    Maintained (Endowed c₀ Fresh Final done) (setElementType d t) := .modify fun _ hc => { hc with }

variable (hP : Hereditary c₀ Fresh Final)

include hP

namespace Hereditary

theorem addType (k : String) :
    Maintained (Endowed c₀ Fresh Final done) (addType (Builtin.definition k)) := by
  intro c hc
  let c' : Components := { c with types := c.types.push (Builtin.definition k) }
  have hpushed {u : TypeId} {ct : ComplexType} (hct : c'.types[u.index]? = some (.complex ct)) :
      Fresh u ct ∨ c.types[u.index]? = some (.complex ct) := by
    have hget : c'.types[u.index]? =
        if u.index = c.types.size then some (Builtin.definition k) else c.types[u.index]? :=
      Array.getElem?_push
    rw [hget] at hct
    split at hct
    · next hindex =>
      have hdefinition := Option.some.inj hct
      rw [Builtin.definition] at hdefinition
      split at hdefinition
      · cases hdefinition
        exact Or.inl (hP.anyType u (hindex ▸ hc.size))
      · cases hdefinition
    · exact Or.inr hct
  have hsize : c₀.types.size ≤ c'.types.size := by
    rw [Array.size_push]
    exact Nat.le_succ_of_le hc.size
  refine ⟨⟨hc.version, hc.limits, hsize, fun u ct hct => ?_, fun u ct hct hu => ?_⟩, trivial⟩
  · exact (hpushed hct).elim (hP.final u ct) (hc.types u ct)
  · exact (hpushed hct).elim id fun hold => hc.fresh u ct hold hu

theorem builtinType (k : String) :
    Maintained (Endowed c₀ Fresh Final done) (builtinType k) := by
  refine .get_bind fun c _ => ?_
  split
  · exact .pure trivial
  · exact (hP.addType k).bind fun _ _ =>
      (Maintains.modify fun _ hc => { hc with }).bind fun _ _ => .pure trivial

theorem typeNamed? (n : Name) : Maintained (Endowed c₀ Fresh Final done) (typeNamed? n) := by
  refine .get_bind fun c _ => ?_
  split
  · exact .pure trivial
  · split
    · exact (hP.builtinType _).bind fun _ _ => .pure trivial
    · exact .pure trivial

theorem typeOf? (ref : TypeRef) (referrer : Referrer) :
    Maintained (Endowed c₀ Fresh Final done) (typeOf? ref referrer) := by
  cases ref with
  | unspecified => exact .pure trivial
  | definition t => exact .pure trivial
  | named n =>
    refine (hP.typeNamed? n).bind fun t? _ => ?_
    split
    · exact (endowed_report _).bind fun _ _ => .pure trivial
    · exact .pure trivial

theorem resolveBase (t : TypeId) :
    Maintained (Endowed c₀ Fresh Final done) (resolveBase t) := by
  refine (endowed_type? t).bind fun d? _ => ?_
  split
  · split
    · exact (hP.typeOf? _ _).bind fun _ _ => endowed_setSimple t _
    · exact .pure trivial
  · exact .pure trivial

theorem resolveBases : Maintained (Endowed c₀ Fresh Final done) resolveBases :=
  .get_bind fun _ _ => .forM (fun _ => hP.resolveBase _) _

theorem resolveUse (a : AttributeUse) :
    Maintained (Endowed c₀ Fresh Final done) (resolveUse a) := by
  have hdereference : Maintained (Endowed c₀ Fresh Final done) (dereference a) := by
    rw [dereference]
    split
    · exact .pure trivial
    · refine .get_bind fun c _ => ?_
      split
      · exact .pure trivial
      · exact (endowed_report _).bind fun _ _ => .pure trivial
  exact hdereference.bind fun _ _ => (hP.typeOf? _ _).bind fun _ _ => .pure trivial

theorem resolveUses (own : List AttributeUse) (groups : List Name) :
    Maintained (Endowed c₀ Fresh Final done) (resolveUses own groups) :=
  .get_bind fun _ _ => (Maintains.forM endowed_report _).bind fun _ _ => .mapM hP.resolveUse _

/-- A type is put in its place when it is done. -/
theorem settle {t : TypeId} {ct : ComplexType} (hct : Final t ct) :
    Deriving.Maintains (Endowed c₀ Fresh Final)
      (do setType t (.complex { ct with attributes := ct.attributes.filter (!·.prohibited) })
          modifyThe (List TypeId) (t :: ·)) fun _ => True := by
  intro done c hc
  refine ⟨⟨hc.version, hc.limits, ?_, fun u ct' hct' => ?_, fun u ct' hct' hu => ?_⟩, trivial⟩
  · exact Nat.le_trans hc.size (Nat.le_of_eq Array.size_setIfInBounds.symm)
  · rcases getElem?_setType hct' with ⟨rfl, hnew⟩ | hold
    · cases hnew
      exact hP.final_uses t ct _ hct
    · exact hc.types u ct' hold
  · obtain ⟨hne, hu⟩ := not_or.1 (mt List.mem_cons.2 hu)
    rcases getElem?_setType hct' with ⟨rfl, -⟩ | hold
    · exact absurd rfl hne
    · exact hc.fresh u ct' hold hu

/-- Deriving a type passes on what its base has. -/
theorem derive (room : Nat) (path : List TypeId) (t : TypeId) :
    Deriving.Maintains (Endowed c₀ Fresh Final) (derive room path t) fun _ => True := by
  induction room generalizing path t with
  | zero => exact .pure trivial
  | succ room ih =>
    have hmark : Deriving.Maintains (Endowed c₀ Fresh Final) (modifyThe (List TypeId) (t :: ·))
        fun _ => True := fun done c hc =>
      ⟨{ hc with fresh := fun u ct hct hu => hc.fresh u ct hct (mt (List.mem_cons_of_mem t) hu) },
        trivial⟩
    rw [Components.derive]
    refine .done_bind fun done => ?_
    split
    · exact Deriving.Maintains.pure trivial done
    · next hnew =>
      -- the type is not done yet, so it is still as it was declared
      refine .lift_bind (fresh_type? hnew) fun d? hfresh => ?_
      split
      · next ct =>
        split
        · exact Deriving.Maintains.lift (fun _ => endowed_report _) done
        · refine .lift_bind (hP.resolveUses _ _) fun attributes _ => ?_
          extract_lets own store
          have hown : Fresh t own := hP.fresh_uses t ct attributes [] (hfresh ct rfl)
          have hstore (ct : ComplexType) (hct : Final t ct) :
              Deriving.Maintains (Endowed c₀ Fresh Final) (pure ct >>= store) fun _ => True :=
            hP.settle hct
          have hreport (f : Fault) : Deriving.Maintains (Endowed c₀ Fresh Final)
              (liftM (report f) >>= fun _ => pure own >>= store) fun _ => True :=
            (Deriving.Maintains.lift fun _ => endowed_report f).bind fun _ _ =>
              hstore own (hP.final t own hown)
          split
          · exact hstore own (hP.final t own hown) done
          · next method base hderivation =>
            refine .lift_bind (hP.typeNamed? _) fun b? _ => ?_
            split
            · exact hreport _ done
            · next b =>
              split
              · exact hreport _ done
              · refine (ih (t :: path) b).bind (fun _ _ => ?_) done
                refine (Deriving.Maintains.lift fun _ => endowed_type? b).bind fun d? hbase => ?_
                split
                · next d =>
                  refine .get_bind fun done c hc => hstore _ ?_ done
                  rw [hc.version]
                  exact hP.derived t own method base b d hderivation hown fun ct' hct' =>
                    hbase ct' (congrArg some hct')
                · exact hstore own (hP.final t own hown)
      · exact hmark done

theorem deriveTypes {c : Components} (hc : Endowed c₀ Fresh Final [] c) :
    ∃ done, Endowed c₀ Fresh Final done (deriveTypes.run c).2 := by
  have hall : Deriving.Maintains (Endowed c₀ Fresh Final)
      ((List.range c.types.size).forM fun i => Components.derive (c.types.size + 2) [] ⟨i⟩)
      fun _ => True := .forM (fun i => hP.derive _ _ _) _
  exact ⟨_, (hall [] c hc).1⟩

theorem elementType? (room : Nat) (path : List ElementId) (d : ElementId) :
    Maintained (Endowed c₀ Fresh Final done) (elementType? room path d) := by
  induction room generalizing path d with
  | zero => exact .pure trivial
  | succ room ih =>
    have hdecl : Maintained (Endowed c₀ Fresh Final done) (element? d) :=
      .get_bind fun _ _ => .pure trivial
    rw [Components.elementType?]
    refine hdecl.bind fun decl? _ => ?_
    split
    · exact .pure trivial
    · split
      · exact .pure trivial
      · split
        · exact .pure trivial
        · extract_lets settle choose
          have hchoose (found? : Option TypeId) :
              Maintained (Endowed c₀ Fresh Final done) (choose found?) := by
            have hsettle (t : TypeId) : Maintained (Endowed c₀ Fresh Final done) (settle t) :=
              (endowed_setElementType d t).bind fun _ _ => .pure trivial
            cases found? with
            | none => exact (hP.builtinType _).bind fun t _ => hsettle t
            | some t => exact hsettle t
          split
          · exact .get_bind fun _ _ => (Maintains.findSomeM? (fun _ => ih _ _) _).bind
              fun found? _ => hchoose found?
          · exact (hP.typeOf? _ _).bind fun found? _ => hchoose found?

theorem typeElements : Maintained (Endowed c₀ Fresh Final done) typeElements :=
  .get_bind fun _ _ => .forM (fun _ => (hP.elementType? _ _ _).bind fun _ _ => .pure trivial) _

end Hereditary

end Steps

/-- **What types have in the end.**  If complex types have the first property once model groups have
been expanded, all have the second one once all references have been looked up. -/
theorem Hereditary.lookedUp {c : Components} {Fresh Final : TypeId → ComplexType → Prop}
    (hP : Hereditary c Fresh Final) (hstart : ∀ (t : TypeId) ct,
      (expandTypes.run c).2.types[t.index]? = some (.complex ct) → Fresh t ct) :
    c.lookedUp.limits = c.limits ∧
      ∀ (t : TypeId) ct, c.lookedUp.types[t.index]? = some (.complex ct) → Final t ct := by
  have hsize : c.types.size ≤ (expandTypes.run c).2.types.size := by
    rw [types_expandTypes, Array.size_map]
  have hexpanded : Endowed c Fresh Final [] (expandTypes.run c).2 :=
    ⟨rfl, rfl, hsize, fun t ct hct => hP.final t ct (hstart t ct hct), fun t ct hct _ =>
      hstart t ct hct⟩
  obtain ⟨hbased, -⟩ := hP.resolveBases _ hexpanded
  obtain ⟨done, hderived⟩ := hP.deriveTypes hbased
  obtain ⟨hdone, -⟩ := hP.typeElements _ hderived
  have hlooked : Endowed c Fresh Final done c.lookedUp := by
    rw [Components.lookedUp, run_bind Components.resolveBases]
    exact hdone
  exact ⟨hlooked.limits, hlooked.types⟩

end Components
end SchemaAssist
