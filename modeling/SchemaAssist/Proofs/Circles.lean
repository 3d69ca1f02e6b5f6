/-
# Circles of types

A complex type has at most one base, so from each type one way leads up, and it either ends or runs
into a circle.  Deriving a type climbs this way until it meets a type that is done, one that waits,
or the end (`Components.Climb`).  A climb that runs into a circle goes around it once and reports
the type where it closes; all types on it are done afterwards, so that no later climb meets it
(`Components.Charted.climb`).  Hence each circle is reported once, and nothing else is
(`Components.circles_deriveTypes`).
-/

import SchemaAssist.Proofs.Marking
import Mathlib.Logic.ExistsUnique

namespace SchemaAssist

open Relation (ReflTransGen TransGen)

namespace Components

open Building (Maintains Maintained)

/-! ### Climbing -/

/-- Climbing from a type, past types that wait, where some types are done already: the types that
are met, the type where a circle closes, if one does, and the type that is its own base, if there
is one. -/
inductive Climb (Up : TypeId → TypeId → Prop) (done : List TypeId) :
    List TypeId → TypeId → List TypeId → List TypeId → List TypeId → Prop
  | known {waiting : List TypeId} {t : TypeId} : t ∈ done → Climb Up done waiting t [] [] []
  | closes {waiting : List TypeId} {t : TypeId} : t ∉ done → t ∈ waiting →
    Climb Up done waiting t [] [t] []
  | ends {waiting : List TypeId} {t : TypeId} : t ∉ done → t ∉ waiting → (∀ b, ¬ Up t b) →
    Climb Up done waiting t [t] [] []
  | self {waiting : List TypeId} {t : TypeId} : t ∉ done → t ∉ waiting → Up t t →
    Climb Up done waiting t [t] [] [t]
  | goes {waiting : List TypeId} {t b : TypeId} {met closing own : List TypeId} : t ∉ done →
    t ∉ waiting → Up t b → b ≠ t → Climb Up done (t :: waiting) b met closing own →
      Climb Up done waiting t (t :: met) closing own

section Climbs

variable {Up : TypeId → TypeId → Prop} (hUp : Relator.RightUnique Up)
  {done waiting met closing own : List TypeId} {t u x : TypeId}

include hUp in
/-- On a circle every way leads back. -/
theorem reflTransGen_of_circle (hx : TransGen Up x x) (hu : ReflTransGen Up x u) :
    ReflTransGen Up u x := by
  induction hu with
  | refl => exact .refl
  | @tail v u _ hvu ih =>
    obtain ⟨w, hvw, hwx⟩ : ∃ w, Up v w ∧ ReflTransGen Up w x := by
      rcases ReflTransGen.cases_head ih with rfl | hnext
      · exact TransGen.head'_iff.1 hx
      · exact hnext
    rwa [hUp hvu hvw]

include hUp in
/-- No way leads on from a type that is its own base. -/
theorem eq_of_loop (hself : Up x x) (hu : ReflTransGen Up x u) : u = x := by
  induction hu with
  | refl => rfl
  | tail _ hvu ih => exact hUp (ih ▸ hvu) hself

theorem mem_of_reflTransGen (hclosed : ∀ x ∈ done, ∀ u, Up x u → u ∈ done) (hx : x ∈ done)
    (hu : ReflTransGen Up x u) : u ∈ done := by
  induction hu with
  | refl => exact hx
  | tail _ hvu ih => exact hclosed _ ih _ hvu

namespace Climb

theorem nodup (h : Climb Up done waiting t met closing own) :
    met.Nodup ∧ ∀ x ∈ met, x ∉ done ∧ x ∉ waiting := by
  induction h with
  | known => exact ⟨List.nodup_nil, nofun⟩
  | closes => exact ⟨List.nodup_nil, nofun⟩
  | ends hdone hwaiting =>
    exact ⟨List.nodup_singleton _, List.forall_mem_singleton.2 ⟨hdone, hwaiting⟩⟩
  | self hdone hwaiting =>
    exact ⟨List.nodup_singleton _, List.forall_mem_singleton.2 ⟨hdone, hwaiting⟩⟩
  | goes hdone hwaiting _ _ _ ih =>
    obtain ⟨hnodup, hnew⟩ := ih
    refine ⟨List.nodup_cons.2 ⟨fun hmem => (hnew _ hmem).2 List.mem_cons_self, hnodup⟩,
      List.forall_mem_cons.2 ⟨⟨hdone, hwaiting⟩, fun x hx => ?_⟩⟩
    exact ⟨(hnew x hx).1, fun hmem => (hnew x hx).2 (List.mem_cons_of_mem _ hmem)⟩

/-- The type itself is done, waits or has been met. -/
theorem mem (h : Climb Up done waiting t met closing own) : t ∈ met ∨ t ∈ done ∨ t ∈ waiting := by
  cases h with
  | known hdone => exact .inr (.inl hdone)
  | closes _ hwaiting => exact .inr (.inr hwaiting)
  | ends | self | goes => exact .inl List.mem_cons_self

include hUp

/-- What is above a type that has been met has been met or was known. -/
theorem mem_of_up (h : Climb Up done waiting t met closing own) (hx : x ∈ met) (hu : Up x u) :
    u ∈ met ∨ u ∈ done ∨ u ∈ waiting := by
  induction h with
  | known => cases hx
  | closes => cases hx
  | ends _ _ hends =>
    cases List.mem_singleton.1 hx
    exact absurd hu (hends u)
  | self _ _ hself =>
    cases List.mem_singleton.1 hx
    rw [hUp hu hself]
    exact .inl List.mem_cons_self
  | goes _ _ hb _ hclimb ih =>
    have hrest : u ∈ _ ∨ u ∈ done ∨ u ∈ _ :=
      (List.mem_cons.1 hx).elim (fun heq => hUp hb (heq ▸ hu) ▸ hclimb.mem) ih
    rcases hrest with hmet | hdone | hwaiting
    · exact .inl (List.mem_cons_of_mem _ hmet)
    · exact .inr (.inl hdone)
    · rcases List.mem_cons.1 hwaiting with rfl | hwaiting
      · exact .inl List.mem_cons_self
      · exact .inr (.inr hwaiting)

/-- The types that are their own base are found among those that have been met. -/
theorem own_iff (h : Climb Up done waiting t met closing own) :
    own.Nodup ∧ ∀ x, x ∈ own ↔ x ∈ met ∧ Up x x := by
  induction h with
  | known => exact ⟨List.nodup_nil, fun x => by simp⟩
  | closes => exact ⟨List.nodup_nil, fun x => by simp⟩
  | ends _ _ hends => exact ⟨List.nodup_nil, fun x => by simpa using fun h => h ▸ hends _⟩
  | self _ _ hself => exact ⟨List.nodup_singleton _, fun x => by simpa using fun h => h ▸ hself⟩
  | goes _ _ hb hne _ ih =>
    refine ⟨ih.1, fun x => (ih.2 x).trans ?_⟩
    rw [List.mem_cons]
    refine ⟨fun h => ⟨.inr h.1, h.2⟩, fun ⟨hx, hself⟩ => ⟨hx.resolve_left ?_, hself⟩⟩
    rintro rfl
    exact hne (hUp hb hself)

/-- All types that have been met lead to where a climb stops: to a type that is done, to one without
a base or with itself as its base, or to the type where a circle closes. -/
theorem exists_stop (h : Climb Up done waiting t met closing own) :
    ∃ e, ReflTransGen Up t e ∧ (∀ x ∈ met, ReflTransGen Up x e) ∧
      (closing = [] ∧ (e ∈ done ∨ (∀ b, ¬ Up e b) ∨ Up e e) ∨
        closing = [e] ∧ e ∉ done ∧ (e ∈ waiting ∨ e ∈ met ∧ TransGen Up e e ∧ ¬ Up e e)) := by
  induction h with
  | known hdone => exact ⟨_, .refl, nofun, .inl ⟨rfl, .inl hdone⟩⟩
  | closes hdone hwaiting => exact ⟨_, .refl, nofun, .inr ⟨rfl, hdone, .inl hwaiting⟩⟩
  | ends _ _ hends =>
    exact ⟨_, .refl, List.forall_mem_singleton.2 .refl, .inl ⟨rfl, .inr (.inl hends)⟩⟩
  | self _ _ hself =>
    exact ⟨_, .refl, List.forall_mem_singleton.2 .refl, .inl ⟨rfl, .inr (.inr hself)⟩⟩
  | goes _ _ hb hne _ ih =>
    obtain ⟨e, hbe, hmet, hstop⟩ := ih
    refine ⟨e, .head hb hbe, List.forall_mem_cons.2 ⟨.head hb hbe, hmet⟩, ?_⟩
    rcases hstop with hnone | ⟨hclosing, hdone, hwaiting | hcircle⟩
    · exact .inl hnone
    · refine .inr ⟨hclosing, hdone, ?_⟩
      rcases List.mem_cons.1 hwaiting with rfl | hwaiting
      · exact .inr ⟨List.mem_cons_self, .head' hb hbe, fun hself => hne (hUp hb hself)⟩
      · exact .inl hwaiting
    · exact .inr ⟨hclosing, hdone, .inr ⟨List.mem_cons_of_mem _ hcircle.1, hcircle.2⟩⟩

/-- Where no type waits, circles close at types that have been met. -/
theorem mem_of_closing (h : Climb Up done [] t met closing own) :
    closing.Nodup ∧ ∀ x ∈ closing, x ∈ met ∧ TransGen Up x x ∧ ¬ Up x x := by
  obtain ⟨e, -, -, hstop⟩ := h.exists_stop hUp
  rcases hstop with ⟨rfl, -⟩ | ⟨rfl, -, hwaiting | hcircle⟩
  · exact ⟨List.nodup_nil, nofun⟩
  · cases hwaiting
  · exact ⟨List.nodup_singleton e, List.forall_mem_singleton.2 hcircle⟩

/-- A circle that is met closes: what is known, an end or a type that is its own base does not lead
back to it. -/
theorem exists_closing (h : Climb Up done waiting t met closing own)
    (hclosed : ∀ x ∈ done, ∀ u, Up x u → u ∈ done) (hx : x ∈ met) (hcircle : TransGen Up x x)
    (hself : ¬ Up x x) : ∃ e, closing = [e] ∧ ReflTransGen Up x e := by
  obtain ⟨e, -, hmet, hstop⟩ := h.exists_stop hUp
  have hback : ReflTransGen Up e x := reflTransGen_of_circle hUp hcircle (hmet x hx)
  rcases hstop with ⟨-, hdone | hends | hloop⟩ | ⟨hclosing, -⟩
  · exact absurd (mem_of_reflTransGen hclosed hdone hback) (h.nodup.2 x hx).1
  · rcases ReflTransGen.cases_head hback with rfl | ⟨b, hb, -⟩
    · obtain ⟨b, hb, -⟩ := TransGen.head'_iff.1 hcircle
      exact absurd hb (hends b)
    · exact absurd hb (hends b)
  · exact absurd (eq_of_loop hUp hloop hback ▸ hloop) hself
  · exact ⟨e, hclosing, hmet x hx⟩

end Climb

/-- What climbs have found so far: the types that are done, where circles close, and the types that
are their own base. -/
structure Charted (Up : TypeId → TypeId → Prop) (done closing own : List TypeId) : Prop where
  closed : ∀ x ∈ done, ∀ u, Up x u → u ∈ done
  own_nodup : own.Nodup
  mem_own : ∀ x, x ∈ own ↔ x ∈ done ∧ Up x x
  closing_nodup : closing.Nodup
  closing_done : ∀ x ∈ closing, x ∈ done
  circle : ∀ x ∈ closing, TransGen Up x x ∧ ¬ Up x x
  unique : ∀ x ∈ done, TransGen Up x x → ¬ Up x x → ∃! u, u ∈ closing ∧ ReflTransGen Up x u

namespace Charted

theorem nil : Charted Up [] [] [] where
  closed := nofun
  own_nodup := List.nodup_nil
  mem_own := by simp
  closing_nodup := List.nodup_nil
  closing_done := nofun
  circle := nofun
  unique := nofun

include hUp in
/-- **A climb charts what it meets.**  Where no type waits, it ends with the circle that it runs
into gone around. -/
theorem climb {closing' own' done' : List TypeId} (h : Charted Up done closing own)
    (hclimb : Climb Up done [] t met closing' own')
    (hdone : ∀ x u, Up x u ∨ Up u x → (x ∈ done' ↔ x ∈ met ∨ x ∈ done)) :
    Charted Up done' (closing ++ closing') (own ++ own') := by
  obtain ⟨-, hnew⟩ := hclimb.nodup
  obtain ⟨hown, hmem⟩ := hclimb.own_iff hUp
  obtain ⟨hnodup, hclosing⟩ := hclimb.mem_of_closing hUp
  have hold (x : TypeId) (hx : x ∈ done) : x ∉ met := fun hmem => (hnew x hmem).1 hx
  -- a type on a circle is known or has been met
  have hcases (x : TypeId) (hcircle : TransGen Up x x) : x ∈ done' ↔ x ∈ met ∨ x ∈ done := by
    obtain ⟨u, hu, -⟩ := TransGen.head'_iff.1 hcircle
    exact hdone x u (.inl hu)
  have hcircles (x : TypeId) (hx : x ∈ closing ++ closing') : TransGen Up x x ∧ ¬ Up x x :=
    (List.mem_append.1 hx).elim (h.circle x) fun hx => (hclosing x hx).2
  refine ⟨fun x hx u hu => ?_, ?_, fun x => ?_, ?_, fun x hx => ?_, hcircles,
    fun x hx hcircle hself => ?_⟩
  · rw [hdone x u (.inl hu)] at hx
    rw [hdone u x (.inr hu)]
    rcases hx with hx | hx
    · rcases hclimb.mem_of_up hUp hx hu with hu | hu | hu
      · exact .inl hu
      · exact .inr hu
      · cases hu
    · exact .inr (h.closed x hx u hu)
  · refine List.nodup_append.2 ⟨h.own_nodup, hown, fun a ha b hb heq => ?_⟩
    exact hold a ((h.mem_own a).1 ha).1 (heq ▸ ((hmem b).1 hb).1)
  · rw [List.mem_append, h.mem_own, hmem]
    by_cases hself : Up x x
    · rw [hdone x x (.inl hself)]
      tauto
    · simp [hself]
  · refine List.nodup_append.2 ⟨h.closing_nodup, hnodup, fun a ha b hb heq => ?_⟩
    exact hold a (h.closing_done a ha) (heq ▸ (hclosing b hb).1)
  · rw [hcases x (hcircles x hx).1]
    exact (List.mem_append.1 hx).elim (fun hx => .inr (h.closing_done x hx))
      fun hx => .inl (hclosing x hx).1
  · rcases (hcases x hcircle).1 hx with hx | hx
    · obtain ⟨e, rfl, hxe⟩ := hclimb.exists_closing hUp h.closed hx hcircle hself
      refine ⟨e, ⟨List.mem_append_right _ List.mem_cons_self, hxe⟩, fun u ⟨hu, hxu⟩ => ?_⟩
      rcases List.mem_append.1 hu with hu | hu
      · have hback := reflTransGen_of_circle hUp hcircle hxu
        exact absurd (mem_of_reflTransGen h.closed (h.closing_done u hu) hback) (hnew x hx).1
      · exact List.mem_singleton.1 hu
    · obtain ⟨v, ⟨hv, hxv⟩, hunique⟩ := h.unique x hx hcircle hself
      refine ⟨v, ⟨List.mem_append_left _ hv, hxv⟩, fun u ⟨hu, hxu⟩ => ?_⟩
      rcases List.mem_append.1 hu with hu | hu
      · exact hunique u ⟨hu, hxu⟩
      · exact absurd (hclosing u hu).1 (hold u (mem_of_reflTransGen h.closed hx hxu))

end Charted
end Climbs

/-! ### Derivation climbs -/

/-- The base type of a complex type: what the name that it derives from stands for. -/
def BaseOf (c : Components) (t b : TypeId) : Prop :=
  ∃ ct method base, c.types[t.index]? = some (.complex ct) ∧
    ct.derivation? = some (method, base) ∧ ((typeNamed? base).run c).1 = some b

/-- A type is on a circle of several types. -/
def OnCircle (c : Components) (t : TypeId) : Prop :=
  TransGen (BaseOf c) t t ∧ ¬ BaseOf c t t

/-- How a type is called in messages. -/
def labelOf (c : Components) (t : TypeId) : String := (c.types[t.index]?.map TypeDef.label).getD ""

theorem rightUnique_baseOf (c : Components) : Relator.RightUnique (BaseOf c) := by
  rintro t b b' ⟨ct, method, base, ht, hderivation, hb⟩
    ⟨ct', method', base', ht', hderivation', hb'⟩
  cases ht.symm.trans ht'
  cases hderivation.symm.trans hderivation'
  exact Option.some.inj (hb.symm.trans hb')

/-- A base that is not a built-in type still to be numbered. -/
def Rises (c : Components) (t b : TypeId) : Prop := BaseOf c t b ∧ b.index < c.types.size

theorem Rises.lineage?_ne_none {c : Components} {t b : TypeId} (h : Rises c t b) :
    c.lineage? t ≠ none := by
  obtain ⟨⟨ct, _, _, ht, -⟩, -⟩ := h
  rw [lineage?_of_complex ht]
  exact Option.some_ne_none _

theorem rightUnique_rises (c : Components) : Relator.RightUnique (Rises c) :=
  fun _ _ _ h h' => rightUnique_baseOf c h.1 h'.1

theorem BaseOf.lt {c : Components} {t b : TypeId} (h : BaseOf c t b) : t.index < c.types.size := by
  obtain ⟨_, _, _, ht, -⟩ := h
  exact (Array.getElem?_eq_some_iff.1 ht).1

/-- Circles go through types that are there. -/
theorem transGen_rises_iff {c : Components} {t u : TypeId} (hu : u.index < c.types.size) :
    TransGen (Rises c) t u ↔ TransGen (BaseOf c) t u := by
  refine ⟨fun h => TransGen.mono (fun _ _ hup => hup.1) t u h, fun h => ?_⟩
  induction h using TransGen.head_induction_on with
  | single hb => exact .single ⟨hb, hu⟩
  | head hb hrest ih =>
    obtain ⟨b', hnext, -⟩ := TransGen.head'_iff.1 hrest
    exact .head ⟨hb, hnext.lt⟩ ih

theorem onCircle_iff {c : Components} {t : TypeId} :
    OnCircle c t ↔ TransGen (Rises c) t t ∧ ¬ Rises c t t := by
  rw [OnCircle]
  constructor
  · rintro ⟨hcircle, hself⟩
    obtain ⟨b, hb, -⟩ := TransGen.head'_iff.1 hcircle
    exact ⟨(transGen_rises_iff hb.lt).2 hcircle, fun h => hself h.1⟩
  · rintro ⟨hcircle, hself⟩
    obtain ⟨b, hb, -⟩ := TransGen.head'_iff.1 hcircle
    exact ⟨(transGen_rises_iff hb.1.lt).1 hcircle, fun h => hself ⟨h, hb.1.lt⟩⟩

/-- Derivation on the way, as far as circles go: circles have been reported where they close, and
types that are their own base as well. -/
structure Surveyed (c₀ : Components) (closing own : List TypeId) (c : Components) : Prop where
  grown : Grown c₀ c
  reported : ∃ news : List Fault, c.problems.toList = c₀.problems.toList ++ news.map Fault.problem ∧
    news.filterMap Fault.circular? = closing.map c₀.labelOf ∧
    news.filterMap Fault.selfDerived? = own.map c₀.labelOf

namespace Surveyed

variable {c₀ c : Components} {closing own : List TypeId} {t b : TypeId} {ct : ComplexType}

theorem refl (c : Components) : Surveyed c [] [] c :=
  ⟨.refl c, [], (List.append_nil _).symm, rfl, rfl⟩

/-- What is reported next. -/
theorem report (h : Surveyed c₀ closing own c) (f : Fault) {closing' own' : List TypeId}
    (hclosing : f.circular?.toList = closing'.map c₀.labelOf)
    (hown : f.selfDerived?.toList = own'.map c₀.labelOf) :
    Surveyed c₀ (closing ++ closing') (own ++ own') ((report f).run c).2 := by
  obtain ⟨news, hproblems, hcircular, hself⟩ := h.reported
  refine ⟨h.grown.report f, news ++ [f], ?_, ?_, ?_⟩
  · rw [List.map_append, ← List.append_assoc, ← hproblems]
    exact Array.toList_push
  · rw [List.filterMap_append, List.map_append, hcircular, ← hclosing]
    cases hf : f.circular? <;> simp [hf]
  · rw [List.filterMap_append, List.map_append, hself, ← hown]
    cases hf : f.selfDerived? <;> simp [hf]

theorem robust (c₀ : Components) (closing own : List TypeId) :
    Robust Fault.Straight (Surveyed c₀ closing own) where
  report := by
    intro f hf c hc
    have hreported : Surveyed c₀ (closing ++ []) (own ++ []) ((Components.report f).run c).2 :=
      hc.report f (by rw [hf.1]; rfl) (by rw [hf.2]; rfl)
    rw [List.append_nil, List.append_nil] at hreported
    exact ⟨hreported, trivial⟩
  builtinType := by
    intro k c hc
    refine ⟨⟨(grown_builtinType c₀ k c hc.grown).1, ?_⟩, trivial⟩
    have hproblems : ((builtinType k).run c).2.problems = c.problems := by
      rw [run_builtinType]
      split <;> rfl
    rw [hproblems]
    exact hc.reported

theorem setType (h : Surveyed c₀ closing own c) {ct' : ComplexType} (hkin : Kin c₀ t ct)
    (hname : ct'.name? = ct.name?) (hderivation : ct'.derivation? = ct.derivation?) :
    Surveyed c₀ closing own ((Components.setType t (.complex ct')).run c).2 :=
  ⟨h.grown.setType hkin hname hderivation, h.reported⟩

end Surveyed

section Refinement

variable {c₀ c : Components} {t b : TypeId} {ct : ComplexType}

theorem Kin.labelOf (hkin : Kin c₀ t ct) (ht : t.index < c₀.types.size) :
    c₀.labelOf t = (TypeDef.complex ct).label := by
  rw [Kin, if_pos ht, lineage?] at hkin
  obtain ⟨d, hd, hcomplex⟩ := Option.bind_eq_some_iff.1 hkin
  rw [Components.labelOf, hd]
  cases d with
  | simple st => cases hcomplex
  | complex ct₀ =>
    have hname : ct₀.name? = ct.name? := congrArg (fun l => l.bind (·.1)) hcomplex
    simp only [Option.map_some, Option.getD_some, TypeDef.label, TypeDef.name?, hname]

/-- The base that has been found for a type is its base. -/
theorem rises_iff (hkin : Kin c₀ t ct) (ht : t.index < c₀.types.size) {b? : Option TypeId}
    (hfounded : Founded c₀ ct b?) (u : TypeId) :
    Rises c₀ t u ↔ b? = some u ∧ u.index < c₀.types.size := by
  rw [Kin, if_pos ht, lineage?] at hkin
  obtain ⟨d, hd, hcomplex⟩ := Option.bind_eq_some_iff.1 hkin
  obtain ⟨ct₀, hct₀, hpair⟩ := Option.map_eq_some_iff.1 hcomplex
  obtain ⟨-, hderivation⟩ := Prod.mk.inj hpair
  cases d with
  | simple st => cases hct₀
  | complex ct₁ =>
    cases hct₀
    rw [Founded, ← hderivation] at hfounded
    constructor
    · rintro ⟨⟨ct', method, base, ht', hderivation', hu⟩, hlt⟩
      cases hd.symm.trans ht'
      rw [hderivation'] at hfounded
      refine ⟨?_, hlt⟩
      rcases hfounded with heq | ⟨b, b₀, -, hb₀, -, hge⟩
      · rw [heq, hu]
      · cases hu.symm.trans hb₀
        exact absurd hlt (Nat.not_lt.2 hge)
    · rintro ⟨rfl, hlt⟩
      cases hct : ct₀.derivation? with
      | none => rw [hct] at hfounded; cases hfounded
      | some derivation =>
        rw [hct] at hfounded
        refine ⟨⟨ct₀, _, _, hd, hct, ?_⟩, hlt⟩
        rcases hfounded with heq | ⟨b, b₀, hb, -, hge, -⟩
        · exact heq.symm
        · cases hb
          exact absurd hlt (Nat.not_lt.2 hge)

/-- A type for which a base has been found was there at first. -/
theorem Kin.lt (hkin : Kin c₀ t ct) (hfounded : Founded c₀ ct (some b)) :
    t.index < c₀.types.size := by
  by_contra hge
  rw [Kin, if_neg hge] at hkin
  rw [Founded, hkin] at hfounded
  cases hfounded

theorem Kin.lineage?_ne_none (hkin : Kin c₀ t ct) (ht : t.index < c₀.types.size) :
    c₀.lineage? t ≠ none := by
  rw [Kin, if_pos ht] at hkin
  rw [hkin]
  exact Option.some_ne_none _

end Refinement

/-- What is looked up for a type on the way changes nothing about circles. -/
theorem Surveyed.lookUp {c₀ c c' : Components} {closing own : List TypeId} {ct : ComplexType}
    {found : List AttributeUse × Option (Derivation × TypeId)} (h : Surveyed c₀ closing own c)
    (hrun : (lookUp ct).run c = (found, c')) :
    Surveyed c₀ closing own c' ∧ Founded c₀ ct (found.2.map Prod.snd) := by
  have hlooked := (Surveyed.robust c₀ closing own).lookUp (fun _ hc => hc.grown) ct c h
  rwa [hrun] at hlooked

/-- Only complex types have a lineage. -/
theorem lineage?_eq_none {c : Components} {t : TypeId}
    (h : ∀ ct, c.types[t.index]? ≠ some (.complex ct)) : c.lineage? t = none := by
  rw [lineage?]
  cases hd : c.types[t.index]? with
  | none => rfl
  | some d =>
    cases d with
    | simple st => rfl
    | complex ct => exact absurd hd (h ct)

theorem lt_of_lineage?_ne_none {c : Components} {t : TypeId} (h : c.lineage? t ≠ none) :
    t.index < c.types.size :=
  Nat.lt_of_not_le fun hge => h (lineage?_of_size_le hge)

/-- When a type is done without anything else having been met, it is met if the documents define
it. -/
theorem mem_cons_done_iff {c₀ : Components} (t : TypeId) (done : List TypeId) {x : TypeId}
    (hx : x.index < c₀.types.size) :
    x ∈ t :: done ↔ x ∈ (if t.index < c₀.types.size then [t] else []) ∨ x ∈ done := by
  split
  · rw [List.mem_cons, List.mem_singleton]
  · next ht =>
    have hne : x ≠ t := fun heq => ht (heq ▸ hx)
    rw [List.mem_cons, or_iff_right hne, or_iff_right List.not_mem_nil]

/-- **Deriving a type climbs.**  A type that was not there at first has no base, so that nothing is
met from it. -/
theorem Visits.climb {c₀ c c' : Components} {closing own : List TypeId} {m m' : Marks} {t : TypeId}
    (h : Visits t m c m' c') (hsurveyed : Surveyed c₀ closing own c)
    (hwaiting : ∀ w ∈ m.waiting, c₀.lineage? w ≠ none) :
    ∃ met closing' own',
      (∀ x : TypeId, x.index < c₀.types.size → (x ∈ m'.done ↔ x ∈ met ∨ x ∈ m.done)) ∧
      Surveyed c₀ (closing ++ closing') (own ++ own') c' ∧
      if t.index < c₀.types.size then Climb (Rises c₀) m.done m.waiting t met closing' own'
      else met = [] ∧ closing' = [] ∧ own' = [] := by
  induction h generalizing closing own with
  | @done t m c hdone =>
    refine ⟨[], [], [], fun x _ => by simp, by simpa using hsurveyed, ?_⟩
    split
    · exact .known hdone
    · exact ⟨rfl, rfl, rfl⟩
  | @simple t m c hdone hsimple =>
    refine ⟨_, [], [], fun x => mem_cons_done_iff t m.done, by simpa using hsurveyed, ?_⟩
    split
    · next ht =>
      have hnone : c₀.lineage? t = none :=
        (hsurveyed.grown.lineage t ht).symm.trans (lineage?_eq_none hsimple)
      exact .ends hdone (fun hmem => hwaiting t hmem hnone) fun b hb =>
        hb.lineage?_ne_none hnone
    · exact ⟨rfl, rfl, rfl⟩
  | @circular t m c ct hdone ht hmem =>
    have htlt := lt_of_lineage?_ne_none (hwaiting t hmem)
    have hlabel := (hsurveyed.grown.kin ht).labelOf htlt
    refine ⟨[], [t], [], fun x _ => by simp, hsurveyed.report _ ?_ rfl, ?_⟩
    · exact congrArg (fun label => [label]) hlabel.symm
    · rw [if_pos htlt]
      exact .closes hdone hmem
  | @alone t m c c' ct uses hdone ht hnew hrun =>
    have hkin := hsurveyed.grown.kin ht
    obtain ⟨hlooked, hfounded⟩ := hsurveyed.lookUp hrun
    refine ⟨_, [], [], fun x => mem_cons_done_iff t m.done, ?_, ?_⟩
    · rw [List.append_nil, List.append_nil]
      exact hlooked.setType hkin rfl rfl
    · split
      · next htlt =>
        refine .ends hdone hnew fun b hb => ?_
        cases ((rises_iff hkin htlt hfounded b).1 hb).1
      · exact ⟨rfl, rfl, rfl⟩
  | @self t m c c' ct uses method hdone ht hnew hrun =>
    have hkin := hsurveyed.grown.kin ht
    obtain ⟨hlooked, hfounded⟩ := hsurveyed.lookUp hrun
    have htlt := hkin.lt hfounded
    refine ⟨_, [], [t], fun x => mem_cons_done_iff t m.done, ?_, ?_⟩
    · refine (hlooked.report _ rfl ?_).setType hkin rfl rfl
      exact congrArg (fun label => [label]) (hkin.labelOf htlt).symm
    · rw [if_pos htlt, if_pos htlt]
      exact .self hdone hnew ((rises_iff hkin htlt hfounded t).2 ⟨rfl, htlt⟩)
  | @derived t b m m' c c' c'' ct uses method hdone ht hnew hrun hne _ ih =>
    have hkin := hsurveyed.grown.kin ht
    obtain ⟨hlooked, hfounded⟩ := hsurveyed.lookUp hrun
    have htlt := hkin.lt hfounded
    obtain ⟨met, closing', own', hmet, hsurveyed', hclimb⟩ :=
      ih hlooked (List.forall_mem_cons.2 ⟨hkin.lineage?_ne_none htlt, hwaiting⟩)
    refine ⟨t :: met, closing', own', fun x hx => ?_, hsurveyed'.setType hkin
      (ComplexType.name?_onto ..) (ComplexType.derivation?_onto ..), ?_⟩
    · rw [Marks.leave, List.mem_cons, hmet x hx, List.mem_cons, or_assoc]
      rfl
    · rw [if_pos htlt]
      split at hclimb
      · next hblt =>
        exact .goes hdone hnew ((rises_iff hkin htlt hfounded b).2 ⟨rfl, hblt⟩) hne hclimb
      · next hblt =>
        obtain ⟨rfl, rfl, rfl⟩ := hclimb
        refine .ends hdone hnew fun u hu => ?_
        obtain ⟨heq, hult⟩ := (rises_iff hkin htlt hfounded u).1 hu
        cases heq
        exact hblt hult

/-- Climbs in turn chart what they meet. -/
theorem VisitsInTurn.charted {c₀ c c' : Components} {closing own : List TypeId} {m m' : Marks}
    {ts : List TypeId} (h : VisitsInTurn ts m c m' c') (hsurveyed : Surveyed c₀ closing own c)
    (hts : ∀ t ∈ ts, t.index < c₀.types.size) (hnone : m.waiting = [])
    (hcharted : Charted (Rises c₀) m.done closing own) :
    ∃ closing' own', Surveyed c₀ closing' own' c' ∧
      Charted (Rises c₀) m'.done closing' own' := by
  induction h generalizing closing own with
  | nil => exact ⟨closing, own, hsurveyed, hcharted⟩
  | @cons t ts m m' m'' c c' c'' hvisits _ ih =>
    rw [List.forall_mem_cons] at hts
    obtain ⟨met, closing', own', hdone, hsurveyed', hclimb⟩ :=
      hvisits.climb hsurveyed (hnone ▸ nofun)
    rw [if_pos hts.1, hnone] at hclimb
    have hold (x u : TypeId) (hux : Rises c₀ x u ∨ Rises c₀ u x) : x.index < c₀.types.size :=
      hux.elim (fun h => h.1.lt) fun h => h.2
    exact ih hsurveyed' hts.2 (hvisits.waiting.trans hnone)
      (hcharted.climb (rightUnique_rises c₀) hclimb fun x u hux => hdone x (hold x u hux))

/-- **Circles of types are reported where they close.**  Derivation comes to its end whatever types
derive from, with all types done and none left waiting.  What it reports says of just the types that
are their own base that they are, and of one type on each circle of several types that it is on a
circle. -/
theorem circles_deriveTypes (c : Components) :
    ∃ (done closing own : List TypeId) (news : List Fault),
      (c.deriveInTurn.run []).run c = (((), done), (deriveTypes.run c).2) ∧
      VisitsInTurn ((List.range c.types.size).map TypeId.mk) ⟨[], []⟩ c ⟨[], done⟩
        (deriveTypes.run c).2 ∧
      (∀ t : TypeId, t.index < c.types.size → t ∈ done) ∧
      (deriveTypes.run c).2.problems.toList = c.problems.toList ++ news.map Fault.problem ∧
      (news.filterMap Fault.selfDerived? = own.map c.labelOf ∧ own.Nodup ∧
        ∀ t, t ∈ own ↔ BaseOf c t t) ∧
      news.filterMap Fault.circular? = closing.map c.labelOf ∧ closing.Nodup ∧
        (∀ t ∈ closing, OnCircle c t) ∧
        ∀ t, OnCircle c t → ∃! u, u ∈ closing ∧ ReflTransGen (BaseOf c) t u := by
  obtain ⟨done, hrun, hvisits, hdone⟩ := c.visitsInTurn_deriveTypes
  have hthere : ∀ t ∈ (List.range c.types.size).map TypeId.mk, t.index < c.types.size := by
    intro t ht
    obtain ⟨i, hi, rfl⟩ := List.mem_map.1 ht
    exact List.mem_range.1 hi
  obtain ⟨closing, own, hsurveyed, hcharted⟩ := hvisits.charted (.refl c) hthere rfl .nil
  obtain ⟨news, hproblems, hcircular, hself⟩ := hsurveyed.reported
  refine ⟨done, closing, own, news, hrun, hvisits, hdone, hproblems,
    ⟨hself, hcharted.own_nodup, fun t => ?_⟩, hcircular, hcharted.closing_nodup,
    fun t ht => onCircle_iff.2 (hcharted.circle t ht), fun t ht => ?_⟩
  · rw [hcharted.mem_own]
    exact ⟨fun h => h.2.1, fun h => ⟨hdone t h.lt, h, h.lt⟩⟩
  · -- what is on a circle is there, and so is what it leads to
    have hthere {t : TypeId} (ht : OnCircle c t) : t.index < c.types.size := by
      obtain ⟨b, hb, -⟩ := TransGen.head'_iff.1 ht.1
      exact hb.lt
    obtain ⟨hcircle, hother⟩ := onCircle_iff.1 ht
    obtain ⟨u, ⟨hu, htu⟩, hunique⟩ := hcharted.unique t (hdone t (hthere ht)) hcircle hother
    have hmono {u : TypeId} (htu : ReflTransGen (Rises c) t u) : ReflTransGen (BaseOf c) t u :=
      ReflTransGen.mono (fun _ _ hup => hup.1) t u htu
    refine ⟨u, ⟨hu, hmono htu⟩, fun v ⟨hv, htv⟩ => hunique v ⟨hv, ?_⟩⟩
    rcases ReflTransGen.cases_tail htv with rfl | hlast
    · exact .refl
    · have hv := hthere (onCircle_iff.2 (hcharted.circle v hv))
      exact ((transGen_rises_iff hv).2 (TransGen.tail'_iff.2 hlast)).to_reflTransGen

end Components
end SchemaAssist
