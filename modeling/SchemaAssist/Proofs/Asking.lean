/-
# How elements are asked for their types

An element without a type asks those that it may stand in for, in turn, and waits meanwhile; one
that waits already has no answer.  `Components.Asks` says this without a bound on how far it goes,
and `Components.asks_findSomeM?` that the bound is never reached, since different elements wait.  So
all elements are asked to the end, whichever may stand in for which, and each has a type afterwards
and is otherwise as it was (`Components.asksInTurn_typeElements`).
-/

import SchemaAssist.Proofs.Marking
import SchemaAssist.Proofs.Typings

namespace SchemaAssist
namespace Components

open Building (Maintains Maintained)

variable {c c' c₁ : Components} {d : ElementId} {ds waiting : List ElementId} {t? : Option TypeId}

/-- A type that has been found, or else that of any content. -/
def orAnyType : Option TypeId → Building TypeId
  | some t => pure t
  | none => builtinType Builtin.anyTypeName

/-- Asking elements for their types until one has an answer. -/
inductive Asks : List ElementId → List ElementId → Components → Option TypeId → Components → Prop
  | nobody {waiting : List ElementId} {c : Components} : Asks waiting [] c none c
  /-- There is no such element. -/
  | missing {waiting ds : List ElementId} {d : ElementId} {c c' : Components} {t? : Option TypeId} :
    c.elements[d.index]? = none → Asks waiting ds c t? c' → Asks waiting (d :: ds) c t? c'
  /-- An element that waits has no answer. -/
  | waits {waiting ds : List ElementId} {d : ElementId} {c c' : Components} {t? : Option TypeId}
    {e : ElementDecl} : c.elements[d.index]? = some e → e.type? = none → d ∈ waiting →
      Asks waiting ds c t? c' → Asks waiting (d :: ds) c t? c'
  | known {waiting ds : List ElementId} {d : ElementId} {c : Components} {e : ElementDecl}
    {t : TypeId} : c.elements[d.index]? = some e → e.type? = some t →
      Asks waiting (d :: ds) c (some t) c
  /-- An element that names or holds a type gets that. -/
  | own {waiting ds : List ElementId} {d : ElementId} {c c' : Components} {e : ElementDecl}
    {t : TypeId} : c.elements[d.index]? = some e → e.type? = none → d ∉ waiting →
      e.typeRef ≠ .unspecified →
        (typeOf? e.typeRef (.element e.name) >>= orAnyType).run c = (t, c') →
          Asks waiting (d :: ds) c (some t) ((setElementType d t).run c').2
  /-- An element that does neither asks those that it may stand in for. -/
  | led {waiting ds : List ElementId} {d : ElementId} {c c' c'' : Components} {e : ElementDecl}
    {t? : Option TypeId} {t : TypeId} : c.elements[d.index]? = some e → e.type? = none →
      d ∉ waiting → e.typeRef = .unspecified → Asks (d :: waiting) (c.headsOf e) c t? c' →
        (orAnyType t?).run c' = (t, c'') →
          Asks waiting (d :: ds) c (some t) ((setElementType d t).run c'').2

/-- Asking elements in turn, each from the beginning. -/
inductive AsksInTurn : List ElementId → Components → Components → Prop
  | nil {c : Components} : AsksInTurn [] c c
  | cons {d : ElementId} {ds : List ElementId} {t? : Option TypeId} {c c' c'' : Components} :
    Asks [] [d] c t? c' → AsksInTurn ds c' c'' → AsksInTurn (d :: ds) c c''

/-! ### The bound is never reached -/

/-- Different elements are no more than there are. -/
theorem length_le_of_nodup_elements (hnodup : ds.Nodup) {size : Nat}
    (hlt : ∀ d ∈ ds, d.index < size) : ds.length ≤ size := by
  have hsubset : ds ⊆ (List.range size).map ElementId.mk := fun d hd =>
    List.mem_map.2 ⟨d.index, List.mem_range.2 (hlt d hd), rfl⟩
  have hle := (hnodup.subperm hsubset).length_le
  rwa [List.length_map, List.length_range] at hle

/-- **Elements are asked as far as that goes**: there is room for all elements that may wait. -/
theorem asks_findSomeM? (room : Nat) (hnodup : waiting.Nodup)
    (hlt : ∀ w ∈ waiting, w.index < c.elements.size)
    (hroom : c.elements.size + 1 ≤ room + waiting.length) (ds : List ElementId) :
    Asks waiting ds c ((ds.findSomeM? (elementType? room waiting)).run c).1
      ((ds.findSomeM? (elementType? room waiting)).run c).2 := by
  induction room generalizing waiting ds with
  | zero =>
    have hle := length_le_of_nodup_elements hnodup hlt
    omega
  | succ room ih =>
    induction ds with
    | nil => exact .nobody
    | cons d ds ihds =>
      -- what the first element answers decides whether the others are asked
      have hanswer {t : TypeId} {c' : Components}
          (h : (elementType? (room + 1) waiting d).run c = (some t, c')) :
          ((d :: ds).findSomeM? (elementType? (room + 1) waiting)).run c = (some t, c') := by
        rw [List.findSomeM?_cons, run_bind, h]
        rfl
      have hnone (h : (elementType? (room + 1) waiting d).run c = (none, c)) :
          ((d :: ds).findSomeM? (elementType? (room + 1) waiting)).run c =
            (ds.findSomeM? (elementType? (room + 1) waiting)).run c := by
        rw [List.findSomeM?_cons, run_bind, h]
      cases he : c.elements[d.index]? with
      | none =>
        rw [hnone (run_elementType?_of_missing room waiting he)]
        exact .missing he ihds
      | some e =>
        cases htype : e.type? with
        | some t =>
          rw [hanswer (run_elementType?_of_typed room waiting he htype)]
          exact .known he htype
        | none =>
          by_cases hwaiting : d ∈ waiting
          · rw [hnone (run_elementType?_of_mem room he htype hwaiting)]
            exact .waits he htype hwaiting ihds
          · have hget := Array.getElem?_eq_some_iff.1 he
            have hrun := run_elementType?_of_untyped room he htype hwaiting
            by_cases href : e.typeRef = .unspecified
            · rw [if_pos href] at hrun
              rw [hanswer hrun]
              exact .led he htype hwaiting href
                (ih (List.nodup_cons.2 ⟨hwaiting, hnodup⟩)
                  (List.forall_mem_cons.2 ⟨hget.1, hlt⟩) (by rw [List.length_cons]; omega) _) rfl
            · rw [if_neg href] at hrun
              rw [hanswer hrun]
              exact .own he htype hwaiting href rfl

/-! ### What is asked -/

section Steps

variable {I : Components → Prop}

theorem Robust.orAnyType (hI : Robust Fault.Straight I) (t? : Option TypeId) :
    Maintained I (orAnyType t?) := by
  cases t? with
  | some t => exact .pure trivial
  | none => exact hI.builtinType _

/-- Finding the type that an element names or holds. -/
theorem Robust.ownType (hI : Robust Fault.Straight I) (e : ElementDecl) :
    Maintained I (Components.typeOf? e.typeRef (.element e.name) >>= Components.orAnyType) :=
  (hI.typeOf? _ _).bind fun t? _ => hI.orAnyType t?

theorem robust_elements (elements : Array ElementDecl) :
    Robust Fault.Straight fun c => c.elements = elements where
  report := fun _ _ _ hc => ⟨hc, trivial⟩
  builtinType := by
    intro k c hc
    refine ⟨?_, trivial⟩
    rw [run_builtinType]
    split <;> exact hc

theorem elements_orAnyType (t? : Option TypeId) (c : Components) :
    ((orAnyType t?).run c).2.elements = c.elements :=
  ((robust_elements c.elements).orAnyType t? c rfl).1

theorem elements_ownType (e : ElementDecl) (c : Components) :
    ((typeOf? e.typeRef (.element e.name) >>= orAnyType).run c).2.elements = c.elements :=
  ((robust_elements c.elements).ownType e c rfl).1

/-- What has been reported stays. -/
theorem robust_problems (problems : List Problem) :
    Robust Fault.Straight fun c => problems <+: c.problems.toList where
  report := by
    intro f _ c hc
    refine ⟨hc.trans ?_, trivial⟩
    change c.problems.toList <+: (c.problems.push _).toList
    rw [Array.toList_push]
    exact List.prefix_append _ _
  builtinType := by
    intro k c hc
    refine ⟨?_, trivial⟩
    rw [run_builtinType]
    split <;> exact hc

end Steps

theorem Asks.problems (h : Asks waiting ds c t? c') : c.problems.toList <+: c'.problems.toList := by
  induction h with
  | nobody => exact List.prefix_rfl
  | missing _ _ ih => exact ih
  | waits _ _ _ _ ih => exact ih
  | known => exact List.prefix_rfl
  | @own _ _ _ c _ e _ _ _ _ _ hrun =>
    have hkept := ((robust_problems c.problems.toList).ownType e c List.prefix_rfl).1
    rw [hrun] at hkept
    exact hkept
  | @led _ _ _ c c' _ _ t? _ _ _ _ _ _ hrun ih =>
    have hkept := ((robust_problems c.problems.toList).orAnyType t? c' ih).1
    rw [hrun] at hkept
    exact hkept

theorem AsksInTurn.problems (h : AsksInTurn ds c c') :
    c.problems.toList <+: c'.problems.toList := by
  induction h with
  | nil => exact List.prefix_rfl
  | cons hasks _ ih => exact hasks.problems.trans ih

/-- What an element is once others have been asked: it may have got a type, and keeps one that it
has. -/
def Retyped (e e' : ElementDecl) : Prop :=
  ∃ t?, e' = { e with type? := t? } ∧ ∀ t, e.type? = some t → t? = some t

theorem Retyped.refl (e : ElementDecl) : Retyped e e := ⟨e.type?, rfl, fun _ h => h⟩

theorem Retyped.trans {e e' e'' : ElementDecl} (h : Retyped e e') (h' : Retyped e' e'') :
    Retyped e e'' := by
  obtain ⟨t?, rfl, hkept⟩ := h
  obtain ⟨t?', rfl, hkept'⟩ := h'
  exact ⟨t?', rfl, fun t ht => hkept' t (hkept t ht)⟩

/-- Elements that have been asked, and others, are as they were but for their types. -/
structure Asked (c c' : Components) : Prop where
  size : c'.elements.size = c.elements.size
  retyped : ∀ (d : ElementId) e, c.elements[d.index]? = some e →
    ∃ e', c'.elements[d.index]? = some e' ∧ Retyped e e'

namespace Asked

theorem refl (c : Components) : Asked c c := ⟨rfl, fun _ e he => ⟨e, he, .refl e⟩⟩

theorem trans (h : Asked c c') (h' : Asked c' c₁) : Asked c c₁ := by
  refine ⟨h'.size.trans h.size, fun d e he => ?_⟩
  obtain ⟨e', he', hretyped⟩ := h.retyped d e he
  obtain ⟨e'', he'', hretyped'⟩ := h'.retyped d e' he'
  exact ⟨e'', he'', hretyped.trans hretyped'⟩

theorem of_elements (h : c'.elements = c.elements) : Asked c c' :=
  ⟨congrArg Array.size h, fun _ e he => ⟨e, h ▸ he, .refl e⟩⟩

/-- An element gets a type that it did not have at first. -/
theorem setElementType (h : Asked c c') {e : ElementDecl} (he : c.elements[d.index]? = some e)
    (htype : e.type? = none) (t : TypeId) : Asked c ((setElementType d t).run c').2 := by
  refine ⟨Eq.trans Array.size_modify h.size, fun d' e' he' => ?_⟩
  obtain ⟨e'', he'', t?, rfl, hkept⟩ := h.retyped d' e' he'
  rw [getElem?_setElementType, he'', Option.map_some]
  split
  · next hd =>
    rw [← hd, he] at he'
    cases he'
    exact ⟨_, rfl, some t, rfl, fun _ h => by rw [htype] at h; cases h⟩
  · exact ⟨_, rfl, t?, rfl, hkept⟩

end Asked

/-- Asking changes nothing but types that were not there. -/
theorem Asks.asked (h : Asks waiting ds c t? c') : Asked c c' := by
  induction h with
  | nobody => exact .refl _
  | missing _ _ ih => exact ih
  | waits _ _ _ _ ih => exact ih
  | known => exact .refl _
  | @own _ _ _ c _ e _ he htype _ _ hrun =>
    have helements := elements_ownType e c
    rw [hrun] at helements
    exact (Asked.of_elements helements).setElementType he htype _
  | @led _ _ d _ c' _ e t? _ he htype _ _ _ hrun ih =>
    have helements := elements_orAnyType t? c'
    rw [hrun] at helements
    exact (ih.trans (.of_elements helements)).setElementType he htype _

/-- An element that has been asked by itself has a type. -/
theorem Asks.typed (h : Asks [] [d] c t? c') (hd : d.index < c.elements.size) : c'.Typed d := by
  cases h with
  | missing he => exact absurd he (Array.getElem?_eq_getElem hd ▸ Option.some_ne_none _)
  | waits _ _ hwaiting => cases hwaiting
  | known he htype => exact ⟨_, _, he, htype⟩
  | @own _ _ _ _ _ e _ he _ _ _ hrun =>
    have helements := elements_ownType e c
    rw [hrun] at helements
    exact typed_setElementType (helements ▸ hd) _
  | @led _ _ _ _ c' _ _ t? _ _ _ _ _ hasks hrun =>
    have helements := elements_orAnyType t? c'
    rw [hrun] at helements
    refine typed_setElementType ?_ _
    rw [helements, hasks.asked.size]
    exact hd

/-- A type stays with the element that has it. -/
theorem Asked.typed (h : Asked c c') (hd : c.Typed d) : c'.Typed d := by
  obtain ⟨e, t, he, ht⟩ := hd
  obtain ⟨e', he', t?, rfl, hkept⟩ := h.retyped d e he
  exact ⟨_, t, he', hkept t ht⟩

theorem AsksInTurn.asked (h : AsksInTurn ds c c') :
    Asked c c' ∧ ∀ d ∈ ds, d.index < c.elements.size → c'.Typed d := by
  induction h with
  | nil => exact ⟨.refl _, nofun⟩
  | cons hasks _ ih =>
    refine ⟨hasks.asked.trans ih.1, List.forall_mem_cons.2 ⟨fun hd => ?_, fun d hd hlt => ?_⟩⟩
    · exact ih.1.typed (hasks.typed hd)
    · exact ih.2 d hd (hasks.asked.size ▸ hlt)

/-- Elements are asked in turn as far as that goes. -/
theorem asksInTurn_forM {room : Nat} (hroom : c.elements.size + 1 ≤ room) (is : List Nat) :
    AsksInTurn (is.map ElementId.mk) c ((is.forM (Typing.asks room)).run c).2 := by
  induction is generalizing c with
  | nil => exact .nil
  | cons i is ih =>
    have hasks := asks_findSomeM? (c := c) room List.nodup_nil nofun hroom [⟨i⟩]
    have hsingle : (([⟨i⟩] : List ElementId).findSomeM? (elementType? room [])).run c =
        (elementType? room [] ⟨i⟩).run c := by
      rw [List.findSomeM?_cons, run_bind]
      generalize (elementType? room [] ⟨i⟩).run c = r
      obtain ⟨t?, c'⟩ := r
      cases t? <;> rfl
    rw [hsingle] at hasks
    exact .cons hasks (ih (hasks.asked.size ▸ hroom))

/-- **Asking elements for their types comes to its end**, whichever may stand in for which, and
leaves every element with a type.  Nothing else about elements changes, and no type that was there
already. -/
theorem asksInTurn_typeElements (c : Components) :
    AsksInTurn c.elementIds c (typeElements.run c).2 ∧
      (typeElements.run c).2.elements.size = c.elements.size ∧
      ∀ (d : ElementId) e, c.elements[d.index]? = some e →
        ∃ t, (typeElements.run c).2.elements[d.index]? = some { e with type? := some t } ∧
          ∀ t', e.type? = some t' → t' = t := by
  have hrun : typeElements.run c =
      ((List.range c.elements.size).forM (Typing.asks (c.elements.size + 1))).run c := rfl
  have hasks : AsksInTurn c.elementIds c (typeElements.run c).2 :=
    hrun ▸ asksInTurn_forM (Nat.le_refl _) (List.range c.elements.size)
  obtain ⟨hasked, htyped⟩ := hasks.asked
  refine ⟨hasks, hasked.size, fun d e he => ?_⟩
  have hlt := (Array.getElem?_eq_some_iff.1 he).1
  obtain ⟨e', t, he', ht⟩ := htyped d (mem_elementIds.2 hlt) hlt
  obtain ⟨e'', he'', t?, rfl, hkept⟩ := hasked.retyped d e he
  cases he'.symm.trans he''
  obtain rfl : t? = some t := ht
  exact ⟨t, he', fun t' ht' => (Option.some.inj (hkept t' ht')).symm⟩

end Components
end SchemaAssist
