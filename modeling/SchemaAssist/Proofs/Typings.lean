/-
# The type that an element gets

An element has the type that it names or holds, or else that of the first element that it may stand
in for (`Components.TypedAs`), as long as no element may stand in for itself.  As with types, what
an element gets does not depend on when it is asked for, and what is reported and called for is
settled element by element.
-/

import SchemaAssist.Proofs.Derivations

namespace SchemaAssist

open Relation (TransGen)

namespace Components

variable {c₀ c c₁ : Components} {T : Array TypeDef} {keys keys' K : List String}
  {typed : List ElementId} {d : ElementId} {e : ElementDecl} {t : TypeId}

/-- The elements that an element may stand in for, as far as they are declared. -/
def headsOf (c : Components) (e : ElementDecl) : List ElementId :=
  e.heads.filterMap c.globalElements.find?

/-- An element may stand in for another one. -/
def StandsInFor (c : Components) (d head : ElementId) : Prop :=
  ∃ e, c.elements[d.index]? = some e ∧ head ∈ c.headsOf e

/-- What is wrong with the type of an element. -/
def elementFaults (c : Components) (e : ElementDecl) : List Fault :=
  if e.type?.isSome then [] else c.typeFaults (.element e.name) e.typeRef

/-- Nothing says what the type of an element is. -/
def isUntyped (c : Components) (e : ElementDecl) : Bool :=
  match e.typeRef with
  | .unspecified => (c.headsOf e).isEmpty
  | .definition _ => false
  | .named n => !c.knows n

/-- The built-in types that an element calls for. -/
def calledByElement (c : Components) (e : ElementDecl) : List String :=
  if e.type?.isSome then [] else
    c.calledBy e.typeRef ++ if c.isUntyped e then [Builtin.anyTypeName] else []

/-- The type of an element. -/
inductive TypedAs (c : Components) (keys : List String) : ElementId → TypeId → Prop
  | given {d : ElementId} {e : ElementDecl} {t : TypeId} :
    c.elements[d.index]? = some e → e.type? = some t → TypedAs c keys d t
  | referred {d : ElementId} {e : ElementDecl} {t : TypeId} :
    c.elements[d.index]? = some e → e.type? = none → e.typeRef ≠ .unspecified →
      Referred c keys e.typeRef (some t) → TypedAs c keys d t
  | led {d head : ElementId} {e : ElementDecl} {t : TypeId} {heads : List ElementId} :
    c.elements[d.index]? = some e → e.type? = none → e.typeRef = .unspecified →
      c.headsOf e = head :: heads → TypedAs c keys head t → TypedAs c keys d t
  | untyped {d : ElementId} {e : ElementDecl} :
    c.elements[d.index]? = some e → e.type? = none → c.isUntyped e = true →
      Builtin.anyTypeName ∈ keys → TypedAs c keys d (c.builtinId keys Builtin.anyTypeName)

theorem TypedAs.mono (h : TypedAs c keys d t) (hkeys : keys <+: keys') : TypedAs c keys' d t := by
  induction h with
  | given he ht => exact .given he ht
  | referred he ht hne href => exact .referred he ht hne (href.mono hkeys)
  | led he ht hunspecified hheads _ ih => exact .led he ht hunspecified hheads ih
  | untyped he ht huntyped hk =>
    rw [← builtinId_mono hkeys hk]
    exact .untyped he ht huntyped (hkeys.subset hk)

/-- What the declaration of an identifier gives, by what each declaration gives. -/
def atElement {α : Type} (c : Components) (f : ElementDecl → List α) (d : ElementId) : List α :=
  c.elements[d.index]?.toList.flatMap f

/-- The built-in types that have been called for once some elements have got their types. -/
def calledByElements (c : Components) (K : List String) (typed : List ElementId) : List String :=
  addAllNew K (typed.flatMap (c.atElement c.calledByElement))

/-- Typing on the way: the elements in `typed` have got their types in this order. -/
structure Typing (c₀ c₁ : Components) (T : Array TypeDef) (K : List String)
    (typed : List ElementId) (c : Components) : Prop where
  nodup : typed.Nodup
  fresh : ∀ d ∈ typed, ∃ e, c₀.elements[d.index]? = some e ∧ e.type? = none
  midway : Midway c₀ T (c₀.calledByElements K typed) c
  problems : c.problems.toList = c₁.problems.toList ++
    (typed.flatMap (c₀.atElement c₀.elementFaults)).map Fault.problem
  size : c.elements.size = c₀.elements.size
  untouched : ∀ d : ElementId, d ∉ typed → c.elements[d.index]? = c₀.elements[d.index]?
  elements : ∀ (d : ElementId) e, c₀.elements[d.index]? = some e → d ∈ typed →
    ∃ t, c.elements[d.index]? = some { e with type? := some t } ∧
      TypedAs c₀ (c₀.calledByElements K typed) d t

theorem calledByElements_append (c : Components) (K : List String) (typed more : List ElementId) :
    c.calledByElements K (typed ++ more) =
      c.calledByElements (c.calledByElements K typed) more := by
  rw [calledByElements, List.flatMap_append, addAllNew_append]
  rfl

theorem prefix_calledByElements (c : Components) (K : List String) (typed more : List ElementId) :
    c.calledByElements K typed <+: c.calledByElements K (typed ++ more) := by
  rw [calledByElements_append]
  exact prefix_addAllNew _ _

theorem atElement_of_getElem? {α : Type} {f : ElementDecl → List α}
    (he : c.elements[d.index]? = some e) : c.atElement f d = f e := by
  rw [atElement, he, Option.toList_some, List.flatMap_singleton]

theorem run_element? (d : ElementId) (c : Components) :
    (element? d).run c = (c.elements[d.index]?, c) := rfl

/-- What is declared once an element has got its type. -/
theorem getElem?_setElementType (d d' : ElementId) (t : TypeId) (c : Components) :
    ((setElementType d t).run c).2.elements[d'.index]? =
      if d = d' then c.elements[d'.index]?.map ({ · with type? := some t })
      else c.elements[d'.index]? := by
  change (c.elements.modify d.index _)[d'.index]? = _
  rw [Array.getElem?_modify]
  congr 1
  exact propext ⟨fun heq => congrArg ElementId.mk heq, congrArg ElementId.index⟩

/-- One more element gets its type, after what is wrong with it has been reported. -/
theorem Typing.assign (h : Typing c₀ c₁ T K typed c) (hfresh : d ∉ typed)
    (he : c₀.elements[d.index]? = some e) (htype : e.type? = none) {c' : Components}
    (hmidway : Midway c₀ T (addAllNew (c₀.calledByElements K typed) (c₀.calledByElement e)) c')
    (helements : c'.elements = c.elements)
    (hproblems : c'.problems.toList =
      c.problems.toList ++ (c₀.elementFaults e).map Fault.problem)
    (hfound : TypedAs c₀ (addAllNew (c₀.calledByElements K typed) (c₀.calledByElement e)) d t) :
    Typing c₀ c₁ T K (typed ++ [d]) ((setElementType d t).run c').2 ∧
      TypedAs c₀ (c₀.calledByElements K (typed ++ [d])) d t := by
  have hcalled : c₀.calledByElements K (typed ++ [d]) =
      addAllNew (c₀.calledByElements K typed) (c₀.calledByElement e) := by
    rw [calledByElements_append, calledByElements, List.flatMap_singleton,
      atElement_of_getElem? he]
  have hle := c₀.prefix_calledByElements K typed [d]
  rw [← hcalled] at hmidway hfound
  have hset (d' : ElementId) : ((setElementType d t).run c').2.elements[d'.index]? =
      if d = d' then c.elements[d'.index]?.map ({ · with type? := some t })
      else c.elements[d'.index]? := by
    rw [getElem?_setElementType, helements]
  refine ⟨⟨?_, ?_, ?_, ?_, ?_, ?_, ?_⟩, hfound⟩
  · exact List.concat_eq_append ▸ List.Nodup.concat hfresh h.nodup
  · exact List.forall_mem_append.2 ⟨h.fresh, List.forall_mem_singleton.2 ⟨e, he, htype⟩⟩
  · exact ⟨{ hmidway.frame with }, hmidway.size, hmidway.types, hmidway.builtins, hmidway.nodup⟩
  · change c'.problems.toList = _
    rw [hproblems, h.problems, List.flatMap_append, List.flatMap_singleton,
      atElement_of_getElem? he, List.map_append, List.append_assoc]
  · change (c'.elements.modify d.index _).size = _
    rw [helements, Array.size_modify, h.size]
  · intro d' hd'
    rw [List.mem_append, List.mem_singleton, not_or] at hd'
    rw [hset, if_neg fun heq => hd'.2 heq.symm, h.untouched d' hd'.1]
  · intro d' e' he' hd'
    rw [hset]
    by_cases hdd : d = d'
    · subst hdd
      rw [if_pos rfl, h.untouched d hfresh, he']
      exact ⟨_, rfl, hfound⟩
    · rw [List.mem_append, List.mem_singleton] at hd'
      obtain ⟨t, ht, htyped⟩ := h.elements d' e' he' (hd'.resolve_right fun heq => hdd heq.symm)
      exact ⟨t, by rw [if_neg hdd, ht], htyped.mono hle⟩

/-- One more element gets the type that is found for it. -/
theorem Typing.look (h : Typing c₀ c₁ T K typed c) (hfresh : d ∉ typed)
    (he : c₀.elements[d.index]? = some e) (htype : e.type? = none) {x : Building TypeId}
    (hx : Looks c₀ x (fun keys t => TypedAs c₀ keys d t) (c₀.elementFaults e)
      (c₀.calledByElement e)) :
    Typing c₀ c₁ T K (typed ++ [d]) ((x >>= fun t => setElementType d t).run c).2 ∧
      TypedAs c₀ (c₀.calledByElements K (typed ++ [d])) d (x.run c).1 := by
  obtain ⟨hmidway, helements, hproblems, hfound⟩ := hx T _ c h.midway
  exact h.assign hfresh he htype hmidway helements hproblems hfound

/-- The type of an element that names or holds one. -/
theorem looks_ownType (he : c₀.elements[d.index]? = some e) (htype : e.type? = none)
    (href : e.typeRef ≠ .unspecified) :
    Looks c₀ (typeOf? e.typeRef (.element e.name) >>= fun t? => match t? with
        | some t => pure t
        | none => builtinType Builtin.anyTypeName)
      (fun keys t => TypedAs c₀ keys d t) (c₀.elementFaults e) (c₀.calledByElement e) := by
  have hgiven : ¬ e.type?.isSome = true := by simp [htype]
  rw [elementFaults, calledByElement, if_neg hgiven, if_neg hgiven,
    ← List.append_nil (typeFaults ..)]
  refine (looks_typeOf? e.typeRef (.element e.name)).bind
    (fun _ _ _ hkeys h => h.mono hkeys) fun keys t? h => ?_
  have huntyped : c₀.isUntyped e = t?.isNone := by
    rw [isUntyped]
    generalize e.typeRef = ref at h href
    cases h with
    | unspecified => exact absurd rfl href
    | definition t => rfl
    | named h =>
      dsimp only
      rw [← h.isSome, Option.not_isSome]
  rw [huntyped]
  cases t? with
  | none =>
    refine (looks_builtinType Builtin.anyTypeName).mono fun keys t ⟨hk, ht⟩ _ => ?_
    rw [ht]
    exact .untyped he htype huntyped hk
  | some t => exact .pure fun keys h => .referred he htype href h

/-- The type of an element that nothing says the type of. -/
theorem looks_anyType (he : c₀.elements[d.index]? = some e) (htype : e.type? = none)
    (href : e.typeRef = .unspecified) (hheads : c₀.headsOf e = []) :
    Looks c₀ (builtinType Builtin.anyTypeName) (fun keys t => TypedAs c₀ keys d t)
      (c₀.elementFaults e) (c₀.calledByElement e) := by
  have hgiven : ¬ e.type?.isSome = true := by simp [htype]
  have huntyped : c₀.isUntyped e = true := by rw [isUntyped, href, hheads]; rfl
  rw [elementFaults, calledByElement, if_neg hgiven, if_neg hgiven, huntyped, href]
  refine (looks_builtinType Builtin.anyTypeName).mono fun keys t ⟨hk, ht⟩ => ?_
  rw [ht]
  exact .untyped he htype huntyped hk

/-- Nothing is reported or called for where an element has the type of another one. -/
theorem faults_of_led {head : ElementId} {heads : List ElementId} (htype : e.type? = none)
    (href : e.typeRef = .unspecified) (hheads : c₀.headsOf e = head :: heads) :
    c₀.elementFaults e = [] ∧ c₀.calledByElement e = [] := by
  have hgiven : ¬ e.type?.isSome = true := by simp [htype]
  have huntyped : c₀.isUntyped e = false := by rw [isUntyped, href, hheads]; rfl
  rw [elementFaults, calledByElement, if_neg hgiven, if_neg hgiven, huntyped, href]
  exact ⟨rfl, rfl⟩

theorem run_elementType?_of_missing (room : Nat) (path : List ElementId)
    (he : c.elements[d.index]? = none) : (elementType? (room + 1) path d).run c = (none, c) := by
  rw [elementType?, run_bind, run_element?, he]
  rfl

/-- An element that has a type gets that. -/
theorem run_elementType?_of_typed (room : Nat) (path : List ElementId)
    (he : c.elements[d.index]? = some e) (htype : e.type? = some t) :
    (elementType? (room + 1) path d).run c = (some t, c) := by
  rw [elementType?, run_bind, run_element?, he]
  dsimp -zeta only
  rw [htype]
  rfl

/-- An element that waits gets none. -/
theorem run_elementType?_of_mem (room : Nat) {path : List ElementId}
    (he : c.elements[d.index]? = some e) (htype : e.type? = none) (hmem : d ∈ path) :
    (elementType? (room + 1) path d).run c = (none, c) := by
  have hunmet : ¬ (none : Option TypeId).isSome = true := Bool.false_ne_true
  rw [elementType?, run_bind, run_element?, he]
  dsimp -zeta only
  rw [htype, if_neg hunmet, if_pos hmem]
  rfl

/-- What an element without a type gets, unless it waits, once its type is found. -/
theorem run_elementType?_of_untyped (room : Nat) {path : List ElementId}
    (he : c.elements[d.index]? = some e) (htype : e.type? = none) (hnotMem : d ∉ path) :
    (elementType? (room + 1) path d).run c =
      ((if e.typeRef = .unspecified then (c.headsOf e).findSomeM? (elementType? room (d :: path))
        else typeOf? e.typeRef (.element e.name)) >>= fun found? =>
        (match found? with
          | some t => pure t
          | none => builtinType Builtin.anyTypeName) >>= fun t =>
          setElementType d t >>= fun _ => (pure (some t) : Building (Option TypeId))).run c := by
  rw [elementType?, run_bind, run_element?, he]
  dsimp -zeta only
  have hunmet : ¬ (none : Option TypeId).isSome = true := Bool.false_ne_true
  rw [htype, if_neg hunmet, if_neg hnotMem]
  extract_lets settle choose
  have hchoose (found? : Option TypeId) : choose found? =
      (match found? with
          | some t => pure t
          | none => builtinType Builtin.anyTypeName) >>= settle := by
    cases found? <;> rfl
  by_cases href : e.typeRef = .unspecified
  · rw [if_pos href, if_pos href]
    change ((List.findSomeM? (elementType? room (d :: path)) _ >>= choose).run c) = _
    rw [funext hchoose]
    rfl
  · rw [if_neg href, if_neg href, funext hchoose]

namespace Typing

variable {room : Nat} {path : List ElementId} {rank : ElementId → Nat}

/-- An element whose type is known already. -/
theorem known (h : Typing c₀ c₁ T K typed c) (he : c.elements[d.index]? = some e)
    (htype : e.type? = some t) : TypedAs c₀ (c₀.calledByElements K typed) d t := by
  by_cases hd : d ∈ typed
  · obtain ⟨e', he', -⟩ := h.fresh d hd
    obtain ⟨t', ht', htyped⟩ := h.elements d e' he' hd
    obtain rfl := Option.some.inj (ht'.symm.trans he)
    obtain rfl := Option.some.inj htype
    exact htyped
  · rw [h.untouched d hd] at he
    exact .given he htype

/-- An element without a type has not been met. -/
theorem notMem (h : Typing c₀ c₁ T K typed c) (he : c.elements[d.index]? = some e)
    (htype : e.type? = none) : d ∉ typed := by
  intro hd
  obtain ⟨e', he', -⟩ := h.fresh d hd
  obtain ⟨t', ht', -⟩ := h.elements d e' he' hd
  obtain rfl := Option.some.inj (ht'.symm.trans he)
  cases htype

/-- An element that has a type now and had none has been met. -/
theorem mem (h : Typing c₀ c₁ T K typed c) (he : c.elements[d.index]? = some e)
    (htype : e.type? = some t) {e₀ : ElementDecl} (he₀ : c₀.elements[d.index]? = some e₀)
    (hnone : e₀.type? = none) : d ∈ typed := by
  by_contra hfresh
  obtain rfl := Option.some.inj (he.symm.trans ((h.untouched d hfresh).trans he₀))
  cases hnone.symm.trans htype

/-- An element gets the type of the first one that it may stand in for. -/
theorem follow (h : Typing c₀ c₁ T K typed c) (hfresh : d ∉ typed)
    (he : c₀.elements[d.index]? = some e) (htype : e.type? = none)
    (href : e.typeRef = .unspecified) {head : ElementId} {heads : List ElementId}
    (hheads : c₀.headsOf e = head :: heads)
    (hfound : TypedAs c₀ (c₀.calledByElements K typed) head t) :
    Typing c₀ c₁ T K (typed ++ [d]) ((setElementType d t).run c).2 ∧
      TypedAs c₀ (c₀.calledByElements K (typed ++ [d])) d t := by
  obtain ⟨hfaults, hcalled⟩ := faults_of_led htype href hheads
  refine h.assign hfresh he htype ?_ rfl ?_ ?_
  · rw [hcalled]
    exact h.midway
  · rw [hfaults, List.map_nil, List.append_nil]
  · rw [hcalled]
    exact .led he htype href hheads hfound

/-- What an element gets when it has not been met, once its type is found. -/
theorem run_elementType? (h : Typing c₀ c₁ T K typed c) (he : c₀.elements[d.index]? = some e)
    (htype : e.type? = none) (hfresh : d ∉ typed) (hnotMem : d ∉ path) :
    (Components.elementType? (room + 1) path d).run c =
      ((if e.typeRef = .unspecified then
          (c₀.headsOf e).findSomeM? (Components.elementType? room (d :: path))
        else typeOf? e.typeRef (.element e.name)) >>= fun found? =>
        (match found? with
          | some t => pure t
          | none => builtinType Builtin.anyTypeName) >>= fun t =>
          setElementType d t >>= fun _ => (pure (some t) : Building (Option TypeId))).run c := by
  have hheads : c.headsOf e = c₀.headsOf e := by
    rw [headsOf, headsOf, h.midway.frame.globalElements]
  rw [← hheads]
  exact run_elementType?_of_untyped room ((h.untouched d hfresh).trans he) htype hnotMem

/-- A type is found and given to the element. -/
theorem run_settle (x : Building TypeId) (d : ElementId) (c : Components) :
    (x >>= fun t => setElementType d t >>= fun _ => (pure (some t) : Building _)).run c =
      (some (x.run c).1, ((x >>= fun t => setElementType d t).run c).2) := rfl

/-- **An element that is asked for its type gets it**, as long as no element may stand in for
itself. -/
theorem elementType? (hglobal : ∀ n h, c₀.globalElements.find? n = some h →
      h.index < c₀.elements.size)
    (hrank : ∀ d h, StandsInFor c₀ d h → rank h < rank d)
    (h : Typing c₀ c₁ T K typed c) (hd : d.index < c₀.elements.size)
    (hpath : ∀ p ∈ path, rank d < rank p) (hroom : rank d < room) :
    ∃ more t c', (Components.elementType? room path d).run c = (some t, c') ∧
      Typing c₀ c₁ T K (typed ++ more) c' ∧
      TypedAs c₀ (c₀.calledByElements K (typed ++ more)) d t ∧
      (∀ x ∈ more, rank x ≤ rank d) ∧
      (c₀.elements[d.index].type? = none → d ∈ typed ++ more) := by
  induction room generalizing path typed c d with
  | zero => exact absurd hroom (Nat.not_lt_zero _)
  | succ room ih =>
    have hget := Array.getElem?_eq_getElem hd
    have hlt : d.index < c.elements.size := h.size.symm ▸ hd
    have hnotMem : d ∉ path := fun hmem => Nat.lt_irrefl _ (hpath d hmem)
    cases htype : c.elements[d.index].type? with
    | some t =>
      have hrun := run_elementType?_of_typed room path (Array.getElem?_eq_getElem hlt) htype
      refine ⟨[], t, c, hrun, ?_⟩
      rw [List.append_nil]
      exact ⟨h, h.known (Array.getElem?_eq_getElem hlt) htype, List.forall_mem_nil _,
        h.mem (Array.getElem?_eq_getElem hlt) htype hget⟩
    | none =>
      have hfresh := h.notMem (Array.getElem?_eq_getElem hlt) htype
      have hsame := h.untouched d hfresh
      rw [Array.getElem?_eq_getElem hlt, hget, Option.some.injEq] at hsame
      rw [hsame] at htype
      have hfirst : ∀ x ∈ [d], rank x ≤ rank d := List.forall_mem_singleton.2 (Nat.le_refl _)
      have hmem (more : List ElementId) : d ∈ typed ++ (more ++ [d]) :=
        List.mem_append_right _ (List.mem_append_right _ (List.mem_singleton_self d))
      rw [h.run_elementType? hget htype hfresh hnotMem]
      by_cases href : c₀.elements[d.index].typeRef = .unspecified
      · rw [if_pos href]
        cases hheads : c₀.headsOf c₀.elements[d.index] with
        | nil =>
          obtain ⟨hnext, hfound⟩ :=
            h.look hfresh hget htype (looks_anyType hget htype href hheads)
          exact ⟨[d], _, _, run_settle (builtinType Builtin.anyTypeName) d c, hnext, hfound, hfirst,
            fun _ => hmem []⟩
        | cons head heads =>
          have hhead : head ∈ c₀.headsOf c₀.elements[d.index] := hheads ▸ List.mem_cons_self
          have hlower : rank head < rank d := hrank d head ⟨_, hget, hhead⟩
          obtain ⟨n, -, hn⟩ := List.mem_filterMap.1 hhead
          have hwaiting : ∀ p ∈ d :: path, rank head < rank p :=
            List.forall_mem_cons.2 ⟨hlower, fun p hp => Nat.lt_trans hlower (hpath p hp)⟩
          obtain ⟨more, t, c', hrun, hnext, hfound, hmore, -⟩ :=
            ih h (hglobal n head hn) hwaiting (by omega)
          have hfresh' : d ∉ typed ++ more := fun hmem' => by
            rcases List.mem_append.1 hmem' with hmem' | hmem'
            · exact hfresh hmem'
            · exact Nat.not_le.2 hlower (hmore d hmem')
          obtain ⟨hlast, hfound'⟩ := hnext.follow hfresh' hget htype href hheads hfound
          rw [List.append_assoc] at hlast hfound'
          refine ⟨more ++ [d], t, _, ?_, hlast, hfound', List.forall_mem_append.2
            ⟨fun x hx => Nat.le_trans (hmore x hx) (Nat.le_of_lt hlower), hfirst⟩,
            fun _ => hmem more⟩
          rw [List.findSomeM?_cons, bind_assoc, run_bind, hrun]
          rfl
      · rw [if_neg href]
        obtain ⟨hnext, hfound⟩ := h.look hfresh hget htype (looks_ownType hget htype href)
        exact ⟨[d], _, _, run_settle (typeOf? _ _ >>= fun t? => match t? with
          | some t => pure t
          | none => builtinType Builtin.anyTypeName) d c, hnext, hfound, hfirst, fun _ => hmem []⟩

/-- Asks the element at a place for its type. -/
def asks (room i : Nat) : Building PUnit := do
  let _ ← Components.elementType? room [] ⟨i⟩

/-- Elements that are asked in turn all have a type in the end. -/
theorem forM_elementType? (room : Nat) (is : List Nat)
    (hglobal : ∀ n h, c₀.globalElements.find? n = some h → h.index < c₀.elements.size)
    (hrank : ∀ d h, StandsInFor c₀ d h → rank h < rank d) (hroom : ∀ d, rank d < room)
    (his : ∀ i ∈ is, i < c₀.elements.size) (h : Typing c₀ c₁ T K typed c) :
    ∃ more, Typing c₀ c₁ T K (typed ++ more)
        ((is.forM (asks room)).run c).2 ∧
      ∀ i ∈ is, ∀ e, c₀.elements[i]? = some e → e.type? = none → ⟨i⟩ ∈ typed ++ more := by
  induction is generalizing typed c with
  | nil => exact ⟨[], by rwa [List.append_nil], nofun⟩
  | cons i is ih =>
    rw [List.forall_mem_cons] at his
    obtain ⟨more, t, c', hrun, hnext, -, -, hmem⟩ :=
      h.elementType? (d := ⟨i⟩) hglobal hrank his.1 (List.forall_mem_nil _) (hroom _)
    obtain ⟨more', hlast, hmem'⟩ := ih his.2 hnext
    rw [List.append_assoc] at hlast hmem'
    refine ⟨more ++ more', ?_, List.forall_mem_cons.2 ⟨fun e he hnone => ?_, hmem'⟩⟩
    · have hcons : ((i :: is).forM (asks room)).run c =
          (is.forM (asks room)).run ((Components.elementType? room [] ⟨i⟩).run c).2 := rfl
      rw [hcons, hrun]
      exact hlast
    · obtain ⟨hi, rfl⟩ := Array.getElem?_eq_some_iff.1 he
      rw [← List.append_assoc]
      exact List.mem_append_left _ (hmem hnone)

end Typing

/-- The identifiers of all elements. -/
def elementIds (c : Components) : List ElementId := (List.range c.elements.size).map ElementId.mk

theorem mem_elementIds : d ∈ c.elementIds ↔ d.index < c.elements.size := by
  rw [elementIds, List.mem_map]
  constructor
  · rintro ⟨i, hi, rfl⟩
    exact List.mem_range.1 hi
  · exact fun hd => ⟨d.index, List.mem_range.2 hd, rfl⟩

/-- **Every element gets a type**, as long as no element may stand in for itself. -/
theorem exists_typeElements (hacyclic : ∀ d, ¬ TransGen (StandsInFor c₀) d d)
    (hglobal : ∀ n h, c₀.globalElements.find? n = some h → h.index < c₀.elements.size)
    (h : Midway c₀ T K c) (helements : c.elements = c₀.elements) :
    ∃ typed, Typing c₀ c T K typed (typeElements.run c).2 ∧
      ∀ d e, c₀.elements[d.index]? = some e → e.type? = none → d ∈ typed := by
  have hall (d head : ElementId) (hd : StandsInFor c₀ d head) : head ∈ c₀.elementIds := by
    obtain ⟨e, -, hhead⟩ := hd
    obtain ⟨n, -, hn⟩ := List.mem_filterMap.1 hhead
    exact mem_elementIds.2 (hglobal n head hn)
  obtain ⟨rank, hrank, hbound⟩ := exists_rank hall hacyclic
  rw [elementIds, List.length_map, List.length_range] at hbound
  have hstart : Typing c₀ c T K [] c :=
    { nodup := List.nodup_nil
      fresh := nofun
      midway := h
      problems := (List.append_nil _).symm
      size := congrArg Array.size helements
      untouched := fun d _ => by rw [helements]
      elements := fun _ _ _ hd => absurd hd List.not_mem_nil }
  obtain ⟨typed, htyping, hmem⟩ := hstart.forM_elementType? (c.elements.size + 1)
    (List.range c.elements.size) hglobal hrank
    (fun d => Nat.lt_succ_of_le (helements ▸ hbound d))
    (fun i hi => helements ▸ List.mem_range.1 hi)
  have hrun : typeElements.run c =
      ((List.range c.elements.size).forM (Typing.asks (c.elements.size + 1))).run c := rfl
  rw [hrun]
  refine ⟨typed, htyping, fun d e he hnone => hmem d.index (List.mem_range.2 ?_) e he hnone⟩
  rw [helements]
  exact (Array.getElem?_eq_some_iff.1 he).1

/-- Going through the elements without a type is going through all elements, if nothing comes from
those that have one. -/
theorem flatMap_atElement_perm (hnodup : typed.Nodup)
    (hfresh : ∀ d ∈ typed, ∃ e, c₀.elements[d.index]? = some e ∧ e.type? = none)
    (hall : ∀ d e, c₀.elements[d.index]? = some e → e.type? = none → d ∈ typed)
    {α : Type} {f : ElementDecl → List α} (hf : ∀ e, e.type?.isSome = true → f e = []) :
    (typed.flatMap (c₀.atElement f)).Perm (c₀.elements.toList.flatMap f) := by
  have hids : c₀.elementIds.Nodup :=
    List.nodup_range.map fun _ _ heq => congrArg ElementId.index heq
  have hperm : (typed ++ c₀.elementIds.filter (· ∉ typed)).Perm c₀.elementIds := by
    refine (List.perm_ext_iff_of_nodup ?_ hids).2 fun d => ?_
    · refine List.nodup_append.2 ⟨hnodup, hids.filter _, ?_⟩
      rintro a ha b hb rfl
      exact of_decide_eq_true (List.mem_filter.1 hb).2 ha
    · rw [List.mem_append, List.mem_filter]
      constructor
      · rintro (hd | hd)
        · obtain ⟨e, he, -⟩ := hfresh d hd
          exact mem_elementIds.2 (Array.getElem?_eq_some_iff.1 he).1
        · exact hd.1
      · intro hd
        by_cases hmem : d ∈ typed
        · exact Or.inl hmem
        · exact Or.inr ⟨hd, decide_eq_true hmem⟩
  have hrest : (c₀.elementIds.filter (· ∉ typed)).flatMap (c₀.atElement f) = [] := by
    refine List.flatMap_eq_nil_iff.2 fun d hd => ?_
    obtain ⟨hd, hnotMem⟩ := List.mem_filter.1 hd
    have he := Array.getElem?_eq_getElem (mem_elementIds.1 hd)
    rw [atElement_of_getElem? he]
    refine hf _ (Option.isSome_iff_ne_none.2 fun hnone => ?_)
    exact of_decide_eq_true hnotMem (hall d _ he hnone)
  have hflat := hperm.flatMap_right (c₀.atElement f)
  rw [List.flatMap_append, hrest, List.append_nil] at hflat
  refine hflat.trans (.of_eq ?_)
  rw [elementIds, List.flatMap_map]
  exact flatMap_range_getElem? c₀.elements f

theorem Typing.flatMap_perm {c' : Components} (h : Typing c₀ c₁ T K typed c')
    (hall : ∀ d e, c₀.elements[d.index]? = some e → e.type? = none → d ∈ typed)
    {α : Type} {f : ElementDecl → List α} (hf : ∀ e, e.type?.isSome = true → f e = []) :
    (typed.flatMap (c₀.atElement f)).Perm (c₀.elements.toList.flatMap f) :=
  flatMap_atElement_perm h.nodup h.fresh hall hf

end Components
end SchemaAssist
