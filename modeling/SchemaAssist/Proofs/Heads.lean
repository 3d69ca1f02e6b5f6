/-
# The types of elements and of their heads

As long as no element may stand in for itself, an element that neither names nor holds a type has
the type of the first of its heads that is there, whichever of them is declared first
(`Components.Follows`).  The invariant is that the elements which have their types by now have the
right ones (`Components.Following`): an element is asked while others wait only if these may stand
in for it, so it is never one of them.  `Components.follows_typeElements` is what all elements come
to, from whatever components, and what is reported on the way.
-/

import SchemaAssist.Proofs.Asking
import SchemaAssist.Proofs.Refusals

namespace SchemaAssist

open Relation (ReflTransGen TransGen)

namespace Components

variable {c₀ c c' c₁ : Components} {d : ElementId} {ds waiting typed : List ElementId}
  {e : ElementDecl} {t : TypeId} {t? : Option TypeId} {n : Name}

/-! ### What the type of an element is to be -/

/-- The type of any content, once it has been numbered. -/
def anyType? (c : Components) : Option TypeId := c.builtins.lookup Builtin.anyTypeName

/-- The type that a name stands for, once the built-in types that are referred to have been
numbered. -/
def standsFor? (c : Components) (n : Name) : Option TypeId :=
  match c.globalTypes.find? n with
  | some t => some t
  | none =>
    if Builtin.isAnyType n || Builtin.isSimpleType n then c.builtins.lookup n.localName else none

/-- The type that an element has. -/
def elementTypeAt? (c : Components) (d : ElementId) : Option TypeId :=
  c.elements[d.index]?.bind (·.type?)

/-- The first of the global elements that an element may stand in for. -/
def firstHead? (c : Components) (e : ElementDecl) : Option ElementId :=
  (c.headsOf e).find? fun d => c.elements[d.index]?.isSome

/-- The type that an element without one is to have afterwards: the one that it holds, the one that
it names or else that of any content, the one of its first head or else that of any content. -/
def Follows (c c' : Components) (e : ElementDecl) (t : TypeId) : Prop :=
  match e.typeRef with
  | .definition own => own = t
  | .named n => (if c.knows n then c'.standsFor? n else c'.anyType?) = some t
  | .unspecified =>
    match c.firstHead? e with
    | some head => c'.elementTypeAt? head = some t
    | none => c'.anyType? = some t

/-! ### Built-in types -/

/-- Components that differ from earlier ones by built-in types that have been numbered, as far as
types go. -/
structure Numbered (c c' : Components) : Prop where
  globalTypes : c'.globalTypes = c.globalTypes
  globalElements : c'.globalElements = c.globalElements
  kept : ∀ k t, c.builtins.lookup k = some t → c'.builtins.lookup k = some t
  types : ∀ (i : Nat) d, c.types[i]? = some d → c'.types[i]? = some d
  genuine : ∀ k t, c'.builtins.lookup k = some t →
    c.builtins.lookup k = some t ∨ c'.types[t.index]? = some (Builtin.definition k)

namespace Numbered

theorem refl (c : Components) : Numbered c c where
  globalTypes := rfl
  globalElements := rfl
  kept := fun _ _ h => h
  types := fun _ _ h => h
  genuine := fun _ _ h => .inl h

theorem trans (h : Numbered c c') (h' : Numbered c' c₁) : Numbered c c₁ where
  globalTypes := h'.globalTypes.trans h.globalTypes
  globalElements := h'.globalElements.trans h.globalElements
  kept := fun k t hk => h'.kept k t (h.kept k t hk)
  types := fun i d hd => h'.types i d (h.types i d hd)
  genuine := fun k t hk => (h'.genuine k t hk).elim
    (fun hk => (h.genuine k t hk).imp_right (h'.types _ _)) .inr

theorem knows (h : Numbered c c') (n : Name) : c'.knows n = c.knows n := by
  rw [Components.knows, Components.knows, h.globalTypes]

theorem headsOf (h : Numbered c c') (e : ElementDecl) : c'.headsOf e = c.headsOf e := by
  rw [Components.headsOf, Components.headsOf, h.globalElements]

theorem standsFor? (h : Numbered c c') (hn : c.standsFor? n = some t) :
    c'.standsFor? n = some t := by
  rw [Components.standsFor?] at hn ⊢
  rw [h.globalTypes]
  split at hn
  · exact hn
  · split at hn
    · next hb =>
      rw [if_pos hb]
      exact h.kept _ _ hn
    · cases hn

end Numbered

/-- What an element is to have stays that. -/
theorem Follows.mono (h : Follows c₀ c e t) (hnumbered : Numbered c c')
    (hkept : ∀ d t, c.elementTypeAt? d = some t → c'.elementTypeAt? d = some t) :
    Follows c₀ c' e t := by
  rw [Follows] at h ⊢
  split at h
  · exact h
  · split at h
    · next hn =>
      rw [if_pos hn]
      exact hnumbered.standsFor? h
    · next hn =>
      rw [if_neg hn]
      exact hnumbered.kept _ _ h
  · split at h
    · exact hkept _ _ h
    · exact hnumbered.kept _ _ h

/-- A built-in type that is referred to is numbered, if it has not been before. -/
theorem numbered_builtinType (k : String) (c : Components) :
    Numbered c ((builtinType k).run c).2 ∧
      ((builtinType k).run c).2.elements = c.elements ∧
      ((builtinType k).run c).2.problems = c.problems ∧
      ((builtinType k).run c).2.builtins.lookup k = some ((builtinType k).run c).1 := by
  rw [run_builtinType]
  cases hk : c.builtins.lookup k with
  | some t => exact ⟨.refl c, rfl, rfl, hk⟩
  | none =>
    refine ⟨⟨rfl, rfl, fun k' t hk' => ?_, fun i d hd => ?_, fun k' t hk' => ?_⟩, rfl, rfl, ?_⟩
    · dsimp only
      rw [List.lookup_cons]
      cases hkk : k' == k with
      | true =>
        rw [eq_of_beq hkk, hk] at hk'
        cases hk'
      | false => exact hk'
    · have hlt := (Array.getElem?_eq_some_iff.1 hd).1
      dsimp only
      rw [Array.getElem?_push, if_neg (Nat.ne_of_lt hlt), hd]
    · dsimp only at hk' ⊢
      rw [List.lookup_cons] at hk'
      cases hkk : k' == k with
      | true =>
        rw [hkk] at hk'
        cases hk'
        rw [eq_of_beq hkk]
        exact .inr Array.getElem?_push_size
      | false =>
        rw [hkk] at hk'
        exact .inl hk'
    · exact List.lookup_cons_self

/-- Looking up the name of a type. -/
theorem numbered_typeNamed? (n : Name) (c : Components) :
    Numbered c ((typeNamed? n).run c).2 ∧
      ((typeNamed? n).run c).2.elements = c.elements ∧
      ((typeNamed? n).run c).2.problems = c.problems ∧
      ((typeNamed? n).run c).1.isSome = c.knows n ∧
      ∀ t, ((typeNamed? n).run c).1 = some t → ((typeNamed? n).run c).2.standsFor? n = some t := by
  cases hn : c.globalTypes.find? n with
  | some t =>
    have hrun : (typeNamed? n).run c = (some t, c) := by
      rw [typeNamed?, run_bind]
      change ((match c.globalTypes.find? n with | some t => _ | none => _ :
        Building (Option TypeId)).run c) = _
      rw [hn]
      rfl
    rw [hrun, standsFor?, hn, knows, NameTable.has, hn]
    exact ⟨.refl c, rfl, rfl, rfl, fun _ h => h⟩
  | none =>
    have hrun : (typeNamed? n).run c =
        (if Builtin.isAnyType n || Builtin.isSimpleType n then
          some <$> builtinType n.localName else pure none : Building (Option TypeId)).run c := by
      rw [typeNamed?, run_bind]
      change ((match c.globalTypes.find? n with | some t => _ | none => _ :
        Building (Option TypeId)).run c) = _
      rw [hn]
      rfl
    rw [hrun, knows, NameTable.has, hn]
    cases hb : Builtin.isAnyType n || Builtin.isSimpleType n with
    | false => exact ⟨.refl c, rfl, rfl, rfl, fun _ h => by cases h⟩
    | true =>
      obtain ⟨hnumbered, helements, hproblems, hlookup⟩ := numbered_builtinType n.localName c
      refine ⟨hnumbered, helements, hproblems, rfl, fun t ht => ?_⟩
      change some ((builtinType n.localName).run c).1 = some t at ht
      change ((builtinType n.localName).run c).2.standsFor? n = some t
      rw [standsFor?, hnumbered.globalTypes, hn, hb, if_pos rfl, hlookup, ht]

/-- A type that is found, or else the type of any content. -/
theorem numbered_orAnyType (t? : Option TypeId) (c : Components) :
    Numbered c ((orAnyType t?).run c).2 ∧
      ((orAnyType t?).run c).2.elements = c.elements ∧
      ((orAnyType t?).run c).2.problems = c.problems ∧
      match t? with
      | some t => ((orAnyType t?).run c).1 = t
      | none => ((orAnyType t?).run c).2.anyType? = some ((orAnyType t?).run c).1 := by
  cases t? with
  | some t => exact ⟨.refl c, rfl, rfl, rfl⟩
  | none => exact numbered_builtinType Builtin.anyTypeName c

/-- The type of an element that names or holds one. -/
theorem follows_ownType (href : e.typeRef ≠ .unspecified) (hnumbered : Numbered c₀ c) :
    let found := (typeOf? e.typeRef (.element e.name) >>= orAnyType).run c
    Numbered c found.2 ∧ found.2.elements = c.elements ∧
      found.2.problems.toList = c.problems.toList ++
        (c₀.typeFaults (.element e.name) e.typeRef).map Fault.problem ∧
      Follows c₀ found.2 e found.1 := by
  dsimp only
  rw [Follows]
  cases hr : e.typeRef with
  | unspecified => exact absurd hr href
  | definition own => exact ⟨.refl c, rfl, (List.append_nil _).symm, rfl⟩
  | named n =>
    obtain ⟨hlooked, helements, hproblems, hknows, hfound⟩ := numbered_typeNamed? n c
    rw [hnumbered.knows] at hknows
    have hrun : (typeOf? (.named n) (.element e.name) >>= orAnyType).run c =
        ((if ((typeNamed? n).run c).1.isNone then report (.unknownType n (.element e.name))
          else pure ()) >>= fun _ => orAnyType ((typeNamed? n).run c).1).run
            ((typeNamed? n).run c).2 := by
      cases h : ((typeNamed? n).run c).1 with
      | none =>
        rw [typeOf?, run_bind, run_bind, h]
        rfl
      | some t =>
        rw [typeOf?, run_bind, run_bind, h]
        rfl
    dsimp only
    rw [hrun, typeFaults, ← hknows]
    generalize (typeNamed? n).run c = found at hlooked helements hproblems hfound hknows
    obtain ⟨t?, c₁⟩ := found
    cases t? with
    | none =>
      obtain ⟨hany, helements', hproblems', hanyType⟩ :=
        numbered_orAnyType none ((report (.unknownType n (.element e.name))).run c₁).2
      have hreported : Numbered c ((report (.unknownType n (.element e.name))).run c₁).2 :=
        { hlooked with }
      refine ⟨hreported.trans hany, helements'.trans helements, ?_, hanyType⟩
      refine (congrArg Array.toList hproblems').trans ?_
      change (c₁.problems.push _).toList = _
      rw [Array.toList_push, hproblems]
      rfl
    | some t =>
      refine ⟨hlooked, helements, ?_, hfound t rfl⟩
      change c₁.problems.toList = _
      rw [hproblems]
      exact (List.append_nil _).symm

/-! ### Asking -/

/-- Asking on the way: the elements in `typed` have got the types that they are to have, in this
order, and nothing else about elements has changed. -/
structure Following (c₀ : Components) (typed : List ElementId) (c : Components) : Prop where
  numbered : Numbered c₀ c
  nodup : typed.Nodup
  fresh : ∀ d ∈ typed, ∃ e, c₀.elements[d.index]? = some e ∧ e.type? = none
  problems : c.problems.toList = c₀.problems.toList ++
    (typed.flatMap (c₀.atElement c₀.elementFaults)).map Fault.problem
  size : c.elements.size = c₀.elements.size
  untouched : ∀ d : ElementId, d ∉ typed → c.elements[d.index]? = c₀.elements[d.index]?
  elements : ∀ (d : ElementId) e, c₀.elements[d.index]? = some e → d ∈ typed →
    ∃ t, c.elementTypeAt? d = some t ∧ Follows c₀ c e t

namespace Following

theorem start (c : Components) : Following c [] c where
  numbered := .refl c
  nodup := List.nodup_nil
  fresh := nofun
  problems := (List.append_nil _).symm
  size := rfl
  untouched := fun _ _ => rfl
  elements := fun _ _ _ hd => absurd hd List.not_mem_nil

/-- An element without a type has not been met. -/
theorem notMem (h : Following c₀ typed c) (he : c.elements[d.index]? = some e)
    (htype : e.type? = none) : d ∉ typed := by
  intro hd
  obtain ⟨e', he', -⟩ := h.fresh d hd
  obtain ⟨t, ht, -⟩ := h.elements d e' he' hd
  rw [elementTypeAt?, he, Option.bind_some, htype] at ht
  cases ht

/-- An element without a type is as it was. -/
theorem original (h : Following c₀ typed c) (he : c.elements[d.index]? = some e)
    (htype : e.type? = none) : c₀.elements[d.index]? = some e :=
  (h.untouched d (h.notMem he htype)).symm.trans he

/-- One more element gets the type that it is to have. -/
theorem settle (h : Following c₀ typed c) (hd : d ∉ typed)
    (he : c₀.elements[d.index]? = some e) (htype : e.type? = none) (hnumbered : Numbered c c')
    (helements : c'.elements = c.elements)
    (hproblems : c'.problems.toList =
      c.problems.toList ++ (c₀.elementFaults e).map Fault.problem)
    (hfollows : Follows c₀ c' e t) :
    Following c₀ (typed ++ [d]) ((setElementType d t).run c').2 := by
  have hset (d' : ElementId) : ((setElementType d t).run c').2.elements[d'.index]? =
      if d = d' then c.elements[d'.index]?.map ({ · with type? := some t })
      else c.elements[d'.index]? := by
    rw [getElem?_setElementType, helements]
  have hold : c.elements[d.index]? = some e := (h.untouched d hd).trans he
  have hlast : Numbered c' ((setElementType d t).run c').2 := { Numbered.refl c' with }
  -- only the type of an element that had none is set
  have hkept (d' : ElementId) (u : TypeId) (hu : c'.elementTypeAt? d' = some u) :
      ((setElementType d t).run c').2.elementTypeAt? d' = some u := by
    rw [elementTypeAt?, helements] at hu
    rw [elementTypeAt?, hset]
    split
    · next heq =>
      rw [← heq, hold, Option.bind_some, htype] at hu
      cases hu
    · exact hu
  have hown : ((setElementType d t).run c').2.elementTypeAt? d = some t := by
    rw [elementTypeAt?, hset, if_pos rfl, hold]
    rfl
  refine ⟨h.numbered.trans (hnumbered.trans hlast), ?_, ?_, ?_, ?_, fun d' hd' => ?_,
    fun d' e' he' hd' => ?_⟩
  · exact List.concat_eq_append ▸ List.Nodup.concat hd h.nodup
  · exact List.forall_mem_append.2 ⟨h.fresh, List.forall_mem_singleton.2 ⟨e, he, htype⟩⟩
  · change c'.problems.toList = _
    rw [hproblems, h.problems, List.flatMap_append, List.flatMap_singleton,
      atElement_of_getElem? he, List.map_append, List.append_assoc]
  · change (c'.elements.modify d.index _).size = _
    rw [helements, Array.size_modify, h.size]
  · rw [List.mem_append, List.mem_singleton, not_or] at hd'
    rw [hset, if_neg fun heq => hd'.2 heq.symm, h.untouched d' hd'.1]
  · rcases List.mem_append.1 hd' with hd' | hd'
    · obtain ⟨u, hu, hfollows'⟩ := h.elements d' e' he' hd'
      have hu' : c'.elementTypeAt? d' = some u := by rwa [elementTypeAt?, helements]
      refine ⟨u, hkept d' u hu', hfollows'.mono (hnumbered.trans hlast) fun x v hv => ?_⟩
      exact hkept x v (by rwa [elementTypeAt?, helements])
    · obtain rfl := List.mem_singleton.1 hd'
      cases he.symm.trans he'
      exact ⟨t, hown, hfollows.mono hlast hkept⟩

end Following

/-- What asking some elements comes to: the type of the first of them that is there. -/
def Answers (c₀ : Components) (ds : List ElementId) (t? : Option TypeId) (c : Components) : Prop :=
  match ds.find? fun d => c₀.elements[d.index]?.isSome with
  | some d => ∃ t, t? = some t ∧ c.elementTypeAt? d = some t
  | none => t? = none

theorem Answers.of_first (hd : d.index < c₀.elements.size) (ht : c.elementTypeAt? d = some t) :
    Answers c₀ (d :: ds) (some t) c := by
  rw [Answers, List.find?_cons, Array.getElem?_eq_getElem hd]
  exact ⟨t, rfl, ht⟩

theorem Answers.of_rest (hd : c₀.elements.size ≤ d.index) (h : Answers c₀ ds t? c) :
    Answers c₀ (d :: ds) t? c := by
  rw [Answers, List.find?_cons, Array.getElem?_eq_none hd]
  exact h

/-- What an element gets that has asked its heads. -/
theorem Answers.follows (h : Answers c₀ (c₀.headsOf e) t? c) (href : e.typeRef = .unspecified)
    (hrun : (orAnyType t?).run c = (t, c')) : Follows c₀ c' e t := by
  obtain ⟨-, helements, -, hfound⟩ := numbered_orAnyType t? c
  rw [hrun] at helements hfound
  rw [Follows, href, firstHead?]
  rw [Answers] at h
  dsimp only
  split at h
  · obtain ⟨u, rfl, hu⟩ := h
    obtain rfl : t = u := hfound
    rwa [elementTypeAt?, helements]
  · subst h
    exact hfound

theorem elementTypeAt?_setElementType (hd : d.index < c.elements.size) (t : TypeId) :
    ((setElementType d t).run c).2.elementTypeAt? d = some t := by
  rw [elementTypeAt?, getElem?_setElementType, if_pos rfl, Array.getElem?_eq_getElem hd]
  rfl

/-- **Elements are asked for the types that they are to have**, if those that wait may stand in for
them: then none of them waits, as none may stand in for itself. -/
theorem Asks.follows (h : Asks waiting ds c t? c')
    (hacyclic : ∀ d, ¬ TransGen (StandsInFor c₀) d d) (hc : Following c₀ typed c)
    (hwaiting : ∀ w ∈ waiting, ∀ d ∈ ds, TransGen (StandsInFor c₀) w d) :
    ∃ more, Following c₀ (typed ++ more) c' ∧ Answers c₀ ds t? c' ∧
      ∀ x ∈ more, ∃ d ∈ ds, ReflTransGen (StandsInFor c₀) d x := by
  induction h generalizing typed with
  | nobody => exact ⟨[], by rwa [List.append_nil], rfl, nofun⟩
  | @missing waiting ds d c c' t? he _ ih =>
    obtain ⟨more, hmore, hanswers, hreach⟩ :=
      ih hc fun w hw x hx => hwaiting w hw x (List.mem_cons_of_mem d hx)
    refine ⟨more, hmore, hanswers.of_rest (hc.size ▸ Array.getElem?_eq_none_iff.1 he),
      fun x hx => ?_⟩
    obtain ⟨y, hy, hyx⟩ := hreach x hx
    exact ⟨y, List.mem_cons_of_mem d hy, hyx⟩
  | @waits waiting ds d _ _ _ _ _ _ hmem =>
    exact absurd (hwaiting d hmem d List.mem_cons_self) (hacyclic d)
  | @known waiting ds d c e t he htype =>
    refine ⟨[], by rwa [List.append_nil], .of_first ?_ ?_, nofun⟩
    · exact hc.size ▸ (Array.getElem?_eq_some_iff.1 he).1
    · rw [elementTypeAt?, he]
      exact htype
  | @own waiting ds d c c' e t he htype _ href hrun =>
    have hold := hc.original he htype
    have hlt := (Array.getElem?_eq_some_iff.1 hold).1
    obtain ⟨hnumbered, helements, hproblems, hfollows⟩ := follows_ownType href hc.numbered
    rw [hrun] at hnumbered helements hproblems hfollows
    have hfaults : c₀.elementFaults e = c₀.typeFaults (.element e.name) e.typeRef := by
      rw [elementFaults, htype]
      rfl
    refine ⟨[d], hc.settle (hc.notMem he htype) hold htype hnumbered helements
      (hfaults ▸ hproblems) hfollows, .of_first hlt (elementTypeAt?_setElementType ?_ t),
      List.forall_mem_singleton.2 ⟨d, List.mem_cons_self, .refl⟩⟩
    rwa [helements, hc.size]
  | @led waiting ds d c c' c'' e t? t he htype _ href hasks hrun ih =>
    have hold := hc.original he htype
    have hlt := (Array.getElem?_eq_some_iff.1 hold).1
    have hhead (x : ElementId) (hx : x ∈ c₀.headsOf e) : StandsInFor c₀ d x := ⟨e, hold, hx⟩
    rw [hc.numbered.headsOf] at ih
    obtain ⟨more, hmore, hanswers, hreach⟩ := ih hc (List.forall_mem_cons.2
      ⟨fun x hx => .single (hhead x hx), fun w hw x hx =>
        (hwaiting w hw d List.mem_cons_self).tail (hhead x hx)⟩)
    have hreach' (x : ElementId) (hx : x ∈ more) : TransGen (StandsInFor c₀) d x := by
      obtain ⟨y, hy, hyx⟩ := hreach x hx
      exact .head' (hhead y hy) hyx
    have hd : d ∉ typed ++ more := fun hmem => (List.mem_append.1 hmem).elim
      (hc.notMem he htype) fun hmem => hacyclic d (hreach' d hmem)
    obtain ⟨hnumbered, helements, hproblems, -⟩ := numbered_orAnyType t? c'
    rw [hrun] at hnumbered helements hproblems
    have hfaults : c₀.elementFaults e = [] := by
      rw [elementFaults, htype, href]
      rfl
    refine ⟨more ++ [d], ?_, .of_first hlt (elementTypeAt?_setElementType ?_ t),
      List.forall_mem_append.2 ⟨fun x hx => ⟨d, List.mem_cons_self, (hreach' x hx).to_reflTransGen⟩,
        List.forall_mem_singleton.2 ⟨d, List.mem_cons_self, .refl⟩⟩⟩
    · rw [← List.append_assoc]
      refine hmore.settle hd hold htype hnumbered helements ?_ (hanswers.follows href hrun)
      rw [hproblems, hfaults]
      exact (List.append_nil _).symm
    · rwa [helements, hmore.size]

theorem AsksInTurn.follows (h : AsksInTurn ds c c')
    (hacyclic : ∀ d, ¬ TransGen (StandsInFor c₀) d d) (hc : Following c₀ typed c) :
    ∃ more, Following c₀ (typed ++ more) c' := by
  induction h generalizing typed with
  | nil => exact ⟨[], by rwa [List.append_nil]⟩
  | cons hasks _ ih =>
    obtain ⟨more, hmore, -⟩ := hasks.follows hacyclic hc nofun
    obtain ⟨more', hlast⟩ := ih hmore
    exact ⟨more ++ more', by rwa [← List.append_assoc]⟩

/-- **Elements have the types of those that they stand in for.**  Asking all elements for their
types comes to its end and leaves each one with a type, its own if it had one.  If no element may
stand in for itself, each one that had none has the one that it holds or names, or that of the first
element that it may stand in for, and the type of any content failing that; each name of a type that
is not there is reported once; and what has been numbered as a built-in type is that type. -/
theorem follows_typeElements (c : Components) :
    let c' := (typeElements.run c).2
    (AsksInTurn c.elementIds c c' ∧ c'.elements.size = c.elements.size ∧
      ∀ (d : ElementId) e, c.elements[d.index]? = some e →
        ∃ t, c'.elements[d.index]? = some { e with type? := some t } ∧
          ∀ t', e.type? = some t' → t' = t) ∧
    ((∀ d, ¬ TransGen (StandsInFor c) d d) →
      (∀ (d : ElementId) e, c.elements[d.index]? = some e → e.type? = none →
        ∃ t, c'.elementTypeAt? d = some t ∧ Follows c c' e t) ∧
      (∃ faults : List Fault, c'.problems.toList = c.problems.toList ++ faults.map Fault.problem ∧
        faults.Perm (c.elements.toList.flatMap c.elementFaults)) ∧
      ∀ k t, c'.builtins.lookup k = some t →
        c.builtins.lookup k = some t ∨ c'.types[t.index]? = some (Builtin.definition k)) := by
  intro c'
  have hasked := c.asksInTurn_typeElements
  refine ⟨hasked, fun hacyclic => ?_⟩
  obtain ⟨hasks, -, htyped⟩ := hasked
  obtain ⟨typed, h⟩ := hasks.follows hacyclic (.start c)
  -- an element that has not been met is as it was, but no element is left without a type
  have hall (d : ElementId) (e : ElementDecl) (he : c.elements[d.index]? = some e)
      (htype : e.type? = none) : d ∈ typed := by
    by_contra hd
    obtain ⟨t, ht, -⟩ := htyped d e he
    have hsame := Option.some.inj (ht.symm.trans ((h.untouched d hd).trans he))
    rw [← hsame] at htype
    cases htype
  exact ⟨fun d e he htype => h.elements d e he (hall d e he htype),
    ⟨_, h.problems, flatMap_atElement_perm h.nodup h.fresh hall fun _ he => if_pos he⟩,
    h.numbered.genuine⟩

/-- Where every element that may be stood in for comes later, none may stand in for itself. -/
theorem not_transGen_of_later
    (h : ∀ p ∈ c.elements.toList.zipIdx, ∀ head ∈ c.headsOf p.1, p.2 < head.index)
    (d : ElementId) : ¬ TransGen (StandsInFor c) d d := by
  intro hd
  have hlt : TransGen (· < ·) d.index d.index := hd.lift ElementId.index fun d head hhead => by
    obtain ⟨e, hget, hhead⟩ := hhead
    rw [← Array.getElem?_toList] at hget
    exact h (e, d.index) (List.mem_zipIdx_iff_getElem?.2 hget) head hhead
  rw [Relation.transGen_eq_self] at hlt
  exact Nat.lt_irrefl _ hlt

/-- An element that may stand in for one that is declared after it, whose type is built in, and an
element whose type is not there. -/
def lateHead : Submission where
  text := "<s:schema xmlns:s='http://www.w3.org/2001/XMLSchema'>" ++
    "<s:element name='a' substitutionGroup='b'/>" ++
    "<s:element name='b' type='s:string'/><s:element name='c' type='T'/></s:schema>"
  location := .path "late.xsd"

/-- The element that comes first gets the type of its head, which comes second. -/
theorem follows_lateHead :
    let c := (empty .v10 {}).after [lateHead]
    (∀ d, ¬ TransGen (StandsInFor c) d d) ∧
      ∃ t, (typeElements.run c).2.elementTypeAt? ⟨0⟩ = some t ∧
        (typeElements.run c).2.elementTypeAt? ⟨1⟩ = some t := by
  intro c
  have hsmall : (∀ p ∈ c.elements.toList.zipIdx, ∀ head ∈ c.headsOf p.1, p.2 < head.index) ∧
      (c.elements[0]?.map fun e => (e.type?, e.typeRef, c.firstHead? e)) =
        some (none, .unspecified, some ⟨1⟩) := by
    decide +kernel
  have hacyclic : ∀ d, ¬ TransGen (StandsInFor c) d d := not_transGen_of_later hsmall.1
  obtain ⟨e, he, hread⟩ := Option.map_eq_some_iff.1 hsmall.2
  simp only [Prod.mk.injEq] at hread
  obtain ⟨htype, href, hhead⟩ := hread
  obtain ⟨t, ht, hfollows⟩ := ((follows_typeElements c).2 hacyclic).1 ⟨0⟩ e he htype
  rw [Follows, href] at hfollows
  dsimp only at hfollows
  rw [hhead] at hfollows
  exact ⟨hacyclic, t, ht, hfollows⟩

end Components
end SchemaAssist
