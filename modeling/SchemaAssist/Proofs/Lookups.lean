/-
# What a name stands for

A name stands for a global type or else for a built-in one, which gets a number when it is first
called for.  While components are looked up nothing else about names changes (`Components.Midway`):
the built-in types stand behind those of the documents, in the order in which they were called for.
So each step of looking up says once and for all what it found (`Components.Looks`): what a name
stands for stays the same, whatever else is called for.
-/

import SchemaAssist.Proofs.Resolution

namespace SchemaAssist

theorem idxOf_mono {α : Type} [DecidableEq α] {xs xs' : List α} {x : α} (h : xs <+: xs')
    (hx : x ∈ xs) : xs'.idxOf x = xs.idxOf x := by
  obtain ⟨more, rfl⟩ := h
  exact List.idxOf_append_of_mem hx

namespace Components

variable {c₀ c : Components} {keys keys' : List String} {n : Name}

/-! ### Names -/

/-- Whether some type has a name. -/
def knows (c : Components) (n : Name) : Bool :=
  c.globalTypes.has n || (Builtin.isAnyType n || Builtin.isSimpleType n)

/-- The built-in type that a name calls for, if it is not that of a global type. -/
def called (c : Components) (n : Name) : List String :=
  if c.globalTypes.has n then []
  else if Builtin.isAnyType n || Builtin.isSimpleType n then [n.localName] else []

/-- The identifier of a built-in type among those that have been called for. -/
def builtinId (c : Components) (keys : List String) (k : String) : TypeId :=
  ⟨c.types.size + keys.idxOf k⟩

/-- What a name stands for when some built-in types have been called for. -/
inductive Named (c : Components) (keys : List String) : Name → Option TypeId → Prop
  | global {n : Name} {t : TypeId} : c.globalTypes.find? n = some t → Named c keys n (some t)
  | builtin {n : Name} : c.globalTypes.find? n = none →
    (Builtin.isAnyType n || Builtin.isSimpleType n) = true → n.localName ∈ keys →
      Named c keys n (some (c.builtinId keys n.localName))
  | unknown {n : Name} : c.globalTypes.find? n = none →
    (Builtin.isAnyType n || Builtin.isSimpleType n) = false → Named c keys n none

theorem builtinId_mono (h : keys <+: keys') {k : String} (hk : k ∈ keys) :
    c.builtinId keys' k = c.builtinId keys k := by
  rw [builtinId, builtinId, idxOf_mono h hk]

/-- What the documents define is not built in. -/
theorem ne_builtinId {t : TypeId} {d : TypeDef} (ht : c.types[t.index]? = some d) (k : String) :
    t ≠ c.builtinId keys k := by
  rintro rfl
  exact Nat.not_lt.2 (Nat.le_add_right _ _) (Array.getElem?_eq_some_iff.1 ht).1

/-- What a name stands for stays the same. -/
theorem Named.mono {t? : Option TypeId} (h : Named c keys n t?) (hkeys : keys <+: keys') :
    Named c keys' n t? := by
  cases h with
  | global hn => exact .global hn
  | builtin hn hbuiltin hk =>
    rw [← builtinId_mono hkeys hk]
    exact .builtin hn hbuiltin (hkeys.subset hk)
  | unknown hn hbuiltin => exact .unknown hn hbuiltin

theorem Named.unique {t? t?' : Option TypeId} (h : Named c keys n t?) (h' : Named c keys n t?') :
    t? = t?' := by
  cases h <;> cases h' <;> simp_all

theorem Named.isSome {t? : Option TypeId} (h : Named c keys n t?) : t?.isSome = c.knows n := by
  cases h with
  | global hn => simp [knows, NameTable.has, hn]
  | builtin hn hbuiltin _ => simp [knows, hbuiltin]
  | unknown hn hbuiltin => simp [knows, NameTable.has, hn, hbuiltin]

/-- What a reference to a type stands for. -/
inductive Referred (c : Components) (keys : List String) : TypeRef → Option TypeId → Prop
  | unspecified : Referred c keys .unspecified none
  | definition (t : TypeId) : Referred c keys (.definition t) (some t)
  | named {n : Name} {t? : Option TypeId} : Named c keys n t? → Referred c keys (.named n) t?

theorem Referred.mono {ref : TypeRef} {t? : Option TypeId} (h : Referred c keys ref t?)
    (hkeys : keys <+: keys') : Referred c keys' ref t? := by
  cases h with
  | unspecified => exact .unspecified
  | definition t => exact .definition t
  | named h => exact .named (h.mono hkeys)

/-- What is wrong with a reference to a type. -/
def typeFaults (c : Components) (referrer : Referrer) : TypeRef → List Fault
  | .named n => if c.knows n then [] else [.unknownType n referrer]
  | _ => []

/-- The built-in type that a reference calls for. -/
def calledBy (c : Components) : TypeRef → List String
  | .named n => c.called n
  | _ => []

/-! ### Steps of looking up -/

/-- What stays while components are looked up. -/
structure Frame (c₀ c : Components) : Prop where
  version : c.version = c₀.version
  limits : c.limits = c₀.limits
  target? : c.target? = c₀.target?
  locations : c.locations = c₀.locations
  globalElements : c.globalElements = c₀.globalElements
  globalTypes : c.globalTypes = c₀.globalTypes
  groups : c.groups = c₀.groups
  attributeGroups : c.attributeGroups = c₀.attributeGroups
  globalAttributes : c.globalAttributes = c₀.globalAttributes

/-- Components on the way: the types of the documents may have changed, and behind them stand the
built-in types that have been called for. -/
structure Midway (c₀ : Components) (T : Array TypeDef) (keys : List String) (c : Components) :
    Prop where
  frame : Frame c₀ c
  size : T.size = c₀.types.size
  types : c.types = T ++ (keys.map Builtin.definition).toArray
  builtins : ∀ k, c.builtins.lookup k = if k ∈ keys then some (c₀.builtinId keys k) else none
  nodup : keys.Nodup

/-- A step that only looks something up: what it finds, what it reports, and which built-in types
it calls for. -/
def Looks (c₀ : Components) {α : Type} (x : Building α) (found : List String → α → Prop)
    (faults : List Fault) (calls : List String) : Prop :=
  ∀ T keys c, Midway c₀ T keys c →
    Midway c₀ T (addAllNew keys calls) (x.run c).2 ∧ (x.run c).2.elements = c.elements ∧
      (x.run c).2.problems.toList = c.problems.toList ++ faults.map Fault.problem ∧
      found (addAllNew keys calls) (x.run c).1

namespace Looks

variable {α β : Type} {found : List String → α → Prop} {found' : List String → β → Prop}
  {faults faults' : List Fault} {calls calls' : List String}

theorem pure {a : α} (h : ∀ keys, found keys a) : Looks c₀ (pure a) found [] [] :=
  fun _ _ _ hc => ⟨hc, rfl, (List.append_nil _).symm, h _⟩

theorem bind {x : Building α} {f : α → Building β} (hx : Looks c₀ x found faults calls)
    (hmono : ∀ keys keys' a, keys <+: keys' → found keys a → found keys' a)
    (hf : ∀ keys a, found keys a →
      Looks c₀ (f a) (fun keys b => found keys a → found' keys b) faults' calls') :
    Looks c₀ (x >>= f) found' (faults ++ faults') (calls ++ calls') := by
  intro T keys c hc
  obtain ⟨hmidway, helements, hproblems, hfound⟩ := hx T keys c hc
  obtain ⟨hmidway', helements', hproblems', hfound'⟩ := hf _ _ hfound T _ _ hmidway
  rw [addAllNew_append]
  refine ⟨hmidway', helements'.trans helements, ?_, ?_⟩
  · rw [List.map_append, ← List.append_assoc, ← hproblems]
    exact hproblems'
  · exact hfound' (hmono _ _ _ (prefix_addAllNew _ _) hfound)

/-- A step that depends on what does not change. -/
theorem get_bind {f : Components → Building β}
    (hf : ∀ T keys c, Midway c₀ T keys c → Looks c₀ (f c) found' faults' calls') :
    Looks c₀ (get >>= f) found' faults' calls' :=
  fun T keys c hc => hf T keys c hc T keys c hc

theorem mono {x : Building α} (hx : Looks c₀ x found faults calls)
    {found' : List String → α → Prop} (h : ∀ keys a, found keys a → found' keys a) :
    Looks c₀ x found' faults calls := by
  intro T keys c hc
  obtain ⟨hmidway, helements, hproblems, hfound⟩ := hx T keys c hc
  exact ⟨hmidway, helements, hproblems, h _ _ hfound⟩

end Looks

theorem looks_report (f : Fault) : Looks c₀ (report f) (fun _ _ => True) [f] [] := by
  intro T keys c hc
  exact ⟨⟨{ hc.frame with }, hc.size, hc.types, hc.builtins, hc.nodup⟩, rfl, Array.toList_push,
    trivial⟩

theorem run_builtinType (k : String) (c : Components) :
    (builtinType k).run c = match c.builtins.lookup k with
      | some t => (t, c)
      | none => (⟨c.types.size⟩, { c with
          types := c.types.push (Builtin.definition k)
          builtins := (k, ⟨c.types.size⟩) :: c.builtins }) := by
  rw [builtinType, run_bind]
  change (match c.builtins.lookup k with | some t => _ | none => _ : Building TypeId).run c = _
  cases c.builtins.lookup k <;> rfl

theorem looks_builtinType (k : String) : Looks c₀ (builtinType k)
    (fun keys t => k ∈ keys ∧ t = c₀.builtinId keys k) [] [k] := by
  intro T keys c hc
  have hcalled : addAllNew keys [k] = addNew keys k := rfl
  have hsize : c.types.size = c₀.types.size + keys.length := by
    rw [hc.types, Array.size_append, hc.size]
    simp
  rw [hcalled, run_builtinType, hc.builtins]
  by_cases hk : k ∈ keys
  · rw [if_pos hk, addNew, if_pos hk]
    exact ⟨hc, rfl, (List.append_nil _).symm, hk, rfl⟩
  · have hindex : (keys ++ [k]).idxOf k = keys.length := by
      rw [List.idxOf_append_of_notMem hk]
      simp
    rw [if_neg hk, addNew, if_neg hk]
    refine ⟨⟨{ hc.frame with }, hc.size, ?_, fun k' => ?_, ?_⟩, rfl, (List.append_nil _).symm,
      List.mem_append_right _ (List.mem_singleton_self k), ?_⟩
    · dsimp only
      rw [hc.types]
      simp
    · dsimp only
      rw [List.lookup_cons, hc.builtins, hsize]
      by_cases hk' : k' = k
      · subst hk'
        rw [if_pos (List.mem_append_right _ (List.mem_singleton_self k')), beq_self_eq_true]
        dsimp only
        rw [builtinId, hindex]
      · rw [beq_false_of_ne hk']
        by_cases hmem : k' ∈ keys
        · rw [if_pos hmem, if_pos (List.mem_append_left _ hmem),
            builtinId_mono (List.prefix_append keys [k]) hmem]
        · rw [if_neg hmem, if_neg (by simp [hmem, hk'])]
    · exact List.concat_eq_append ▸ List.Nodup.concat hk hc.nodup
    · rw [builtinId, hindex, hsize]

theorem looks_typeNamed? (n : Name) :
    Looks c₀ (typeNamed? n) (fun keys t? => Named c₀ keys n t?) [] (c₀.called n) := by
  refine .get_bind fun T keys c hc => ?_
  rw [hc.frame.globalTypes, called, NameTable.has]
  cases hn : c₀.globalTypes.find? n with
  | some t => exact .pure fun keys => .global hn
  | none =>
    simp only [Option.isSome_none, Bool.false_eq_true, if_false]
    split
    · next hbuiltin =>
      have hfound : Looks c₀
          (builtinType n.localName >>= fun t => (pure (some t) : Building (Option TypeId)))
          (fun keys t? => Named c₀ keys n t?) [] [n.localName] :=
        (looks_builtinType n.localName).bind
          (fun keys keys' t h ht => ⟨h.subset ht.1, ht.2.trans (builtinId_mono h ht.1).symm⟩)
          fun keys t _ => .pure fun keys ht => ht.2 ▸ .builtin hn hbuiltin ht.1
      exact hfound
    · next hbuiltin => exact .pure fun keys => .unknown hn (Bool.not_eq_true _ ▸ hbuiltin)

theorem looks_typeOf? (ref : TypeRef) (referrer : Referrer) :
    Looks c₀ (typeOf? ref referrer) (fun keys t? => Referred c₀ keys ref t?)
      (c₀.typeFaults referrer ref) (c₀.calledBy ref) := by
  cases ref with
  | unspecified => exact .pure fun _ => .unspecified
  | definition t => exact .pure fun _ => .definition t
  | named n =>
    have hreport (t? : Option TypeId) (f : Fault) :
        Looks c₀ (report f >>= fun _ => (pure t? : Building (Option TypeId)))
          (fun _ t?' => t?' = t?) [f] [] :=
      (looks_report f).bind (fun _ _ _ _ h => h) fun _ _ _ => .pure fun _ _ => rfl
    have hlooks : Looks c₀ (typeOf? (.named n) referrer)
        (fun keys t? => Referred c₀ keys (.named n) t?)
        ([] ++ if c₀.knows n then [] else [.unknownType n referrer]) (c₀.called n ++ []) := by
      refine (looks_typeNamed? n).bind (fun _ _ _ hkeys h => h.mono hkeys) fun keys t? h => ?_
      rw [← Option.not_isSome, h.isSome]
      cases c₀.knows n with
      | true => exact .pure fun keys h => .named h
      | false => exact (hreport t? _).mono fun keys t?' heq h => heq ▸ .named h
    rwa [List.nil_append, List.append_nil] at hlooks

/-! ### Attributes -/

/-- A use that stands for itself, as far as its reference leads somewhere. -/
def dereferenced (c : Components) (a : AttributeUse) : AttributeUse :=
  match a.reference? with
  | none => a
  | some n =>
    match c.globalAttributes.find? n with
    | some declaration => a.declaredBy declaration
    | none => { a with reference? := none }

/-- What is wrong with the reference of a use. -/
def referenceFaults (c : Components) (a : AttributeUse) : List Fault :=
  match a.reference? with
  | none => []
  | some n => if c.globalAttributes.has n then [] else [.unknownAttribute n]

/-- What is wrong with a use and its type. -/
def useFaults (c : Components) (a : AttributeUse) : List Fault :=
  c.referenceFaults a ++
    c.typeFaults (.attribute (c.dereferenced a).name) (c.dereferenced a).typeRef

/-- A use that has been looked up. -/
def Used (c : Components) (keys : List String) (a a' : AttributeUse) : Prop :=
  ∃ t?, Referred c keys (c.dereferenced a).typeRef t? ∧ a' = { c.dereferenced a with type? := t? }

/-- The uses of a type that are to be looked up. -/
def usesToLookUp (c : Components) (own : List AttributeUse) (groups : List Name) :
    List AttributeUse := ownUses (c.usesOfGroups groups).1 own

/-- What is wrong with the uses of a type. -/
def usesFaults (c : Components) (own : List AttributeUse) (groups : List Name) : List Fault :=
  (c.usesOfGroups groups).2 ++ (c.usesToLookUp own groups).flatMap c.useFaults

/-- The built-in types that the uses of a type call for. -/
def calledByUses (c : Components) (own : List AttributeUse) (groups : List Name) : List String :=
  (c.usesToLookUp own groups).flatMap fun a => c.calledBy (c.dereferenced a).typeRef

theorem Used.mono {a a' : AttributeUse} (h : Used c keys a a') (hkeys : keys <+: keys') :
    Used c keys' a a' := by
  obtain ⟨t?, ht, rfl⟩ := h
  exact ⟨t?, ht.mono hkeys, rfl⟩

theorem looks_dereference (a : AttributeUse) : Looks c₀ (dereference a)
    (fun _ a' => a' = c₀.dereferenced a) (c₀.referenceFaults a) [] := by
  rw [dereference, dereferenced, referenceFaults]
  cases a.reference? with
  | none => exact .pure fun _ => rfl
  | some n =>
    refine .get_bind fun T keys c hc => ?_
    dsimp only
    rw [hc.frame.globalAttributes, NameTable.has]
    cases c₀.globalAttributes.find? n with
    | some declaration => exact .pure fun _ => rfl
    | none =>
      exact (looks_report _).bind (fun _ _ _ _ _ => trivial) fun _ _ _ => .pure fun _ _ => rfl

theorem looks_resolveUse (a : AttributeUse) : Looks c₀ (resolveUse a)
    (fun keys a' => Used c₀ keys a a') (c₀.useFaults a)
    (c₀.calledBy (c₀.dereferenced a).typeRef) := by
  have hlooks : Looks c₀ (resolveUse a) (fun keys a' => Used c₀ keys a a')
      (c₀.referenceFaults a ++ (c₀.typeFaults (.attribute (c₀.dereferenced a).name)
        (c₀.dereferenced a).typeRef ++ []))
      ([] ++ (c₀.calledBy (c₀.dereferenced a).typeRef ++ [])) := by
    refine (looks_dereference a).bind (fun _ _ _ _ h => h) fun _ a' ha => ?_
    subst ha
    refine (looks_typeOf? _ _).bind (fun _ _ _ hkeys h => h.mono hkeys) fun _ t? _ => ?_
    exact .pure fun keys h _ => ⟨t?, h, rfl⟩
  rwa [List.append_nil, List.append_nil, List.nil_append] at hlooks

theorem looks_forM_report (faults : List Fault) :
    Looks c₀ (faults.forM report) (fun _ _ => True) faults [] := by
  induction faults with
  | nil => exact .pure fun _ => trivial
  | cons f faults ih =>
    exact (looks_report f).bind (fun _ _ _ _ _ => trivial) fun _ _ _ =>
      ih.mono fun _ _ _ _ => trivial

theorem Looks.mapM {α β : Type} {as : List α} {f : α → Building β}
    {found : List String → α → β → Prop} {faults : α → List Fault} {calls : α → List String}
    (hmono : ∀ keys keys' a b, keys <+: keys' → found keys a b → found keys' a b)
    (h : ∀ a ∈ as, Looks c₀ (f a) (fun keys b => found keys a b) (faults a) (calls a)) :
    Looks c₀ (as.mapM f) (fun keys bs => List.Forall₂ (found keys) as bs) (as.flatMap faults)
      (as.flatMap calls) := by
  induction as with
  | nil => exact .pure fun _ => .nil
  | cons a as ih =>
    rw [List.forall_mem_cons] at h
    rw [List.mapM_cons, List.flatMap_cons, List.flatMap_cons]
    refine h.1.bind (fun keys keys' b => hmono keys keys' a b) fun _ b _ => ?_
    have hrest : Looks c₀ (as.mapM f >>= fun bs => (Pure.pure (b :: bs) : Building (List β)))
        (fun keys bs => found keys a b → List.Forall₂ (found keys) (a :: as) bs)
        (as.flatMap faults ++ []) (as.flatMap calls ++ []) :=
      (ih h.2).bind (fun keys keys' bs hkeys hbs => hbs.imp fun a b => hmono keys keys' a b hkeys)
        fun _ bs _ => .pure fun keys hbs hb => .cons hb hbs
    rwa [List.append_nil, List.append_nil] at hrest

theorem looks_resolveUses (own : List AttributeUse) (groups : List Name) :
    Looks c₀ (resolveUses own groups)
      (fun keys uses => List.Forall₂ (Used c₀ keys) (c₀.usesToLookUp own groups) uses)
      (c₀.usesFaults own groups) (c₀.calledByUses own groups) := by
  refine .get_bind fun T keys c hc => ?_
  have huses : c.usesOfGroups groups = c₀.usesOfGroups groups := by
    rw [usesOfGroups, usesOfGroups, hc.frame.attributeGroups]
  rw [huses]
  refine (looks_forM_report _).bind (fun _ _ _ _ _ => trivial) fun _ _ _ => ?_
  exact (Looks.mapM (fun _ _ _ _ hkeys h => h.mono hkeys)
    fun a _ => looks_resolveUse a).mono fun _ _ h _ => h

end Components
end SchemaAssist
