/-
# What a grammar is found by

Of the components that documents put together, a grammar is asked by the documents, the names of
the global elements and the names of the global types.  These, with the limits, are the catalog
(`Components.catalog`).  A step of construction may enter names into it (`Building.Enters`); most
steps leave it as it is (`Building.Keeps`).  The steps that look everything up are among these
(`Components.keeps_resolve`), so a grammar has the catalog of the components that it is built from
(`Components.exists_finish_of_build`).  None of these steps records that a document is left out, and
none turns to another target namespace.
-/

import SchemaAssist.Grammar.Build
import Mathlib

namespace SchemaAssist

/-- What a grammar under construction is found by: its limits, the documents so far, and the names
of the global elements and types. -/
@[ext]
structure Catalog where
  limits : Limits
  locations : Array Location
  elementNames : Set Name
  typeNames : Set Name

namespace Catalog

/-- The catalog with the names of more elements and types. -/
def enter (es ts : List Name) (c : Catalog) : Catalog :=
  { c with
    elementNames := c.elementNames ∪ {n | n ∈ es}
    typeNames := c.typeNames ∪ {n | n ∈ ts} }

theorem union_nil (s : Set Name) : s ∪ {n | n ∈ ([] : List Name)} = s := by simp

@[simp] theorem enter_nil (c : Catalog) : c.enter [] [] = c :=
  Catalog.ext rfl rfl (union_nil _) (union_nil _)

theorem enter_enter (es ts es' ts' : List Name) (c : Catalog) :
    (c.enter es ts).enter es' ts' = c.enter (es ++ es') (ts ++ ts') := by
  ext n <;> simp [enter, or_assoc]

end Catalog

namespace NameTable

variable {α : Type} {t : NameTable α} {n : Name}

/-- The names that have an entry. -/
def domain (t : NameTable α) : Set Name := {n | t.has n = true}

@[simp] theorem mem_domain : n ∈ t.domain ↔ t.has n = true := Iff.rfl

theorem domain_of_has (h : t.has n = true) : t.domain ∪ {m | m ∈ [n]} = t.domain := by
  ext m
  simp only [Set.mem_union, Set.mem_ofPred_eq, List.mem_singleton, or_iff_left_iff_imp]
  rintro rfl
  exact h

theorem domain_add (h : t.has n = false) (a : α) :
    (t.add n a).domain = t.domain ∪ {m | m ∈ [n]} := by
  ext m
  rw [mem_domain, has, find?_add h]
  split
  · simp [*]
  · simp [*, has]

end NameTable

/-- The catalog of the components so far. -/
def Components.catalog (c : Components) : Catalog where
  limits := c.limits
  locations := c.locations
  elementNames := c.globalElements.domain
  typeNames := c.globalTypes.domain

/-- Whether a fault says that a document is left out. -/
def Fault.isLoading : Fault → Bool
  | .notLoaded _ => true
  | _ => false

/-- The problems that say that a document is left out. -/
def Components.leftOut (c : Components) : List Problem :=
  c.problems.toList.filter (·.fault.isLoading)

namespace Building

variable {α β : Type} {es ts es' ts' : List Name}

/-- What becomes of components when the names of some elements and types are entered: the catalog is
the same otherwise, no document is recorded as left out, and the target namespace stays. -/
structure Change (es ts : List Name) (c c' : Components) : Prop where
  catalog : c'.catalog = c.catalog.enter es ts
  leftOut : c'.leftOut = c.leftOut
  target : c'.target? = c.target?

theorem Change.locations {c c' : Components} (h : Change es ts c c') : c'.locations = c.locations :=
  congrArg Catalog.locations h.catalog

theorem Change.trans {c c' c'' : Components} (h : Change es ts c c') (h' : Change es' ts' c' c'') :
    Change (es ++ es') (ts ++ ts') c c'' where
  catalog := by rw [h'.catalog, h.catalog, Catalog.enter_enter]
  leftOut := h'.leftOut.trans h.leftOut
  target := h'.target.trans h.target

/-- A step that enters the names of some elements and types, and leaves the catalog as it is
otherwise. -/
def Enters (es ts : List Name) (x : Building α) : Prop := ∀ c, Change es ts c (x.run c).2

/-- A step that leaves the catalog as it is. -/
abbrev Keeps (x : Building α) : Prop := Enters [] [] x

theorem Change.of_eq {c c' : Components} (hcatalog : c'.catalog = c.catalog)
    (hleftOut : c'.leftOut = c.leftOut) (htarget : c'.target? = c.target?) : Change [] [] c c' :=
  ⟨hcatalog.trans (Catalog.enter_nil _).symm, hleftOut, htarget⟩

theorem Enters.pure (a : α) : Keeps (pure a) := fun _ => .of_eq rfl rfl rfl

theorem Enters.bind {x : Building α} {f : α → Building β} (hx : Enters es ts x)
    (hf : ∀ a, Enters es' ts' (f a)) : Enters (es ++ es') (ts ++ ts') (x >>= f) := fun c =>
  (hx c).trans (hf _ _)

theorem Enters.bind_keeps {x : Building α} {f : α → Building β} (hx : Enters es ts x)
    (hf : ∀ a, Keeps (f a)) : Enters es ts (x >>= f) := by
  simpa using hx.bind hf

theorem Keeps.bind {x : Building α} {f : α → Building β} (hx : Keeps x)
    (hf : ∀ a, Enters es ts (f a)) : Enters es ts (x >>= f) := Enters.bind hx hf

theorem Enters.forM {as : List α} {f : α → Building PUnit} {es ts : α → List Name}
    (h : ∀ a ∈ as, Enters (es a) (ts a) (f a)) :
    Enters (as.flatMap es) (as.flatMap ts) (as.forM f) := by
  induction as with
  | nil => exact .pure _
  | cons a as ih =>
    rw [List.forall_mem_cons] at h
    exact h.1.bind fun _ => ih h.2

theorem Keeps.forM {as : List α} {f : α → Building PUnit} (h : ∀ a ∈ as, Keeps (f a)) :
    Keeps (as.forM f) := by
  have hnone : as.flatMap (fun _ => ([] : List Name)) = [] := by simp
  have hall : Enters (as.flatMap fun _ => []) (as.flatMap fun _ => []) (as.forM f) := Enters.forM h
  rwa [hnone] at hall

theorem Keeps.mapM {as : List α} {f : α → Building β} (h : ∀ a ∈ as, Keeps (f a)) :
    Keeps (as.mapM f) := by
  induction as with
  | nil => exact .pure _
  | cons a as ih =>
    rw [List.forall_mem_cons] at h
    rw [List.mapM_cons]
    exact h.1.bind fun _ => (ih h.2).bind fun _ => .pure _

theorem Keeps.findSomeM? {as : List α} {f : α → Building (Option β)} (h : ∀ a ∈ as, Keeps (f a)) :
    Keeps (as.findSomeM? f) := by
  induction as with
  | nil => exact .pure _
  | cons a as ih =>
    rw [List.forall_mem_cons] at h
    refine h.1.bind fun b? => ?_
    cases b? with
    | none => exact ih h.2
    | some b => exact .pure _

/-- A step that is taken only in some cases. -/
theorem Enters.guarded {p : Prop} [Decidable p] {x : Building PUnit} {f : PUnit → Building β}
    (hx : Keeps x) (hf : Enters es ts (f ⟨⟩)) : Enters es ts (if p then x >>= f else f ⟨⟩) := by
  split
  · exact hx.bind fun _ => hf
  · exact hf

/-- A step whose result is the same for all components. -/
def Returns (a : α) (x : Building α) : Prop := ∀ c, (x.run c).1 = a

theorem Returns.pure (a : α) : Returns a (pure a) := fun _ => rfl

theorem Returns.bind {b : β} {x : Building α} {f : α → Building β} (hf : ∀ a, Returns b (f a)) :
    Returns b (x >>= f) := fun _ => hf _ _

theorem Returns.guarded {b : β} {p : Prop} [Decidable p] {x : Building PUnit}
    {f : PUnit → Building β} (hf : Returns b (f ⟨⟩)) : Returns b (if p then x >>= f else f ⟨⟩) := by
  split
  · exact .bind fun _ => hf
  · exact hf

end Building

namespace Components

open Building

theorem keeps_get : Keeps (get : Building Components) := fun _ => .of_eq rfl rfl rfl

/-- Problems that do not say that a document is left out may be recorded. -/
theorem leftOut_append {c c' : Components} {ps : List Problem}
    (h : c'.problems.toList = c.problems.toList ++ ps)
    (hps : ∀ p ∈ ps, p.fault.isLoading = false) : c'.leftOut = c.leftOut := by
  have hnone : ps.filter (·.fault.isLoading) = [] :=
    List.filter_eq_nil_iff.2 fun p hp => by simp [hps p hp]
  rw [leftOut, h, List.filter_append, hnone, List.append_nil, leftOut]

theorem keeps_record {p : Problem} (hp : p.fault.isLoading = false) : Keeps (record p) := fun _ =>
  .of_eq rfl (leftOut_append Array.toList_push (by simpa using hp)) rfl

theorem keeps_report {f : Fault} (hf : f.isLoading = false) : Keeps (report f) := keeps_record hf

theorem keeps_requireLater : Keeps requireLater := fun _ => .of_eq rfl rfl rfl

theorem keeps_addElement (e : ElementDecl) : Keeps (addElement e) := fun _ => .of_eq rfl rfl rfl

theorem keeps_addType (t : TypeDef) : Keeps (addType t) := fun _ => .of_eq rfl rfl rfl

theorem keeps_enterGroup (n : Name) (g : ModelGroup) : Keeps (enterGroup n g) :=
  fun _ => .of_eq rfl rfl rfl

theorem keeps_enterAttributeGroup (n : Name) (g : AttributeGroup) :
    Keeps (enterAttributeGroup n g) := fun _ => .of_eq rfl rfl rfl

theorem keeps_enterAttribute (a : AttributeUse) : Keeps (enterAttribute a) :=
  fun _ => .of_eq rfl rfl rfl

/-- A global element is found afterwards, whether it was there or not. -/
theorem enters_enterElement (n : Name) (d : ElementId) : Enters [n] [] (enterElement n d) := by
  intro c
  change Change [n] [] c ((if c.globalElements.has n then report (.duplicateElement n)
    else set { c with globalElements := c.globalElements.add n d } : Building Unit).run c).2
  cases h : c.globalElements.has n with
  | true =>
    rw [if_pos rfl]
    obtain ⟨hcatalog, hleftOut, htarget⟩ := keeps_report (f := .duplicateElement n) rfl c
    refine ⟨hcatalog.trans (Catalog.ext rfl rfl ?_ rfl), hleftOut, htarget⟩
    exact (Catalog.union_nil _).trans (NameTable.domain_of_has h).symm
  | false =>
    rw [if_neg Bool.false_ne_true]
    exact ⟨Catalog.ext rfl rfl (NameTable.domain_add h d) (Catalog.union_nil _).symm, rfl, rfl⟩

/-- A global type is found afterwards, whether it was there or not. -/
theorem enters_enterType (n : Name) (t : TypeId) : Enters [] [n] (enterType n t) := by
  intro c
  change Change [] [n] c ((if c.globalTypes.has n then report (.duplicateType n)
    else set { c with globalTypes := c.globalTypes.add n t } : Building Unit).run c).2
  cases h : c.globalTypes.has n with
  | true =>
    rw [if_pos rfl]
    obtain ⟨hcatalog, hleftOut, htarget⟩ := keeps_report (f := .duplicateType n) rfl c
    refine ⟨hcatalog.trans (Catalog.ext rfl rfl rfl ?_), hleftOut, htarget⟩
    exact (Catalog.union_nil _).trans (NameTable.domain_of_has h).symm
  | false =>
    rw [if_neg Bool.false_ne_true]
    exact ⟨Catalog.ext rfl rfl (Catalog.union_nil _).symm (NameTable.domain_add h t), rfl, rfl⟩

end Components

/-! ### Looking everything up -/

namespace Components

open Building

theorem keeps_builtinType (localName : String) : Keeps (builtinType localName) := by
  refine keeps_get.bind fun c => ?_
  split
  · exact .pure _
  · exact (keeps_addType _).bind fun _ => Keeps.bind (fun _ => .of_eq rfl rfl rfl) fun _ => .pure _

theorem keeps_typeNamed? (n : Name) : Keeps (typeNamed? n) := by
  refine keeps_get.bind fun c => ?_
  split
  · exact .pure _
  · split
    · exact (keeps_builtinType _).bind fun _ => .pure _
    · exact .pure _

theorem keeps_typeOf? (ref : TypeRef) (referrer : Referrer) : Keeps (typeOf? ref referrer) := by
  cases ref with
  | unspecified => exact .pure _
  | definition t => exact .pure _
  | named n => exact (keeps_typeNamed? n).bind fun _ => .guarded (keeps_report rfl) (.pure _)

theorem keeps_type? (t : TypeId) : Keeps (type? t) := keeps_get.bind fun _ => .pure _

theorem keeps_setType (t : TypeId) (d : TypeDef) : Keeps (setType t d) := fun _ => .of_eq rfl rfl rfl

theorem keeps_resolveBase (t : TypeId) : Keeps (resolveBase t) := by
  refine (keeps_type? t).bind fun d => ?_
  split
  · split
    · exact (keeps_typeOf? _ _).bind fun _ => keeps_setType t _
    · exact .pure _
  · exact .pure _

theorem keeps_resolveBases : Keeps resolveBases :=
  keeps_get.bind fun _ => Keeps.forM fun _ _ => keeps_resolveBase _

theorem keeps_dereference (a : AttributeUse) : Keeps (dereference a) := by
  rw [dereference]
  split
  · exact .pure _
  · refine keeps_get.bind fun c => ?_
    split
    · exact .pure _
    · exact (keeps_report rfl).bind fun _ => .pure _

/-- What is wrong with references to groups of attributes leaves out no document. -/
theorem isLoading_of_mem_groupUses {groups : NameTable AttributeGroup} {room : Nat}
    {around refs : List Name} {f : Fault} (hf : f ∈ (groupUses groups room around refs).2) :
    f.isLoading = false := by
  induction room generalizing around refs f with
  | zero => cases hf
  | succ room ih =>
    rw [groupUses] at hf
    refine List.foldlRecOn (motive := fun r : List AttributeUse × List Fault =>
      ∀ f ∈ r.2, f.isLoading = false) refs _ (fun f hf => absurd hf List.not_mem_nil) ?_ f hf
    intro found hfound n _ f hf
    dsimp only at hf
    split at hf
    · rcases List.mem_append.1 hf with hf | hf
      · exact hfound f hf
      · cases List.mem_singleton.1 hf
        rfl
    · split at hf
      · rcases List.mem_append.1 hf with hf | hf
        · exact hfound f hf
        · cases List.mem_singleton.1 hf
          rfl
      · rcases List.mem_append.1 hf with hf | hf
        · exact hfound f hf
        · exact ih hf

theorem keeps_resolveUses (own : List AttributeUse) (groups : List Name) :
    Keeps (resolveUses own groups) := by
  have hresolveUse (a : AttributeUse) : Keeps (resolveUse a) :=
    (keeps_dereference a).bind fun a => (keeps_typeOf? _ _).bind fun _ => .pure _
  refine keeps_get.bind fun c => ?_
  have hfaults : ∀ f ∈ (c.usesOfGroups groups).2, Keeps (report f) := fun f hf =>
    keeps_report (isLoading_of_mem_groupUses hf)
  exact (Keeps.forM hfaults).bind fun _ => Keeps.mapM fun a _ => hresolveUse a

/-- What is wrong with references inside model groups leaves out no document. -/
theorem isLoading_of_mem_expandParticles {c : Components} {room : Nat} {around : List Name}
    {ps : List Particle} {f : Fault} (hf : f ∈ (c.expandParticles room around ps).2) :
    f.isLoading = false := by
  induction room generalizing around ps with
  | zero =>
    rw [expandParticles] at hf
    cases List.mem_singleton.1 hf
    rfl
  | succ room ih =>
    rw [expandParticles] at hf
    obtain ⟨r, hr, hf⟩ := List.mem_flatMap.1 hf
    obtain ⟨p, -, rfl⟩ := List.mem_map.1 hr
    split at hf
    · split at hf
      · cases hf
      · cases List.mem_singleton.1 hf
        rfl
    · split at hf
      · cases List.mem_singleton.1 hf
        rfl
      · split at hf
        · exact ih hf
        · cases List.mem_singleton.1 hf
          rfl
    · exact ih hf
    · cases hf

theorem isLoading_of_mem_expandType {c : Components} {d : TypeDef} {f : Fault}
    (hf : f ∈ (c.expandType d).2) : f.isLoading = false := by
  rw [expandType.eq_def] at hf
  split at hf
  · split at hf
    · exact isLoading_of_mem_expandParticles hf
    · cases hf
  · cases hf

theorem keeps_expandTypes : Keeps expandTypes := by
  intro c
  refine .of_eq rfl (leftOut_append (Array.toList_appendList ..) fun p hp => ?_) rfl
  obtain ⟨f, hf, rfl⟩ := List.mem_map.1 hp
  obtain ⟨r, hr, hf⟩ := List.mem_flatMap.1 hf
  obtain ⟨d, -, rfl⟩ := Array.mem_map.1 (Array.mem_toList_iff.1 hr)
  exact isLoading_of_mem_expandType hf

/-- A step of derivation that leaves the catalog as it is. -/
def Deriving.Keeps {α : Type} (x : Deriving α) : Prop := ∀ done, Building.Keeps (x.run done)

namespace Deriving.Keeps

variable {α β : Type}

theorem pure (a : α) : Deriving.Keeps (pure a) := fun _ => .pure _

theorem bind {x : Deriving α} {f : α → Deriving β} (hx : Deriving.Keeps x)
    (hf : ∀ a, Deriving.Keeps (f a)) : Deriving.Keeps (x >>= f) :=
  fun done => (hx done).bind fun r => hf r.1 r.2

theorem lift {x : Building α} (h : Building.Keeps x) : Deriving.Keeps (liftM x) :=
  fun done => h.bind fun a => .pure (a, done)

theorem forM {as : List α} {f : α → Deriving PUnit} (h : ∀ a ∈ as, Deriving.Keeps (f a)) :
    Deriving.Keeps (as.forM f) := by
  induction as with
  | nil => exact pure _
  | cons a as ih =>
    rw [List.forall_mem_cons] at h
    exact h.1.bind fun _ => ih h.2

end Deriving.Keeps

theorem keeps_derive (room : Nat) (path : List TypeId) (t : TypeId) :
    Deriving.Keeps (derive room path t) := by
  induction room generalizing path t with
  | zero => exact .pure _
  | succ room ih =>
    have hdone : Deriving.Keeps (getThe (List TypeId)) := fun _ => .pure _
    have hmark : Deriving.Keeps (modifyThe (List TypeId) (t :: ·)) := fun _ => .pure _
    rw [derive]
    refine hdone.bind fun done => ?_
    split
    · exact .pure _
    · refine (Deriving.Keeps.lift (keeps_type? t)).bind fun d => ?_
      split
      · split
        · exact .lift (keeps_report rfl)
        · refine (Deriving.Keeps.lift (keeps_resolveUses _ _)).bind fun attributes => ?_
          extract_lets ct store
          have hstore (ct : ComplexType) : Deriving.Keeps (store ct) :=
            (Deriving.Keeps.lift (keeps_setType _ _)).bind fun _ => hmark
          have hpure (ct : ComplexType) : Deriving.Keeps (pure ct >>= store) :=
            (Deriving.Keeps.pure ct).bind hstore
          split
          · exact hpure _
          · refine (Deriving.Keeps.lift (keeps_typeNamed? _)).bind fun b? => ?_
            split
            · exact (Deriving.Keeps.lift (keeps_report rfl)).bind fun _ => hpure _
            · split
              · exact (Deriving.Keeps.lift (keeps_report rfl)).bind fun _ => hpure _
              · refine (ih _ _).bind fun _ => (Deriving.Keeps.lift (keeps_type? _)).bind fun d? => ?_
                split
                · exact (Deriving.Keeps.lift keeps_get).bind fun _ => hpure _
                · exact hpure _
      · exact hmark

theorem keeps_deriveTypes : Keeps deriveTypes :=
  keeps_get.bind fun _ => (Deriving.Keeps.forM (fun _ _ => keeps_derive _ _ _) []).bind fun _ => .pure _

theorem keeps_elementType? (room : Nat) (path : List ElementId) (d : ElementId) :
    Keeps (elementType? room path d) := by
  induction room generalizing path d with
  | zero => exact .pure _
  | succ room ih =>
    rw [elementType?]
    refine Keeps.bind (keeps_get.bind fun _ => .pure _) fun e? => ?_
    split
    · exact .pure _
    · split
      · exact .pure _
      · split
        · exact .pure _
        · extract_lets settle choose
          have hsettle (t : TypeId) : Keeps (settle t) :=
            Keeps.bind (fun _ => .of_eq rfl rfl rfl) fun _ => .pure _
          have hchoose (found? : Option TypeId) : Keeps (choose found?) := by
            cases found? with
            | none => exact (keeps_builtinType _).bind hsettle
            | some t => exact Keeps.bind (.pure t) hsettle
          split
          · exact keeps_get.bind fun _ => (Keeps.findSomeM? fun _ _ => ih _ _).bind hchoose
          · exact (keeps_typeOf? _ _).bind hchoose

theorem keeps_typeElements : Keeps typeElements :=
  keeps_get.bind fun _ => Keeps.forM fun _ _ => (keeps_elementType? _ _ _).bind fun _ => .pure _

theorem isLoading_of_mem_headFaults {c : Components} {f : Fault} (hf : f ∈ c.headFaults) :
    f.isLoading = false := by
  obtain ⟨e, -, hf⟩ := List.mem_flatMap.1 hf
  obtain ⟨head, -, rfl⟩ := List.mem_map.1 hf
  rfl

theorem keeps_resolve : Keeps resolve :=
  keeps_expandTypes.bind fun _ => keeps_resolveBases.bind fun _ => keeps_deriveTypes.bind fun _ =>
    keeps_typeElements.bind fun _ => Keeps.bind (fun _ => .of_eq rfl rfl rfl) fun _ =>
      keeps_get.bind fun _ => Keeps.forM fun _ hf => keeps_report (isLoading_of_mem_headFaults hf)

/-- A grammar that is built is that of components whose references have been looked up, which leaves
the catalog as it is. -/
theorem exists_finish_of_build {c : Components} {g : Grammar} (hg : c.build = .ok g) :
    ∃ c' : Components, Change [] [] c c' ∧ g = c'.finish := by
  rw [build] at hg
  split at hg
  · cases hg
  · exact ⟨_, keeps_resolve c, (Except.ok.inj hg).symm⟩

end Components
end SchemaAssist
