/-
# What documents enter

Reading a declaration numbers what is inside it and reports what is wrong with it; neither shows in
the catalog.  So a document enters the names of the elements and types declared at its top, and
nothing else (`enters_readRoot`), and what it refers to is the same whatever has been read before it
(`returns_readRoot`).
-/

import SchemaAssist.Proofs.Catalog
import SchemaAssist.Schema.Document

namespace SchemaAssist

namespace Schema

open Markup (Tag Node)
open Building (Enters)

namespace Reading

variable {α β : Type}

/-- A step of reading that leaves the catalog as it is. -/
def Keeps (x : Reading α) : Prop := ∀ s, Building.Keeps (x.run s)

namespace Keeps

theorem pure (a : α) : Keeps (pure a) := fun _ => .pure a

theorem read : Keeps (read : Reading Source) := fun s => .pure s

theorem lift {x : Building α} (h : Building.Keeps x) : Keeps (liftM x) := fun _ => h

theorem bind {x : Reading α} {f : α → Reading β} (hx : Keeps x) (hf : ∀ a, Keeps (f a)) :
    Keeps (x >>= f) := fun s => (hx s).bind fun a => hf a s

/-- A value that is put together from what a step reads. -/
theorem map {x : Reading α} (hx : Keeps x) (f : α → β) : Keeps (x >>= fun a => Pure.pure (f a)) :=
  hx.bind fun a => pure (f a)

theorem mapM {as : List α} {f : α → Reading β} (h : ∀ a ∈ as, Keeps (f a)) :
    Keeps (as.mapM f) := by
  induction as with
  | nil => exact pure _
  | cons a as ih =>
    rw [List.forall_mem_cons] at h
    rw [List.mapM_cons]
    exact h.1.bind fun _ => (ih h.2).map _

theorem foldlM {as : List α} {f : β → α → Reading β} (h : ∀ b, ∀ a ∈ as, Keeps (f b a)) (b : β) :
    Keeps (as.foldlM f b) := by
  induction as generalizing b with
  | nil => exact pure b
  | cons a as ih =>
    rw [List.foldlM_cons]
    exact (h b a List.mem_cons_self).bind fun b =>
      ih (fun b a ha => h b a (List.mem_cons_of_mem _ ha)) b

end Keeps
end Reading

open Reading (Keeps)

/-! ### Tags -/

theorem keeps_report (t : Tag) {f : Fault} (hf : f.isLoading = false) : Keeps (report t f) :=
  Keeps.read.bind fun _ _ => Components.keeps_record hf

/-- A value that is no name leaves out no document. -/
theorem isLoading_of_reference {s : Source} {scope : Scope} {value : String} {f : Fault}
    (h : s.reference scope value = .error f) : f.isLoading = false := by
  rw [Source.reference] at h
  split at h
  · cases h
    rfl
  · split at h <;> cases h
    rfl
  · split at h <;> cases h
    rfl

theorem keeps_reference? (t : Tag) (value : String) : Keeps (reference? t value) :=
  Keeps.read.bind fun s => by
    split
    · exact .pure _
    · next h => exact (keeps_report t (isLoading_of_reference h)).map _

theorem keeps_attributeReference? (t : Tag) (key : String) : Keeps (attributeReference? t key) := by
  rw [attributeReference?]
  split
  · exact keeps_reference? t _
  · exact .pure _

theorem keeps_references (t : Tag) (value : String) : Keeps (references t value) :=
  (Keeps.mapM fun w _ => keeps_reference? t w).map _

theorem keeps_occurs (t : Tag) : Keeps (occurs t) := by
  rw [occurs]
  split
  · exact .pure _
  · exact (keeps_report t rfl).map _

theorem keeps_wildcard (t : Tag) : Keeps (wildcard t) := by
  refine (keeps_occurs t).bind fun o => Keeps.read.bind fun s => ?_
  extract_lets target? spaces
  clear_value spaces
  cases spaces with
  | ok spaces => exact .pure _
  | error e => exact (keeps_report t rfl).map _

theorem keeps_groupRef? (t : Tag) : Keeps (groupRef? t) :=
  (keeps_occurs t).bind fun o => (keeps_attributeReference? t "ref").bind fun n => by
    split
    · exact .pure _
    · exact (keeps_report t rfl).map _

/-! ### Simple types -/

theorem keeps_addSimpleType (st : SimpleType) : Keeps (addSimpleType st) :=
  (Keeps.lift (Components.keeps_addType _)).map _

theorem keeps_namedType {inside : Reading TypeRef} (hinside : Keeps inside) (t : Tag)
    (key : String) : Keeps (namedType t key inside) :=
  (keeps_attributeReference? t key).bind fun n => by
    split
    · exact .pure _
    · exact hinside

mutual

theorem keeps_simpleType? : (n : Node) → Keeps (simpleType? n)
  | .text _ => by
    rw [simpleType?]
    exact .pure _
  | .element t cs => by
    rw [simpleType?]
    split
    · exact (keeps_simpleParts _ cs).bind fun st => (keeps_addSimpleType st).map _
    · exact .pure _

theorem keeps_simpleParts (st : SimpleType) : (ns : List Node) → Keeps (simpleParts st ns)
  | [] => by
    rw [simpleParts]
    exact .pure st
  | .text _ :: rest => by
    rw [simpleParts]
    exact keeps_simpleParts st rest
  | .element t cs :: rest => by
    have hnamed (key : String) : Keeps (namedType t key (inlineSimpleType cs)) :=
      keeps_namedType (keeps_inlineSimpleType cs) t key
    have hrest (st : SimpleType) : Keeps (pure st >>= fun st => simpleParts st rest) :=
      (Keeps.pure st).bind fun st => keeps_simpleParts st rest
    rw [simpleParts]
    split
    · exact (hnamed _).bind fun _ => hrest _
    · exact (hnamed _).bind fun _ => hrest _
    · exact (keeps_references t _).bind fun _ => (keeps_memberTypes cs).bind fun _ =>
        hrest _
    · exact hrest st

theorem keeps_inlineSimpleType : (ns : List Node) → Keeps (inlineSimpleType ns)
  | [] => by
    rw [inlineSimpleType]
    exact .pure _
  | n :: rest => by
    rw [inlineSimpleType]
    refine (keeps_simpleType? n).bind fun t => ?_
    split
    · exact .pure _
    · exact keeps_inlineSimpleType rest

theorem keeps_memberTypes : (ns : List Node) → Keeps (memberTypes ns)
  | [] => by
    rw [memberTypes]
    exact .pure _
  | n :: rest => by
    rw [memberTypes]
    exact (keeps_simpleType? n).bind fun _ => (keeps_memberTypes rest).map _

end


/-! ### Elements, attributes and complex types -/

theorem keeps_declaredName (t : Tag) (scoping : Scoping) (default : Form) (written : String) :
    Keeps (declaredName t scoping default written) := Keeps.read.map _

theorem keeps_attribute? (scoping : Scoping) (t : Tag) (cs : List Node) {inside : Reading TypeRef}
    (hinside : Keeps inside) : Keeps (attribute? scoping t cs inside) := by
  rw [attribute?]
  split
  · exact (keeps_attributeReference? t _).bind fun _ => (Keeps.pure _).map _
  · split
    · exact (keeps_report t rfl).bind fun _ => (Keeps.pure _).map _
    · exact Keeps.read.bind fun _ => (keeps_declaredName _ _ _ _).bind fun _ =>
        (keeps_namedType hinside _ _).bind fun _ => (Keeps.pure _).map _

/-- The name of what a tag at the top of a document declares, if the tag gives one. -/
def givenName? (target? : Option String) (t : Tag) : Option Name :=
  (t.attribute? "name").map fun written => ⟨target?.getD "", Text.trim written⟩

/-- An element declared inside a type enters nothing. -/
theorem keeps_elementDecl? (t : Tag) (cs : List Node) {inside : Reading TypeRef}
    (hinside : Keeps inside) : Keeps (elementDecl? .local t cs inside) := by
  rw [elementDecl?]
  split
  · exact (keeps_report t rfl).map _
  · refine Keeps.read.bind fun s => (keeps_declaredName _ _ _ _).bind fun _ =>
      (keeps_namedType hinside _ _).bind fun _ => (keeps_references t _).bind fun _ => ?_
    have hdecl (e : ElementDecl) : Keeps (liftM (Components.addElement e) >>= fun d => pure (some d)) :=
      (Keeps.lift (Components.keeps_addElement e)).map _
    extract_lets declare
    split
    · exact (Keeps.lift Components.keeps_requireLater).bind fun _ => hdecl _
    · exact hdecl _

/-- An element declared at the top of a document enters its name. -/
theorem enters_elementDecl? (t : Tag) (cs : List Node) {inside : Reading TypeRef}
    (hinside : Keeps inside) (s : Source) :
    Enters (givenName? s.target? t).toList [] ((elementDecl? .global t cs inside).run s) := by
  rw [elementDecl?, givenName?]
  cases hname : t.attribute? "name" with
  | none => exact (keeps_report t rfl).map _ s
  | some written =>
    have hdeclared : (declaredName t .global s.elementForm written).run s =
      pure (s.globalName (Text.trim written)) := rfl
    have hread : (read : Reading Source).run s = pure s := rfl
    have hdecl (e : ElementDecl) : Enters [s.globalName (Text.trim written)] []
        (ReaderT.run (do
          let d ← liftM (Components.addElement e)
          liftM (Components.enterElement (s.globalName (Text.trim written)) d)
          pure (some d) : Reading (Option ElementId)) s) :=
      (Components.keeps_addElement e).bind fun d =>
        (Components.enters_enterElement _ d).bind_keeps fun _ => .pure (some d)
    simp only [ReaderT.run_bind, hread, pure_bind, hdeclared, ↓reduceIte]
    refine (keeps_namedType hinside _ _ s).bind fun _ => (keeps_references t _ s).bind fun _ => ?_
    split
    · exact Components.keeps_requireLater.bind fun _ => hdecl _
    · exact hdecl _

theorem keeps_elementParticle? (t : Tag) (cs : List Node) {inside : Reading TypeRef}
    (hinside : Keeps inside) : Keeps (elementParticle? t cs inside) := by
  refine (keeps_occurs t).bind fun o => ?_
  split
  · exact (keeps_attributeReference? t _).map _
  · exact (keeps_elementDecl? t cs hinside).map _

theorem keeps_addPart (ct : ComplexType) (t : Tag) (cs : List Node)
    {inside : Compositor → Reading (List Particle)} {insideType : Reading TypeRef}
    (hinside : ∀ c, Keeps (inside c)) (hinsideType : Keeps insideType) :
    Keeps (addPart ct t cs inside insideType) := by
  rw [addPart]
  split
  · exact (keeps_occurs t).bind fun _ => (hinside _).map _
  · refine (keeps_groupRef? t).bind fun p => ?_
    split
    · exact .pure _
    · exact .pure _
  · exact (keeps_attribute? _ t cs hinsideType).map _
  · exact (keeps_attributeReference? t _).map _
  · exact .pure _

theorem keeps_simpleType (name? : Option Name) (cs : List Node) : Keeps (simpleType name? cs) :=
  (keeps_simpleParts _ cs).bind fun st => keeps_addSimpleType st

theorem keeps_addRestricted {inside : Reading TypeRef} (hinside : Keeps inside) (d : Derived) :
    Keeps (addRestricted inside d) := by
  cases d with
  | simple method st? => exact hinside.map _
  | complex => exact .pure _

theorem keeps_finishDerivation (ct : ComplexType) (base? : Option Name) (d : Derived) :
    Keeps (finishDerivation ct base? d) := by
  rw [finishDerivation.eq_def]
  split
  · exact (Keeps.lift (Components.keeps_addType _)).map _
  · exact .pure _

mutual

theorem keeps_particle? (c : Compositor) : (n : Node) → Keeps (particle? c n)
  | .text _ => by
    rw [particle?]
    exact .pure _
  | .element t cs => by
    rw [particle?]
    split
    · exact (keeps_occurs t).bind fun _ => (keeps_particles _ cs).map _
    · exact keeps_elementParticle? t cs (keeps_inlineType cs)
    · exact (keeps_wildcard t).map _
    · exact keeps_groupRef? t
    · exact .pure _
    · exact .pure _
    · exact (keeps_report t rfl).map _

theorem keeps_particles (c : Compositor) : (ns : List Node) → Keeps (particles c ns)
  | [] => by
    rw [particles]
    exact .pure _
  | n :: rest => by
    rw [particles]
    exact (keeps_particle? c n).bind fun _ => (keeps_particles c rest).map _

theorem keeps_inlineType : (ns : List Node) → Keeps (inlineType ns)
  | [] => by
    rw [inlineType]
    exact .pure _
  | .text _ :: rest => by
    rw [inlineType]
    exact keeps_inlineType rest
  | .element t cs :: rest => by
    rw [inlineType]
    split
    · exact (keeps_complexParts _ cs).bind fun _ =>
        (Keeps.lift (Components.keeps_addType _)).map _
    · exact keeps_simpleType none cs
    · exact keeps_inlineType rest

theorem keeps_complexParts (ct : ComplexType) : (ns : List Node) → Keeps (complexParts ct ns)
  | [] => by
    rw [complexParts]
    exact .pure _
  | .text _ :: rest => by
    rw [complexParts]
    exact keeps_complexParts ct rest
  | .element t cs :: rest => by
    rw [complexParts]
    split
    · exact (keeps_derivation t _ _ cs).bind fun ct => keeps_complexParts ct rest
    · exact (keeps_derivation t _ _ cs).bind fun ct => keeps_complexParts ct rest
    · exact (keeps_addPart ct t cs (fun c => keeps_particles c cs) (keeps_inlineType cs)).bind
        fun ct => keeps_complexParts ct rest

theorem keeps_derivation (outer : Tag) (ct : ComplexType) (kindOf : Derivation → Derived) :
    (ns : List Node) → Keeps (derivation outer ct kindOf ns)
  | [] => by
    rw [derivation]
    exact (keeps_report outer rfl).map _
  | .text _ :: rest => by
    rw [derivation]
    exact keeps_derivation outer ct kindOf rest
  | .element t cs :: rest => by
    rw [derivation]
    split
    · exact (keeps_attributeReference? t _).bind fun base? =>
        (keeps_derivationParts _ _ cs).bind fun (ct, d) => keeps_finishDerivation ct base? d
    · exact keeps_derivation outer ct kindOf rest

theorem keeps_derivationParts (ct : ComplexType) (d : Derived) :
    (ns : List Node) → Keeps (derivationParts ct d ns)
  | [] => by
    rw [derivationParts]
    exact .pure _
  | .text _ :: rest => by
    rw [derivationParts]
    exact keeps_derivationParts ct d rest
  | .element t cs :: rest => by
    rw [derivationParts]
    split
    · exact keeps_derivationParts ct _ rest
    · exact (keeps_addRestricted (keeps_simpleType none cs) d).bind fun d =>
        keeps_derivationParts ct d rest
    · exact (keeps_addPart ct t cs (fun c => keeps_particles c cs) (keeps_inlineType cs)).bind
        fun ct => keeps_derivationParts ct d rest

end

/-! ### Declarations at the top -/

theorem keeps_addAttributePart (g : AttributeGroup) (e : Tag × List Node) :
    Keeps (addAttributePart g e) := by
  rw [addAttributePart]
  split
  · exact (keeps_attribute? _ _ _ (keeps_inlineType _)).map _
  · exact (keeps_attributeReference? _ _).map _
  · exact .pure _

theorem keeps_namedGroup (es : List (Tag × List Node)) : Keeps (namedGroup es) := by
  induction es with
  | nil => exact .pure _
  | cons e es ih =>
    obtain ⟨t, cs⟩ := e
    rw [namedGroup]
    split
    · exact (keeps_occurs t).bind fun _ => (keeps_particles _ cs).map _
    · exact ih

/-- The name of the element that a tag at the top of a document declares. -/
def elementName? (target? : Option String) (t : Tag) : Option Name :=
  if kind t = "element" then givenName? target? t else none

/-- The name of the type that a tag at the top of a document defines. -/
def typeName? (target? : Option String) (t : Tag) : Option Name :=
  if kind t = "complexType" ∨ kind t = "simpleType" then givenName? target? t else none

/-- What follows on the name of a component at the top of a document. -/
theorem enters_requiredName? {α : Type} {t : Tag} {k : Option Name → Reading α}
    {es ts : List Name} {s : Source}
    (hnone : givenName? s.target? t = none → Enters es ts ((k none).run s))
    (hsome : ∀ n, givenName? s.target? t = some n → Enters es ts ((k (some n)).run s)) :
    Enters es ts ((requiredName? t >>= k).run s) := by
  rw [givenName?] at hnone hsome
  rw [requiredName?]
  cases hname : t.attribute? "name" with
  | none =>
    rw [hname] at hnone
    exact (keeps_report t rfl s).bind fun _ => hnone rfl
  | some written =>
    rw [hname] at hsome
    exact hsome _ rfl

/-- A declaration at the top of a document enters the name of its element or type. -/
theorem enters_declare (e : Tag × List Node) (s : Source) :
    Enters (elementName? s.target? e.1).toList (typeName? s.target? e.1).toList
      ((declare e).run s) := by
  obtain ⟨t, cs⟩ := e
  change Enters (elementName? s.target? t).toList (typeName? s.target? t).toList _
  rw [declare]
  split
  · next h =>
    rw [elementName?, typeName?, if_pos h, if_neg (by simp [h])]
    exact (enters_elementDecl? t cs (keeps_inlineType cs) s).bind_keeps fun _ => .pure _
  · next h =>
    rw [elementName?, typeName?, if_neg (by simp [h]), if_pos (Or.inl h)]
    refine enters_requiredName? (fun hn => ?_) fun n hn => ?_
    · rw [hn]
      exact Keeps.pure _ s
    · rw [hn]
      simp only [ReaderT.run_bind]
      exact (keeps_complexParts _ cs s).bind fun ct =>
        (Components.keeps_addType (.complex ct)).bind fun d => Components.enters_enterType n d
  · next h =>
    rw [elementName?, typeName?, if_neg (by simp [h]), if_pos (Or.inr h)]
    refine enters_requiredName? (fun hn => ?_) fun n hn => ?_
    · rw [hn]
      exact Keeps.pure _ s
    · rw [hn]
      simp only [ReaderT.run_bind]
      exact (keeps_simpleParts _ cs s).bind fun st =>
        (Components.keeps_addType (.simple st)).bind fun d => Components.enters_enterType n d
  · next h =>
    rw [elementName?, typeName?, if_neg (by simp [h]), if_neg (by simp [h])]
    rw [ReaderT.run_bind]
    refine (keeps_attribute? _ t cs (keeps_inlineType cs) s).bind fun a? => ?_
    cases a? with
    | none => exact Keeps.pure _ s
    | some a => exact Components.keeps_enterAttribute a
  · next h =>
    rw [elementName?, typeName?, if_neg (by simp [h]), if_neg (by simp [h])]
    refine enters_requiredName? (fun _ => Keeps.pure _ s) fun n _ => ?_
    exact (Keeps.foldlM (fun g e _ => keeps_addAttributePart g e) _ s).bind fun g =>
      Components.keeps_enterAttributeGroup n g
  · next h =>
    rw [elementName?, typeName?, if_neg (by simp [h]), if_neg (by simp [h])]
    refine enters_requiredName? (fun _ => Keeps.pure _ s) fun n _ => ?_
    exact (keeps_namedGroup _ s).bind fun g => Components.keeps_enterGroup n g
  · next helement hcomplex hsimple _ _ _ =>
    rw [elementName?, typeName?, if_neg helement, if_neg (not_or.2 ⟨hcomplex, hsimple⟩)]
    exact Keeps.pure _ s

/-! ### Documents -/

/-- The names of the elements declared at the top of a document. -/
def elementNames (target? : Option String) (cs : List Node) : List Name :=
  (elements cs).flatMap fun e => (elementName? target? e.1).toList

/-- The names of the types defined at the top of a document. -/
def typeNames (target? : Option String) (cs : List Node) : List Name :=
  (elements cs).flatMap fun e => (typeName? target? e.1).toList

/-- The target namespace that a document leaves: that of the first document. -/
def settledTarget (target? : Option String) (c : Components) : Option String :=
  if c.locations.size = 1 then target? else c.target?

theorem change_setTarget {α : Type} {es ts : List Name} (target? : Option String)
    {f : Components → PUnit → Building α} (hf : ∀ c a, Enters es ts (f c a)) (c : Components) :
    Building.Change es ts { c with target? := settledTarget target? c }
      (((get : Building Components) >>= fun c =>
        if c.locations.size = 1 then
          (modify fun c => { c with target? } : Building PUnit) >>= f c
        else f c ⟨⟩).run c).2 := by
  by_cases hsize : c.locations.size = 1
  · simpa [settledTarget, hsize] using hf c ⟨⟩ { c with target? }
  · simpa [settledTarget, hsize] using hf c ⟨⟩ c

/-- What the content of a schema document enters. -/
theorem enters_readRoot (text : String) (including? : Option String) (root : Tag)
    (cs : List Node) (c : Components) :
    let target? := (declaredTarget? root).or including?
    Building.Change (elementNames target? cs) (typeNames target? cs)
      { c with target? := settledTarget target? c }
      ((readRoot text including? root cs).run c).2 := by
  intro target?
  have hdeclare (s : Source) (hs : s.target? = target?) :
      Enters (elementNames target? cs) (typeNames target? cs)
        ((elements cs).forM fun e => (declare e).run s) :=
    Enters.forM fun e _ => hs ▸ enters_declare e s
  have hset := change_setTarget target? fun c _ =>
    (hdeclare
      { text := text.toList, document := c.locations.size - 1, target?,
        elementForm := defaultForm root "elementFormDefault",
        attributeForm := defaultForm root "attributeFormDefault",
        adopted := (declaredTarget? root).isNone && including?.isSome } rfl).bind_keeps
      fun _ => .pure (referencesOf target? (elements cs))
  rw [readRoot]
  split
  · have hlater : Building.Change [] [] { c with target? := settledTarget target? c }
        { c with target? := settledTarget target? c, version := .v11 } := .of_eq rfl rfl rfl
    exact hlater.trans (hset { c with version := .v11 })
  · exact hset c

/-- The references of a schema document do not depend on what has been read before it. -/
theorem returns_readRoot (text : String) (including? : Option String) (root : Tag)
    (cs : List Node) :
    Building.Returns (referencesOf ((declaredTarget? root).or including?) (elements cs))
      (readRoot text including? root cs) := by
  have hread (s : Source) : Building.Returns
      (referencesOf ((declaredTarget? root).or including?) (elements cs))
      ((elements cs).forM (fun e => (declare e).run s) >>= fun _ =>
        pure (referencesOf ((declaredTarget? root).or including?) (elements cs))) :=
    .bind fun _ => .pure _
  exact .guarded <| .bind fun c => .guarded (hread _)

end Schema
end SchemaAssist
