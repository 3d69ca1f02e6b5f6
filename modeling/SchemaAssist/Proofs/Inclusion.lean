/-
# Documents that adopt a namespace

A document without a target namespace adopts that of the document that includes it.  It is read as
if its root declared the namespace, as the target and as what names without a prefix are in
(`Schema.Declares`): the outcome and the components are the same, but for the places of problems
(`Components.sameButPlaces_addDocument`).  Every name that the document refers to is redirected, or
in the default namespace, alike (`Schema.Defaulted.reference`), and so the two are read alike.

A declaration makes a document longer, may not bind a reserved namespace, and does not reach names
with a prefix that stands for no namespace, which adoption does
(`Components.declaring_ne_adopting`).
-/

import SchemaAssist.Proofs.Likeness

namespace SchemaAssist

open Markup (Tag Node Attribute)

namespace Schema

/-! ### The same document with declarations -/

/-- A tag where there is no default namespace, and the same tag where it is `ns`.  No prefix stands
for the empty namespace. -/
structure Defaulted (ns : String) (t t' : Tag) : Prop where
  localName : t'.localName = t.localName
  space : t'.space = t.space.or (some ns)
  bindings : t.scope.bindings = t'.scope.bindings.filter (·.1.isSome)
  default? : t'.scope.bindings.lookup none = some ns
  bound : ∀ b ∈ t.scope.bindings, b.2 ≠ ""

instance (ns : String) (t t' : Tag) : Decidable (Defaulted ns t t') :=
  decidable_of_iff (t'.localName = t.localName ∧ t'.space = t.space.or (some ns) ∧
      t.scope.bindings = t'.scope.bindings.filter (·.1.isSome) ∧
      t'.scope.bindings.lookup none = some ns ∧ ∀ b ∈ t.scope.bindings, b.2 ≠ "")
    ⟨fun ⟨h₁, h₂, h₃, h₄, h₅⟩ => ⟨h₁, h₂, h₃, h₄, h₅⟩,
      fun ⟨h₁, h₂, h₃, h₄, h₅⟩ => ⟨h₁, h₂, h₃, h₄, h₅⟩⟩

/-- Whether an attribute gives a target namespace. -/
def isTarget (a : Attribute) : Bool := a.space == none && a.localName == "targetNamespace"

/-- A document, its root with its children, that has neither a target namespace nor a default one
anywhere, and the same document whose root declares `ns` to be both. -/
structure Declares (ns : String) (d d' : Tag × List Node) : Prop where
  root : Defaulted ns d.1 d'.1
  attributes : d.1.attributes = d'.1.attributes.filter (!isTarget ·)
  target? : d'.1.attribute? "targetNamespace" = some ns
  children : ListsAlike (fun t t' => Defaulted ns t t' ∧ t'.attributes = t.attributes) d.2 d'.2

instance (ns : String) (d d' : Tag × List Node) : Decidable (Declares ns d d') :=
  decidable_of_iff (Defaulted ns d.1 d'.1 ∧ d.1.attributes = d'.1.attributes.filter (!isTarget ·) ∧
      d'.1.attribute? "targetNamespace" = some ns ∧
      ListsAlike (fun t t' => Defaulted ns t t' ∧ t'.attributes = t.attributes) d.2 d'.2)
    ⟨fun ⟨h₁, h₂, h₃, h₄⟩ => ⟨h₁, h₂, h₃, h₄⟩, fun ⟨h₁, h₂, h₃, h₄⟩ => ⟨h₁, h₂, h₃, h₄⟩⟩

namespace Defaulted

variable {ns : String} {t t' : Tag} (h : Defaulted ns t t')

theorem lookup_filter_isSome (bindings : List (Option String × String)) (pre? : Option String) :
    (bindings.filter (·.1.isSome)).lookup pre? =
      if pre?.isSome then bindings.lookup pre? else none := by
  induction bindings with
  | nil => cases pre? <;> rfl
  | cons b bindings ih =>
    obtain ⟨key?, space⟩ := b
    cases key? with
    | none =>
      rw [List.filter_cons_of_neg (by simp), ih]
      cases pre? <;> rfl
    | some key =>
      rw [List.filter_cons_of_pos (by rfl), List.lookup_cons, List.lookup_cons, ih]
      cases pre? with
      | none => rfl
      | some pre => rfl

include h

/-- A prefix stands for the same. -/
theorem find? (pre : String) : t'.scope.find? pre = t.scope.find? pre := by
  rw [Scope.find?, Scope.find?, h.bindings, lookup_filter_isSome]
  rfl

theorem isSchemaSpace (hforeign : isSchemaSpace (some ns) = false) :
    isSchemaSpace t'.space = isSchemaSpace t.space := by
  rw [h.space]
  cases t.space with
  | none => exact hforeign
  | some space => rfl

/-- **What a name refers to in a document that adopts a namespace, it refers to where the namespace
is the default one.** -/
theorem reference (hns : ns ≠ "") (hforeign : Schema.isSchemaSpace (some ns) = false)
    {s s' : Source} (htarget : s.target? = some ns) (hadopts : s.adopted = true) (value : String) :
    s'.reference t'.scope value = s.reference t.scope value := by
  have hlater : ns ≠ schemaNamespace11 := by
    rintro rfl
    exact absurd hforeign (by decide)
  have hempty : "" ≠ schemaNamespace11 := by decide
  have hunprefixed : s'.referenceSpace t'.scope.default = s.referenceSpace t.scope.default := by
    rw [Scope.default, Scope.default, h.bindings, lookup_filter_isSome, h.default?]
    simp [Source.referenceSpace, hlater, hns, hempty, hadopts, htarget]
  have hprefixed (pre space : String) (hfind : t.scope.find? pre = some space) :
      s'.referenceSpace space = s.referenceSpace space := by
    have hspace : space ≠ "" := by
      obtain ⟨before, after, hbindings, -⟩ := List.lookup_eq_some_iff.1 hfind
      exact h.bound (some pre, space) (hbindings ▸ List.mem_append_right _ List.mem_cons_self)
    simp [Source.referenceSpace, hspace]
  rw [Source.reference, Source.reference]
  split
  · rfl
  · next pre localName _ _ =>
    rw [h.find?]
    cases hfind : t.scope.find? pre with
    | none => rfl
    | some space =>
      exact congrArg (fun space : String => Except.ok (Name.mk space localName))
        (hprefixed pre space hfind)
  · rw [hunprefixed]

end Defaulted

namespace Declares

variable {ns : String} {d d' : Tag × List Node} (h : Declares ns d d')

include h

/-- The declarations leave the other attributes of the root alone. -/
theorem attribute? {key : String} (hkey : key ≠ "targetNamespace") :
    d'.1.attribute? key = d.1.attribute? key := by
  rw [Tag.attribute?, Tag.attribute?, h.attributes, List.find?_filter]
  congr 2
  funext a
  cases hsame : a.space == none && a.localName == key with
  | false => simp
  | true =>
    have hname : a.localName ≠ "targetNamespace" := by
      rw [Bool.and_eq_true, beq_iff_eq, beq_iff_eq] at hsame
      rwa [hsame.2]
    simp [isTarget, hname]

theorem attributeIn? (space key : String) :
    d'.1.attributeIn? space key = d.1.attributeIn? space key := by
  rw [Tag.attributeIn?, Tag.attributeIn?, h.attributes, List.find?_filter]
  congr 2
  funext a
  cases hspace : a.space == some space with
  | false => simp
  | true =>
    rw [beq_iff_eq] at hspace
    rw [isTarget, hspace]
    simp [beq_eq_decide]

theorem declaredTarget? (hns : ns ≠ "") : Schema.declaredTarget? d'.1 = some ns := by
  rw [Schema.declaredTarget?, h.target?]
  simp [hns]

theorem declaredTarget?_eq_none : Schema.declaredTarget? d.1 = none := by
  rw [Schema.declaredTarget?, Tag.attribute?, h.attributes, List.find?_filter,
    List.find?_eq_none.2 fun a _ => ?_]
  · rfl
  · rw [decide_eq_true_iff]
    rintro ⟨hother, htarget⟩
    change isTarget a = true at htarget
    rw [htarget] at hother
    cases hother

theorem defaultForm {key : String} (hkey : key ≠ "targetNamespace") :
    Schema.defaultForm d'.1 key = Schema.defaultForm d.1 key := by
  rw [Schema.defaultForm, Schema.defaultForm, h.attribute? hkey]

theorem needsLater (hforeign : isSchemaSpace (some ns) = false) :
    Schema.needsLater d'.1 = Schema.needsLater d.1 := by
  have hspace : (d'.1.space == some schemaNamespace11) = (d.1.space == some schemaNamespace11) := by
    rw [h.root.space]
    cases d.1.space with
    | none =>
      rw [isSchemaSpace, Bool.or_eq_false_iff] at hforeign
      exact hforeign.2
    | some space => rfl
  rw [Schema.needsLater, Schema.needsLater, hspace, h.attributeIn?]

/-- The components are the same once the root is opened. -/
theorem openRoot (hns : ns ≠ "") (hforeign : isSchemaSpace (some ns) = false)
    (including? : Option String) (c : Components) :
    Schema.openRoot including? d'.1 c = Schema.openRoot (some ns) d.1 c := by
  rw [Schema.openRoot, Schema.openRoot, h.needsLater hforeign, h.declaredTarget? hns,
    h.declaredTarget?_eq_none]
  rfl

variable (text text' : String) (including? : Option String) (n : Nat)

theorem sourcesAlike (hns : ns ≠ "") :
    SourcesAlike (sourceOf text (some ns) d.1 n) (sourceOf text' including? d'.1 n) where
  document := rfl
  target? := by
    rw [sourceOf, sourceOf, h.declaredTarget? hns, h.declaredTarget?_eq_none]
    rfl
  elementForm := h.defaultForm (by decide)
  attributeForm := h.defaultForm (by decide)

/-- The declarations of the two documents are alike. -/
theorem elements (hns : ns ≠ "") (hforeign : isSchemaSpace (some ns) = false) :
    List.Forall₂ (ElementsAlike (TagsAlike (fun _ _ => True) (sourceOf text (some ns) d.1 n)
      (sourceOf text' including? d'.1 n))) (elements d.2) (elements d'.2) := by
  refine ListsAlike.elements (fun _ _ h => h.space)
    (ListsAlike.mono (fun t t' ⟨ht, hattributes⟩ => ?_) h.children)
  have htarget : (sourceOf text (some ns) d.1 n).target? = some ns := by
    rw [sourceOf, h.declaredTarget?_eq_none]
    rfl
  have hadopts : (sourceOf text (some ns) d.1 n).adopted = true := by
    rw [sourceOf, h.declaredTarget?_eq_none]
    rfl
  exact {
    place := trivial
    space := ht.isSchemaSpace hforeign
    localName := ht.localName
    attribute? := fun key => by rw [Tag.attribute?, Tag.attribute?, hattributes]
    reference := ht.reference hns hforeign htarget hadopts }

end Declares
end Schema

/-! ### Reading the two documents -/

/-- A problem without the place where it was found. -/
def Problem.unplaced (p : Problem) : Problem := { p with position? := none }

namespace Components

/-- Components that differ in nothing but the places of problems. -/
def SameButPlaces (c c' : Components) : Prop :=
  ∃ problems, c' = { c with problems } ∧
    problems.map Problem.unplaced = c.problems.map Problem.unplaced

theorem SameButPlaces.refl (c : Components) : SameButPlaces c c := ⟨c.problems, rfl, rfl⟩

/-- One more problem, in places that may differ. -/
theorem sameButPlaces_record {c : Components} {problems : Array Problem} {p p' : Problem}
    (hproblems : problems.map Problem.unplaced = c.problems.map Problem.unplaced)
    (hp : p'.unplaced = p.unplaced) :
    SameButPlaces ((record p).run c).2 ((record p').run { c with problems }).2 := by
  refine ⟨problems.push p', rfl, ?_⟩
  change _ = (c.problems.push p).map _
  rw [Array.map_push, Array.map_push, hproblems, hp]

/-- No step of reading looks at the places of problems. -/
theorem lockstep_sameButPlaces : Schema.Lockstep (fun _ _ => True) SameButPlaces where
  record := by
    rintro f p p' c _ - ⟨problems, rfl, hproblems⟩
    exact sameButPlaces_record hproblems rfl
  requireLater := by
    rintro c _ ⟨problems, rfl, hproblems⟩
    exact ⟨problems, rfl, hproblems⟩
  addElement := by
    rintro e c _ ⟨problems, rfl, hproblems⟩
    exact ⟨rfl, problems, rfl, hproblems⟩
  addType := by
    rintro d c _ - ⟨problems, rfl, hproblems⟩
    exact ⟨rfl, problems, rfl, hproblems⟩
  declareElement := by
    rintro n e c _ ⟨problems, rfl, hproblems⟩
    rw [Schema.run_declareElement, Schema.run_declareElement]
    dsimp only
    split
    · exact sameButPlaces_record hproblems rfl
    · exact ⟨problems, rfl, hproblems⟩
  enterType := by
    rintro n t c _ ⟨problems, rfl, hproblems⟩
    rw [run_enterType, run_enterType]
    dsimp only
    split
    · exact sameButPlaces_record hproblems rfl
    · exact ⟨problems, rfl, hproblems⟩
  enterGroup := by
    rintro n g c _ ⟨problems, rfl, hproblems⟩
    exact ⟨problems, rfl, hproblems⟩
  enterAttributeGroup := by
    rintro n g c _ - ⟨problems, rfl, hproblems⟩
    exact ⟨problems, rfl, hproblems⟩
  enterAttribute := by
    rintro a c _ ⟨problems, rfl, hproblems⟩
    exact ⟨problems, rfl, hproblems⟩

variable {ns text text' : String} {d d' : Tag × List Node}

/-- The declarations of the two documents leave the same components behind, but for places. -/
theorem sameButPlaces_readRoot (hns : ns ≠ "")
    (hforeign : Schema.isSchemaSpace (some ns) = false) (h : Schema.Declares ns d d')
    (text text' : String) (including? : Option String) (c : Components) :
    ((Schema.readRoot text' including? d'.1 d'.2).run c).1 =
        ((Schema.readRoot text (some ns) d.1 d.2).run c).1 ∧
      SameButPlaces ((Schema.readRoot text (some ns) d.1 d.2).run c).2
        ((Schema.readRoot text' including? d'.1 d'.2).run c).2 := by
  have helements := h.elements text text' including? (c.locations.size - 1) hns hforeign
  rw [Schema.run_readRoot, Schema.run_readRoot, h.openRoot hns hforeign, h.declaredTarget? hns,
    h.declaredTarget?_eq_none, Schema.referencesOf_alike helements]
  exact ⟨rfl, (Schema.alike_declarations lockstep_sameButPlaces (h.sourcesAlike _ _ _ _ hns)
    helements _ _ (.refl _)).2.2⟩

/-- **Adopting a namespace does what declaring it does**, but for the places of problems: the
outcome with the references to other documents is the same, and so are all components, the version
and the target namespace. -/
theorem sameButPlaces_addDocument (hns : ns ≠ "")
    (hforeign : Schema.isSchemaSpace (some ns) = false) (hread : Markup.read text = .ok d)
    (hread' : Markup.read text' = .ok d') (h : Schema.Declares ns d d') {c : Components}
    (hsize : c.limits.checkSchemaSize text.utf8ByteSize = .ok ())
    (hsize' : c.limits.checkSchemaSize text'.utf8ByteSize = .ok ()) (l : Location)
    (including? : Option String) :
    ((addDocument text' l including?).run c).1 = ((addDocument text l (some ns)).run c).1 ∧
      SameButPlaces ((addDocument text l (some ns)).run c).2
        ((addDocument text' l including?).run c).2 := by
  have hkind : Schema.kind d'.1 = Schema.kind d.1 := by
    rw [Schema.kind, Schema.kind, h.root.isSchemaSpace hforeign, h.root.localName]
  rw [run_addDocument_of_ok hsize hread, run_addDocument_of_ok hsize' hread', hkind,
    h.root.localName]
  split
  · obtain ⟨houtcome, hcomponents⟩ := sameButPlaces_readRoot hns hforeign h text text'
      including? { c with locations := c.locations.push l }
    rw [StateT.run_map, StateT.run_map]
    exact ⟨congrArg Except.ok houtcome, hcomponents⟩
  · exact ⟨rfl, .refl _⟩

/-! ### A small schema -/

/-- A schema whose root carries some declarations. -/
def schemaText (declarations content : String) : String :=
  "<s:schema xmlns:s='http://www.w3.org/2001/XMLSchema'" ++ declarations ++ ">" ++ content ++
    "</s:schema>"

/-- The schema, to adopt a namespace. -/
def adopting (ns declarations content : String) : Submission where
  text := schemaText declarations content
  location := .path "part.xsd"
  including? := some ns

/-- The schema, with declarations of a namespace as the target and the default one. -/
def declaring (ns declarations content : String) : Submission where
  text := schemaText
    (declarations ++ " targetNamespace='" ++ ns ++ "' xmlns='" ++ ns ++ "'") content
  location := .path "part.xsd"

/-- An element that refers to a type without a prefix refers to one in the namespace, in both
schemas. -/
theorem sameButPlaces_addDocument_item :
    let item := "<s:element name='a' type='t'/>"
    let start : Components := .empty .v10 {}
    ∃ d d', Markup.read (adopting "urn:n" "" item).text = .ok d ∧
      Markup.read (declaring "urn:n" "" item).text = .ok d' ∧ Schema.Declares "urn:n" d d' ∧
      ((submit (declaring "urn:n" "" item)).run start).1 =
        ((submit (adopting "urn:n" "" item)).run start).1 ∧
      SameButPlaces ((submit (adopting "urn:n" "" item)).run start).2
        ((submit (declaring "urn:n" "" item)).run start).2 ∧
      ((submit (adopting "urn:n" "" item)).run start).2.elements.map (·.typeRef) =
        #[.named ⟨"urn:n", "t"⟩] := by
  intro item start
  have hsmall : (∃ d ∈ (Markup.read (adopting "urn:n" "" item).text).toOption,
      ∃ d' ∈ (Markup.read (declaring "urn:n" "" item).text).toOption,
        Schema.Declares "urn:n" d d') ∧
      ((submit (adopting "urn:n" "" item)).run start).2.elements.map (·.typeRef) =
        #[.named ⟨"urn:n", "t"⟩] := by
    decide +kernel
  have hok {r : Except Markup.Malformed (Tag × List Node)} {d : Tag × List Node}
      (h : d ∈ r.toOption) : r = .ok d := by
    cases r with
    | ok d' => exact congrArg Except.ok (Option.some.inj h)
    | error e => cases h
  obtain ⟨⟨d, hd, d', hd', hdeclares⟩, htypes⟩ := hsmall
  obtain ⟨houtcome, hcomponents⟩ := sameButPlaces_addDocument (c := start) (by decide) (by decide)
    (hok hd) (hok hd') hdeclares (by decide +kernel) (by decide +kernel) (.path "part.xsd") none
  exact ⟨d, d', hok hd, hok hd', hdeclares, houtcome, hcomponents, htypes⟩

/-- How a document that is refused is reported. -/
def refusal? : Except LoadError (List Schema.Reference) → Option String
  | .ok _ => none
  | .error e => some e.message

/-- **Declaring a namespace is not adopting it** where the declarations make the document too large,
where the namespace is a reserved one, and for a prefix that stands for no namespace. -/
theorem declaring_ne_adopting :
    let small : Components := .empty .v10 { schemaSize := 80 }
    let start : Components := .empty .v10 {}
    let xml := xmlNamespace
    let item := "<s:element name='a' type='p:t'/>"
    refusal? ((submit (adopting "urn:n" "" "")).run small).1 = none ∧
      refusal? ((submit (declaring "urn:n" "" "")).run small).1 =
        some "limit exceeded: Schema size 102 bytes exceeds maximum 80 bytes" ∧
      refusal? ((submit (adopting xml "" "")).run start).1 = none ∧
      refusal? ((submit (declaring xml "" "")).run start).1 =
        some "XML error: a reserved namespace is bound" ∧
      ((submit (adopting "urn:n" " xmlns:p=''" item)).run start).2.elements.map (·.typeRef) =
        #[.named ⟨"urn:n", "t"⟩] ∧
      ((submit (declaring "urn:n" " xmlns:p=''" item)).run start).2.elements.map (·.typeRef) =
        #[.named ⟨"", "t"⟩] := by
  decide +kernel

end Components
end SchemaAssist
