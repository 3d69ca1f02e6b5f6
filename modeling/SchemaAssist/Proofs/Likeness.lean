/-
# Documents that are read alike

Two documents are read alike if their tags say the same: they are of the same kind, have the same
attributes, and refer to the same names (`Schema.TagsAlike`).  What is read from them is the same,
and what holds between components before holds between them afterwards, if it is kept by every
single step of reading (`Schema.Lockstep`, `Schema.alike_declarations`).  With one document, which
is like itself, this says what holds of whatever a document declares: a use that refers to a global
attribute bears its name (`AttributeUse.Faithful`).
-/

import SchemaAssist.Proofs.Contributions

namespace SchemaAssist

/-- A use that refers to a global attribute bears its name. -/
def AttributeUse.Faithful (a : AttributeUse) : Prop := ∀ r, a.reference? = some r → r = a.name

/-- A complex type all of whose uses bear the names of what they refer to. -/
def ComplexType.Faithful (ct : ComplexType) : Prop := ∀ a ∈ ct.attributes, a.Faithful

namespace Schema

open Markup (Tag Node Position)

/-! ### Tags and nodes -/

/-- Two tags that say the same to two documents that are being read, in places that are alike. -/
structure TagsAlike (At : Position → Position → Prop) (s s' : Source) (t t' : Tag) : Prop where
  place : At (Position.ofOffset s.text t.offset) (Position.ofOffset s'.text t'.offset)
  space : isSchemaSpace t'.space = isSchemaSpace t.space
  localName : t'.localName = t.localName
  attribute? : ∀ key, t'.attribute? key = t.attribute? key
  reference : ∀ value, s'.reference t'.scope value = s.reference t.scope value

mutual

/-- Two nodes whose tags are alike. -/
def NodesAlike (Alike : Tag → Tag → Prop) : Node → Node → Prop
  | .text s, .text s' => s' = s
  | .element t cs, .element t' cs' => Alike t t' ∧ ListsAlike Alike cs cs'
  | _, _ => False

/-- Nodes whose tags are alike, one by one. -/
def ListsAlike (Alike : Tag → Tag → Prop) : List Node → List Node → Prop
  | [], [] => True
  | n :: ns, n' :: ns' => NodesAlike Alike n n' ∧ ListsAlike Alike ns ns'
  | _, _ => False

end

section Trees

variable {Alike : Tag → Tag → Prop}

mutual

instance decidableNodesAlike [∀ t t', Decidable (Alike t t')] :
    (n n' : Node) → Decidable (NodesAlike Alike n n')
  | .text s, .text s' => inferInstanceAs (Decidable (s' = s))
  | .element t cs, .element t' cs' =>
    have := decidableListsAlike cs cs'
    inferInstanceAs (Decidable (Alike t t' ∧ ListsAlike Alike cs cs'))
  | .text _, .element _ _ => .isFalse id
  | .element _ _, .text _ => .isFalse id

instance decidableListsAlike [∀ t t', Decidable (Alike t t')] :
    (ns ns' : List Node) → Decidable (ListsAlike Alike ns ns')
  | [], [] => .isTrue trivial
  | n :: ns, n' :: ns' =>
    have := decidableNodesAlike n n'
    have := decidableListsAlike ns ns'
    inferInstanceAs (Decidable (NodesAlike Alike n n' ∧ ListsAlike Alike ns ns'))
  | [], _ :: _ => .isFalse id
  | _ :: _, [] => .isFalse id

end

mutual

theorem NodesAlike.refl (h : ∀ t, Alike t t) : (n : Node) → NodesAlike Alike n n
  | .text _ => rfl
  | .element t cs => ⟨h t, ListsAlike.refl h cs⟩

theorem ListsAlike.refl (h : ∀ t, Alike t t) : (ns : List Node) → ListsAlike Alike ns ns
  | [] => trivial
  | n :: ns => ⟨NodesAlike.refl h n, ListsAlike.refl h ns⟩

end

mutual

theorem NodesAlike.mono {Alike' : Tag → Tag → Prop} (h : ∀ t t', Alike t t' → Alike' t t') :
    {n n' : Node} → NodesAlike Alike n n' → NodesAlike Alike' n n'
  | .text _, .text _, hn => hn
  | .element _ _, .element _ _, hn => ⟨h _ _ hn.1, ListsAlike.mono h hn.2⟩
  | .text _, .element _ _, hn => hn.elim
  | .element _ _, .text _, hn => hn.elim

theorem ListsAlike.mono {Alike' : Tag → Tag → Prop} (h : ∀ t t', Alike t t' → Alike' t t') :
    {ns ns' : List Node} → ListsAlike Alike ns ns' → ListsAlike Alike' ns ns'
  | [], [], _ => trivial
  | _ :: _, _ :: _, hns => ⟨NodesAlike.mono h hns.1, ListsAlike.mono h hns.2⟩
  | [], _ :: _, hns => hns.elim
  | _ :: _, [], hns => hns.elim

end

mutual

theorem NodesAlike.content : {n n' : Node} → NodesAlike Alike n n' → n'.content = n.content
  | .text _, .text _, h => h
  | .element _ _, .element _ _, h => ListsAlike.contentOf h.2
  | .text _, .element _ _, h => h.elim
  | .element _ _, .text _, h => h.elim

theorem ListsAlike.contentOf : {ns ns' : List Node} → ListsAlike Alike ns ns' →
    Node.contentOf ns' = Node.contentOf ns
  | [], [], _ => rfl
  | _ :: _, _ :: _, h => congrArg₂ (· ++ ·) (NodesAlike.content h.1) (ListsAlike.contentOf h.2)
  | [], _ :: _, h => h.elim
  | _ :: _, [], h => h.elim

end

/-- Elements with their children whose tags are alike. -/
def ElementsAlike (Alike : Tag → Tag → Prop) (e e' : Tag × List Node) : Prop :=
  Alike e.1 e'.1 ∧ ListsAlike Alike e.2 e'.2

/-- The elements among nodes that are alike are alike. -/
theorem ListsAlike.elements (hspace : ∀ t t', Alike t t' →
      isSchemaSpace t'.space = isSchemaSpace t.space) :
    {ns ns' : List Node} → ListsAlike Alike ns ns' →
      List.Forall₂ (ElementsAlike Alike) (elements ns) (elements ns')
  | [], [], _ => .nil
  | .text _ :: ns, .text _ :: ns', h => by
    have hrest := ListsAlike.elements hspace h.2
    exact hrest
  | .element t cs :: ns, .element t' cs' :: ns', h => by
    have hrest := ListsAlike.elements hspace h.2
    change List.Forall₂ _ (((t, cs) :: ns.filterMap Node.element?).filter _)
      (((t', cs') :: ns'.filterMap Node.element?).filter _)
    rw [List.filter_cons, List.filter_cons, hspace t t' h.1.1]
    split
    · exact .cons h.1 hrest
    · exact hrest
  | .text _ :: _, .element _ _ :: _, h => h.1.elim
  | .element _ _ :: _, .text _ :: _, h => h.1.elim
  | [], _ :: _, h => h.elim
  | _ :: _, [], h => h.elim

end Trees

namespace TagsAlike

variable {At : Position → Position → Prop} {s s' : Source} {t t' : Tag}

theorem kind (h : TagsAlike At s s' t t') : kind t' = kind t := by
  rw [Schema.kind, Schema.kind, h.space, h.localName]

theorem compositor? (h : TagsAlike At s s' t t') : compositor? t' = compositor? t := by
  rw [Schema.compositor?, Schema.compositor?, h.kind]

end TagsAlike

section Contents

variable {At : Position → Position → Prop} {s s' : Source} {ns ns' : List Node}

/-- Elements that are alike, of one kind. -/
theorem filter_kind {es es' : List (Tag × List Node)}
    (h : List.Forall₂ (ElementsAlike (TagsAlike At s s')) es es') (k : String) :
    List.Forall₂ (ElementsAlike (TagsAlike At s s')) (es.filter (kind ·.1 = k))
      (es'.filter (kind ·.1 = k)) := by
  induction h with
  | nil => exact .nil
  | cons he _ ih =>
    rw [List.filter_cons, List.filter_cons, he.1.kind]
    split
    · exact .cons he ih
    · exact ih

theorem enumeration_alike (h : ListsAlike (TagsAlike At s s') ns ns') :
    enumeration ns' = enumeration ns := by
  have hvalues {es es' : List (Tag × List Node)}
      (hes : List.Forall₂ (ElementsAlike (TagsAlike At s s')) es es') :
      es'.filterMap (·.1.attribute? "value") = es.filterMap (·.1.attribute? "value") := by
    induction hes with
    | nil => rfl
    | cons he _ ih => rw [List.filterMap_cons, List.filterMap_cons, he.1.attribute?, ih]
  exact hvalues (filter_kind (h.elements fun _ _ h => h.space) "enumeration")

theorem documentation?_alike (h : ListsAlike (TagsAlike At s s') ns ns') :
    documentation? ns' = documentation? ns := by
  have hannotations := filter_kind (h.elements fun _ _ h => h.space) "annotation"
  have hinside {es es' : List (Tag × List Node)}
      (hes : List.Forall₂ (ElementsAlike (TagsAlike At s s')) es es') :
      List.Forall₂ (ElementsAlike (TagsAlike At s s')) (es.flatMap (elements ·.2))
        (es'.flatMap (elements ·.2)) := by
    induction hes with
    | nil => exact .nil
    | cons he _ ih =>
      rw [List.flatMap_cons, List.flatMap_cons]
      exact List.rel_append (he.2.elements fun _ _ h => h.space) ih
  have hnotes := filter_kind (hinside hannotations) "documentation"
  have hcontents {es es' : List (Tag × List Node)}
      (hes : List.Forall₂ (ElementsAlike (TagsAlike At s s')) es es') :
      es'.map (fun e => Text.trim (Node.contentOf e.2)) =
        es.map fun e => Text.trim (Node.contentOf e.2) := by
    induction hes with
    | nil => rfl
    | cons he _ ih => rw [List.map_cons, List.map_cons, he.2.contentOf, ih]
  rw [documentation?, documentation?]
  exact congrArg (·.find? (· ≠ "")) (hcontents hnotes)

/-- Documents that are alike refer to the same documents. -/
theorem referencesOf_alike {es es' : List (Tag × List Node)}
    (h : List.Forall₂ (ElementsAlike (TagsAlike At s s')) es es') (target? : Option String) :
    referencesOf target? es' = referencesOf target? es := by
  rw [referencesOf, referencesOf]
  induction h with
  | nil => rfl
  | @cons e e' _ _ he _ ih =>
    rw [List.filterMap_cons, List.filterMap_cons, ih]
    dsimp only
    rw [he.1.kind, he.1.attribute?, he.1.attribute?]

end Contents

/-! ### Steps of reading -/

/-- Numbering a global element and entering it: a second one of the name is reported. -/
theorem run_declareElement (n : Name) (e : ElementDecl) (c : Components) :
    (Components.addElement e >>= Components.enterElement n).run c =
      if c.globalElements.has n then
        (Components.report (.duplicateElement n)).run { c with elements := c.elements.push e }
      else ((), { c with
        elements := c.elements.push e
        globalElements := c.globalElements.add n ⟨c.elements.size⟩ }) :=
  Components.run_enterElement n ⟨c.elements.size⟩ { c with elements := c.elements.push e }

/-- What every step of reading keeps between components. -/
structure Lockstep (At : Position → Position → Prop) (R : Components → Components → Prop) :
    Prop where
  record : ∀ f p p' c c', At p p' → R c c' →
    R ((Components.record { fault := f, position? := some p }).run c).2
      ((Components.record { fault := f, position? := some p' }).run c').2
  requireLater : ∀ c c', R c c' →
    R (Components.requireLater.run c).2 (Components.requireLater.run c').2
  addElement : ∀ (e : ElementDecl) c c', R c c' →
    ((Components.addElement e).run c').1 = ((Components.addElement e).run c).1 ∧
      R ((Components.addElement e).run c).2 ((Components.addElement e).run c').2
  addType : ∀ d c c', (∀ ct, d = .complex ct → ct.Faithful) → R c c' →
    ((Components.addType d).run c').1 = ((Components.addType d).run c).1 ∧
      R ((Components.addType d).run c).2 ((Components.addType d).run c').2
  /-- A global element is entered right after it has been numbered. -/
  declareElement : ∀ n e c c', R c c' →
    R ((Components.addElement e >>= Components.enterElement n).run c).2
      ((Components.addElement e >>= Components.enterElement n).run c').2
  enterType : ∀ n t c c', R c c' →
    R ((Components.enterType n t).run c).2 ((Components.enterType n t).run c').2
  enterGroup : ∀ n g c c', R c c' →
    R ((Components.enterGroup n g).run c).2 ((Components.enterGroup n g).run c').2
  enterAttributeGroup : ∀ n (g : AttributeGroup) c c', (∀ a ∈ g.attributes, a.Faithful) → R c c' →
    R ((Components.enterAttributeGroup n g).run c).2
      ((Components.enterAttributeGroup n g).run c').2
  enterAttribute : ∀ a c c', R c c' →
    R ((Components.enterAttribute a).run c).2 ((Components.enterAttribute a).run c').2

/-- Two steps of construction with one value, which has a property, that keep what holds between
components. -/
def Together {α : Type} (R : Components → Components → Prop) (P : α → Prop)
    (x x' : Building α) : Prop :=
  ∀ c c', R c c' → (x'.run c').1 = (x.run c).1 ∧ P (x.run c).1 ∧ R (x.run c).2 (x'.run c').2

namespace Together

variable {α β : Type} {R : Components → Components → Prop} {P : α → Prop} {Q : β → Prop}

theorem pure {a : α} (h : P a) : Together R P (pure a) (pure a) := fun _ _ hc => ⟨rfl, h, hc⟩

theorem bind {x x' : Building α} {f f' : α → Building β} (hx : Together R P x x')
    (hf : ∀ a, P a → Together R Q (f a) (f' a)) : Together R Q (x >>= f) (x' >>= f') := by
  intro c c' hc
  obtain ⟨hvalue, hP, hkept⟩ := hx c c' hc
  have hnext := hf _ hP _ _ hkept
  change ((f' (x'.run c').1).run (x'.run c').2).1 = _ ∧ _ ∧
    R _ ((f' (x'.run c').1).run (x'.run c').2).2
  rw [hvalue]
  exact hnext

end Together

/-- Two steps of reading two documents that do the same. -/
def ReadAlike {α : Type} (s s' : Source) (R : Components → Components → Prop) (P : α → Prop)
    (x x' : Reading α) : Prop := Together R P (x.run s) (x'.run s')

namespace ReadAlike

variable {α β : Type} {s s' : Source} {R : Components → Components → Prop} {P : α → Prop}
  {Q : β → Prop}

theorem pure {a : α} (h : P a) : ReadAlike s s' R P (pure a) (pure a) := Together.pure h

theorem bind {x x' : Reading α} {f f' : α → Reading β} (hx : ReadAlike s s' R P x x')
    (hf : ∀ a, P a → ReadAlike s s' R Q (f a) (f' a)) : ReadAlike s s' R Q (x >>= f) (x' >>= f') :=
  Together.bind hx hf

/-- A value that is put together from what a step reads. -/
theorem map {x x' : Reading α} (hx : ReadAlike s s' R P x x') {f f' : α → β}
    (hf : ∀ a, P a → f' a = f a) (hQ : ∀ a, P a → Q (f a)) :
    ReadAlike s s' R Q (x >>= fun a => Pure.pure (f a)) (x' >>= fun a => Pure.pure (f' a)) :=
  hx.bind fun a ha => by
    rw [hf a ha]
    exact pure (hQ a ha)

theorem lift {x x' : Building α} (h : Together R P x x') :
    ReadAlike s s' R P (liftM x) (liftM x') := h

theorem mono {x x' : Reading α} (hx : ReadAlike s s' R P x x') {P' : α → Prop}
    (h : ∀ a, P a → P' a) : ReadAlike s s' R P' x x' := by
  intro c c' hc
  obtain ⟨hvalue, hP, hkept⟩ := hx c c' hc
  exact ⟨hvalue, h _ hP, hkept⟩

theorem mapM {γ : Type} {as : List γ} {f f' : γ → Reading α}
    (h : ∀ a ∈ as, ReadAlike s s' R (fun _ => True) (f a) (f' a)) :
    ReadAlike s s' R (fun _ => True) (as.mapM f) (as.mapM f') := by
  induction as with
  | nil => exact pure trivial
  | cons a as ih =>
    rw [List.forall_mem_cons] at h
    rw [List.mapM_cons, List.mapM_cons]
    exact h.1.bind fun _ _ => (ih h.2).bind fun _ _ => pure trivial

end ReadAlike

/-- Two documents that are being read alike. -/
structure SourcesAlike (s s' : Source) : Prop where
  document : s'.document = s.document
  target? : s'.target? = s.target?
  elementForm : s'.elementForm = s.elementForm
  attributeForm : s'.attributeForm = s.attributeForm

section Reads

variable {At : Position → Position → Prop} {R : Components → Components → Prop} {s s' : Source}
  {t t' : Tag} {cs cs' : List Node} (hR : Lockstep At R) (hs : SourcesAlike s s')
  (ht : TagsAlike At s s' t t')

/-- What two documents do that differs in what they are is the same if it only depends on what is
alike. -/
theorem ReadAlike.source {α : Type} {P : α → Prop} {f f' : Source → Reading α}
    (h : ReadAlike s s' R P (f s) (f' s')) : ReadAlike s s' R P (read >>= f) (read >>= f') := h

section Tags

include hR ht

theorem alike_report (f : Fault) :
    ReadAlike s s' R (fun _ => True) (report t f) (report t' f) :=
  fun c c' hc => ⟨rfl, trivial, hR.record f _ _ c c' ht.place hc⟩

theorem alike_reference? (value : String) :
    ReadAlike s s' R (fun _ => True) (reference? t value) (reference? t' value) := by
  refine ReadAlike.source ?_
  rw [ht.reference value]
  split
  · exact .pure trivial
  · exact (alike_report hR ht _).bind fun _ _ => .pure trivial

theorem alike_attributeReference? (key : String) :
    ReadAlike s s' R (fun _ => True) (attributeReference? t key) (attributeReference? t' key) := by
  rw [attributeReference?, attributeReference?, ht.attribute?]
  split
  · exact alike_reference? hR ht _
  · exact .pure trivial

theorem alike_references (value : String) :
    ReadAlike s s' R (fun _ => True) (references t value) (references t' value) :=
  (ReadAlike.mapM fun w _ => alike_reference? hR ht w).bind fun _ _ => .pure trivial

theorem alike_occurs : ReadAlike s s' R (fun _ => True) (occurs t) (occurs t') := by
  rw [occurs, occurs, ht.attribute?, ht.attribute?]
  split
  · exact .pure trivial
  · exact (alike_report hR ht _).bind fun _ _ => .pure trivial

theorem alike_groupRef? : ReadAlike s s' R (fun _ => True) (groupRef? t) (groupRef? t') :=
  (alike_occurs hR ht).bind fun o _ => (alike_attributeReference? hR ht "ref").bind fun n _ => by
    split
    · exact .pure trivial
    · exact (alike_report hR ht _).bind fun _ _ => .pure trivial

include hs

theorem alike_wildcard : ReadAlike s s' R (fun _ => True) (wildcard t) (wildcard t') := by
  refine (alike_occurs hR ht).bind fun o _ => ?_
  rw [ht.attribute?, ht.attribute?, ht.attribute?]
  extract_lets strictness
  refine ReadAlike.source ?_
  rw [hs.target?]
  extract_lets target? spaces
  clear_value spaces
  cases spaces with
  | ok spaces => exact .pure trivial
  | error e => exact (alike_report hR ht _).bind fun _ _ => .pure trivial

theorem alike_requiredName? :
    ReadAlike s s' R (fun _ => True) (requiredName? t) (requiredName? t') := by
  rw [requiredName?, requiredName?, ht.attribute?, ht.localName]
  split
  · refine ReadAlike.source ?_
    rw [Source.globalName, Source.globalName, hs.target?]
    exact .pure trivial
  · exact (alike_report hR ht _).bind fun _ _ => .pure trivial

end Tags

/-! ### Simple types -/

section SimpleTypes

/-- A simple type that is read and numbered. -/
theorem alike_addSimple (hR : Lockstep At R) (st : SimpleType) :
    ReadAlike s s' R (fun _ => True) (liftM (Components.addType (.simple st)))
      (liftM (Components.addType (.simple st))) := by
  intro c c' hc
  have hkept := hR.addType (.simple st) c c' (fun _ h => by cases h) hc
  exact ⟨hkept.1, trivial, hkept.2⟩

theorem alike_addSimpleType (hR : Lockstep At R) (st : SimpleType) :
    ReadAlike s s' R (fun _ => True) (addSimpleType st) (addSimpleType st) :=
  (alike_addSimple hR st).bind fun _ _ => .pure trivial

include hR ht in
theorem alike_namedType (key : String) {inside inside' : Reading TypeRef}
    (hinside : ReadAlike s s' R (fun _ => True) inside inside') :
    ReadAlike s s' R (fun _ => True) (namedType t key inside) (namedType t' key inside') :=
  (alike_attributeReference? hR ht key).bind fun n _ => by
    split
    · exact .pure trivial
    · exact hinside

mutual

theorem alike_simpleType? (hR : Lockstep At R) : (n n' : Node) →
    NodesAlike (TagsAlike At s s') n n' →
      ReadAlike s s' R (fun _ => True) (simpleType? n) (simpleType? n')
  | .text _, .text _, _ => by
    rw [simpleType?, simpleType?]
    exact .pure trivial
  | .element t cs, .element t' cs', h => by
    rw [simpleType?, simpleType?, h.1.kind]
    split
    · refine ReadAlike.bind (P := fun _ => True) ?_ fun st _ =>
        (alike_addSimpleType hR st).bind fun _ _ => .pure trivial
      rw [newSimpleType, newSimpleType, documentation?_alike h.2]
      exact alike_simpleParts hR _ cs cs' h.2
    · exact .pure trivial
  | .text _, .element _ _, h => h.elim
  | .element _ _, .text _, h => h.elim

theorem alike_simpleParts (hR : Lockstep At R) (st : SimpleType) : (ns ns' : List Node) →
    ListsAlike (TagsAlike At s s') ns ns' →
      ReadAlike s s' R (fun _ => True) (simpleParts st ns) (simpleParts st ns')
  | [], [], _ => by
    rw [simpleParts]
    exact .pure trivial
  | .text _ :: rest, .text _ :: rest', h => by
    rw [simpleParts, simpleParts]
    exact alike_simpleParts hR st rest rest' h.2
  | .element t cs :: rest, .element t' cs' :: rest', h => by
    have ht := h.1.1
    have hnamed (key : String) : ReadAlike s s' R (fun _ => True)
        (namedType t key (inlineSimpleType cs)) (namedType t' key (inlineSimpleType cs')) :=
      alike_namedType hR ht key (alike_inlineSimpleType hR cs cs' h.1.2)
    have hrest (st : SimpleType) : ReadAlike s s' R (fun _ => True)
        (pure st >>= fun st => simpleParts st rest) (pure st >>= fun st => simpleParts st rest') :=
      ReadAlike.bind (P := fun _ => True) (.pure trivial) fun st _ =>
        alike_simpleParts hR st rest rest' h.2
    rw [simpleParts, simpleParts, ht.kind, ht.attribute?, enumeration_alike h.1.2]
    split
    · exact (hnamed _).bind fun _ _ => hrest _
    · exact (hnamed _).bind fun _ _ => hrest _
    · exact (alike_references hR ht _).bind fun _ _ =>
        (alike_memberTypes hR cs cs' h.1.2).bind fun _ _ => hrest _
    · exact hrest st
  | .text _ :: _, .element _ _ :: _, h => h.1.elim
  | .element _ _ :: _, .text _ :: _, h => h.1.elim
  | [], _ :: _, h => h.elim
  | _ :: _, [], h => h.elim

theorem alike_inlineSimpleType (hR : Lockstep At R) : (ns ns' : List Node) →
    ListsAlike (TagsAlike At s s') ns ns' →
      ReadAlike s s' R (fun _ => True) (inlineSimpleType ns) (inlineSimpleType ns')
  | [], [], _ => by
    rw [inlineSimpleType]
    exact .pure trivial
  | n :: rest, n' :: rest', h => by
    rw [inlineSimpleType, inlineSimpleType]
    refine (alike_simpleType? hR n n' h.1).bind fun t _ => ?_
    split
    · exact .pure trivial
    · exact alike_inlineSimpleType hR rest rest' h.2
  | [], _ :: _, h => h.elim
  | _ :: _, [], h => h.elim

theorem alike_memberTypes (hR : Lockstep At R) : (ns ns' : List Node) →
    ListsAlike (TagsAlike At s s') ns ns' →
      ReadAlike s s' R (fun _ => True) (memberTypes ns) (memberTypes ns')
  | [], [], _ => by
    rw [memberTypes]
    exact .pure trivial
  | n :: rest, n' :: rest', h => by
    rw [memberTypes, memberTypes]
    exact (alike_simpleType? hR n n' h.1).bind fun _ _ =>
      (alike_memberTypes hR rest rest' h.2).bind fun _ _ => .pure trivial
  | [], _ :: _, h => h.elim
  | _ :: _, [], h => h.elim

end

include hR in
theorem alike_simpleType (name? : Option Name) (hcs : ListsAlike (TagsAlike At s s') cs cs') :
    ReadAlike s s' R (fun _ => True) (simpleType name? cs) (simpleType name? cs') := by
  refine ReadAlike.bind (P := fun _ => True) ?_ fun st _ => alike_addSimpleType hR st
  rw [newSimpleType, newSimpleType, documentation?_alike hcs]
  exact alike_simpleParts hR _ cs cs' hcs

end SimpleTypes

/-! ### Elements, attributes and complex types -/

section Declarations

include hR hs ht

omit hR in
theorem alike_declaredName (scoping : Scoping) (default : Form) (written : String) :
    ReadAlike s s' R (fun _ => True) (declaredName t scoping default written)
      (declaredName t' scoping default written) := by
  rw [declaredName, declaredName, ht.attribute?]
  refine ReadAlike.source ?_
  have hlocal : s'.localName = s.localName := by
    funext form localName
    cases form with
    | qualified =>
      rw [Source.localName, Source.localName, Source.globalName, Source.globalName, hs.target?]
    | unqualified => rfl
  rw [hlocal]
  exact .pure trivial

theorem alike_attribute? (scoping : Scoping) (hcs : ListsAlike (TagsAlike At s s') cs cs')
    {inside inside' : Reading TypeRef}
    (hinside : ReadAlike s s' R (fun _ => True) inside inside') :
    ReadAlike s s' R (fun a? : Option AttributeUse => ∀ a ∈ a?, a.Faithful)
      (attribute? scoping t cs inside)
      (attribute? scoping t' cs' inside') := by
  have hnone : ∀ a ∈ (none : Option AttributeUse), a.Faithful :=
    fun a h => absurd h (Option.not_mem_none a)
  rw [attribute?, attribute?, ht.attribute?, ht.attribute?, ht.attribute?, ht.attribute?,
    ht.attribute?, documentation?_alike hcs]
  have hfinish (a? : Option AttributeUse) (ha : ∀ a ∈ a?, a.Faithful) :
      ReadAlike s s' R (fun a? : Option AttributeUse => ∀ a ∈ a?, a.Faithful)
        (pure a? >>= fun declared? => pure (declared?.map fun a => { a with
          use := ((t.attribute? "use").bind Use.read?).getD .optional
          default? := t.attribute? "default"
          fixed? := t.attribute? "fixed"
          documentation? := documentation? cs }))
        (pure a? >>= fun declared? => pure (declared?.map fun a => { a with
          use := ((t.attribute? "use").bind Use.read?).getD .optional
          default? := t.attribute? "default"
          fixed? := t.attribute? "fixed"
          documentation? := documentation? cs })) := by
    refine ReadAlike.pure ?_
    cases a? with
    | none => exact hnone
    | some a =>
      rintro b ⟨⟩
      exact ha a rfl
  split
  · refine (alike_attributeReference? hR ht "ref").bind fun n? _ => hfinish _ ?_
    cases n? with
    | none => exact hnone
    | some n =>
      rintro a ⟨⟩ r ⟨⟩
      rfl
  · split
    · exact (alike_report hR ht _).bind fun _ _ => hfinish none hnone
    · refine ReadAlike.source ?_
      rw [hs.attributeForm]
      refine (alike_declaredName hs ht _ _ _).bind fun name _ =>
        (alike_namedType hR ht "type" hinside).bind fun typeRef _ => hfinish _ ?_
      rintro a ⟨⟩ r ⟨⟩

theorem alike_elementDecl? (scoping : Scoping) (hcs : ListsAlike (TagsAlike At s s') cs cs')
    {inside inside' : Reading TypeRef}
    (hinside : ReadAlike s s' R (fun _ => True) inside inside') :
    ReadAlike s s' R (fun _ => True) (elementDecl? scoping t cs inside)
      (elementDecl? scoping t' cs' inside') := by
  rw [elementDecl?, elementDecl?, ht.attribute?, documentation?_alike hcs]
  split
  · exact (alike_report hR ht _).bind fun _ _ => .pure trivial
  · refine ReadAlike.source ?_
    rw [hs.elementForm, hs.document, ht.attribute?, ht.attribute?, ht.attribute?, ht.attribute?,
      ht.attribute?]
    refine (alike_declaredName hs ht _ _ _).bind fun name _ =>
      (alike_namedType hR ht "type" hinside).bind fun typeRef _ =>
        (alike_references hR ht _).bind fun heads _ => ?_
    have hlater : ReadAlike s s' R (fun _ => True) (liftM Components.requireLater)
        (liftM Components.requireLater) := fun c c' hc => ⟨rfl, trivial, hR.requireLater c c' hc⟩
    have hdeclare (e : ElementDecl) : ReadAlike s s' R (fun _ => True)
        (liftM (Components.addElement e) >>= fun d =>
          if scoping = .global then
            liftM (Components.enterElement name d) >>= fun _ => (pure (some d) : Reading _)
          else pure (some d))
        (liftM (Components.addElement e) >>= fun d =>
          if scoping = .global then
            liftM (Components.enterElement name d) >>= fun _ => (pure (some d) : Reading _)
          else pure (some d)) := by
      intro c c' hc
      obtain ⟨hvalue, hkept⟩ := hR.addElement e c c' hc
      split
      · exact ⟨congrArg some hvalue, trivial, hR.declareElement name e c c' hc⟩
      · exact ⟨congrArg some hvalue, trivial, hkept⟩
    dsimp only
    split
    · exact hlater.bind fun _ _ => hdeclare _
    · exact hdeclare _

theorem alike_elementParticle? (hcs : ListsAlike (TagsAlike At s s') cs cs')
    {inside inside' : Reading TypeRef}
    (hinside : ReadAlike s s' R (fun _ => True) inside inside') :
    ReadAlike s s' R (fun _ => True) (elementParticle? t cs inside)
      (elementParticle? t' cs' inside') := by
  refine (alike_occurs hR ht).bind fun o _ => ?_
  rw [ht.attribute?]
  split
  · exact (alike_attributeReference? hR ht _).bind fun _ _ => .pure trivial
  · exact (alike_elementDecl? hR hs ht _ hcs hinside).bind fun _ _ => .pure trivial

theorem alike_addPart {ct : ComplexType} (hct : ct.Faithful)
    (hcs : ListsAlike (TagsAlike At s s') cs cs')
    {inside inside' : Compositor → Reading (List Particle)}
    {insideType insideType' : Reading TypeRef}
    (hinside : ∀ c, ReadAlike s s' R (fun _ => True) (inside c) (inside' c))
    (hinsideType : ReadAlike s s' R (fun _ => True) insideType insideType') :
    ReadAlike s s' R ComplexType.Faithful (addPart ct t cs inside insideType)
      (addPart ct t' cs' inside' insideType') := by
  rw [addPart, addPart, ht.compositor?, ht.kind]
  split
  · exact (alike_occurs hR ht).bind fun o _ => (hinside _).bind fun ps _ => .pure hct
  · refine (alike_groupRef? hR ht).bind fun p _ => ?_
    split
    · exact .pure hct
    · exact .pure hct
  · refine (alike_attribute? hR hs ht _ hcs hinsideType).bind fun a? ha => .pure ?_
    exact List.forall_mem_append.2 ⟨hct, fun a h => ha a (Option.mem_toList.1 h)⟩
  · exact (alike_attributeReference? hR ht _).bind fun _ _ => .pure hct
  · exact .pure hct

omit hR hs in
theorem addValue_alike (d : Derived) : addValue t' d = addValue t d := by
  rw [addValue.eq_def, addValue.eq_def]
  split
  · rw [ht.attribute?]
  · rfl

omit hs ht in
theorem alike_finishDerivation {ct : ComplexType} (hct : ct.Faithful) (base? : Option Name)
    (d : Derived) :
    ReadAlike s s' R ComplexType.Faithful (finishDerivation ct base? d)
      (finishDerivation ct base? d) := by
  rw [finishDerivation.eq_def]
  split
  · exact (alike_addSimple hR _).bind fun _ _ => .pure hct
  · exact .pure hct

omit hR hs ht in
theorem alike_addRestricted {inside inside' : Reading TypeRef}
    (hinside : ReadAlike s s' R (fun _ => True) inside inside') (d : Derived) :
    ReadAlike s s' R (fun _ => True) (addRestricted inside d) (addRestricted inside' d) := by
  cases d with
  | simple method st? => exact hinside.bind fun _ _ => .pure trivial
  | complex => exact .pure trivial

omit hR hs ht in
theorem faithful_withBase {ct : ComplexType} (hct : ct.Faithful) (method : Derivation)
    (base? : Option Name) : (withBase ct method base?).Faithful := by
  rw [withBase.eq_def]
  split <;> exact hct

omit hR hs in
theorem isMixed_alike (ct : ComplexType) : isMixed ct t' = isMixed ct t := by
  rw [isMixed, isMixed, ht.attribute?]

omit hR hs ht in
theorem faithful_newComplexType (name? : Option Name) (t : Tag) (cs : List Node) :
    (newComplexType name? t cs).Faithful :=
  fun _ h => absurd h List.not_mem_nil

omit hR hs in
theorem newComplexType_alike (name? : Option Name) (hcs : ListsAlike (TagsAlike At s s') cs cs') :
    newComplexType name? t' cs' = newComplexType name? t cs := by
  rw [newComplexType, newComplexType, ht.attribute?, ht.attribute?, documentation?_alike hcs]

end Declarations

section ComplexTypes

/-- A complex type that is read and numbered. -/
theorem alike_addComplexType (hR : Lockstep At R) {ct : ComplexType} (hct : ct.Faithful) :
    ReadAlike s s' R (fun _ => True) (liftM (Components.addType (.complex ct)))
      (liftM (Components.addType (.complex ct))) := by
  intro c c' hc
  have hkept := hR.addType (.complex ct) c c' (fun ct' h => by cases h; exact hct) hc
  exact ⟨hkept.1, trivial, hkept.2⟩

mutual

theorem alike_particle? (hR : Lockstep At R) (hs : SourcesAlike s s') (c : Compositor) :
    (n n' : Node) → NodesAlike (TagsAlike At s s') n n' →
      ReadAlike s s' R (fun _ => True) (particle? c n) (particle? c n')
  | .text _, .text _, _ => by
    rw [particle?, particle?]
    exact .pure trivial
  | .element t cs, .element t' cs', h => by
    rw [particle?, particle?, h.1.compositor?, h.1.kind]
    split
    · exact (alike_occurs hR h.1).bind fun _ _ =>
        (alike_particles hR hs _ cs cs' h.2).bind fun _ _ => .pure trivial
    · exact alike_elementParticle? hR hs h.1 h.2 (alike_inlineType hR hs cs cs' h.2)
    · exact (alike_wildcard hR hs h.1).bind fun _ _ => .pure trivial
    · exact alike_groupRef? hR h.1
    · exact .pure trivial
    · exact .pure trivial
    · exact (alike_report hR h.1 _).bind fun _ _ => .pure trivial
  | .text _, .element _ _, h => h.elim
  | .element _ _, .text _, h => h.elim
termination_by structural nodes => nodes

theorem alike_particles (hR : Lockstep At R) (hs : SourcesAlike s s') (c : Compositor) :
    (ns ns' : List Node) → ListsAlike (TagsAlike At s s') ns ns' →
      ReadAlike s s' R (fun _ => True) (particles c ns) (particles c ns')
  | [], [], _ => by
    rw [particles]
    exact .pure trivial
  | n :: rest, n' :: rest', h => by
    rw [particles, particles]
    exact (alike_particle? hR hs c n n' h.1).bind fun _ _ =>
      (alike_particles hR hs c rest rest' h.2).bind fun _ _ => .pure trivial
  | [], _ :: _, h => h.elim
  | _ :: _, [], h => h.elim
termination_by structural nodes => nodes

theorem alike_inlineType (hR : Lockstep At R) (hs : SourcesAlike s s') :
    (ns ns' : List Node) → ListsAlike (TagsAlike At s s') ns ns' →
      ReadAlike s s' R (fun _ => True) (inlineType ns) (inlineType ns')
  | [], [], _ => by
    rw [inlineType]
    exact .pure trivial
  | .text _ :: rest, .text _ :: rest', h => by
    rw [inlineType, inlineType]
    exact alike_inlineType hR hs rest rest' h.2
  | .element t cs :: rest, .element t' cs' :: rest', h => by
    rw [inlineType, inlineType, h.1.1.kind]
    split
    · rw [newComplexType_alike h.1.1 none h.1.2]
      exact (alike_complexParts hR hs (newComplexType none t cs)
        (faithful_newComplexType none t cs) cs cs' h.1.2).bind
        fun ct hct => (alike_addComplexType hR hct).bind fun _ _ => .pure trivial
    · exact alike_simpleType hR none h.1.2
    · exact alike_inlineType hR hs rest rest' h.2
  | .text _ :: _, .element _ _ :: _, h => h.1.elim
  | .element _ _ :: _, .text _ :: _, h => h.1.elim
  | [], _ :: _, h => h.elim
  | _ :: _, [], h => h.elim
termination_by structural nodes => nodes

theorem alike_complexParts (hR : Lockstep At R) (hs : SourcesAlike s s') (ct : ComplexType)
    (hct : ct.Faithful) : (ns ns' : List Node) → ListsAlike (TagsAlike At s s') ns ns' →
      ReadAlike s s' R ComplexType.Faithful (complexParts ct ns) (complexParts ct ns')
  | [], [], _ => by
    rw [complexParts]
    exact .pure hct
  | .text _ :: rest, .text _ :: rest', h => by
    rw [complexParts, complexParts]
    exact alike_complexParts hR hs ct hct rest rest' h.2
  | .element t cs :: rest, .element t' cs' :: rest', h => by
    rw [complexParts, complexParts, h.1.1.kind, isMixed_alike h.1.1]
    split
    · exact (alike_derivation hR hs t t' h.1.1 _ (by exact hct) _ cs cs' h.1.2).bind fun ct hct =>
        alike_complexParts hR hs ct hct rest rest' h.2
    · exact (alike_derivation hR hs t t' h.1.1 _ (by exact hct) _ cs cs' h.1.2).bind fun ct hct =>
        alike_complexParts hR hs ct hct rest rest' h.2
    · exact (alike_addPart hR hs h.1.1 hct h.1.2 (fun c => alike_particles hR hs c cs cs' h.1.2)
        (alike_inlineType hR hs cs cs' h.1.2)).bind fun ct hct =>
          alike_complexParts hR hs ct hct rest rest' h.2
  | .text _ :: _, .element _ _ :: _, h => h.1.elim
  | .element _ _ :: _, .text _ :: _, h => h.1.elim
  | [], _ :: _, h => h.elim
  | _ :: _, [], h => h.elim
termination_by structural nodes => nodes

theorem alike_derivation (hR : Lockstep At R) (hs : SourcesAlike s s') (outer outer' : Tag)
    (houter : TagsAlike At s s' outer outer') (ct : ComplexType) (hct : ct.Faithful)
    (kindOf : Derivation → Derived) : (ns ns' : List Node) →
      ListsAlike (TagsAlike At s s') ns ns' → ReadAlike s s' R ComplexType.Faithful
        (derivation outer ct kindOf ns) (derivation outer' ct kindOf ns')
  | [], [], _ => by
    rw [derivation, derivation]
    exact (alike_report hR houter _).bind fun _ _ => .pure hct
  | .text _ :: rest, .text _ :: rest', h => by
    rw [derivation, derivation]
    exact alike_derivation hR hs outer outer' houter ct hct kindOf rest rest' h.2
  | .element t cs :: rest, .element t' cs' :: rest', h => by
    rw [derivation, derivation, h.1.1.kind]
    split
    · exact (alike_attributeReference? hR h.1.1 _).bind fun base? _ =>
        (alike_derivationParts hR hs _ (faithful_withBase hct _ base?) _ cs cs' h.1.2).bind
          fun (_, d) hct => alike_finishDerivation hR hct base? d
    · exact alike_derivation hR hs outer outer' houter ct hct kindOf rest rest' h.2
  | .text _ :: _, .element _ _ :: _, h => h.1.elim
  | .element _ _ :: _, .text _ :: _, h => h.1.elim
  | [], _ :: _, h => h.elim
  | _ :: _, [], h => h.elim
termination_by structural nodes => nodes

theorem alike_derivationParts (hR : Lockstep At R) (hs : SourcesAlike s s') (ct : ComplexType)
    (hct : ct.Faithful) (d : Derived) : (ns ns' : List Node) →
      ListsAlike (TagsAlike At s s') ns ns' → ReadAlike s s' R
        (fun r : ComplexType × Derived => r.1.Faithful) (derivationParts ct d ns)
        (derivationParts ct d ns')
  | [], [], _ => by
    rw [derivationParts]
    exact .pure hct
  | .text _ :: rest, .text _ :: rest', h => by
    rw [derivationParts, derivationParts]
    exact alike_derivationParts hR hs ct hct d rest rest' h.2
  | .element t cs :: rest, .element t' cs' :: rest', h => by
    rw [derivationParts, derivationParts, h.1.1.kind, addValue_alike h.1.1]
    split
    · exact alike_derivationParts hR hs ct hct _ rest rest' h.2
    · exact (alike_addRestricted (alike_simpleType hR none h.1.2) d).bind fun d _ =>
        alike_derivationParts hR hs ct hct d rest rest' h.2
    · exact (alike_addPart hR hs h.1.1 hct h.1.2 (fun c => alike_particles hR hs c cs cs' h.1.2)
        (alike_inlineType hR hs cs cs' h.1.2)).bind fun ct hct =>
          alike_derivationParts hR hs ct hct d rest rest' h.2
  | .text _ :: _, .element _ _ :: _, h => h.1.elim
  | .element _ _ :: _, .text _ :: _, h => h.1.elim
  | [], _ :: _, h => h.elim
  | _ :: _, [], h => h.elim
termination_by structural nodes => nodes

end

end ComplexTypes

/-! ### Declarations at the top -/

section Top

include hR hs

theorem alike_addAttributePart {g : AttributeGroup} (hg : ∀ a ∈ g.attributes, a.Faithful)
    {e e' : Tag × List Node} (he : ElementsAlike (TagsAlike At s s') e e') :
    ReadAlike s s' R (fun g : AttributeGroup => ∀ a ∈ g.attributes, a.Faithful)
      (addAttributePart g e) (addAttributePart g e') := by
  rw [addAttributePart, addAttributePart, he.1.kind]
  split
  · refine (alike_attribute? hR hs he.1 _ he.2 (alike_inlineType hR hs _ _ he.2)).bind
      fun a? ha => .pure ?_
    exact List.forall_mem_append.2 ⟨hg, fun a h => ha a (Option.mem_toList.1 h)⟩
  · exact (alike_attributeReference? hR he.1 _).bind fun _ _ => .pure hg
  · exact .pure hg

theorem alike_attributeParts {es es' : List (Tag × List Node)}
    (hes : List.Forall₂ (ElementsAlike (TagsAlike At s s')) es es') {g : AttributeGroup}
    (hg : ∀ a ∈ g.attributes, a.Faithful) :
    ReadAlike s s' R (fun g : AttributeGroup => ∀ a ∈ g.attributes, a.Faithful)
      (es.foldlM addAttributePart g) (es'.foldlM addAttributePart g) := by
  induction hes generalizing g with
  | nil => exact .pure hg
  | cons he _ ih =>
    rw [List.foldlM_cons, List.foldlM_cons]
    exact (alike_addAttributePart hR hs hg he).bind fun g hg => ih hg

theorem alike_namedGroup {es es' : List (Tag × List Node)}
    (hes : List.Forall₂ (ElementsAlike (TagsAlike At s s')) es es') :
    ReadAlike s s' R (fun _ => True) (namedGroup es) (namedGroup es') := by
  induction hes with
  | nil => exact .pure trivial
  | @cons e e' es es' he _ ih =>
    obtain ⟨t, cs⟩ := e
    obtain ⟨t', cs'⟩ := e'
    obtain ⟨ht, hcs⟩ : TagsAlike At s s' t t' ∧ ListsAlike (TagsAlike At s s') cs cs' := he
    rw [namedGroup, namedGroup, ht.compositor?]
    split
    · exact (alike_occurs hR ht).bind fun _ _ =>
        (alike_particles hR hs _ cs cs' hcs).bind fun _ _ => .pure trivial
    · exact ih

/-- **A declaration at the top of a document is read alike.** -/
theorem alike_declare {e e' : Tag × List Node} (he : ElementsAlike (TagsAlike At s s') e e') :
    ReadAlike s s' R (fun _ => True) (declare e) (declare e') := by
  obtain ⟨t, cs⟩ := e
  obtain ⟨t', cs'⟩ := e'
  obtain ⟨ht, hcs⟩ : TagsAlike At s s' t t' ∧ ListsAlike (TagsAlike At s s') cs cs' := he
  have henterType (n : Name) (d : TypeId) : ReadAlike s s' R (fun _ => True)
      (liftM (Components.enterType n d)) (liftM (Components.enterType n d)) :=
    fun c c' hc => ⟨rfl, trivial, hR.enterType n d c c' hc⟩
  have hinside := alike_inlineType hR hs cs cs' hcs
  have helements := hcs.elements fun _ _ (h : TagsAlike At s s' _ _) => h.space
  rw [declare, declare, ht.kind]
  split
  · exact (alike_elementDecl? hR hs ht _ hcs hinside).bind fun _ _ => .pure trivial
  · refine (alike_requiredName? hR hs ht).bind fun n? _ => ?_
    split
    · rw [newComplexType_alike ht _ hcs]
      exact (alike_complexParts hR hs _ (faithful_newComplexType _ t cs) cs cs' hcs).bind
        fun ct hct => (alike_addComplexType hR hct).bind fun d _ => henterType _ d
    · exact .pure trivial
  · refine (alike_requiredName? hR hs ht).bind fun n? _ => ?_
    split
    · rw [newSimpleType, newSimpleType, documentation?_alike hcs]
      exact (alike_simpleParts hR _ cs cs' hcs).bind fun st _ =>
        (alike_addSimple hR st).bind fun d _ => henterType _ d
    · exact .pure trivial
  · refine (alike_attribute? hR hs ht _ hcs hinside).bind fun a? _ => ?_
    split
    · next a _ => exact fun c c' hc => ⟨rfl, trivial, hR.enterAttribute a c c' hc⟩
    · exact .pure trivial
  · refine (alike_requiredName? hR hs ht).bind fun n? _ => ?_
    split
    · next n =>
      refine (alike_attributeParts hR hs helements ?_).bind fun g hg c c' hc =>
        ⟨rfl, trivial, hR.enterAttributeGroup n g c c' hg hc⟩
      exact fun _ h => absurd h List.not_mem_nil
    · exact .pure trivial
  · refine (alike_requiredName? hR hs ht).bind fun n? _ => ?_
    split
    · next n =>
      exact (alike_namedGroup hR hs helements).bind fun g _ c c' hc =>
        ⟨rfl, trivial, hR.enterGroup n g c c' hc⟩
    · exact .pure trivial
  · exact .pure trivial

/-- **The declarations of documents that are alike are read alike.** -/
theorem alike_declarations {es es' : List (Tag × List Node)}
    (hes : List.Forall₂ (ElementsAlike (TagsAlike At s s')) es es') :
    Together R (fun _ => True) (es.forM fun e => (declare e).run s)
      (es'.forM fun e => (declare e).run s') := by
  induction hes with
  | nil => exact .pure trivial
  | cons he _ ih => exact Together.bind (alike_declare hR hs he) fun _ _ => ih

end Top

end Reads
end Schema

/-! ### One document -/

namespace Components

variable {I : Components → Prop}

/-- A document is like itself. -/
theorem sourcesAlike_refl (s : Schema.Source) : Schema.SourcesAlike s s := ⟨rfl, rfl, rfl, rfl⟩

theorem tagsAlike_refl (s : Schema.Source) (t : Markup.Tag) : Schema.TagsAlike Eq s s t t :=
  ⟨rfl, rfl, rfl, fun _ => rfl, fun _ => rfl⟩

/-- **What every single step of reading keeps is kept by a document**, if it says nothing about the
documents themselves. -/
theorem keeps_submit (hI : Schema.Lockstep Eq fun c c' => c' = c ∧ I c)
    (hroot : ∀ c version target? locations, I c → I { c with version, target?, locations })
    (d : Submission) {c : Components} (hc : I c) : I ((submit d).run c).2 := by
  rcases run_addDocument_cases d.text d.location d.including? c with
    ⟨e, hrun, -⟩ | ⟨root, cs, -, hrun⟩
  · rw [submit, hrun]
    cases e with
    | notSchema _ => exact hroot c _ _ _ hc
    | _ => exact hc
  · rw [submit, hrun, StateT.run_map, Schema.run_readRoot]
    have hread (s : Schema.Source) (c : Components) (hc : I c) :
        I (((Schema.elements cs).forM fun e => (Schema.declare e).run s).run c).2 :=
      (Schema.alike_declarations hI (sourcesAlike_refl s)
        ((Schema.ListsAlike.refl (tagsAlike_refl s) cs).elements fun _ _ h => h.space)
        c c ⟨rfl, hc⟩).2.2.2
    exact hread _ _ (hroot c _ _ _ hc)

/-- What every single step of reading keeps is kept by any documents. -/
theorem keeps_after (hI : Schema.Lockstep Eq fun c c' => c' = c ∧ I c)
    (hroot : ∀ c version target? locations, I c → I { c with version, target?, locations })
    (docs : List Submission) {c : Components} (hc : I c) : I (c.after docs) :=
  List.foldlRecOn (motive := I) docs _ hc fun _ hc d _ => keeps_submit hI hroot d hc

end Components
end SchemaAssist
