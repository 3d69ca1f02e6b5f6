/-
# Reading behind other components

Whatever a document declares, it is read in the same way behind other components: the declarations
and types come after those that are there, and what is wrong with the document is recorded after what
has been recorded (`Schema.placed_declare`).  At the same time everything that the document puts into
the components refers to something that is there.
-/

import SchemaAssist.Proofs.Placement

namespace SchemaAssist

open Referring (rename Sound sound_mono sound_none sound_some sound_nil sound_append sound_toList
  rename_append rename_toList rename_names rename_name?)

instance : Referring Schema.Source where
  rename ρ s := { s with document := ρ.document s.document }
  Sound e s := s.document < e.documents
  sound_rename h hs := h.document _ hs
  rename_congr h hs := by rw [h.document _ hs]
  rename_rename _ _ _ := rfl
  rename_id _ := rfl

instance : Referring Schema.Derived where
  rename ρ
    | .simple method st? => .simple method (rename ρ st?)
    | .complex => .complex
  Sound e
    | .simple _ st? => Sound e st?
    | .complex => True
  sound_rename {e e' ρ d} h hd := by
    cases d with
    | simple method st? => exact Referring.sound_rename (α := Option SimpleType) h hd
    | complex => trivial
  rename_congr {e ρ σ d} h hd := by
    cases d with
    | simple method st? =>
      exact congrArg (Schema.Derived.simple method)
        (Referring.rename_congr (α := Option SimpleType) h hd)
    | complex => rfl
  rename_rename ρ σ d := by
    cases d with
    | simple method st? =>
      exact congrArg (Schema.Derived.simple method) (Referring.rename_rename ρ σ st?)
    | complex => rfl
  rename_id d := by
    cases d with
    | simple method st? => exact congrArg (Schema.Derived.simple method) (Referring.rename_id st?)
    | complex => rfl

namespace Schema

open Markup (Tag Node)
open Components (Grows)

namespace Reading

variable {α β : Type} [Referring α] [Referring β] {base : Components} {e e' : Extent}

/-- A step of reading that does the same behind other components as long as there is at least what
an extent says. -/
def Placed (base : Components) (e : Extent) (x x' : Reading α) : Prop :=
  ∀ (s : Source) (c : Components), c.Intact → e ≤ c.extent → Sound c.extent s →
    Building.PlacedAt base (x.run s) (x'.run (rename base.offset s)) c

namespace Placed

theorem pure {a : α} (ha : Sound e a) : Placed base e (pure a) (pure (rename base.offset a)) :=
  fun _ _ hc he _ => .pure hc (sound_mono he ha)

theorem mono {x x' : Reading α} (hx : Placed base e x x') (h : e ≤ e') : Placed base e' x x' :=
  fun s c hc he hs => hx s c hc (Extent.le_trans h he) hs

theorem bind {x x' : Reading α} {f f' : α → Reading β} (hx : Placed base e x x')
    (hf : ∀ e', e ≤ e' → ∀ a, Sound e' a → Placed base e' (f a) (f' (rename base.offset a))) :
    Placed base e (x >>= f) (x' >>= f') := by
  intro s c hc he hs
  have hplaced := hx s c hc he hs
  have hnext := hf _ (Extent.le_trans he hplaced.grows.extent) _ hplaced.sound s _ hplaced.intact
    (Extent.le_refl _) (sound_mono hplaced.grows.extent hs)
  change Building.PlacedAt base (x.run s >>= fun a => (f a).run s)
    (x'.run (rename base.offset s) >>= fun a => (f' a).run (rename base.offset s)) c
  exact hplaced.bind hnext

/-- A value that is put together from what a step reads. -/
theorem map {x x' : Reading α} {f f' : α → β} (hx : Placed base e x x')
    (hf : ∀ e', e ≤ e' → ∀ a, Sound e' a → Sound e' (f a))
    (hrename : ∀ a, rename base.offset (f a) = f' (rename base.offset a)) :
    Placed base e (x >>= fun a => Pure.pure (f a)) (x' >>= fun a => Pure.pure (f' a)) :=
  hx.bind fun e' he a ha => hrename a ▸ pure (hf e' he a ha)

theorem read : Placed base e (read : Reading Source) read := fun _ _ hc _ hs => .pure hc hs

theorem lift {x x' : Building α}
    (h : ∀ c, c.Intact → e ≤ c.extent → Building.PlacedAt base x x' c) :
    Placed base e (liftM x) (liftM x') := fun _ c hc he _ => h c hc he

omit [Referring β] in
theorem mapM {as : List β} {f f' : β → Reading α} (h : ∀ b ∈ as, Placed base e (f b) (f' b)) :
    Placed base e (as.mapM f) (as.mapM f') := by
  induction as with
  | nil => exact pure (α := List α) nofun
  | cons b as ih =>
    rw [List.forall_mem_cons] at h
    rw [List.mapM_cons, List.mapM_cons]
    refine h.1.bind fun e' he a ha => ((ih h.2).mono he).bind fun e'' he' bs hbs => ?_
    exact pure (α := List α) (List.forall_mem_cons.2 ⟨sound_mono he' ha, hbs⟩)

end Placed
end Reading

open Reading (Placed)

section

variable {base : Components} {e : Extent}

/-! ### Tags -/

@[simp] theorem referenceSpace_rename (ρ : Renaming) (s : Source) :
    (rename ρ s).referenceSpace = s.referenceSpace := rfl

@[simp] theorem reference_rename (ρ : Renaming) (s : Source) :
    (rename ρ s).reference = s.reference := by
  funext scope value
  rw [Source.reference, Source.reference, referenceSpace_rename]

@[simp] theorem localName_rename (ρ : Renaming) (s : Source) :
    (rename ρ s).localName = s.localName := rfl

@[simp] theorem globalName_rename (ρ : Renaming) (s : Source) :
    (rename ρ s).globalName = s.globalName := rfl

@[simp] theorem target?_rename (ρ : Renaming) (s : Source) :
    (rename ρ s).target? = s.target? := rfl

theorem placed_report (t : Tag) (f : Fault) : Placed base e (report t f) (report t f) :=
  Placed.read.bind fun _ _ _ _ => .lift fun _ hc _ => Components.placedAt_record hc _

theorem placed_reference? (t : Tag) (value : String) :
    Placed base e (reference? t value) (reference? t value) := by
  refine Placed.read.bind fun e' _ s _ => ?_
  rw [reference_rename]
  cases s.reference t.scope value with
  | ok n => exact .pure (α := Option Name) fun _ _ => trivial
  | error f =>
    exact (placed_report t f).bind fun _ _ _ _ => .pure (α := Option Name) nofun

theorem placed_attributeReference? (t : Tag) (key : String) :
    Placed base e (attributeReference? t key) (attributeReference? t key) := by
  rw [attributeReference?]
  split
  · exact placed_reference? t _
  · exact .pure (α := Option Name) nofun

theorem placed_references (t : Tag) (value : String) :
    Placed base e (references t value) (references t value) := by
  refine (Placed.mapM fun w _ => placed_reference? t w).map (fun _ _ _ _ _ _ => trivial) ?_
  intro ns
  change (ns.filterMap id).map (fun n => n) = (ns.map (Option.map fun n => n)).filterMap id
  simp

theorem placed_occurs (t : Tag) : Placed base e (occurs t) (occurs t) := by
  rw [occurs]
  split
  · next o ho => exact .pure (α := Occurs) (Occurs.valid_of_read ho)
  · exact (placed_report t _).bind fun _ _ _ _ => .pure (α := Occurs) Occurs.valid_once

theorem placed_wildcard (t : Tag) : Placed base e (wildcard t) (wildcard t) := by
  refine (placed_occurs t).bind fun e' _ o ho => Placed.read.bind fun e'' _ s _ => ?_
  rw [target?_rename]
  extract_lets target? spaces
  clear_value spaces
  cases spaces with
  | ok spaces => exact .pure (α := Wildcard) ho
  | error f => exact (placed_report t _).bind fun _ _ _ _ => .pure (α := Wildcard) ho

theorem placed_groupRef? (t : Tag) : Placed base e (groupRef? t) (groupRef? t) := by
  refine (placed_occurs t).bind fun e' _ o ho =>
    (placed_attributeReference? t "ref").bind fun e'' _ n? _ => ?_
  cases n? with
  | some n =>
    exact .pure (α := Option Particle) (sound_some (Particle.soundIn_groupRef.2 ho))
  | none => exact (placed_report t _).bind fun _ _ _ _ => .pure (α := Option Particle) sound_none

theorem placed_requiredName? (t : Tag) : Placed base e (requiredName? t) (requiredName? t) := by
  rw [requiredName?]
  split
  · refine Placed.read.bind fun _ _ s _ => ?_
    rw [globalName_rename]
    exact .pure (α := Option Name) fun _ _ => trivial
  · exact (placed_report t _).bind fun _ _ _ _ => .pure (α := Option Name) sound_none

/-! ### Simple types -/

variable {st : SimpleType}

theorem placed_addSimpleType (hst : Sound e st) :
    Placed base e (addSimpleType st) (addSimpleType (rename base.offset st)) := by
  refine (Placed.lift fun c hc he => ?_).map (α := TypeId) (fun _ _ _ h => h) fun _ => rfl
  exact Components.placedAt_addType hc (sound_mono (α := TypeDef) he hst)

theorem placed_namedType {inside inside' : Reading TypeRef} (hinside : Placed base e inside inside')
    (t : Tag) (key : String) : Placed base e (namedType t key inside) (namedType t key inside') := by
  refine (placed_attributeReference? t key).bind fun e' he n? _ => ?_
  cases n? with
  | some n => exact .pure (α := TypeRef) trivial
  | none => exact hinside.mono he

theorem sound_newSimpleType (name? : Option Name) (cs : List Node) :
    Sound e (newSimpleType name? cs) := ⟨trivial, sound_none, trivial, sound_nil⟩

theorem sound_named {ns : List Name} : Sound e (ns.map TypeRef.named) := by
  intro t ht
  obtain ⟨n, -, rfl⟩ := List.mem_map.1 ht
  trivial

theorem rename_named (ρ : Renaming) (ns : List Name) :
    rename ρ (ns.map TypeRef.named) = (rename ρ ns).map TypeRef.named := by
  change (ns.map TypeRef.named).map (rename ρ) = (ns.map fun n => n).map TypeRef.named
  rw [List.map_id', List.map_map]
  rfl

mutual

theorem placed_simpleType? (e : Extent) :
    (n : Node) → Placed base e (simpleType? n) (simpleType? n)
  | .text _ => by
    rw [simpleType?]
    exact .pure (α := Option TypeRef) sound_none
  | .element t cs => by
    rw [simpleType?]
    split
    · refine (placed_simpleParts (sound_newSimpleType none cs) cs).bind fun e' _ st hst => ?_
      exact (placed_addSimpleType hst).map (fun _ _ _ => sound_some) fun _ => rfl
    · exact .pure (α := Option TypeRef) sound_none

theorem placed_simpleParts {e : Extent} {st : SimpleType} (hst : Sound e st) :
    (ns : List Node) →
      Placed base e (simpleParts st ns) (simpleParts (rename base.offset st) ns)
  | [] => by
    rw [simpleParts, simpleParts]
    exact .pure hst
  | .text _ :: rest => by
    rw [simpleParts, simpleParts]
    exact placed_simpleParts hst rest
  | .element t cs :: rest => by
    have hnamed (key : String) : Placed base e (namedType t key (inlineSimpleType cs))
        (namedType t key (inlineSimpleType cs)) :=
      placed_namedType (placed_inlineSimpleType e cs) t key
    have hrest {e' : Extent} {st : SimpleType} (hst : Sound e' st) :
        Placed base e' (pure st >>= fun st => simpleParts st rest)
          (pure (rename base.offset st) >>= fun st => simpleParts st rest) :=
      (Placed.pure hst).bind fun e'' _ st hst => placed_simpleParts hst rest
    rw [simpleParts, simpleParts]
    split
    · exact (hnamed _).bind fun e' he b hb => hrest ⟨hb, (sound_mono he hst).2⟩
    · refine (hnamed _).bind fun e' he b hb => hrest ?_
      obtain ⟨hbase, hbase?, -, hmembers⟩ := sound_mono he hst
      exact ⟨hbase, hbase?, hb, hmembers⟩
    · refine (placed_references t _).bind fun e' he named _ => ?_
      refine (placed_memberTypes e' cs).bind fun e'' he' inside hinside => ?_
      have hmembers : rename base.offset (st.members ++ named.map TypeRef.named ++ inside) =
          (rename base.offset st).members ++ (rename base.offset named).map TypeRef.named ++
            rename base.offset inside := by
        rw [rename_append, rename_append, rename_named]
        rfl
      rw [← hmembers]
      obtain ⟨hbase, hbase?, hitem, hold⟩ := sound_mono (Extent.le_trans he he') hst
      exact hrest ⟨hbase, hbase?, hitem, sound_append (sound_append hold sound_named) hinside⟩
    · exact hrest hst

theorem placed_inlineSimpleType (e : Extent) :
    (ns : List Node) → Placed base e (inlineSimpleType ns) (inlineSimpleType ns)
  | [] => by
    rw [inlineSimpleType]
    exact .pure (α := TypeRef) trivial
  | n :: rest => by
    rw [inlineSimpleType]
    refine (placed_simpleType? e n).bind fun e' _ t? ht => ?_
    cases t? with
    | some t => exact .pure (ht t rfl)
    | none => exact placed_inlineSimpleType e' rest

theorem placed_memberTypes (e : Extent) :
    (ns : List Node) → Placed base e (memberTypes ns) (memberTypes ns)
  | [] => by
    rw [memberTypes]
    exact .pure (α := List TypeRef) sound_nil
  | n :: rest => by
    rw [memberTypes]
    refine (placed_simpleType? e n).bind fun e' _ t? ht => ?_
    refine (placed_memberTypes e' rest).map (fun e'' he ts hts => ?_) fun ts => ?_
    · exact sound_append (sound_toList (sound_mono he ht)) hts
    · rw [rename_append, rename_toList]

end

theorem placed_simpleType (e : Extent) (name? : Option Name) (cs : List Node) :
    Placed base e (simpleType name? cs) (simpleType name? cs) :=
  (placed_simpleParts (sound_newSimpleType name? cs) cs).bind fun _ _ _ hst =>
    placed_addSimpleType hst

/-! ### Elements and attributes -/

theorem placed_declaredName (t : Tag) (scoping : Scoping) (default : Form) (written : String) :
    Placed base e (declaredName t scoping default written)
      (declaredName t scoping default written) :=
  Placed.read.bind fun _ _ s _ => by
    rw [localName_rename]
    exact .pure (α := Name) trivial

theorem placed_elementDecl? (scoping : Scoping) (t : Tag) (cs : List Node)
    {inside inside' : Reading TypeRef} (hinside : Placed base e inside inside') :
    Placed base e (elementDecl? scoping t cs inside) (elementDecl? scoping t cs inside') := by
  rw [elementDecl?, elementDecl?]
  split
  · exact (placed_report t _).bind fun _ _ _ _ => .pure (α := Option ElementId) sound_none
  · refine Placed.read.bind fun e₁ h₁ s hs => (placed_declaredName t scoping s.elementForm _).bind
      fun e₂ h₂ name _ => (placed_namedType (hinside.mono (Extent.le_trans h₁ h₂)) _ _).bind
        fun e₃ h₃ r hr => (placed_references t _).bind fun e₄ h₄ heads _ => ?_
    rw [rename_names]
    extract_lets declare declare'
    have hdeclare {e₅ : Extent} (h₅ : e₄ ≤ e₅) : Placed base e₅ (declare ()) (declare' ()) := by
      have hdecl : Sound e₅ ({
          name, scoping, typeRef := r, heads
          isAbstract := isTrue (t.attribute? "abstract")
          nillable := isTrue (t.attribute? "nillable")
          default? := t.attribute? "default"
          fixed? := t.attribute? "fixed"
          documentation? := documentation? cs
          document := s.document } : ElementDecl) :=
        ⟨sound_mono (Extent.le_trans h₄ h₅) hr, sound_none,
          sound_mono (Extent.le_trans h₂ (Extent.le_trans h₃ (Extent.le_trans h₄ h₅))) hs⟩
      refine (Placed.lift fun c hc he => Components.placedAt_addElement hc
        (sound_mono he hdecl)).bind fun e₆ _ d hd => ?_
      have hfound : Placed base e₆ (pure (some d)) (pure (some (rename base.offset d))) :=
        .pure (α := Option ElementId) (sound_some hd)
      by_cases hscoping : scoping = .global
      · rw [if_pos hscoping, if_pos hscoping]
        exact (Placed.lift fun c hc he => Components.placedAt_enterElement hc
          (sound_mono he hd)).bind fun e₇ h₇ _ _ => hfound.mono h₇
      · rw [if_neg hscoping, if_neg hscoping]
        exact hfound
    split
    · exact (Placed.lift fun c hc _ => Components.placedAt_requireLater hc).bind fun e₅ h₅ _ _ =>
        hdeclare h₅
    · exact hdeclare (Extent.le_refl _)

theorem placed_elementParticle? (t : Tag) (cs : List Node) {inside inside' : Reading TypeRef}
    (hinside : Placed base e inside inside') :
    Placed base e (elementParticle? t cs inside) (elementParticle? t cs inside') := by
  refine (placed_occurs t).bind fun e₁ h₁ o ho => ?_
  split
  · refine (placed_attributeReference? t _).map (α := Option Name) (fun e₂ h₂ n? _ => ?_) fun n? => ?_
    · intro p hp
      obtain ⟨n, -, rfl⟩ := Option.map_eq_some_iff.1 hp
      exact Particle.soundIn_elementRef.2 ho
    · cases n? <;> rfl
  · refine (placed_elementDecl? .local t cs (hinside.mono h₁)).map (fun e₂ h₂ d? hd => ?_) fun d? => ?_
    · intro p hp
      obtain ⟨d, rfl, rfl⟩ := Option.map_eq_some_iff.1 hp
      exact Particle.soundIn_element.2 ⟨ho, hd d rfl⟩
    · cases d? <;> rfl

theorem placed_attribute? (scoping : Scoping) (t : Tag) (cs : List Node)
    {inside inside' : Reading TypeRef} (hinside : Placed base e inside inside') :
    Placed base e (attribute? scoping t cs inside) (attribute? scoping t cs inside') := by
  -- what the other attributes of the tag say changes nothing that is referred to
  have hrest {e' : Extent} {a? : Option AttributeUse} (ha : Sound e' a?) :
      Placed base e' (pure (a?.map fun a => { a with
        use := ((t.attribute? "use").bind Use.read?).getD .optional
        default? := t.attribute? "default"
        fixed? := t.attribute? "fixed"
        documentation? := documentation? cs }))
      (pure ((rename base.offset a?).map fun a => { a with
        use := ((t.attribute? "use").bind Use.read?).getD .optional
        default? := t.attribute? "default"
        fixed? := t.attribute? "fixed"
        documentation? := documentation? cs })) := by
    cases a? with
    | none => exact .pure (α := Option AttributeUse) sound_none
    | some a => exact .pure (α := Option AttributeUse) (sound_some (ha a rfl))
  rw [attribute?, attribute?]
  split
  · refine (placed_attributeReference? t _).bind fun e₁ h₁ n? _ => ?_
    cases n? with
    | none =>
      exact (Placed.pure (α := Option AttributeUse) sound_none).bind fun _ _ _ ha => hrest ha
    | some n =>
      have ha : Sound e₁ ({ name := n, reference? := some n } : AttributeUse) :=
        ⟨trivial, sound_none⟩
      exact (Placed.pure (sound_some ha)).bind fun _ _ _ ha => hrest ha
  · split
    · exact (placed_report t _).bind fun _ _ _ _ =>
        (Placed.pure (α := Option AttributeUse) sound_none).bind fun _ _ _ ha => hrest ha
    · refine Placed.read.bind fun e₁ h₁ s _ => (placed_declaredName t scoping s.attributeForm _).bind
        fun e₂ h₂ name _ => (placed_namedType (hinside.mono (Extent.le_trans h₁ h₂)) _ _).bind
          fun e₃ h₃ r hr => ?_
      have ha : Sound e₃ ({ name, typeRef := r } : AttributeUse) := ⟨hr, sound_none⟩
      exact (Placed.pure (sound_some ha)).bind fun _ _ _ ha => hrest ha

/-! ### Complex types -/

variable {ct : ComplexType}

theorem sound_newComplexType (name? : Option Name) (t : Tag) (cs : List Node) :
    Sound e (newComplexType name? t cs) := ⟨trivial, sound_nil⟩

theorem placed_addPart (hct : Sound e ct) (t : Tag) (cs : List Node)
    {inside inside' : Compositor → Reading (List Particle)} {insideType insideType' : Reading TypeRef}
    (hinside : ∀ c, Placed base e (inside c) (inside' c))
    (hinsideType : Placed base e insideType insideType') :
    Placed base e (addPart ct t cs inside insideType)
      (addPart (rename base.offset ct) t cs inside' insideType') := by
  rw [addPart, addPart]
  split
  · refine (placed_occurs t).bind fun e₁ h₁ o ho => ((hinside _).mono h₁).map (fun e₂ h₂ ps hps => ?_)
      fun _ => rfl
    exact ⟨Particle.soundIn_group.2 ⟨ho, hps⟩, (sound_mono (Extent.le_trans h₁ h₂) hct).2⟩
  · refine (placed_groupRef? t).bind fun e₁ h₁ p? hp => ?_
    cases p? with
    | none => exact .pure (sound_mono h₁ hct)
    | some p =>
      have hcontent : Sound e₁ (Content.group ⟨.sequence, [p], .once⟩) :=
        Particle.soundIn_group.2 ⟨Occurs.valid_once, List.forall_mem_singleton.2 (hp p rfl)⟩
      exact .pure (α := ComplexType) ⟨hcontent, (sound_mono h₁ hct).2⟩
  · refine (placed_attribute? _ t cs hinsideType).map (fun e₁ h₁ a? ha => ?_) fun a? => ?_
    · obtain ⟨hcontent, hattributes⟩ := sound_mono h₁ hct
      exact ⟨hcontent, sound_append hattributes (sound_toList ha)⟩
    · change ({ rename base.offset ct with
        attributes := rename base.offset (ct.attributes ++ a?.toList) } : ComplexType) = _
      rw [rename_append, rename_toList]
      rfl
  · refine (placed_attributeReference? t _).map (fun e₁ h₁ n? _ => sound_mono (α := ComplexType) h₁ hct)
      fun n? => ?_
    cases n? <;> rfl
  · exact .pure hct

theorem placed_addRestricted {inside inside' : Reading TypeRef}
    (hinside : Placed base e inside inside') {d : Derived} (hd : Sound e d) :
    Placed base e (addRestricted inside d) (addRestricted inside' (rename base.offset d)) := by
  cases d with
  | simple method st? =>
    refine hinside.map (β := Derived) (fun e₁ h₁ r hr => ?_) fun r => ?_
    · cases st? with
      | none => exact sound_some (α := SimpleType) ⟨hr, sound_none, trivial, sound_nil⟩
      | some st => exact sound_some (α := SimpleType) ⟨hr, (sound_mono h₁ (hd st rfl)).2⟩
    · cases st? <;> rfl
  | complex => exact .pure hd

/-- The type that a restriction names stands in where it holds none. -/
theorem rename_orElse (ρ : Renaming) (r : TypeRef) (base? : Option Name) :
    (if rename ρ r = .unspecified then (base?.map TypeRef.named).getD .unspecified
      else rename ρ r) =
      rename ρ (if r = .unspecified then (base?.map TypeRef.named).getD .unspecified else r) := by
  cases r with
  | unspecified => cases base? <;> rfl
  | _ => rfl

theorem placed_finishDerivation (hct : Sound e ct) (base? : Option Name) {d : Derived}
    (hd : Sound e d) : Placed base e (finishDerivation ct base? d)
      (finishDerivation (rename base.offset ct) base? (rename base.offset d)) := by
  rw [finishDerivation.eq_def, finishDerivation.eq_def]
  cases d with
  | simple method st? =>
    cases st? with
    | none => exact .pure hct
    | some st =>
      have hst : Sound e st := hd st rfl
      have hnamed : Sound e ((base?.map TypeRef.named).getD .unspecified) := by
        cases base? <;> trivial
      have hbase : Sound e (if st.base = .unspecified then (base?.map TypeRef.named).getD .unspecified
          else st.base) := by
        split
        · exact hnamed
        · exact hst.1
      refine (Placed.lift fun c hc he => ?_).bind fun e₁ h₁ t ht =>
        .pure (α := ComplexType) ⟨ht, (sound_mono h₁ hct).2⟩
      change Building.PlacedAt base _ (Components.addType (.simple { rename base.offset st with
        base := if rename base.offset st.base = .unspecified then _ else rename base.offset st.base }))
          c
      rw [rename_orElse base.offset st.base base?]
      exact Components.placedAt_addType hc (sound_mono (α := TypeDef) he ⟨hbase, hst.2⟩)
  | complex => exact .pure hct

theorem rename_withBase (ρ : Renaming) (m : Derivation) (base? : Option Name) :
    rename ρ (withBase ct m base?) = withBase (rename ρ ct) m base? := by
  cases base? <;> rfl

theorem rename_addValue (ρ : Renaming) (t : Tag) (d : Derived) :
    rename ρ (addValue t d) = addValue t (rename ρ d) := by
  cases d with
  | simple m st? =>
    cases m with
    | extension => rfl
    | restriction =>
      change _ = addValue t (.simple .restriction (rename ρ st?))
      cases hvalue : t.attribute? "value" with
      | none => simp only [addValue, hvalue]; rfl
      | some value => cases st? <;> (simp only [addValue, hvalue]; rfl)
  | complex => rfl

theorem sound_addValue (t : Tag) {d : Derived} (hd : Sound e d) : Sound e (addValue t d) := by
  cases d with
  | simple m st? =>
    cases m with
    | extension => exact hd
    | restriction =>
      cases hvalue : t.attribute? "value" with
      | none => simpa only [addValue, hvalue] using hd
      | some value =>
        simp only [addValue, hvalue]
        cases st? with
        | none => exact sound_some (α := SimpleType) ⟨trivial, sound_none, trivial, sound_nil⟩
        | some st => exact sound_some (α := SimpleType) (hd st rfl)
  | complex => exact hd

mutual

theorem placed_particle? (e : Extent) (c : Compositor) :
    (n : Node) → Placed base e (particle? c n) (particle? c n)
  | .text _ => by
    rw [particle?]
    exact .pure (α := Option Particle) sound_none
  | .element t cs => by
    rw [particle?]
    split
    · refine (placed_occurs t).bind fun e₁ _ o ho => (placed_particles e₁ _ cs).map
        (fun e₂ _ ps hps => ?_) fun ps => ?_
      · exact sound_some (α := Particle) (Particle.soundIn_group.2 ⟨ho, hps⟩)
      · exact congrArg some (Particle.renamed_group _ _ _ _)
    · exact placed_elementParticle? t cs (placed_inlineType e cs)
    · exact (placed_wildcard t).map
        (fun _ _ _ hw => sound_some (α := Particle) (Particle.soundIn_any.2 hw)) fun _ => rfl
    · exact placed_groupRef? t
    · exact .pure (α := Option Particle) sound_none
    · exact .pure (α := Option Particle) sound_none
    · exact (placed_report t _).bind fun _ _ _ _ => .pure (α := Option Particle) sound_none

theorem placed_particles (e : Extent) (c : Compositor) :
    (ns : List Node) → Placed base e (particles c ns) (particles c ns)
  | [] => by
    rw [particles]
    exact .pure (α := List Particle) sound_nil
  | n :: rest => by
    rw [particles]
    refine (placed_particle? e c n).bind fun e₁ _ p? hp => ?_
    refine (placed_particles e₁ c rest).map (fun e₂ h₂ ps hps => ?_) fun ps => ?_
    · exact sound_append (sound_toList (sound_mono h₂ hp)) hps
    · rw [rename_append, rename_toList]

theorem placed_inlineType (e : Extent) :
    (ns : List Node) → Placed base e (inlineType ns) (inlineType ns)
  | [] => by
    rw [inlineType]
    exact .pure (α := TypeRef) trivial
  | .text _ :: rest => by
    rw [inlineType]
    exact placed_inlineType e rest
  | .element t cs :: rest => by
    rw [inlineType]
    split
    · refine (placed_complexParts (sound_newComplexType none t cs) cs).bind fun e₁ _ ct hct => ?_
      refine (Placed.lift fun c hc he => ?_).map (α := TypeId) (fun _ _ _ h => h) fun _ => rfl
      exact Components.placedAt_addType hc (sound_mono (α := TypeDef) he hct)
    · exact placed_simpleType e none cs
    · exact placed_inlineType e rest

theorem placed_complexParts {e : Extent} {ct : ComplexType} (hct : Sound e ct) :
    (ns : List Node) →
      Placed base e (complexParts ct ns) (complexParts (rename base.offset ct) ns)
  | [] => by
    rw [complexParts, complexParts]
    exact .pure hct
  | .text _ :: rest => by
    rw [complexParts, complexParts]
    exact placed_complexParts hct rest
  | .element t cs :: rest => by
    rw [complexParts, complexParts]
    split
    · have hmixed : Sound e ({ ct with mixed := isMixed ct t } : ComplexType) := hct
      have hkind : ∀ m : Derivation, Sound e ((fun _ => Derived.complex) m) := fun _ => trivial
      exact (placed_derivation t hmixed hkind (fun _ => rfl) cs).bind
        fun _ _ _ hct => placed_complexParts hct rest
    · have hsimple : Sound e ({ ct with content := .simple .unspecified } : ComplexType) :=
        ⟨trivial, hct.2⟩
      exact (placed_derivation t hsimple (fun _ => sound_none) (fun _ => rfl) cs).bind
        fun _ _ _ hct => placed_complexParts hct rest
    · exact (placed_addPart hct t cs (fun c => placed_particles e c cs) (placed_inlineType e cs)).bind
        fun _ _ _ hct => placed_complexParts hct rest

theorem placed_derivation {e : Extent} (outer : Tag) {ct : ComplexType} (hct : Sound e ct)
    {kindOf : Derivation → Derived} (hkind : ∀ m, Sound e (kindOf m))
    (hrename : ∀ m, rename base.offset (kindOf m) = kindOf m) :
    (ns : List Node) → Placed base e (derivation outer ct kindOf ns)
      (derivation outer (rename base.offset ct) kindOf ns)
  | [] => by
    rw [derivation, derivation]
    exact (placed_report outer _).bind fun _ h _ _ => .pure (sound_mono h hct)
  | .text _ :: rest => by
    rw [derivation, derivation]
    exact placed_derivation outer hct hkind hrename rest
  | .element t cs :: rest => by
    rw [derivation, derivation]
    split
    · next m _ =>
      refine (placed_attributeReference? t _).bind fun e₁ h₁ base? _ => ?_
      have hbase : Sound e₁ (withBase ct m base?) := by
        cases base? <;> exact sound_mono (α := ComplexType) h₁ hct
      have hparts := placed_derivationParts hbase (sound_mono h₁ (hkind m)) cs
      rw [rename_withBase, hrename] at hparts
      rw [rename_name?]
      exact hparts.bind fun e₂ _ (ct, d) ⟨hct, hd⟩ => placed_finishDerivation hct base? hd
    · exact placed_derivation outer hct hkind hrename rest

theorem placed_derivationParts {e : Extent} {ct : ComplexType} (hct : Sound e ct) {d : Derived}
    (hd : Sound e d) : (ns : List Node) → Placed base e (derivationParts ct d ns)
      (derivationParts (rename base.offset ct) (rename base.offset d) ns)
  | [] => by
    rw [derivationParts, derivationParts]
    exact .pure (α := ComplexType × Derived) ⟨hct, hd⟩
  | .text _ :: rest => by
    rw [derivationParts, derivationParts]
    exact placed_derivationParts hct hd rest
  | .element t cs :: rest => by
    rw [derivationParts, derivationParts]
    split
    · rw [← rename_addValue]
      exact placed_derivationParts hct (sound_addValue t hd) rest
    · exact (placed_addRestricted (placed_simpleType e none cs) hd).bind fun _ h _ hd =>
        placed_derivationParts (sound_mono h hct) hd rest
    · exact (placed_addPart hct t cs (fun c => placed_particles e c cs) (placed_inlineType e cs)).bind
        fun _ h _ hct => placed_derivationParts hct (sound_mono h hd) rest

end

/-! ### Declarations at the top -/

theorem placed_localAttribute? (e : Extent) (t : Tag) (cs : List Node) :
    Placed base e (localAttribute? t cs) (localAttribute? t cs) :=
  placed_attribute? _ t cs (placed_inlineType e cs)

theorem placed_addAttributePart {g : AttributeGroup} (hg : Sound e g) (p : Tag × List Node) :
    Placed base e (addAttributePart g p) (addAttributePart (rename base.offset g) p) := by
  rw [addAttributePart, addAttributePart]
  split
  · refine (placed_localAttribute? e p.1 p.2).map (fun e₁ h₁ a? ha => ?_) fun a? => ?_
    · exact sound_append (sound_mono (α := AttributeGroup) h₁ hg) (sound_toList ha)
    · change ({ rename base.offset g with
        attributes := rename base.offset (g.attributes ++ a?.toList) } : AttributeGroup) = _
      rw [rename_append, rename_toList]
      rfl
  · refine (placed_attributeReference? p.1 "ref").map
      (fun e₁ h₁ n? _ => sound_mono (α := AttributeGroup) h₁ hg) fun n? => ?_
    rw [rename_name?]
    rfl
  · exact .pure hg

theorem placed_attributeParts {g : AttributeGroup} (hg : Sound e g) (ps : List (Tag × List Node)) :
    Placed base e (ps.foldlM addAttributePart g)
      (ps.foldlM addAttributePart (rename base.offset g)) := by
  induction ps generalizing e g with
  | nil => exact .pure hg
  | cons p ps ih =>
    rw [List.foldlM_cons, List.foldlM_cons]
    exact (placed_addAttributePart hg p).bind fun _ _ _ hg => ih hg

theorem placed_namedGroup (e : Extent) (ps : List (Tag × List Node)) :
    Placed base e (namedGroup ps) (namedGroup ps) := by
  induction ps with
  | nil =>
    exact .pure (α := ModelGroup) (Particle.soundIn_group.2 ⟨Occurs.valid_once, sound_nil⟩)
  | cons p ps ih =>
    obtain ⟨t, cs⟩ := p
    rw [namedGroup]
    split
    · exact (placed_occurs t).bind fun e₁ _ o ho => (placed_particles e₁ _ cs).map
        (fun _ _ _ hps => Particle.soundIn_group.2 ⟨ho, hps⟩) fun _ => rfl
    · exact ih

/-- **A declaration at the top of a document is read in the same way behind other components.** -/
theorem placed_declare (e : Extent) (p : Tag × List Node) :
    Placed base e (declare p) (declare p) := by
  obtain ⟨t, cs⟩ := p
  rw [declare]
  split
  · exact (placed_elementDecl? .global t cs (placed_inlineType e cs)).bind fun _ _ _ _ =>
      .pure (α := PUnit) trivial
  · refine (placed_requiredName? t).bind fun e₁ _ n? _ => ?_
    cases n? with
    | none => exact .pure (α := PUnit) trivial
    | some n =>
      refine (placed_complexParts (sound_newComplexType n t cs) cs).bind fun e₂ _ ct hct => ?_
      exact (Placed.lift fun c hc he => Components.placedAt_addType hc
        (sound_mono (α := TypeDef) he hct)).bind fun e₃ _ i hi =>
          .lift fun c hc he => Components.placedAt_enterType hc (sound_mono he hi)
  · refine (placed_requiredName? t).bind fun e₁ _ n? _ => ?_
    cases n? with
    | none => exact .pure (α := PUnit) trivial
    | some n =>
      refine (placed_simpleParts (sound_newSimpleType n cs) cs).bind fun e₂ _ st hst => ?_
      exact (Placed.lift fun c hc he => Components.placedAt_addType hc
        (sound_mono (α := TypeDef) he hst)).bind fun e₃ _ i hi =>
          .lift fun c hc he => Components.placedAt_enterType hc (sound_mono he hi)
  · refine (placed_attribute? .global t cs (placed_inlineType e cs)).bind fun e₁ _ a? ha => ?_
    cases a? with
    | none => exact .pure (α := PUnit) trivial
    | some a =>
      exact .lift fun c hc he => Components.placedAt_enterAttribute hc (sound_mono he (ha a rfl))
  · refine (placed_requiredName? t).bind fun e₁ _ n? _ => ?_
    cases n? with
    | none => exact .pure (α := PUnit) trivial
    | some n =>
      have hnew : Sound e₁ (⟨[], []⟩ : AttributeGroup) := sound_nil
      exact (placed_attributeParts hnew (elements cs)).bind fun e₂ _ g hg =>
        .lift fun c hc he => Components.placedAt_enterAttributeGroup hc (sound_mono he hg)
  · refine (placed_requiredName? t).bind fun e₁ _ n? _ => ?_
    cases n? with
    | none => exact .pure (α := PUnit) trivial
    | some n =>
      exact (placed_namedGroup e₁ (elements cs)).bind fun e₂ _ g hg =>
        .lift fun c hc he => Components.placedAt_enterGroup hc (sound_mono he hg)
  · exact .pure (α := PUnit) trivial

end

/-- Declarations at the top of a document are read in the same way behind other components. -/
theorem placedAt_forM_declare {base c : Components} {s : Source} (hc : c.Intact)
    (hs : Sound c.extent s) (ps : List (Tag × List Node)) :
    Building.PlacedAt base (ps.forM fun p => (declare p).run s)
      (ps.forM fun p => (declare p).run (rename base.offset s)) c := by
  induction ps generalizing c with
  | nil => exact .pure (α := PUnit) hc trivial
  | cons p ps ih =>
    have hp : Building.PlacedAt base ((declare p).run s)
        ((declare p).run (rename base.offset s)) c :=
      placed_declare c.extent p s c hc (Extent.le_refl _) hs
    change Building.PlacedAt base
      ((declare p).run s >>= fun _ => ps.forM fun p => (declare p).run s)
      ((declare p).run (rename base.offset s) >>= fun _ =>
        ps.forM fun p => (declare p).run (rename base.offset s)) c
    exact hp.bind (ih hp.intact (sound_mono hp.grows.extent hs))

end Schema
end SchemaAssist
