/-
# Visits

A visit is a document that is asked for or referred to, with what is found at its location.  All
that it does to a grammar under construction follows from that: what it declares and what it refers
to do not depend on the components so far (`Visit.addDocument_spec`, `Gathering.addDocument_spec`).
A document whose text is well-formed is kept among the documents of the grammar, also when it is no
schema; one that has no text, or too much of it, or none that is well-formed, is not
(`Visit.isKept`).
-/

import SchemaAssist.Loading.Follow
import SchemaAssist.Proofs.Entries

namespace SchemaAssist

open Markup (Tag Node)
open Schema (Reference)

/-! ### A visit -/

/-- A document that is asked for or referred to, with what is found at its location. -/
structure Visit where
  pending : Pending
  text : Except LoadError String

/-- Visits a document. -/
def Pending.visit (readFile : ReadFile Id) (limits : Limits) (p : Pending) : Visit :=
  ⟨p, p.location.load readFile limits⟩

namespace Visit

/-- Where the document is. -/
def location (v : Visit) : Location := v.pending.location

/-- The tree of the document, if it has a text and that is well-formed. -/
def tree? (v : Visit) : Except LoadError (Tag × List Node) :=
  match v.text with
  | .error e => .error e
  | .ok text =>
    match Markup.read text with
    | .error e => .error (.malformed e)
    | .ok tree => .ok tree

/-- The tree of the document, if it is a schema. -/
def schema? (v : Visit) : Except LoadError (Tag × List Node) :=
  match v.tree? with
  | .error e => .error e
  | .ok (root, cs) =>
    if Schema.kind root = "schema" then .ok (root, cs) else .error (.notSchema root.localName)

theorem schema?_congr {v v' : Visit} (h : v.text = v'.text) : v.schema? = v'.schema? := by
  rw [schema?, schema?, tree?, tree?, h]

/-- The namespace of what the document declares: its own, or else that of the document that includes
it. -/
def target? (v : Visit) : Option String :=
  match v.schema? with
  | .error _ => none
  | .ok (root, _) => (Schema.declaredTarget? root).or v.pending.including?

/-- Why the document is left out, if it is. -/
def failure? (v : Visit) : Option LoadError :=
  match v.schema? with
  | .error e => some e
  | .ok _ => none

/-- What stands at the top of the document. -/
def content (v : Visit) : List Node :=
  match v.schema? with
  | .error _ => []
  | .ok (_, cs) => cs

/-- The references of the document. -/
def references (v : Visit) : List Reference :=
  Schema.referencesOf v.target? (Schema.elements v.content)

/-- The names of the elements that the document declares. -/
def elementNames (v : Visit) : List Name := Schema.elementNames v.target? v.content

/-- The names of the types that the document defines. -/
def typeNames (v : Visit) : List Name := Schema.typeNames v.target? v.content

end Visit

/-- The document that a reference leads to, if it leads anywhere. -/
def Schema.Reference.pending? (base : Location) (r : Reference) : Option Pending :=
  r.location?.bind fun reference =>
    (base.resolve reference).toOption.map fun location =>
      ⟨location, if r.kind = .imported then none else r.referringSpace?⟩

/-- What is wrong with a reference that leads nowhere. -/
def Schema.Reference.fault? (base : Location) (r : Reference) : Option Fault :=
  r.location?.bind fun reference =>
    match base.resolve reference with
    | .ok _ => none
    | .error e => some (.notResolved reference e)

namespace Visit

/-- The documents that the document refers to. -/
def next (v : Visit) : List Pending := v.references.filterMap (·.pending? v.location)

/-- Records that a document is left out. -/
def leaveOut (l : Location) (e : LoadError) : Building Unit :=
  Components.record { fault := .notLoaded e, source? := some l.toString }

/-- What a visit does to the components. -/
def add (v : Visit) : Building Unit :=
  match v.text with
  | .error e => leaveOut v.location e
  | .ok text => do
    match ← Components.addDocument text v.location v.pending.including? with
    | .error e => leaveOut v.location e
    | .ok references => (references.filterMap (·.fault? v.location)).forM Components.report

end Visit

namespace Gathering

/-- What references of a document lead to, and what is wrong with them. -/
theorem resolve_eq (base : Location) (g : Gathering) (rs : List Reference) :
    g.resolve base rs = (rs.filterMap (·.pending? base),
      (g.build ((rs.filterMap (·.fault? base)).forM Components.report)).2) := by
  induction rs generalizing g with
  | nil => rfl
  | cons r rs ih =>
    rw [resolve, List.filterMap_cons, List.filterMap_cons]
    cases hr : r.location? with
    | none =>
      have hp : r.pending? base = none := by rw [Reference.pending?, hr]; rfl
      have hf : r.fault? base = none := by rw [Reference.fault?, hr]; rfl
      simp only [hp, hf, ih]
    | some reference =>
      cases hl : base.resolve reference with
      | ok l =>
        have hp : r.pending? base =
            some ⟨l, if r.kind = .imported then none else r.referringSpace?⟩ := by
          rw [Reference.pending?, hr, Option.bind_some, hl]; rfl
        have hf : r.fault? base = none := by rw [Reference.fault?, hr, Option.bind_some, hl]
        simp only [hp, hf, hl, ih]
      | error e =>
        have hp : r.pending? base = none := by
          rw [Reference.pending?, hr, Option.bind_some, hl]; rfl
        have hf : r.fault? base = some (.notResolved reference e) := by
          rw [Reference.fault?, hr, Option.bind_some, hl]
        simp only [hp, hf, hl, ih]
        rfl

end Gathering

/-! ### What a visit adds -/

namespace Components

variable {c : Components} {text : String} {l : Location} {including? : Option String}

/-- A text that is not well-formed changes nothing. -/
theorem run_addDocument_of_error {e : Markup.Malformed}
    (hsize : c.limits.checkSchemaSize text.utf8ByteSize = .ok ())
    (hread : Markup.read text = .error e) :
    (addDocument text l including?).run c = (.error (.malformed e), c) := by
  rw [addDocument]
  simp only [StateT.run_bind, StateT.run_get, pure_bind, hsize, hread]
  rfl

/-- A document whose text is well-formed is kept, and is read if it is a schema. -/
theorem run_addDocument_of_ok {root : Tag} {cs : List Node}
    (hsize : c.limits.checkSchemaSize text.utf8ByteSize = .ok ())
    (hread : Markup.read text = .ok (root, cs)) :
    (addDocument text l including?).run c =
      (if Schema.kind root = "schema" then Except.ok <$> Schema.readRoot text including? root cs
        else pure (.error (.notSchema root.localName)) : Building _).run
        { c with locations := c.locations.push l } := by
  simp [addDocument, hsize, hread]

/-- A text whose document counts among the documents: it is not too large and it is well-formed. -/
def admits (limits : Limits) (text : String) : Bool :=
  (limits.checkSchemaSize text.utf8ByteSize).isOk && (Markup.read text).isOk

/-- What remains of a document that is refused: nothing, or the location of a document that is no
schema. -/
def refuse (l : Location) (c : Components) : LoadError → Components
  | .notSchema _ => { c with locations := c.locations.push l }
  | _ => c

/-- What adding a document comes to: a refusal, or the content of a schema is read once the location
is kept. -/
theorem run_addDocument_cases (text : String) (l : Location) (including? : Option String)
    (c : Components) :
    (∃ e, (addDocument text l including?).run c = (.error e, refuse l c e) ∧
        (admits c.limits text = true ↔ ∃ root, e = .notSchema root)) ∨
      ∃ root cs, admits c.limits text = true ∧ (addDocument text l including?).run c =
        (Except.ok <$> Schema.readRoot text including? root cs : Building _).run
          { c with locations := c.locations.push l } := by
  cases hsize : c.limits.checkSchemaSize text.utf8ByteSize with
  | error e =>
    refine Or.inl ⟨.limit e, ?_, by simp [admits, hsize, Except.isOk, Except.toBool]⟩
    simp only [addDocument, StateT.run_bind, StateT.run_get, pure_bind, hsize]
    rfl
  | ok _ =>
    cases hread : Markup.read text with
    | error e =>
      exact Or.inl ⟨.malformed e, run_addDocument_of_error hsize hread,
        by simp [admits, hread, Except.isOk, Except.toBool]⟩
    | ok tree =>
      obtain ⟨root, cs⟩ := tree
      have hadmits : admits c.limits text = true := by
        simp [admits, hsize, hread, Except.isOk, Except.toBool]
      have hrun : (addDocument text l including?).run c = _ := run_addDocument_of_ok hsize hread
      by_cases hkind : Schema.kind root = "schema"
      · rw [if_pos hkind] at hrun
        exact Or.inr ⟨root, cs, hadmits, hrun⟩
      · rw [if_neg hkind] at hrun
        exact Or.inl ⟨.notSchema root.localName, hrun, by simp [hadmits]⟩

/-- The location of a document that is admitted is kept, adding a document records none as left out,
and the target namespace is settled once there are documents. -/
theorem change_addDocument (text : String) (l : Location) (including? : Option String)
    (c : Components) :
    let c' := ((addDocument text l including?).run c).2
    c'.limits = c.limits ∧
      c'.locations = c.locations ++ (if admits c.limits text then #[l] else #[]) ∧
      c'.leftOut = c.leftOut ∧
      (c.locations.size ≠ 0 → c'.target? = c.target?) := by
  intro c'
  rcases run_addDocument_cases text l including? c with
    ⟨e, hrun, hadmits⟩ | ⟨root, cs, hadmits, hrun⟩
  · have hc' : c' = refuse l c e := congrArg Prod.snd hrun
    by_cases hroot : ∃ root, e = .notSchema root
    · rw [hadmits.2 hroot]
      obtain ⟨root, rfl⟩ := hroot
      rw [hc']
      exact ⟨rfl, Array.push_eq_append, rfl, fun _ => rfl⟩
    · have hsame : refuse l c e = c := by
        cases e with
        | notSchema root => exact absurd ⟨root, rfl⟩ hroot
        | _ => rfl
      rw [hc', hsame, if_neg (fun h => hroot (hadmits.1 h))]
      exact ⟨rfl, Array.append_empty.symm, rfl, fun _ => rfl⟩
  · have hc' : c' = ((Schema.readRoot text including? root cs).run
        { c with locations := c.locations.push l }).2 := congrArg Prod.snd hrun
    have hchange := Schema.enters_readRoot text including? root cs
      { c with locations := c.locations.push l }
    rw [← hc'] at hchange
    refine ⟨congrArg Catalog.limits hchange.catalog, ?_, hchange.leftOut, fun hsize => ?_⟩
    · rw [hchange.locations, if_pos hadmits]
      exact Array.push_eq_append
    · rw [hchange.target, Schema.settledTarget, Array.size_push, if_neg (by omega)]

end Components

namespace Visit

variable {v : Visit} {limits : Limits} {c : Components}

/-- The text that is found is not too large. -/
def Sized (limits : Limits) (v : Visit) : Prop :=
  ∀ text, v.text = .ok text → limits.checkSchemaSize text.utf8ByteSize = .ok ()

theorem sized_visit (readFile : ReadFile Id) (limits : Limits) (p : Pending) :
    (p.visit readFile limits).Sized limits := fun _ h => (Location.load_eq_ok_iff.1 h).2

/-- What a visit does to the catalog: a document whose text is well-formed is kept, and what it
declares is entered. -/
def enter (v : Visit) (c : Catalog) : Catalog :=
  match v.tree? with
  | .error _ => c
  | .ok _ =>
    Catalog.enter v.elementNames v.typeNames { c with locations := c.locations.push v.location }

/-- Adding a document gives its references if it is a schema, and enters what it declares. -/
theorem addDocument_spec {text : String} (htext : v.text = .ok text)
    (hsize : c.limits.checkSchemaSize text.utf8ByteSize = .ok ()) :
    ((Components.addDocument text v.location v.pending.including?).run c).1 =
        v.schema?.map (fun _ => v.references) ∧
      ((Components.addDocument text v.location v.pending.including?).run c).2.catalog =
        v.enter c.catalog := by
  cases hread : Markup.read text with
  | error e =>
    have htree : v.tree? = .error (.malformed e) := by simp only [tree?, htext, hread]
    have hschema : v.schema? = .error (.malformed e) := by simp only [schema?, htree]
    rw [Components.run_addDocument_of_error hsize hread, hschema, enter, htree]
    exact ⟨rfl, rfl⟩
  | ok tree =>
    obtain ⟨root, cs⟩ := tree
    have htree : v.tree? = .ok (root, cs) := by simp only [tree?, htext, hread]
    rw [Components.run_addDocument_of_ok hsize hread, enter, htree]
    by_cases hkind : Schema.kind root = "schema"
    · have hschema : v.schema? = .ok (root, cs) := by simp only [schema?, htree, if_pos hkind]
      have htarget : v.target? = (Schema.declaredTarget? root).or v.pending.including? := by
        simp only [target?, hschema]
      have hcontent : v.content = cs := by simp only [content, hschema]
      rw [if_pos hkind, hschema, references, elementNames, typeNames, htarget, hcontent]
      exact ⟨congrArg Except.ok (Schema.returns_readRoot _ _ _ _ _),
        (Schema.enters_readRoot _ _ _ _ _).catalog⟩
    · have hschema : v.schema? = .error (.notSchema root.localName) := by
        simp only [schema?, htree, if_neg hkind]
      have hcontent : v.content = [] := by simp only [content, hschema]
      rw [if_neg hkind, hschema, elementNames, typeNames, hcontent]
      exact ⟨rfl, (Catalog.enter_nil _).symm⟩

/-- A reference that leads nowhere leaves out no document. -/
theorem isLoading_of_fault? {base : Location} {r : Reference} {f : Fault}
    (h : r.fault? base = some f) : f.isLoading = false := by
  obtain ⟨reference, -, h⟩ := Option.bind_eq_some_iff.1 h
  split at h
  · cases h
  · cases h
    rfl

theorem keeps_reportFaults (base : Location) (rs : List Reference) :
    Building.Keeps ((rs.filterMap (·.fault? base)).forM Components.report) :=
  Building.Keeps.forM fun f hf => by
    obtain ⟨r, -, hr⟩ := List.mem_filterMap.1 hf
    exact Components.keeps_report (isLoading_of_fault? hr)

/-- What a visit does to the components enters what the document declares. -/
theorem add_spec (hsized : v.Sized c.limits) : (v.add.run c).2.catalog = v.enter c.catalog := by
  rw [add]
  cases htext : v.text with
  | error e =>
    have htree : v.tree? = .error e := by simp only [tree?, htext]
    rw [enter, htree]
    rfl
  | ok text =>
    obtain ⟨-, hcatalog⟩ := addDocument_spec htext (hsized text htext)
    rw [← hcatalog]
    have hkeeps (r : Except LoadError (List Reference)) (c : Components) : ((match r with
        | .error e => leaveOut v.location e
        | .ok references =>
          (references.filterMap (·.fault? v.location)).forM Components.report : Building _).run
            c).2.catalog = c.catalog := by
      cases r with
      | error e => rfl
      | ok references =>
        exact (keeps_reportFaults _ references c).catalog.trans (Catalog.enter_nil _)
    exact hkeeps _ _

/-- A document that is added is left out afterwards, or its references that lead nowhere are
reported. -/
theorem run_add {text : String} {a : Except LoadError (List Reference)} {c' : Components}
    (htext : v.text = .ok text)
    (hdoc : (Components.addDocument text v.location v.pending.including?).run c = (a, c')) :
    v.add.run c = (match a with
      | .error e => leaveOut v.location e
      | .ok rs => (rs.filterMap (·.fault? v.location)).forM Components.report : Building _).run c' := by
  rw [add, htext]
  simp only [StateT.run_bind, hdoc]
  rfl

@[simp] theorem limits_enter (v : Visit) (c : Catalog) : (v.enter c).limits = c.limits := by
  rw [enter]
  split <;> rfl

end Visit

namespace Gathering

variable {readFile : ReadFile Id} {limits : Limits} {g : Gathering}

/-- A document without a text changes nothing. -/
theorem addDocument_of_error {p : Pending} {e : LoadError}
    (htext : p.location.load readFile g.components.limits = .error e) :
    g.addDocument readFile p = (.error e, g) := by
  rw [addDocument]
  simp only [bind, pure, htext]

/-- A document with a text is added to the components, and its references are resolved. -/
theorem addDocument_of_ok {p : Pending} {text : String} {a : Except LoadError (List Reference)}
    {c : Components} (htext : p.location.load readFile g.components.limits = .ok text)
    (hdoc : (Components.addDocument text p.location p.including?).run g.components = (a, c)) :
    g.addDocument readFile p = match a with
      | .error e => (.error e, { g with components := c })
      | .ok rs => (.ok (rs.filterMap (·.pending? p.location)),
          (({ g with components := c } : Gathering).build
            ((rs.filterMap (·.fault? p.location)).forM Components.report)).2) := by
  rw [addDocument]
  simp only [bind, pure, htext, build, hdoc, resolve_eq]
  cases a <;> rfl

/-- Adding a document gives what it refers to and does what a visit does; one that is no schema is
still to be left out. -/
theorem addDocument_spec (readFile : ReadFile Id) (g : Gathering) (p : Pending) :
    let v := p.visit readFile g.components.limits
    (∀ tree, v.schema? = .ok tree →
      g.addDocument readFile p = (.ok v.next, ⟨(v.add.run g.components).2, g.met⟩)) ∧
      ∀ e, v.schema? = .error e → ∃ g', g.addDocument readFile p = (.error e, g') ∧
        g'.leaveOut p.location e = ⟨(v.add.run g.components).2, g.met⟩ := by
  intro v
  cases htext : p.location.load readFile g.components.limits with
  | error e =>
    have hv : v.text = .error e := htext
    have hschema : v.schema? = .error e := by simp only [Visit.schema?, Visit.tree?, hv]
    have hadd : v.add = Visit.leaveOut p.location e := by rw [Visit.add, hv]; rfl
    rw [hschema, hadd, addDocument_of_error htext]
    refine ⟨nofun, fun e' he => ?_⟩
    cases he
    exact ⟨g, rfl, rfl⟩
  | ok text =>
    have hv : v.text = .ok text := htext
    obtain ⟨hfst, -⟩ := Visit.addDocument_spec hv ((Location.load_eq_ok_iff.1 htext).2)
    cases hdoc : (Components.addDocument text p.location p.including?).run g.components with
    | mk a c =>
      have ha : v.schema?.map (fun _ => v.references) = a :=
        hfst.symm.trans (congrArg Prod.fst hdoc)
      rw [addDocument_of_ok htext hdoc, Visit.run_add hv hdoc]
      refine ⟨fun tree htree => ?_, fun e he => ⟨{ g with components := c }, ?_⟩⟩
      · rw [htree] at ha
        subst ha
        rfl
      · rw [he] at ha
        subst ha
        exact ⟨rfl, rfl⟩

end Gathering

/-! ### What several visits add -/

namespace Visit

variable {limits : Limits} {c : Components}

theorem limits_add {v : Visit} (hsized : v.Sized c.limits) :
    (v.add.run c).2.limits = c.limits := by
  have hcatalog := congrArg Catalog.limits (add_spec hsized)
  rwa [limits_enter] at hcatalog

/-- What some visits do to the catalog. -/
theorem forM_add_spec {vs : List Visit} (hsized : ∀ v ∈ vs, v.Sized limits)
    (hlimits : c.limits = limits) :
    ((vs.forM add).run c).2.catalog = vs.foldl (fun k v => v.enter k) c.catalog := by
  induction vs generalizing c with
  | nil => rfl
  | cons v vs ih =>
    rw [List.forall_mem_cons] at hsized
    have hv : v.Sized c.limits := hlimits ▸ hsized.1
    have hnext := ih hsized.2 ((limits_add hv).trans hlimits)
    rw [add_spec hv] at hnext
    exact hnext

theorem limits_foldl_enter (vs : List Visit) (k : Catalog) :
    (vs.foldl (fun k v => v.enter k) k).limits = k.limits := by
  induction vs generalizing k with
  | nil => rfl
  | cons v vs ih => exact (ih _).trans (limits_enter v k)

theorem limits_forM_add {vs : List Visit} (hsized : ∀ v ∈ vs, v.Sized limits)
    (hlimits : c.limits = limits) : ((vs.forM add).run c).2.limits = limits := by
  have hcatalog := congrArg Catalog.limits (forM_add_spec hsized hlimits)
  rw [limits_foldl_enter] at hcatalog
  exact hcatalog.trans hlimits

theorem next_of_error {v : Visit} {e : LoadError} (h : v.schema? = .error e) : v.next = [] := by
  have hcontent : v.content = [] := by simp only [content, h]
  rw [next, references, hcontent]
  rfl

end Visit

/-! ### What the grammar holds -/

namespace Visit

variable {vs : List Visit} {k : Catalog}

/-- Whether the document is among those of the grammar: its text is well-formed. -/
def isKept (v : Visit) : Bool := v.tree?.isOk

theorem exists_text_of_isKept {v : Visit} (h : v.isKept = true) : ∃ text, v.text = .ok text := by
  cases htext : v.text with
  | error e => simp [isKept, tree?, htext, Except.isOk, Except.toBool] at h
  | ok text => exact ⟨text, rfl⟩

theorem names_of_not_isKept {v : Visit} (h : v.isKept = false) :
    v.elementNames = [] ∧ v.typeNames = [] := by
  have hcontent : v.content = [] := by
    rw [isKept] at h
    cases htree : v.tree? with
    | error e => simp only [content, schema?, htree]
    | ok tree =>
      rw [htree] at h
      cases h
  rw [elementNames, typeNames, hcontent]
  exact ⟨rfl, rfl⟩

theorem enter_eq (v : Visit) (k : Catalog) :
    v.enter k = Catalog.enter v.elementNames v.typeNames
      { k with locations := k.locations ++ (if v.isKept then #[v.location] else #[]) } := by
  cases htree : v.tree? with
  | error e =>
    have hkept : v.isKept = false := by rw [isKept, htree]; rfl
    obtain ⟨he, ht⟩ := names_of_not_isKept hkept
    rw [enter, htree, he, ht, hkept]
    simp
  | ok tree =>
    have hkept : v.isKept = true := by rw [isKept, htree]; rfl
    rw [enter, htree, hkept]
    simp

theorem foldl_enter (vs : List Visit) (k : Catalog) :
    vs.foldl (fun k v => v.enter k) k = Catalog.enter (vs.flatMap elementNames)
      (vs.flatMap typeNames)
      { k with locations := k.locations ++ ((vs.filter isKept).map location).toArray } := by
  induction vs generalizing k with
  | nil => simp
  | cons v vs ih =>
    rw [List.foldl_cons, ih, enter_eq, List.flatMap_cons, List.flatMap_cons]
    refine Catalog.ext rfl ?_ ?_ ?_
    · cases hkept : v.isKept <;> simp [Catalog.enter, hkept]
    · ext n
      simp [Catalog.enter, or_assoc]
    · ext n
      simp [Catalog.enter, or_assoc]

end Visit

end SchemaAssist
