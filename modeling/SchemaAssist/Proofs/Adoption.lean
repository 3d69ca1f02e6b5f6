/-
# Documents without a namespace

A schema document without a target namespace belongs to the namespace of a document that includes
it, so that its elements and types are found there (`Adopted`).  Any number of documents of
different namespaces may include it; but each location is visited once, for the first reference that
leads to it, and so the document joins one namespace only (`not_adoptsAll_sharedFiles`).

What is found in a namespace is what the visited documents of that namespace declare.  So an included
document is found in full exactly if they declare all of it, and in particular if the one visit of
its location is for that namespace (`adopted_iff`).
-/

import SchemaAssist.Proofs.Loads
import Mathlib

namespace SchemaAssist

open Loading
open Markup (Tag Node)
open Schema (declaredTarget?)

/-- The names of what a document declares are in the namespace of the document. -/
theorem Schema.space_of_givenName? {target? : Option String} {t : Tag} {n : Name}
    (h : givenName? target? t = some n) : n.space = target?.getD "" := by
  obtain ⟨written, -, rfl⟩ := Option.map_eq_some_iff.1 h
  rfl

theorem Schema.space_of_mem_elementNames {target? : Option String} {cs : List Node} {n : Name}
    (h : n ∈ elementNames target? cs) : n.space = target?.getD "" := by
  obtain ⟨e, -, hn⟩ := List.mem_flatMap.1 h
  have hn := Option.mem_toList.1 hn
  rw [elementName?] at hn
  split at hn
  · exact space_of_givenName? hn
  · cases hn

theorem Schema.space_of_mem_typeNames {target? : Option String} {cs : List Node} {n : Name}
    (h : n ∈ typeNames target? cs) : n.space = target?.getD "" := by
  obtain ⟨e, -, hn⟩ := List.mem_flatMap.1 h
  have hn := Option.mem_toList.1 hn
  rw [typeName?] at hn
  split at hn
  · exact space_of_givenName? hn
  · cases hn

namespace Grammar

variable {readFile : ReadFile Id} {limits : Limits} {version : Version}
  {locations : List Location} {g : Grammar}

/-- A document that is visited, with a level to spare, includes another one. -/
structure Includes (readFile : ReadFile Id) (limits : Limits) (locations : List Location)
    (d : Visit) (p : Pending) : Prop where
  visited : d ∈ visitsWithin readFile limits limits.schemaDepth locations
  reference : ∃ r ∈ d.references, r.kind ≠ .imported ∧ r.pending? d.location = some p

/-- The elements and types at the top of a document are found in a namespace. -/
def Adopted (g : Grammar) (space? : Option String) (cs : List Node) : Prop :=
  (∀ n ∈ Schema.elementNames space? cs, g.globalElements.has n = true) ∧
    ∀ n ∈ Schema.typeNames space? cs, g.globalTypes.has n = true

/-- Every document without a namespace is found in the namespaces of all documents that include
it. -/
def AdoptsAll (readFile : ReadFile Id) (limits : Limits) (locations : List Location)
    (g : Grammar) : Prop :=
  ∀ d p root cs, Includes readFile limits locations d p →
    (p.visit readFile limits).schema? = .ok (root, cs) → declaredTarget? root = none →
    g.Adopted d.target? cs

/-- A reference that includes a document gives it its own namespace. -/
theorem Includes.including? {d : Visit} {p : Pending}
    (h : Includes readFile limits locations d p) : p.including? = d.target? := by
  obtain ⟨r, hr, hkind, hp⟩ := h.reference
  obtain ⟨e, -, he⟩ := List.mem_filterMap.1 hr
  obtain ⟨kind, -, rfl⟩ := Option.map_eq_some_iff.1 he
  obtain ⟨reference, -, hp⟩ := Option.bind_eq_some_iff.1 hp
  obtain ⟨l, -, rfl⟩ := Option.map_eq_some_iff.1 hp
  exact if_neg hkind

theorem Includes.mem_next {d : Visit} {p : Pending}
    (h : Includes readFile limits locations d p) : p ∈ d.next := by
  obtain ⟨r, hr, -, hp⟩ := h.reference
  exact List.mem_filterMap.2 ⟨r, hr, hp⟩

/-- The location of an included document is visited, and once only. -/
theorem Includes.exists_visit {d : Visit} {p : Pending}
    (h : Includes readFile limits locations d p) :
    ∃ c ∈ visits readFile limits locations, c.location.key = p.location.key ∧
      ∀ c' ∈ visits readFile limits locations, c'.location.key = p.location.key → c' = c := by
  obtain ⟨c, hc, hkey⟩ := exists_visit_of_next h.visited h.mem_next List.not_mem_nil
  have hnodup := (survey_nodup readFile limits (limits.schemaDepth + 1) [] (requests locations)).2
  exact ⟨c, hc, hkey, fun c' hc' hkey' =>
    List.inj_on_of_nodup_map hnodup hc' hc (hkey'.trans hkey.symm)⟩

/-- Names in one namespace are found exactly if visited documents of that namespace declare them. -/
theorem forall_found_iff {vs : List Visit} {found : Name → Bool} {names : Visit → List Name}
    (hspace : ∀ v, ∀ n ∈ names v, n.space = v.target?.getD "")
    (hfound : ∀ n, found n = true ↔ ∃ v ∈ vs, n ∈ names v) {space : String} {ns : List Name}
    (hns : ∀ n ∈ ns, n.space = space) :
    (∀ n ∈ ns, found n = true) ↔
      ∀ n ∈ ns, ∃ v ∈ vs, v.target?.getD "" = space ∧ n ∈ names v := by
  refine forall₂_congr fun n hn => (hfound n).trans ?_
  constructor
  · rintro ⟨v, hv, hnv⟩
    have hsame : v.target?.getD "" = space := (hspace v n hnv).symm.trans (hns n hn)
    exact ⟨v, hv, hsame, hnv⟩
  · rintro ⟨v, hv, -, hnv⟩
    exact ⟨v, hv, hnv⟩

/-- **What is found of an included document.**  Its location is visited once, for one namespace.  In
the namespace of a document that includes it all that it declares is found if the visit is for that
namespace, and else just what other visited documents of the namespace declare as well. -/
theorem adopted_iff (hload : Grammar.load readFile limits version locations = .ok g)
    {d : Visit} {p : Pending} {root : Tag} {cs : List Node}
    (hincludes : Includes readFile limits locations d p)
    (hschema : (p.visit readFile limits).schema? = .ok (root, cs))
    (hroot : declaredTarget? root = none) :
    (g.Adopted d.target? cs ↔
      (∀ n ∈ Schema.elementNames d.target? cs, ∃ v ∈ visits readFile limits locations,
        v.target?.getD "" = d.target?.getD "" ∧ n ∈ v.elementNames) ∧
      ∀ n ∈ Schema.typeNames d.target? cs, ∃ v ∈ visits readFile limits locations,
        v.target?.getD "" = d.target?.getD "" ∧ n ∈ v.typeNames) ∧
      ∃ c ∈ visits readFile limits locations, c.location.key = p.location.key ∧
        (∀ c' ∈ visits readFile limits locations, c'.location.key = p.location.key → c' = c) ∧
        (c.text = (p.visit readFile limits).text → c.pending.including? = d.target? →
          g.Adopted d.target? cs) := by
  obtain ⟨-, helements, htypes⟩ := holds_of_load hload
  refine ⟨and_congr ?_ ?_, ?_⟩
  · exact forall_found_iff (fun v n => Schema.space_of_mem_elementNames) helements
      fun n => Schema.space_of_mem_elementNames
  · exact forall_found_iff (fun v n => Schema.space_of_mem_typeNames) htypes
      fun n => Schema.space_of_mem_typeNames
  · obtain ⟨c, hc, hkey, honce⟩ := hincludes.exists_visit
    refine ⟨c, hc, hkey, honce, fun htext hspace => ?_⟩
    have hsame : c.schema? = .ok (root, cs) := by
      rw [← hschema, Visit.schema?_congr htext]
    have htarget : c.target? = d.target? := by
      rw [Visit.target?, hsame, ← hspace]
      simp only [hroot, Option.none_or]
    have hcontent : c.content = cs := by rw [Visit.content, hsame]
    refine ⟨fun n hn => (helements n).2 ⟨c, hc, ?_⟩, fun n hn => (htypes n).2 ⟨c, hc, ?_⟩⟩
    · rwa [Visit.elementNames, htarget, hcontent]
    · rwa [Visit.typeNames, htarget, hcontent]

/-! ### A document that two namespaces include -/

/-- A schema document that includes `c.xsd`. -/
def including (target : String) : FileContent :=
  .text ("<schema xmlns='http://www.w3.org/2001/XMLSchema' targetNamespace='" ++ target ++
    "'><include schemaLocation='c.xsd'/></schema>")

/-- Two documents of different namespaces that include the same document without one. -/
def sharedFiles : Files :=
  ((({} : Files).write "a.xsd" (including "urn:a")).write "b.xsd" (including "urn:b")).write "c.xsd"
    (.text "<schema xmlns='http://www.w3.org/2001/XMLSchema'><element name='c'/></schema>")

/-- The element that the shared document declares, in a namespace. -/
def sharedName (space : String) : Name := ⟨space, "c"⟩

/-- The shared document, included for a namespace. -/
def sharedPending (space : String) : Pending := ⟨.path "c.xsd", some space⟩

/-- The visit of a document that is asked for. -/
def requestedVisit (path : String) : Visit := Pending.visit sharedFiles.reader {} ⟨.path path, none⟩

/-- The shared element is found in the namespace of the first document, and only there. -/
theorem load_sharedFiles : ∃ g,
    Grammar.load sharedFiles.reader {} .v10 [.path "a.xsd", .path "b.xsd"] = .ok g ∧
      g.globalElements.has (sharedName "urn:a") = true ∧
      g.globalElements.has (sharedName "urn:b") = false := by
  have hload : (match Grammar.load sharedFiles.reader {} .v10 [.path "a.xsd", .path "b.xsd"] with
      | .ok g => g.globalElements.has (sharedName "urn:a") &&
        !g.globalElements.has (sharedName "urn:b")
      | .error _ => false) = true := by decide +kernel
  split at hload
  · next g hg =>
    rw [Bool.and_eq_true, Bool.not_eq_true'] at hload
    exact ⟨g, hg, hload⟩
  · cases hload

/-- The shared document has no namespace of its own, and declares an element and no type. -/
theorem schema_sharedFiles (space : String) : ∃ root cs,
    ((sharedPending space).visit sharedFiles.reader {}).schema? = .ok (root, cs) ∧
      declaredTarget? root = none ∧ Schema.elementNames (some space) cs = [sharedName space] ∧
      Schema.typeNames (some space) cs = [] := by
  have hdocument : (match ((sharedPending "").visit sharedFiles.reader {}).schema? with
      | .ok (root, cs) => (declaredTarget? root).isNone &&
        (Schema.elements cs).map (fun e => (Schema.kind e.1, e.1.attribute? "name")) ==
          [("element", some "c")]
      | .error _ => false) = true := by decide +kernel
  have hspace : ((sharedPending space).visit sharedFiles.reader {}).schema? =
      ((sharedPending "").visit sharedFiles.reader {}).schema? := Visit.schema?_congr rfl
  rw [hspace]
  split at hdocument
  · next root cs hschema =>
    rw [Bool.and_eq_true, Option.isNone_iff_eq_none, beq_iff_eq] at hdocument
    obtain ⟨hroot, htop⟩ := hdocument
    obtain ⟨e, he, htag⟩ := List.map_eq_singleton_iff.1 htop
    obtain ⟨hkind, hname⟩ := Prod.mk.inj htag
    refine ⟨root, cs, hschema, hroot, ?_, ?_⟩
    · have htrim : Text.trim "c" = "c" := by decide
      simp [Schema.elementNames, he, Schema.elementName?, Schema.givenName?, hkind, hname, htrim,
        sharedName]
    · simp [Schema.typeNames, he, Schema.typeName?, hkind]
  · cases hdocument

theorem fresh_sharedFiles : (fresh [] (requests [.path "a.xsd", .path "b.xsd"])).1 =
    [⟨.path "a.xsd", none⟩, ⟨.path "b.xsd", none⟩] := by rfl

/-- A document that is asked for includes the shared one. -/
theorem includes_sharedFiles (space path : String)
    (hvisited : (⟨.path path, none⟩ : Pending) ∈
      [⟨.path "a.xsd", none⟩, (⟨.path "b.xsd", none⟩ : Pending)])
    (hreferences : (requestedVisit path).references =
      [⟨.inclusion, some "c.xsd", none, some space⟩])
    (hleads : (Location.path path).resolve "c.xsd" = .ok (.path "c.xsd")) :
    Includes sharedFiles.reader {} [.path "a.xsd", .path "b.xsd"] (requestedVisit path)
      (sharedPending space) where
  visited := List.mem_append_left _ (List.mem_map_of_mem (fresh_sharedFiles ▸ hvisited))
  reference := by
    refine ⟨⟨.inclusion, some "c.xsd", none, some space⟩, ?_, by simp, ?_⟩
    · rw [hreferences]
      exact List.mem_singleton_self _
    · rw [Schema.Reference.pending?, Option.bind_some, show (requestedVisit path).location =
        .path path from rfl, hleads]
      rfl

/-- **A document that two namespaces include is found in one of them only.** -/
theorem not_adoptsAll_sharedFiles : ∃ g,
    Grammar.load sharedFiles.reader {} .v10 [.path "a.xsd", .path "b.xsd"] = .ok g ∧
      ¬ AdoptsAll sharedFiles.reader {} [.path "a.xsd", .path "b.xsd"] g := by
  obtain ⟨g, hload, -, hmissing⟩ := load_sharedFiles
  obtain ⟨root, cs, hschema, hroot, helements, -⟩ := schema_sharedFiles "urn:b"
  have hincludes := includes_sharedFiles "urn:b" "b.xsd" (by simp)
    (by decide +kernel) rfl
  refine ⟨g, hload, fun hall => ?_⟩
  have hadopted := hall _ _ root cs hincludes hschema hroot
  rw [← hincludes.including?] at hadopted
  have hfound := hadopted.1 (sharedName "urn:b") (helements ▸ List.mem_singleton_self _)
  rw [hmissing] at hfound
  cases hfound

/-- In the first namespace the shared document is found, and a visited document declares it. -/
theorem adopted_iff_sharedFiles : ∃ g root cs,
    Grammar.load sharedFiles.reader {} .v10 [.path "a.xsd", .path "b.xsd"] = .ok g ∧
      Includes sharedFiles.reader {} [.path "a.xsd", .path "b.xsd"] (requestedVisit "a.xsd")
        (sharedPending "urn:a") ∧
      ((sharedPending "urn:a").visit sharedFiles.reader {}).schema? = .ok (root, cs) ∧
      declaredTarget? root = none ∧ g.Adopted (some "urn:a") cs ∧
      ∃ v ∈ visits sharedFiles.reader {} [.path "a.xsd", .path "b.xsd"],
        v.target?.getD "" = "urn:a" ∧ sharedName "urn:a" ∈ v.elementNames := by
  obtain ⟨g, hload, hfound, -⟩ := load_sharedFiles
  obtain ⟨root, cs, hschema, hroot, helements, htypes⟩ := schema_sharedFiles "urn:a"
  have hincludes := includes_sharedFiles "urn:a" "a.xsd" (by simp)
    (by decide +kernel) rfl
  have hadopted : g.Adopted (some "urn:a") cs := by
    rw [Adopted, helements, htypes]
    exact ⟨fun n hn => List.mem_singleton.1 hn ▸ hfound, nofun⟩
  have hiff := (adopted_iff hload hincludes hschema hroot).1
  rw [← hincludes.including?] at hiff
  have hdeclared := (hiff.1 hadopted).1 (sharedName "urn:a") (helements ▸ List.mem_singleton_self _)
  exact ⟨g, root, cs, hload, hincludes, hschema, hroot, hadopted, hdeclared⟩

end Grammar
end SchemaAssist
