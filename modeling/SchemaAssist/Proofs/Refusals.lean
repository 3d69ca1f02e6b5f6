/-
# Documents that are refused

A document may be refused for its size, for a text that is not well-formed, or for a root element
that is none of a schema.  The first two leave the components as they were.  The third leaves the
location of the document behind (`Components.eq_refuse`), so that every later document counts as one
further on: none of them is the first any more, whose target namespace a grammar takes
(`Components.leavesNoTrace_iff`).
-/

import SchemaAssist.Proofs.Visits

namespace SchemaAssist

/-- A document to be added, and the namespace of a document that includes it. -/
structure Submission where
  text : String
  location : Location
  including? : Option String := none

namespace Components

variable {c c' : Components} {d : Submission} {e : LoadError}

/-- Adds a document: what it refers to, or why it is refused. -/
def submit (d : Submission) : Building (Except LoadError (List Schema.Reference)) :=
  addDocument d.text d.location d.including?

/-- **What a refused document leaves behind.** -/
theorem eq_refuse (h : (submit d).run c = (.error e, c')) : c' = refuse d.location c e := by
  rcases run_addDocument_cases d.text d.location d.including? c with
    ⟨e', hrun, -⟩ | ⟨root, cs, -, hrun⟩
  · rw [submit, hrun] at h
    cases h
    rfl
  · rw [submit, hrun] at h
    cases (Prod.mk.inj h).1

/-! ### The documents after it -/

/-- The components after some more documents have been submitted. -/
def after (c : Components) (ds : List Submission) : Components :=
  ds.foldl (fun c d => ((submit d).run c).2) c

/-- What some more documents do to the documents, and to the target namespace once there are
documents. -/
theorem change_after (c : Components) (ds : List Submission) :
    (c.after ds).locations.toList = c.locations.toList ++
        (ds.filter fun d => admits c.limits d.text).map (·.location) ∧
      (c.locations.size ≠ 0 → (c.after ds).target? = c.target?) := by
  induction ds generalizing c with
  | nil => exact ⟨(List.append_nil _).symm, fun _ => rfl⟩
  | cons d ds ih =>
    obtain ⟨hlimits, hlocations, -, htarget⟩ :=
      change_addDocument d.text d.location d.including? c
    obtain ⟨hlater, hstays⟩ := ih ((submit d).run c).2
    rw [submit, hlimits, hlocations] at hlater
    refine ⟨hlater.trans ?_, fun hsize => ?_⟩
    · rw [List.filter_cons]
      cases admits c.limits d.text <;> simp
    · refine (hstays ?_).trans (htarget hsize)
      rw [submit, hlocations, Array.size_append]
      omega

/-- A refused document leaves no trace: the components are as before, and whatever is submitted
later, the same grammar is built. -/
def LeavesNoTrace (c c' : Components) : Prop :=
  c' = c ∧ ∀ ds, (c'.after ds).build = (c.after ds).build

/-- **A refused document leaves no trace exactly if it was refused for its size or for its text.**
One that is no schema counts among the documents of every grammar that is built later; if it came
first, the grammar has no target namespace, whatever the schemas after it declare. -/
theorem leavesNoTrace_iff (h : (submit d).run c = (.error e, c')) :
    (LeavesNoTrace c c' ↔ ∀ root, e ≠ .notSchema root) ∧
      ∀ root, e = .notSchema root → ∀ ds g g', (c.after ds).build = .ok g →
        (c'.after ds).build = .ok g' →
          g'.locations.size = g.locations.size + 1 ∧
            (c.locations.size = 0 → g'.target? = c.target?) := by
  obtain rfl := eq_refuse h
  refine ⟨⟨?_, fun hroot => ?_⟩, ?_⟩
  · rintro ⟨hsame, -⟩ root rfl
    have hsize := congrArg (fun c : Components => c.locations.size) hsame
    simp [refuse] at hsize
  · have hsame : refuse d.location c e = c := by
      cases e with
      | notSchema root => exact absurd rfl (hroot root)
      | _ => rfl
    rw [hsame]
    exact ⟨rfl, fun _ => rfl⟩
  · rintro root rfl ds g g' hg hg'
    obtain ⟨f, hf, rfl⟩ := exists_finish_of_build hg
    obtain ⟨f', hf', rfl⟩ := exists_finish_of_build hg'
    obtain ⟨hlocations, -⟩ := change_after c ds
    obtain ⟨hlocations', htarget⟩ := change_after (refuse d.location c (.notSchema root)) ds
    refine ⟨?_, fun _ => hf'.target.trans (htarget (by simp [refuse]))⟩
    change f'.locations.size = f.locations.size + 1
    rw [hf.locations, hf'.locations, ← Array.length_toList, ← Array.length_toList, hlocations,
      hlocations']
    simp [refuse]
    omega

/-! ### A note among schemas -/

/-- A document that is no schema. -/
def note : Submission := { text := "<note/>", location := .path "note.xsd" }

/-- A schema with a target namespace. -/
def order : Submission where
  text := "<schema xmlns='http://www.w3.org/2001/XMLSchema' targetNamespace='urn:order'/>"
  location := .path "order.xsd"

/-- What remains when the note is submitted first. -/
def noted : Components := ((submit note).run (.empty .v10 {})).2

/-- The target namespace of a grammar, if there is a grammar. -/
def targetOf : Except LoadError Grammar → Option (Option String)
  | .ok g => some g.target?
  | .error _ => none

theorem exists_grammar_of_targetOf {r : Except LoadError Grammar} {target? : Option String}
    (h : targetOf r = some target?) : ∃ g, r = .ok g ∧ g.target? = target? := by
  cases r with
  | error e => cases h
  | ok g => exact ⟨g, rfl, Option.some.inj h⟩

/-- Whether a document is refused as it is no schema. -/
def isNoSchema : Except LoadError (List Schema.Reference) → Bool
  | .error (.notSchema _) => true
  | _ => false

theorem exists_run_submit_note :
    ∃ root, (submit note).run (.empty .v10 {}) = (.error (.notSchema root), noted) := by
  have hrefused : isNoSchema ((submit note).run (.empty .v10 {})).1 = true := by decide +kernel
  cases hrun : (submit note).run (.empty .v10 {}) with
  | mk a c =>
    have hnoted : noted = c := congrArg Prod.snd hrun
    rw [hrun] at hrefused
    subst hnoted
    match a with
    | .error (.notSchema root) => exact ⟨root, rfl⟩

theorem targetOf_build :
    targetOf (((empty .v10 {}).after [order]).build) = some (some "urn:order") ∧
      targetOf ((noted.after [order]).build) = some none := by
  decide +kernel

/-- After the note the grammar of the other schema has one more document, and no target namespace. -/
theorem leavesNoTrace_iff_note :
    ∃ root, (submit note).run (.empty .v10 {}) = (.error (.notSchema root), noted) ∧
      ¬ LeavesNoTrace (.empty .v10 {}) noted ∧
      ∃ g g', ((empty .v10 {}).after [order]).build = .ok g ∧
        (noted.after [order]).build = .ok g' ∧
        g'.locations.size = g.locations.size + 1 ∧ g'.target? = none := by
  obtain ⟨root, hrun⟩ := exists_run_submit_note
  obtain ⟨hiff, hlater⟩ := leavesNoTrace_iff hrun
  obtain ⟨hbuild, hbuild'⟩ := targetOf_build
  obtain ⟨g, hg, -⟩ := exists_grammar_of_targetOf hbuild
  obtain ⟨g', hg', -⟩ := exists_grammar_of_targetOf hbuild'
  obtain ⟨hsize, htarget⟩ := hlater root rfl [order] g g' hg hg'
  exact ⟨root, hrun, fun h => hiff.1 h root rfl, g, g', hg, hg', hsize, htarget rfl⟩

/-- **A note that is refused costs the schema after it the target namespace.** -/
theorem not_leavesNoTrace_note :
    (∃ e, (submit note).run (.empty .v10 {}) = (.error e, noted)) ∧
      ¬ LeavesNoTrace (.empty .v10 {}) noted ∧
      targetOf (((empty .v10 {}).after [order]).build) = some (some "urn:order") ∧
      targetOf ((noted.after [order]).build) = some none := by
  obtain ⟨root, hrun⟩ := exists_run_submit_note
  obtain ⟨hbuild, hbuild'⟩ := targetOf_build
  refine ⟨⟨_, hrun⟩, fun ⟨_, hsame⟩ => ?_, hbuild, hbuild'⟩
  rw [← hsame [order], hbuild'] at hbuild
  cases hbuild

end Components
end SchemaAssist
