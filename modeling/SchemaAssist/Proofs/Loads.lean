/-
# What is loaded is what is visited

Loading a grammar carries the components and the locations met from one document to the next.  It
comes to the same as visiting all documents first and adding what is found afterwards
(`Grammar.load_eq`).  So a grammar holds just what the visited documents declare
(`Grammar.holds_of_load`), and depends on the files only through what is found at the locations
visited (`Grammar.load_congr`).
-/

import SchemaAssist.Proofs.Surveys

namespace SchemaAssist

open Loading

namespace Gathering

variable {limits : Limits}

/-- Documents that are referred to are added by visiting those that are not met yet. -/
theorem addReferred_eq (readFile : ReadFile Id) {g : Gathering}
    (hlimits : g.components.limits = limits) (ps : List Pending) :
    g.addReferred readFile ps =
      let vs := visitsOf readFile limits g.met ps
      (vs.flatMap Visit.next, ⟨((vs.forM Visit.add).run g.components).2, (fresh g.met ps).2⟩) := by
  induction ps generalizing g with
  | nil => rfl
  | cons p ps ih =>
    rw [addReferred, meet, visitsOf, fresh]
    by_cases hmet : p.location.key ∈ g.met
    · rw [if_pos hmet, if_pos hmet]
      exact ih hlimits
    · rw [if_neg hmet, if_neg hmet]
      subst hlimits
      obtain ⟨hok, herror⟩ := addDocument_spec readFile { g with met := p.location.key :: g.met } p
      have hnext := ih (g := ⟨((p.visit readFile g.components.limits).add.run g.components).2,
        p.location.key :: g.met⟩) (Visit.limits_add (Visit.sized_visit _ _ _))
      cases hschema : (p.visit readFile g.components.limits).schema? with
      | ok tree =>
        simp only [bind, pure, hok tree hschema, hnext]
        rfl
      | error e =>
        obtain ⟨g', hg', hleave⟩ := herror e hschema
        have hnone : (p.visit readFile g.components.limits).next = [] := Visit.next_of_error hschema
        simp only [bind, hg', hleave, hnext, List.map_cons, List.flatMap_cons, hnone, List.nil_append]
        rfl

/-- Documents that are asked for are added by visiting them; the first that is no schema stops it. -/
theorem addRequested_eq (readFile : ReadFile Id) {g : Gathering}
    (hlimits : g.components.limits = limits) (ps : List Pending) :
    g.addRequested readFile ps =
      let vs := visitsOf readFile limits g.met ps
      match vs.findSome? Visit.failure? with
      | some e => .error e
      | none => .ok (vs.flatMap Visit.next,
          ⟨((vs.forM Visit.add).run g.components).2, (fresh g.met ps).2⟩) := by
  induction ps generalizing g with
  | nil => rfl
  | cons p ps ih =>
    rw [addRequested, meet, visitsOf, fresh]
    by_cases hmet : p.location.key ∈ g.met
    · rw [if_pos hmet, if_pos hmet]
      exact ih hlimits
    · rw [if_neg hmet, if_neg hmet]
      subst hlimits
      obtain ⟨hok, herror⟩ := addDocument_spec readFile { g with met := p.location.key :: g.met } p
      have hnext := ih (g := ⟨((p.visit readFile g.components.limits).add.run g.components).2,
        p.location.key :: g.met⟩) (Visit.limits_add (Visit.sized_visit _ _ _))
      cases hschema : (p.visit readFile g.components.limits).schema? with
      | ok tree =>
        have hfailure : (p.visit readFile g.components.limits).failure? = none := by
          rw [Visit.failure?, hschema]
        simp only [bind, pure, hok tree hschema, hnext, List.map_cons, List.findSome?_cons, hfailure,
          visitsOf]
        cases ((fresh (p.location.key :: g.met) ps).1.map
          (·.visit readFile g.components.limits)).findSome? Visit.failure? <;> rfl
      | error e =>
        obtain ⟨g', hg', -⟩ := herror e hschema
        have hfailure : (p.visit readFile g.components.limits).failure? = some e := by
          rw [Visit.failure?, hschema]
        simp only [bind, hg', List.map_cons, List.findSome?_cons, hfailure]
        rfl

/-- Documents that are too far away are left out, each location once. -/
theorem leaveOutAll_eq (e : LoadError) (g : Gathering) (ps : List Pending) :
    (leaveOutAll e g ps).components =
      (((fresh g.met ps).1.forM fun p => Visit.leaveOut p.location e).run g.components).2 := by
  induction ps generalizing g with
  | nil => rfl
  | cons p ps ih =>
    rw [leaveOutAll, meet, fresh]
    by_cases hmet : p.location.key ∈ g.met
    · rw [if_pos hmet, if_pos hmet]
      exact ih g
    · rw [if_neg hmet, if_neg hmet]
      exact ih _

/-- The failure of a document that is too far away. -/
def tooDeep (limits : Limits) : LoadError :=
  .limit (.schemaDepth (limits.schemaDepth + 1) limits.schemaDepth)

/-- Adds what is found, and leaves out what is too far away. -/
def gather (limits : Limits) (s : List Visit × List Pending) : Building Unit := do
  s.1.forM Visit.add
  s.2.forM fun p => Visit.leaveOut p.location (tooDeep limits)

theorem run_gather_append (limits : Limits) (vs : List Visit) (s : List Visit × List Pending)
    (c : Components) :
    (gather limits (vs ++ s.1, s.2)).run c = (gather limits s).run ((vs.forM Visit.add).run c).2 := by
  induction vs generalizing c with
  | nil => rfl
  | cons v vs ih => exact ih (v.add.run c).2

/-- The levels are added by visiting what a survey finds. -/
theorem addLevels_eq (readFile : ReadFile Id) {g : Gathering}
    (hlimits : g.components.limits = limits) (levels : Nat) (ps : List Pending) :
    (g.addLevels readFile levels ps : Gathering).components =
      ((gather limits (survey readFile limits levels g.met ps)).run g.components).2 := by
  induction levels generalizing g ps with
  | zero =>
    cases ps with
    | nil => rfl
    | cons p ps =>
      subst hlimits
      rw [addLevels]
      · exact leaveOutAll_eq _ g (p :: ps)
      · exact nofun
  | succ levels ih =>
    cases ps with
    | nil =>
      rw [survey_nil]
      rfl
    | cons p ps =>
      have hnext := ih (g := ⟨(((visitsOf readFile limits g.met (p :: ps)).forM Visit.add).run
        g.components).2, (fresh g.met (p :: ps)).2⟩)
        (Visit.limits_forM_add (fun v hv => sized_of_mem_visitsOf hv) hlimits)
        ((visitsOf readFile limits g.met (p :: ps)).flatMap Visit.next)
      rw [addLevels]
      simp only [bind, addReferred_eq readFile hlimits, hnext, survey, run_gather_append]

end Gathering

namespace Grammar

variable {readFile readFile' : ReadFile Id} {limits : Limits} {version : Version}
  {locations : List Location} {g : Grammar}

theorem load_nil (readFile : ReadFile Id) (limits : Limits) (version : Version) :
    Grammar.load readFile limits version [] = .error .noLocation := rfl

/-- **What is loaded is what is visited.**  The first document asked for that is no schema stops the
load; otherwise the grammar is built of what all visits add, in order. -/
theorem load_eq (hlocations : locations ≠ []) :
    Grammar.load readFile limits version locations =
      match (visitsOf readFile limits [] (requests locations)).findSome? Visit.failure? with
      | some e => .error e
      | none => (((Gathering.gather limits (surveyed readFile limits locations)).run
          (.empty version limits)).2).build := by
  have hempty : locations.isEmpty = false := by simpa using hlocations
  have hstart : ({ components := .empty version limits } : Gathering).components.limits = limits := rfl
  rw [Grammar.load, hempty]
  simp only [Bool.false_eq_true, if_false, bind, pure]
  rw [show (locations.map ({ location := · }) : List Pending) = requests locations from rfl,
    Gathering.addRequested_eq readFile hstart]
  cases hfailure : (visitsOf readFile limits [] (requests locations)).findSome? Visit.failure? with
  | some e => simp only [hfailure]
  | none =>
    let vs := visitsOf readFile limits [] (requests locations)
    have hlevels := Gathering.addLevels_eq readFile
      (g := ⟨((vs.forM Visit.add).run (.empty version limits)).2, (fresh [] (requests locations)).2⟩)
      (Visit.limits_forM_add (fun v hv => sized_of_mem_visitsOf hv) rfl)
      limits.schemaDepth (vs.flatMap Visit.next)
    simp only [hfailure]
    rw [hlevels, surveyed, survey, Gathering.run_gather_append]

theorem catalog_leaveOutAll (e : LoadError) (ps : List Pending) (c : Components) :
    ((ps.forM fun p => Visit.leaveOut p.location e).run c).2.catalog = c.catalog := by
  induction ps generalizing c with
  | nil => rfl
  | cons p ps ih => exact ih ((Visit.leaveOut p.location e).run c).2

theorem catalog_gather {s : List Visit × List Pending} {c : Components}
    (hsized : ∀ v ∈ s.1, v.Sized limits) (hlimits : c.limits = limits) :
    ((Gathering.gather limits s).run c).2.catalog = s.1.foldl (fun k v => v.enter k) c.catalog := by
  rw [← Visit.forM_add_spec hsized hlimits]
  exact catalog_leaveOutAll _ _ _

theorem catalog_empty (version : Version) (limits : Limits) :
    (Components.empty version limits).catalog = ⟨limits, #[], ∅, ∅⟩ := by
  have hnone : (({} : NameTable ElementId).domain = ∅) ∧ ({} : NameTable TypeId).domain = ∅ := by
    simp [Set.ext_iff, NameTable.has, NameTable.find?]
  exact Catalog.ext rfl rfl hnone.1 hnone.2

/-- **What a grammar holds** are the documents visited whose texts are well-formed, in the order of
the visits, and the names that visited documents declare. -/
theorem holds_of_load (hload : Grammar.load readFile limits version locations = .ok g) :
    let vs := visits readFile limits locations
    g.locations = ((vs.filter Visit.isKept).map Visit.location).toArray ∧
      (∀ n, g.globalElements.has n = true ↔ ∃ v ∈ vs, n ∈ v.elementNames) ∧
      ∀ n, g.globalTypes.has n = true ↔ ∃ v ∈ vs, n ∈ v.typeNames := by
  intro vs
  have hlocations : locations ≠ [] := by
    rintro rfl
    rw [load_nil] at hload
    cases hload
  rw [load_eq hlocations] at hload
  split at hload
  · cases hload
  · obtain ⟨c, hc, rfl⟩ := Components.exists_finish_of_build hload
    have hsized : ∀ v ∈ vs, v.Sized limits := fun v hv => sized_of_mem_survey hv
    have hcatalog : c.catalog = Catalog.enter (vs.flatMap Visit.elementNames)
        (vs.flatMap Visit.typeNames)
        ⟨limits, #[] ++ ((vs.filter Visit.isKept).map Visit.location).toArray, ∅, ∅⟩ := by
      have hlimits : (Components.empty version limits).limits = limits := rfl
      have hgather := catalog_gather (s := surveyed readFile limits locations) hsized hlimits
      rw [catalog_empty, Visit.foldl_enter] at hgather
      exact (hc.catalog.trans (Catalog.enter_nil _)).trans hgather
    have helements := Set.ext_iff.1 (congrArg Catalog.elementNames hcatalog)
    have htypes := Set.ext_iff.1 (congrArg Catalog.typeNames hcatalog)
    refine ⟨(congrArg Catalog.locations hcatalog).trans Array.empty_append,
      fun n => (helements n).trans ?_, fun n => (htypes n).trans ?_⟩
    · simp [Catalog.enter]
    · simp [Catalog.enter]

/-- **A load depends on what is found at the locations visited**, and on nothing else. -/
theorem load_congr (h : ∀ v ∈ visits readFile limits locations,
      v.location.load readFile' limits = v.text) (version : Version) :
    Grammar.load readFile' limits version locations =
      Grammar.load readFile limits version locations := by
  by_cases hlocations : locations = []
  · rw [hlocations, load_nil, load_nil]
  · have hsurvey : surveyed readFile' limits locations = surveyed readFile limits locations :=
      survey_congr h
    have hnow : visitsOf readFile' limits [] (requests locations) =
        visitsOf readFile limits [] (requests locations) :=
      visitsOf_congr fun v hv => h v (List.mem_append_left _ hv)
    rw [load_eq hlocations, load_eq hlocations, hsurvey, hnow]

end Grammar
end SchemaAssist
