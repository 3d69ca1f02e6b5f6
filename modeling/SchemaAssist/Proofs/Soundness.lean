/-
# Replay is sound

A run that succeeds attributes its elements to leaves, and whatever may still follow then ends a
word of the content model (`runFrom_spec`).  So the elements are the start of a content that the
model group admits, and a whole one where the content may end.
-/

import SchemaAssist.Proofs.Steps

namespace SchemaAssist
namespace ContentModel
namespace Automaton

variable {m : Automaton}

/-- What is left after a run, with the elements of the run in front, was left before it. -/
theorem runFrom_spec (hm : m.root.Ordered) {w : List Name} {st st' : Progress} {position : Nat}
    (hst : m.root.Fits st) (h : m.replayable.runFrom st position w = .ok st') :
    m.root.Fits st' ∧
      ∃ u : List Letter, u.map Prod.fst = w ∧ ∀ v ∈ m.root.rest st', u ++ v ∈ m.root.rest st := by
  induction w generalizing st position with
  | nil =>
    cases h
    exact ⟨hst, [], rfl, fun _ hv => hv⟩
  | cons name w ih =>
    rw [Replayable.runFrom] at h
    cases hstep : m.replayable.step st name with
    | none =>
      rw [hstep] at h
      cases h
    | some found =>
      obtain ⟨st₁, t⟩ := found
      rw [hstep] at h
      obtain ⟨hst₁, leaf, hleads⟩ := Node.step_spec hm st st₁ t hst hstep
      obtain ⟨hst', u, rfl, hu⟩ := ih hst₁ h
      exact ⟨hst', (name, leaf) :: u, rfl, fun v hv => hleads _ (hu v hv)⟩

/-- What is left after a run from the start ends a word of the tree. -/
theorem run_spec (hm : m.root.Ordered) {w : List Name} {st : Progress}
    (h : m.replayable.run w = .ok st) :
    m.root.Fits st ∧
      ∃ u : List Letter, u.map Prod.fst = w ∧ ∀ v ∈ m.root.rest st, u ++ v ∈ m.root.words := by
  obtain ⟨hst, u, hu, hrest⟩ := runFrom_spec hm (Node.fits_fresh m.root) h
  exact ⟨hst, u, hu, fun v hv => Node.rest_fresh m.root ▸ hrest v hv⟩

/-- **Replay is sound**: elements that it takes are the start of a content that the model group
admits, and are one where it lets the content end. -/
theorem run_sound {g : ModelGroup} {accepts : ElementId → List Name} {version : Version}
    {limits : Limits} (hbounds : g.BoundsValid) (hleaves : g.LeavesMatch accepts)
    (hm : compile g accepts version limits = .ok m) {w : List Name} {st : Progress}
    (hrun : m.replayable.run w = .ok st) :
    (∃ v, w ++ v ∈ g.language accepts) ∧ (m.accepting st = true → w ∈ g.language accepts) := by
  obtain ⟨⟨k, hfaithful⟩, -⟩ := of_compile_eq_ok hm
  have hordered := hfaithful.ordered hbounds
  obtain ⟨hst, u, rfl, hu⟩ := run_spec hordered hrun
  have hlanguage : ∀ v ∈ m.root.rest st,
      u.map Prod.fst ++ v.map Prod.fst ∈ g.language accepts := fun v hv => by
    rw [← ModelGroup.map_attributions, ← hfaithful.words_eq, ← List.map_append]
    exact ⟨u ++ v, hu v hv, rfl⟩
  constructor
  · obtain ⟨v, hv⟩ := Node.exists_mem_rest hordered (hfaithful.matchable hleaves) hst
    exact ⟨v.map Prod.fst, hlanguage v hv⟩
  · intro haccepting
    have h := hlanguage [] ((Node.nil_mem_rest_iff hordered hst).2 haccepting)
    rwa [List.map_nil, List.append_nil] at h

/-- A sequence of one or two elements `a` and a `b`, all of it twice. -/
def repeatedSequence : ModelGroup :=
  ⟨.sequence, [.element ⟨0⟩ ⟨1, some 2⟩, .element ⟨1⟩ .once], ⟨2, some 2⟩⟩

/-- The content model of `repeatedSequence`. -/
def repeatedSequenceModel : Automaton :=
  ⟨.group ⟨2, some 2⟩ .sequence [.element ⟨1, some 2⟩ 1 ⟨0⟩ (twoNames ⟨0⟩),
    .element .once 2 ⟨1⟩ (twoNames ⟨1⟩)], .standard⟩

theorem run_sound_repeatedSequence :
    repeatedSequence.BoundsValid ∧ repeatedSequence.LeavesMatch twoNames ∧
      compile repeatedSequence twoNames .v10 {} = .ok repeatedSequenceModel ∧
      repeatedSequenceModel.replayable.run (["a", "a", "b", "a", "b"].map .unqualified) =
        .ok (.sequence 2 1 (.leaf 1)) ∧
      repeatedSequenceModel.accepting (.sequence 2 1 (.leaf 1)) = true ∧
      ["a", "a", "b", "a", "b"].map .unqualified ∈ repeatedSequence.language twoNames := by
  have hbounds : repeatedSequence.BoundsValid := by decide
  have hleaves : repeatedSequence.LeavesMatch twoNames :=
    ModelGroup.leavesMatch_of_elements (by simp [repeatedSequence]) exists_mem_twoNames
  have hm : compile repeatedSequence twoNames .v10 {} = .ok repeatedSequenceModel := rfl
  have hrun : repeatedSequenceModel.replayable.run (["a", "a", "b", "a", "b"].map .unqualified) =
      .ok (.sequence 2 1 (.leaf 1)) := rfl
  exact ⟨hbounds, hleaves, hm, hrun, rfl, (run_sound hbounds hleaves hm hrun).2 rfl⟩

end Automaton
end ContentModel
end SchemaAssist
