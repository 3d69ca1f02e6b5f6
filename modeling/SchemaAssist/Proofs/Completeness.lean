/-
# When replay is complete

A step that can go on with an occurrence never starts the next one instead, and it is never taken
back.  So replay is complete exactly if no step loses a way to end the content
(`Automaton.LosesNothing`).  In an unambiguous content model only this preference can lose one, and
it loses none if the occurrences that may be followed by another one go on with nothing that they
begin with, or absorb it (`Node.Steady`).  Without unordered groups, this is the only way to lose
none.
-/

import SchemaAssist.Proofs.Keeping
import SchemaAssist.Proofs.Overlooked
import SchemaAssist.Proofs.Soundness

namespace SchemaAssist

theorem Replayable.runFrom_append {σ : Type} (m : Replayable σ) (st : σ) (position : Nat)
    (u v : List Name) : m.runFrom st position (u ++ v) =
      m.runFrom st position u >>= fun st' => m.runFrom st' (position + u.length) v := by
  induction u generalizing st position with
  | nil => rfl
  | cons name u ih =>
    rw [List.cons_append, runFrom, runFrom]
    cases m.step st name with
    | none => rfl
    | some found =>
      rw [List.length_cons, show position + (u.length + 1) = position + 1 + u.length by omega]
      exact ih found.1 (position + 1)

namespace ContentModel
namespace Automaton

variable {m : Automaton} {g : ModelGroup} {accepts : ElementId → List Name} {version : Version}
  {limits : Limits}

/-- No step loses a way to end the content. -/
def LosesNothing (m : Automaton) : Prop :=
  ∀ w st, m.replayable.run w = .ok st → ∀ name z, name :: z ∈ (m.root.rest st).map Prod.fst →
    ∃ st' t, m.step st name = some (st', t) ∧ z ∈ (m.root.rest st').map Prod.fst

/-- Every word of a language can be replayed to a state where the content may end. -/
def CompleteFor (m : Automaton) (l : Language Name) : Prop :=
  ∀ w ∈ l, ∃ st, m.replayable.run w = .ok st ∧ m.accepting st = true

/-- What is left after a run is what the whole content can go on with. -/
theorem map_rest_subset (hm : m.root.Ordered) {w : List Name} {st : Progress}
    (h : m.replayable.run w = .ok st) {z : List Name} (hz : z ∈ (m.root.rest st).map Prod.fst) :
    w ++ z ∈ m.root.words.map Prod.fst := by
  obtain ⟨-, u, rfl, hu⟩ := run_spec hm h
  obtain ⟨v, hv, rfl⟩ := hz
  exact ⟨u ++ v, hu v hv, List.map_append⟩

/-- A run goes on from where a shorter one ended. -/
theorem run_append {w z : List Name} {st : Progress} (h : m.replayable.run w = .ok st) :
    m.replayable.run (w ++ z) = m.replayable.runFrom st w.length z := by
  rw [Replayable.run] at h ⊢
  rw [Replayable.runFrom_append, h, Nat.zero_add]
  rfl

/-- Where no step loses a way to end the content, what is left can be replayed. -/
theorem LosesNothing.exists_runFrom (h : m.LosesNothing) (hm : m.root.Ordered) {w z : List Name}
    {st : Progress} (hrun : m.replayable.run w = .ok st)
    (hz : z ∈ (m.root.rest st).map Prod.fst) :
    ∃ st', m.replayable.runFrom st w.length z = .ok st' ∧ m.accepting st' = true := by
  induction z generalizing w st with
  | nil =>
    obtain ⟨v, hv, hnil⟩ := hz
    rw [List.map_eq_nil_iff.1 hnil] at hv
    exact ⟨st, rfl, (Node.nil_mem_rest_iff hm (run_spec hm hrun).1).1 hv⟩
  | cons name z ih =>
    obtain ⟨st', t, hstep, hz⟩ := h w st hrun name z hz
    have hnext : m.replayable.runFrom st w.length [name] = .ok st' := by
      rw [Replayable.runFrom, show m.replayable.step st name = some (st', t) from hstep]
      rfl
    obtain ⟨st'', hrest, haccepting⟩ := ih ((run_append hrun).trans hnext) hz
    refine ⟨st'', ?_, haccepting⟩
    rw [Replayable.runFrom, show m.replayable.step st name = some (st', t) from hstep]
    rwa [List.length_append] at hrest

/-- **Replay is complete exactly if no step loses a way to end the content.** -/
theorem completeFor_words_iff (hm : m.root.Ordered) :
    m.CompleteFor (m.root.words.map Prod.fst) ↔ m.LosesNothing := by
  constructor
  · intro h w st hrun name z hz
    obtain ⟨st'', hrun', haccepting⟩ := h _ (map_rest_subset hm hrun hz)
    rw [run_append hrun, Replayable.runFrom] at hrun'
    have hst := (run_spec hm hrun).1
    cases hstep : m.replayable.step st name with
    | none =>
      rw [hstep] at hrun'
      cases hrun'
    | some found =>
      obtain ⟨st', t⟩ := found
      rw [hstep] at hrun'
      have hst' := (Node.step_spec hm st st' t hst hstep).1
      obtain ⟨hst'', u, rfl, hu⟩ := runFrom_spec hm hst' hrun'
      refine ⟨st', t, hstep, u, ?_, rfl⟩
      exact List.append_nil u ▸ hu [] ((Node.nil_mem_rest_iff hm hst'').2 haccepting)
  · intro h w hw
    rw [← Node.rest_fresh] at hw
    exact h.exists_runFrom hm (w := []) rfl hw

/-- **A steady unambiguous content model loses nothing.** -/
theorem losesNothing_of_steady (hm : m.root.Proper)
    (hunambiguous : Separate (Letter.Contests .v10) m.root.words) (hsteady : m.root.Steady) :
    m.LosesNothing := by
  rintro w st hrun name z ⟨v, hv, hz⟩
  cases v with
  | nil => cases hz
  | cons a v =>
    obtain ⟨name, p⟩ := a
    cases hz
    obtain ⟨hst, u, -, hu⟩ := run_spec hm.ordered hrun
    have honly := only_of_separate hunambiguous hu (hu _ hv)
    obtain ⟨st', t, hstep, hv⟩ := hsteady.follows hm st hst honly v hv
    exact ⟨st', t, hstep, v, hv, rfl⟩

/-- Replay takes the names of letters as the steps of the tree do. -/
theorem runFrom_of_along {u : List Letter} {st st' : Progress}
    (h : along m.root.step st u = some st') (position : Nat) :
    m.replayable.runFrom st position (u.map Prod.fst) = .ok st' := by
  induction u generalizing st position with
  | nil =>
    cases h
    rfl
  | cons a u ih =>
    rw [along] at h
    obtain ⟨⟨st₁, t⟩, hstep, h⟩ := Option.bind_eq_some_iff.1 h
    rw [List.map_cons, Replayable.runFrom,
      show m.replayable.step st a.1 = some (st₁, t) from hstep]
    exact ih h (position + 1)

/-- The tree of an unambiguous content model for which replay is complete keeps what can be
done. -/
theorem CompleteFor.keeps (h : m.CompleteFor (m.root.words.map Prod.fst)) (hm : m.root.Ordered)
    (hunambiguous : Separate (Letter.Contests .v10) m.root.words) : m.root.Keeps := by
  intro u v st huv hrun
  have hrun' : m.replayable.run (u.map Prod.fst) = .ok st := runFrom_of_along hrun 0
  obtain ⟨st', hend, haccepting⟩ := h _ ⟨u ++ v, huv, rfl⟩
  rw [List.map_append, run_append hrun'] at hend
  obtain ⟨hst, u', hu', hwords⟩ := run_spec hm hrun'
  obtain ⟨hst', v', hv', hrest⟩ := runFrom_spec hm hst hend
  have hleft := hrest [] ((Node.nil_mem_rest_iff hm hst').2 haccepting)
  rw [List.append_nil] at hleft
  -- the names that were read can be attributed in one way only
  have hsame : u' ++ v' = u ++ v := by
    refine eq_of_separate (x := []) hunambiguous (hwords v' hleft) huv ?_
    rw [List.map_append, List.map_append, hu', hv']
  have hlength : u'.length = u.length := by
    rw [← @List.length_map _ _ u' Prod.fst, hu', List.length_map]
  rwa [(List.append_inj hsame hlength).2] at hleft

/-- A content model that may not occur has nothing to lose. -/
theorem completeFor_of_never (hm : m.root.Ordered) (hmax : m.root.occurs.never = true) :
    m.CompleteFor (m.root.words.map Prod.fst) := by
  rintro _ ⟨u, hu, rfl⟩
  have hnil : u = [] := by
    obtain ⟨k, hk, hu⟩ := hu
    have hzero : k = 0 := Nat.le_zero.1 (hk.2 0 (by simpa [Occurs.never] using hmax))
    subst hzero
    exact hu
  subst hnil
  refine ⟨.fresh, rfl, (Node.nil_mem_rest_iff hm (Node.fits_fresh _)).1 ?_⟩
  rwa [Node.rest_fresh]

/-- **Without unordered groups replay is complete exactly if the tree is steady**, for an
unambiguous content model that may occur. -/
theorem completeFor_words_iff_steady (hm : m.root.Proper) (hranked : m.root.Ranked)
    (hunambiguous : Separate (Letter.Contests .v10) m.root.words) :
    m.CompleteFor (m.root.words.map Prod.fst) ↔ m.root.occurs.never = true ∨ m.root.Steady := by
  constructor
  · intro h
    by_cases hmax : m.root.occurs.never = true
    · exact Or.inl hmax
    · exact Or.inr <| (h.keeps hm.ordered hunambiguous).steady hm hranked
        (Bool.eq_false_iff.2 hmax) hunambiguous
  · rintro (hmax | hsteady)
    · exact completeFor_of_never hm.ordered hmax
    · exact (completeFor_words_iff hm.ordered).2 (losesNothing_of_steady hm hunambiguous hsteady)

/-- **Replay is complete exactly if no step loses a way to end the content.**  An unambiguous model
group whose tree is steady loses none, and one that may occur and has no unordered groups only
then. -/
theorem completeFor_iff (hbounds : g.BoundsValid)
    (hm : compile g accepts .v10 limits = .ok m) :
    (m.CompleteFor (g.language accepts) ↔ m.LosesNothing) ∧
      (g.LeavesMatch accepts → ¬ g.Ambiguous accepts .v10 →
        (m.root.Steady → m.CompleteFor (g.language accepts)) ∧
        (m.root.Ranked → (m.CompleteFor (g.language accepts) ↔
          m.root.occurs.never = true ∨ m.root.Steady))) := by
  obtain ⟨⟨k, hfaithful⟩, -⟩ := of_compile_eq_ok hm
  rw [← ModelGroup.map_attributions, ModelGroup.unambiguous_iff, ← hfaithful.words_eq]
  have hiff := completeFor_words_iff (hfaithful.ordered hbounds)
  refine ⟨hiff, fun hleaves hunambiguous => ?_⟩
  have hproper := hfaithful.proper hbounds hleaves
  refine ⟨fun hsteady => hiff.2 (losesNothing_of_steady hproper hunambiguous hsteady), ?_⟩
  exact fun hranked => completeFor_words_iff_steady hproper hranked hunambiguous

/-- One or two elements `a` and an optional `b`, all of it up to three times. -/
def shortLists : ModelGroup :=
  ⟨.sequence, [.element ⟨0⟩ ⟨1, some 2⟩, .element ⟨1⟩ ⟨0, some 1⟩], ⟨0, some 3⟩⟩

theorem completeFor_shortLists :
    shortLists.BoundsValid ∧ shortLists.LeavesMatch twoNames ∧
      ∃ m, compile shortLists twoNames .v10 {} = .ok m ∧
        m.CompleteFor (shortLists.language twoNames) := by
  have hbounds : shortLists.BoundsValid := by decide
  have hleaves : shortLists.LeavesMatch twoNames :=
    ModelGroup.leavesMatch_of_elements (by simp [shortLists]) exists_mem_twoNames
  have hm : compile shortLists twoNames .v10 {} = .ok ⟨.group ⟨0, some 3⟩ .sequence
    [.element ⟨1, some 2⟩ 1 ⟨0⟩ (twoNames ⟨0⟩), .element ⟨0, some 1⟩ 2 ⟨1⟩ (twoNames ⟨1⟩)],
    .standard⟩ := rfl
  obtain ⟨⟨k, hfaithful⟩, hcheck⟩ := of_compile_eq_ok hm
  have hproper := hfaithful.proper hbounds hleaves
  have hunambiguous : ¬ shortLists.Ambiguous twoNames .v10 := by
    rw [ModelGroup.unambiguous_iff, ← hfaithful.words_eq, Node.separate_words_iff hproper rfl]
    exact Node.separated_of_plain hproper hcheck (by decide)
  refine ⟨hbounds, hleaves, _, hm, ((completeFor_iff hbounds hm).2 hleaves hunambiguous).1 ?_⟩
  -- a further `a` is one more of the same occurrence, or the first of a new one
  refine ⟨⟨trivial, trivial, trivial⟩, fun _ => Or.inr ⟨rfl, fun _ => Or.inr rfl, nofun⟩⟩

/-- One or two elements `a`, all of it twice. -/
def twiceOneOrTwo : ModelGroup := ⟨.sequence, [.element ⟨0⟩ ⟨1, some 2⟩], ⟨2, some 2⟩⟩

/-- The second `a` is taken for one more of the first occurrence, and then the second occurrence is
missing. -/
theorem not_completeFor_twiceOneOrTwo :
    twiceOneOrTwo.BoundsValid ∧ ∃ m st, compile twiceOneOrTwo twoNames .v10 {} = .ok m ∧
      [.unqualified "a", .unqualified "a"] ∈ twiceOneOrTwo.language twoNames ∧
      m.replayable.run [.unqualified "a", .unqualified "a"] = .ok st ∧ m.accepting st = false ∧
      ¬ m.CompleteFor (twiceOneOrTwo.language twoNames) := by
  have hm : compile twiceOneOrTwo twoNames .v10 {} = .ok ⟨.group ⟨2, some 2⟩ .sequence
    [.element ⟨1, some 2⟩ 1 ⟨0⟩ (twoNames ⟨0⟩)], .standard⟩ := rfl
  have hone : [.unqualified "a"] ∈ twiceOneOrTwo.toParticle.contents twoNames := by
    have helement : [.unqualified "a"] ∈ (⟨1, some 2⟩ : Occurs).words
        ((Particle.element ⟨0⟩ ⟨1, some 2⟩).contents twoNames) :=
      Occurs.mem_words_of_allows_one (by decide) ⟨_, List.mem_cons_self, rfl⟩
    exact Language.append_mem_mul helement Language.nil_mem_one
  have hword : [.unqualified "a", .unqualified "a"] ∈ twiceOneOrTwo.language twoNames :=
    Occurs.append_mem_words_of_allows_two (by decide) hone hone
  refine ⟨by decide, _, .sequence 1 0 (.leaf 2), hm, hword, rfl, rfl, fun h => ?_⟩
  obtain ⟨st, hrun, haccepting⟩ := h _ hword
  cases hrun
  cases haccepting

end Automaton
end ContentModel
end SchemaAssist
