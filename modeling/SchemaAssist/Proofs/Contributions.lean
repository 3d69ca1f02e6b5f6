/-
# What a document contributes

What a document puts into the components does not depend on the components, but for identifiers: it
is what it puts into empty ones, behind what is there (`Components.run_submit`).  So documents that
declare nothing in common leave behind what each of them contributes, in their order
(`Components.after_eq`).  And however documents are added, what refers to something refers to
something that is there (`Components.intact_after`).
-/

import SchemaAssist.Proofs.Behind
import SchemaAssist.Proofs.Refusals

namespace SchemaAssist

open Referring (rename Sound sound_mono sound_nil)
open Markup (Tag Node)

namespace Schema

/-- A document that is read, given its place among the documents. -/
def sourceOf (text : String) (including? : Option String) (root : Tag) (document : Nat) : Source where
  text := text.toList
  document := document
  target? := (declaredTarget? root).or including?
  elementForm := defaultForm root "elementFormDefault"
  attributeForm := defaultForm root "attributeFormDefault"
  adopted := (declaredTarget? root).isNone && including?.isSome

/-- What the root of a document does to the components before its declarations are read: it may turn
to the rules of the later version, and that of the first document settles the target namespace. -/
def openRoot (including? : Option String) (root : Tag) (c : Components) : Components :=
  { c with
    version := if needsLater root then .v11 else c.version
    target? := if c.locations.size = 1 then (declaredTarget? root).or including? else c.target? }

theorem run_readRoot (text : String) (including? : Option String) (root : Tag) (cs : List Node)
    (c : Components) : (readRoot text including? root cs).run c =
      (referencesOf ((declaredTarget? root).or including?) (elements cs),
        (((elements cs).forM fun e =>
          (declare e).run (sourceOf text including? root (c.locations.size - 1))).run
            (openRoot including? root c)).2) := by
  rw [readRoot, openRoot]
  cases needsLater root <;> by_cases hsize : c.locations.size = 1 <;>
    simp [hsize, sourceOf, Components.requireLater] <;> rfl

end Schema

namespace Components

variable {base c : Components} {d : Submission}

/-! ### One document -/

/-- A document that is added is read as a schema, whatever the components. -/
theorem exists_readRoot_of_submit {refs : List Schema.Reference}
    (h : ((submit d).run c).1 = .ok refs) :
    ∃ root cs, ∀ c', c'.limits = c.limits → (submit d).run c' =
      (Except.ok <$> Schema.readRoot d.text d.including? root cs : Building _).run
        { c' with locations := c'.locations.push d.location } := by
  cases hsize : c.limits.checkSchemaSize d.text.utf8ByteSize with
  | error e =>
    have hrun : ((submit d).run c).1 = .error (.limit e) := by
      rw [submit, addDocument]
      simp [hsize]
      rfl
    rw [hrun] at h
    cases h
  | ok _ =>
    cases hread : Markup.read d.text with
    | error e =>
      have hrun : (submit d).run c = (.error (.malformed e), c) :=
        run_addDocument_of_error hsize hread
      rw [hrun] at h
      cases h
    | ok tree =>
      obtain ⟨root, cs⟩ := tree
      have hrun (c' : Components) (hlimits : c'.limits = c.limits) : (submit d).run c' = _ :=
        run_addDocument_of_ok (hlimits ▸ hsize) hread
      by_cases hkind : Schema.kind root = "schema"
      · refine ⟨root, cs, fun c' hlimits => ?_⟩
        rw [hrun c' hlimits, if_pos hkind]
      · rw [hrun c rfl, if_neg hkind] at h
        cases h

/-- What a document that is added does: its location is kept, its root is opened, and its
declarations are read. -/
theorem exists_run_submit {refs : List Schema.Reference} (h : ((submit d).run c).1 = .ok refs) :
    ∃ root cs, ∀ c', c'.limits = c.limits → (submit d).run c' =
      (.ok refs, (((Schema.elements cs).forM fun e => (Schema.declare e).run
        (Schema.sourceOf d.text d.including? root c'.locations.size)).run
          (Schema.openRoot d.including? root
            { c' with locations := c'.locations.push d.location })).2) := by
  obtain ⟨root, cs, hread⟩ := exists_readRoot_of_submit h
  have hrun (c' : Components) (hlimits : c'.limits = c.limits) : (submit d).run c' =
      (.ok (Schema.referencesOf ((Schema.declaredTarget? root).or d.including?)
        (Schema.elements cs)), (((Schema.elements cs).forM fun e => (Schema.declare e).run
        (Schema.sourceOf d.text d.including? root c'.locations.size)).run
          (Schema.openRoot d.including? root
            { c' with locations := c'.locations.push d.location })).2) := by
    have hroot := Schema.run_readRoot d.text d.including? root cs
      { c' with locations := c'.locations.push d.location }
    rw [Array.size_push, Nat.add_sub_cancel] at hroot
    rw [hread c' hlimits, StateT.run_map, hroot]
    rfl
  refine ⟨root, cs, fun c' hlimits => ?_⟩
  rw [hrun c rfl] at h
  rw [hrun c' hlimits, ← h]

/-- What a document puts into empty components. -/
def contribution (limits : Limits) (d : Submission) : Components :=
  ((submit d).run (.empty .v10 limits)).2

theorem intact_empty (version : Version) (limits : Limits) : (empty version limits).Intact where
  elements _ h := absurd h (Array.not_mem_empty _)
  types _ h := absurd h (Array.not_mem_empty _)
  globalElements _ h := absurd h List.not_mem_nil
  globalTypes _ h := absurd h List.not_mem_nil
  groups _ h := absurd h List.not_mem_nil
  attributeGroups _ h := absurd h List.not_mem_nil
  globalAttributes _ h := absurd h List.not_mem_nil
  builtins _ h := absurd h List.not_mem_nil

/-- Another document is one more to refer to. -/
theorem Intact.pushLocation (hc : c.Intact) (l : Location) :
    Intact { c with locations := c.locations.push l } := by
  have hextent : c.extent ≤ extent { c with locations := c.locations.push l } :=
    ⟨Nat.le_refl _, Nat.le_refl _, by simp [extent]⟩
  exact { SoundIn.mono hextent hc with }

theorem grows_pushLocation (c : Components) (l : Location) :
    Grows c { c with locations := c.locations.push l } :=
  { Grows.refl c with extent := ⟨Nat.le_refl _, Nat.le_refl _, by simp [extent]⟩ }

/-- **However a document is added, components stay intact.** -/
theorem intact_submit (hc : c.Intact) (d : Submission) :
    ((submit d).run c).2.Intact ∧ Grows c ((submit d).run c).2 := by
  rcases run_addDocument_cases d.text d.location d.including? c with
    ⟨e, hrun, -⟩ | ⟨root, cs, -, hrun⟩
  · rw [submit, hrun]
    cases e with
    | notSchema root => exact ⟨hc.pushLocation d.location, grows_pushLocation c d.location⟩
    | _ => exact ⟨hc, .refl c⟩
  · have hok : ((submit d).run c).1 = .ok (Schema.referencesOf
        ((Schema.declaredTarget? root).or d.including?) (Schema.elements cs)) := by
      rw [submit, hrun, StateT.run_map, Schema.run_readRoot]
      rfl
    obtain ⟨root, cs, hrun⟩ := exists_run_submit hok
    rw [hrun c rfl]
    have hopened : (Schema.openRoot d.including? root
        { c with locations := c.locations.push d.location }).Intact :=
      { hc.pushLocation d.location with }
    have hsource : Sound (Schema.openRoot d.including? root
        { c with locations := c.locations.push d.location }).extent
        (Schema.sourceOf d.text d.including? root c.locations.size) := by
      change c.locations.size < (c.locations.push d.location).size
      rw [Array.size_push]
      exact Nat.lt_succ_self _
    have hplaced : Building.PlacedAt c _ _ _ :=
      Schema.placedAt_forM_declare hopened hsource (Schema.elements cs)
    refine ⟨hplaced.intact, Grows.trans ?_ hplaced.grows⟩
    exact { grows_pushLocation c d.location with }

/-- **A document that is added contributes the same behind other components**, if the two declare
nothing in common. -/
theorem run_submit {refs : List Schema.Reference} (h : ((submit d).run base).1 = .ok refs)
    (hapart : Unrelated base (contribution base.limits d)) :
    (submit d).run base = (.ok refs, base.append (contribution base.limits d)) := by
  obtain ⟨root, cs, hrun⟩ := exists_run_submit h
  let c : Components := Schema.openRoot d.including? root
    { empty .v10 base.limits with locations := #[d.location] }
  have hcontribution : contribution base.limits d =
      (((Schema.elements cs).forM fun e => (Schema.declare e).run
        (Schema.sourceOf d.text d.including? root 0)).run c).2 := by
    rw [contribution, hrun (.empty .v10 base.limits) rfl]
    rfl
  have hbehind : base.append c = Schema.openRoot d.including? root
      { base with locations := base.locations.push d.location } := by
    have hversion : base.version.later (if Schema.needsLater root then .v11 else .v10) =
        if Schema.needsLater root then .v11 else base.version := by
      cases Schema.needsLater root <;> cases base.version <;> rfl
    have htarget : (if base.locations.size = 0 then
          if (#[d.location] : Array Location).size = 1 then
            (Schema.declaredTarget? root).or d.including? else none
        else base.target?) = if (base.locations.push d.location).size = 1 then
          (Schema.declaredTarget? root).or d.including? else base.target? := by
      rw [Array.size_push]
      by_cases hsize : base.locations.size = 0
      · simp [hsize]
      · simp [hsize]
    rw [append, Schema.openRoot, ← hversion, ← htarget]
    congr 1
    case e_builtins => exact List.append_nil _
    case e_elements =>
      change base.elements ++ (#[] : Array ElementDecl).map _ = base.elements
      rw [Array.map_empty, Array.append_empty]
    case e_types =>
      change base.types ++ (#[] : Array TypeDef).map _ = base.types
      rw [Array.map_empty, Array.append_empty]
    all_goals exact NameTable.append_empty _
  have hc : c.Intact := { (intact_empty .v10 base.limits).pushLocation d.location with }
  have hsource : Sound c.extent (Schema.sourceOf d.text d.including? root 0) := Nat.one_pos
  have hplaced : Building.PlacedAt base _ _ c :=
    Schema.placedAt_forM_declare hc hsource (Schema.elements cs)
  rw [hcontribution] at hapart ⊢
  have hrest := hplaced.placed hapart
  rw [hbehind] at hrest
  rw [hrun base rfl]
  exact congrArg (fun r => (Except.ok refs, r.2)) hrest

/-! ### Several documents -/

theorem apart_append (h : Unrelated base c) {c' : Components} (h' : Unrelated c' c) :
    Unrelated (base.append c') c := by
  intro k n hn hc
  rw [declares_append, Bool.or_eq_true] at hn
  exact hn.elim (fun hb => h k n hb hc) fun hb => h' k n hb hc

/-- Documents that are added one after the other, none of them refused. -/
def Adds (c : Components) : List Submission → Prop
  | [] => True
  | d :: ds => (∃ refs, ((submit d).run c).1 = .ok refs) ∧ Adds ((submit d).run c).2 ds

/-- However documents are added, components stay intact. -/
theorem intact_after (hc : c.Intact) (ds : List Submission) :
    (c.after ds).Intact ∧ Grows c (c.after ds) := by
  induction ds generalizing c with
  | nil => exact ⟨hc, .refl c⟩
  | cons d ds ih =>
    obtain ⟨hd, hgrows⟩ := intact_submit hc d
    obtain ⟨hds, hmore⟩ := ih hd
    exact ⟨hds, hgrows.trans hmore⟩

/-- **Documents leave behind what each of them contributes, in their order**, if no two of them
declare anything in common. -/
theorem after_eq {limits : Limits} {ds : List Submission} (hlimits : base.limits = limits)
    (hadds : Adds base ds) (hbase : ∀ d ∈ ds, Unrelated base (contribution limits d))
    (hapart : ds.Pairwise fun d d' => Unrelated (contribution limits d) (contribution limits d')) :
    base.after ds = ds.foldl (fun c d => c.append (contribution limits d)) base := by
  induction ds generalizing base with
  | nil => rfl
  | cons d ds ih =>
    obtain ⟨⟨refs, hd⟩, hadds⟩ := hadds
    obtain ⟨hfirst, hpairs⟩ := List.pairwise_cons.1 hapart
    rw [List.forall_mem_cons] at hbase
    subst hlimits
    have hrun := run_submit hd hbase.1
    rw [hrun] at hadds
    have hnext : (base.append (contribution base.limits d)).after ds = _ := ih rfl hadds
      (fun d' hd' => apart_append (hbase.2 d' hd') (hfirst d' hd')) hpairs
    rw [List.foldl_cons, ← hnext, after, List.foldl_cons, hrun]
    rfl

end Components
end SchemaAssist
