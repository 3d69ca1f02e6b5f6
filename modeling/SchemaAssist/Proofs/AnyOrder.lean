/-
# Documents in any order

The order in which documents are added makes no difference to what a grammar says
(`Grammar.agrees_of_perm`), as long as no two of them declare the same and neither types nor elements
lead back to themselves.  Identifiers do depend on the order, and with them the places in all tables;
but what the documents leave behind is rearranged only, and stays so while everything is looked up,
and identifiers show in no answer.
-/

import SchemaAssist.Proofs.Agreement

namespace SchemaAssist

open Referring (rename)
open Relation (TransGen)

namespace Components

variable {c c' : Components} {ρ : Renaming}

/-! ### Ways that do not lead back -/

/-- No type derives from itself, and no element may stand in for itself, at any distance. -/
structure Acyclic (c : Components) : Prop where
  types : ∀ t, ¬ TransGen (DerivesFrom c) t t
  elements : ∀ d, ¬ TransGen (StandsInFor c) d d

/-- The type that a definition derives from. -/
def baseOf? (c : Components) (t : TypeDef) : Option TypeId := do
  c.globalTypes.find? (← (← t.complex?).derivation?).2

/-- Types derive from earlier ones, and elements stand in for earlier ones. -/
def Layered (c : Components) : Prop :=
  (∀ p ∈ c.types.toList.zipIdx, ∀ u ∈ c.baseOf? p.1, u.index < p.2) ∧
    ∀ p ∈ c.elements.toList.zipIdx, ∀ head ∈ c.headsOf p.1, head.index < p.2

instance (c : Components) : Decidable c.Layered := inferInstanceAs (Decidable (_ ∧ _))

/-- Where every step leads to an earlier place, no way leads back. -/
theorem Layered.acyclic (h : c.Layered) : c.Acyclic where
  types t ht := by
    have hlt : TransGen (· > ·) t.index t.index := ht.lift TypeId.index fun t u htu => by
      obtain ⟨ct, method, base, hget, hderivation, hu⟩ := htu
      rw [← Array.getElem?_toList] at hget
      have hbase : c.baseOf? (.complex ct) = some u := by
        simp only [baseOf?, TypeDef.complex?, Option.bind_eq_bind, Option.bind_some, hderivation, hu]
      exact h.1 (.complex ct, t.index) (List.mem_zipIdx_iff_getElem?.2 hget) u hbase
    rw [Relation.transGen_eq_self] at hlt
    exact Nat.lt_irrefl _ hlt
  elements d hd := by
    have hlt : TransGen (· > ·) d.index d.index := hd.lift ElementId.index fun d head hhead => by
      obtain ⟨e, hget, hhead⟩ := hhead
      rw [← Array.getElem?_toList] at hget
      exact h.2 (e, d.index) (List.mem_zipIdx_iff_getElem?.2 hget) head hhead
    rw [Relation.transGen_eq_self] at hlt
    exact Nat.lt_irrefl _ hlt

namespace Rearranged

theorem derivesFrom (h : Rearranged ρ c c') {t u : TypeId} (htu : DerivesFrom c t u) :
    DerivesFrom c' (ρ.type t) (ρ.type u) := by
  obtain ⟨ct, method, base, ht, hderivation, hu⟩ := htu
  refine ⟨rename ρ ct, method, base, ?_, hderivation, ?_⟩
  · rw [h.types, ht]
    rfl
  · rw [h.globalTypes, hu]
    rfl

theorem standsInFor (h : Rearranged ρ c c') {d head : ElementId} (hd : StandsInFor c d head) :
    StandsInFor c' (ρ.element d) (ρ.element head) := by
  obtain ⟨e, he, hhead⟩ := hd
  refine ⟨rename ρ e, ?_, ?_⟩
  · rw [h.elements, he]
    rfl
  · rw [h.alike.headsOf]
    exact List.mem_map_of_mem hhead

/-- Components that are rearranged without a way back have none themselves. -/
theorem acyclic (h : Rearranged ρ c c') (hc' : c'.Acyclic) : c.Acyclic where
  types t ht := hc'.types (ρ.type t) (ht.lift ρ.type fun _ _ => h.derivesFrom)
  elements d hd := hc'.elements (ρ.element d) (hd.lift ρ.element fun _ _ => h.standsInFor)

end Rearranged

/-! ### Documents that declare different things -/

/-- The names of the components of a kind. -/
def declaredNames (c : Components) : ComponentKind → List Name
  | .element => c.globalElements.names
  | .type => c.globalTypes.names
  | .group => c.groups.names
  | .attributeGroup => c.attributeGroups.names
  | .attribute => c.globalAttributes.names

theorem mem_declaredNames {k : ComponentKind} {n : Name} :
    n ∈ c.declaredNames k ↔ c.declares k n = true := by
  cases k <;> exact NameTable.has_eq_true_iff.symm

/-- Components are unrelated if no name of the ones is declared among the others. -/
theorem unrelated_iff : Unrelated c c' ↔ ∀ k ∈ [ComponentKind.element, .type, .group,
    .attributeGroup, .attribute], ∀ n ∈ c.declaredNames k, c'.declares k n = false := by
  constructor
  · exact fun h k _ n hn => Bool.eq_false_iff.2 (h k n (mem_declaredNames.1 hn))
  · intro h k n hn hn'
    have hk : k ∈ [ComponentKind.element, .type, .group, .attributeGroup, .attribute] := by
      cases k <;> simp
    exact Bool.false_ne_true ((h k hk n (mem_declaredNames.2 hn)).symm.trans hn')

instance (c c' : Components) : Decidable (Unrelated c c') := decidable_of_iff _ unrelated_iff.symm

instance decidableAdds : (c : Components) → (ds : List Submission) → Decidable (Adds c ds)
  | _, [] => isTrue trivial
  | c, d :: ds =>
    have := decidableAdds ((submit d).run c).2 ds
    match h : ((submit d).run c).1 with
    | .ok refs => decidable_of_iff (Adds ((submit d).run c).2 ds)
        ⟨fun hds => ⟨⟨refs, h⟩, hds⟩, And.right⟩
    | .error _ => isFalse fun ⟨⟨_, hrefs⟩, _⟩ => by
        rw [h] at hrefs
        cases hrefs

/-! ### The grammars -/

/-- Two sets of components are built alike: both are refused for the same reason, or the grammars
differ in identifiers only and agree. -/
inductive BuiltAlike (c c' : Components) : Prop
  | refused {e : LoadError} : c.build = .error e → c'.build = .error e → BuiltAlike c c'
  | built {g g' : Grammar} {ρ : Renaming} : c.build = .ok g → c'.build = .ok g' →
    g.Counterpart ρ g' → g.Agrees g' → BuiltAlike c c'

theorem build_of_ok (h : c.limits.checkComponents (c.elements.size + c.types.size) = .ok ()) :
    c.build = .ok (resolve.run c).2.finish := by
  rw [build, h]

theorem build_of_error {x : Limits.Exceeded}
    (h : c.limits.checkComponents (c.elements.size + c.types.size) = .error x) :
    c.build = .error (.limit x) := by
  rw [build, h]

/-- **Rearranged components are built alike.** -/
theorem Rearranged.builtAlike (h : Rearranged ρ c c') (hc : c.Intact) (hc' : c'.Intact)
    (hbuiltins : c.builtins = []) (hbuiltins' : c'.builtins = []) (hacyclic : c.Acyclic)
    (hacyclic' : c'.Acyclic) : BuiltAlike c c' := by
  have hsize : c'.limits.checkComponents (c'.elements.size + c'.types.size) =
      c.limits.checkComponents (c.elements.size + c.types.size) := by
    have helements : c'.elements.size = c.elements.size := congrArg Extent.elements h.extent
    rw [h.limits, helements, h.typeCount]
  cases hcheck : c.limits.checkComponents (c.elements.size + c.types.size) with
  | error x => exact .refused (build_of_error hcheck) (build_of_error (hsize.trans hcheck))
  | ok _ =>
    obtain ⟨σ, hσ⟩ := exists_rearranged_resolve h hc hc' hbuiltins hbuiltins' hacyclic.types
      hacyclic.elements hacyclic'.types hacyclic'.elements
    obtain ⟨hsettled, hadvances, htyped⟩ := settled_resolve hc
    obtain ⟨hsettled', -, -⟩ := settled_resolve hc'
    have hcounterpart := hσ.counterpart hsettled.intact hsettled'.intact
    have hclosed := closed_finish hsettled fun d hd => htyped d (hadvances.elements ▸ hd)
    exact .built (build_of_ok hcheck) (build_of_ok (hsize.trans hcheck)) hcounterpart
      (hcounterpart.agrees hclosed)

end Components

namespace Grammar

open Components

variable {version : Version} {limits : Limits} {ds ds' : List Submission}

/-- **The order of documents does not matter.**  Documents that can all be added, no two of which
declare the same, can be added in any order; and if neither types nor elements lead back to
themselves, the grammars agree. -/
theorem agrees_of_perm (hadds : Adds (.empty version limits) ds)
    (hapart : ds.Pairwise fun d d' => Unrelated (contribution limits d) (contribution limits d'))
    (hacyclic : ((Components.empty version limits).after ds).Acyclic) (hperm : ds.Perm ds') :
    Adds (.empty version limits) ds' ∧ BuiltAlike ((Components.empty version limits).after ds)
      ((Components.empty version limits).after ds') := by
  have hempty := intact_empty version limits
  have hadds' := adds_of_perm hempty hadds hperm
  have hbase (ds : List Submission) : ∀ d ∈ ds,
      Unrelated (.empty version limits) (contribution limits d) := by
    intro d _ k n hn
    cases k <;> cases hn
  have hsymm : ∀ d d' : Submission, Unrelated (contribution limits d) (contribution limits d') →
      Unrelated (contribution limits d') (contribution limits d) :=
    fun d d' h k n hd' hd => h k n hd hd'
  obtain ⟨ρ, hρ⟩ := exists_rearranged_after hempty hadds (hbase ds) hapart hperm
  obtain ⟨σ, hσ⟩ := exists_rearranged_after hempty hadds' (hbase ds')
    (hperm.pairwise hapart fun h => hsymm _ _ h) hperm.symm
  obtain ⟨hintact, hgrows⟩ := intact_after hempty ds
  obtain ⟨hintact', hgrows'⟩ := intact_after hempty ds'
  exact ⟨hadds', hρ.builtAlike hintact hintact' hgrows.builtins hgrows'.builtins hacyclic
    (hσ.acyclic hacyclic)⟩

/-- An element whose type is in another document. -/
def shape : Submission where
  text := "<schema xmlns='http://www.w3.org/2001/XMLSchema'><element name='a' type='T'/></schema>"
  location := .path "shape.xsd"

/-- The type of the element of `shape`, and an element that may stand in for that one. -/
def disk : Submission where
  text := "<schema xmlns='http://www.w3.org/2001/XMLSchema'><complexType name='T'/>" ++
    "<element name='b' substitutionGroup='a'/></schema>"
  location := .path "disk.xsd"

/-- Whichever of `shape` and `disk` comes first, the grammars agree. -/
theorem agrees_of_perm_shapes :
    Adds (.empty .v10 {}) [shape, disk] ∧
      [shape, disk].Pairwise (fun d d' => Unrelated (contribution {} d) (contribution {} d')) ∧
      ((Components.empty .v10 {}).after [shape, disk]).Acyclic ∧ [shape, disk].Perm [disk, shape] ∧
      ∃ g g', ((Components.empty .v10 {}).after [shape, disk]).build = .ok g ∧
        ((Components.empty .v10 {}).after [disk, shape]).build = .ok g' ∧ g.Agrees g' := by
  have hadds : Adds (.empty .v10 {}) [shape, disk] := by decide +kernel
  have hapart : Unrelated (contribution {} shape) (contribution {} disk) := by decide +kernel
  have hlayered : ((Components.empty .v10 {}).after [shape, disk]).Layered := by decide +kernel
  have hpairs : [shape, disk].Pairwise fun d d' =>
      Unrelated (contribution {} d) (contribution {} d') := List.pairwise_pair.2 hapart
  have hswap : [shape, disk].Perm [disk, shape] := .swap _ _ _
  refine ⟨hadds, hpairs, hlayered.acyclic, hswap, ?_⟩
  cases (agrees_of_perm hadds hpairs hlayered.acyclic hswap).2 with
  | built hg hg' _ hagrees => exact ⟨_, _, hg, hg', hagrees⟩
  | refused he _ =>
    have hsmall : ((Components.empty .v10 {}).after [shape, disk]).build.isOk = true := by
      decide +kernel
    rw [he] at hsmall
    cases hsmall

end Grammar
end SchemaAssist
