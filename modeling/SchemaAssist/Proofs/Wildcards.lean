/-
# Wildcards that have elements in common

The check for ambiguity asks of two wildcards whether their constraints overlap.  It searches lists
only, and takes it that two constraints that are no lists have a namespace in common; so they have,
since each leaves out finitely many (`Spaces.overlaps_iff`).  Two wildcards of a content model
therefore compete exactly if they are different particles and some element is matched by both,
whichever of them is asked (`ContentModel.Node.wildcards_compete_iff`).
-/

import SchemaAssist.Proofs.Symbols

namespace SchemaAssist

/-- Overlapping goes both ways. -/
theorem Spaces.overlaps_comm (a b : Spaces) : a.overlaps b = b.overlaps a := by
  rw [Bool.eq_iff_iff, overlaps_iff, overlaps_iff]
  exact exists_congr fun _ => and_comm

/-- A namespace is admitted by two constraints if some name is. -/
theorem Spaces.exists_name_iff {a b : Spaces} :
    (∃ space, a.allows space = true ∧ b.allows space = true) ↔
      ∃ n : Name, a.allows n.space = true ∧ b.allows n.space = true :=
  ⟨fun ⟨space, h⟩ => ⟨⟨space, ""⟩, h⟩, fun ⟨n, h⟩ => ⟨n.space, h⟩⟩

namespace ContentModel

/-- Two leaves that are wildcards compete if they have different numbers and match a name in
common, in either version. -/
theorem Symbol.competes_iff_of_spaces {version : Version} {x y : Symbol} {a b : Spaces}
    (hx : x.matcher = .spaces a) (hy : y.matcher = .spaces b) :
    x.competes version y = true ↔ x.leaf ≠ y.leaf ∧
      ∃ n, x.matcher.matchesName n = true ∧ y.matcher.matchesName n = true := by
  have hmatchers : (Matcher.spaces a).competes version (.spaces b) = a.overlaps b := rfl
  rw [Symbol.competes, hx, hy, hmatchers, Bool.and_eq_true, bne_iff_ne, Spaces.overlaps_iff,
    Spaces.exists_name_iff]
  rfl

namespace Node

/-- Leaves at different places of a tree have different numbers. -/
theorem Numbered.leaf_ne_iff {n : Node} (hn : n.Numbered) {i j : Nat} {x y : Symbol}
    (hx : n.symbols[i]? = some x) (hy : n.symbols[j]? = some y) : x.leaf ≠ y.leaf ↔ i ≠ j := by
  have hleaf {k : Nat} {s : Symbol} (hs : n.symbols[k]? = some s) :
      (n.symbols.map Symbol.leaf)[k]? = some s.leaf := by
    rw [List.getElem?_map, hs, Option.map_some]
  rw [not_iff_not]
  constructor
  · intro h
    have hlt := (List.getElem?_eq_some_iff.1 (hleaf hx)).1
    refine (List.getElem?_inj hlt hn).1 ?_
    rw [hleaf hx, hleaf hy, h]
  · rintro rfl
    rw [Option.some.inj (hx.symm.trans hy)]

/-- **Two wildcards compete exactly if some element is matched by both.**  Two constraints overlap
if some namespace, the empty text standing for none, is admitted by both, and so in either order.
And in the tree of a model group, in either version, two leaves that are wildcards with these
constraints compete exactly if they stand at different places and match an element in common. -/
theorem wildcards_compete_iff (a b : Spaces) :
    (a.overlaps b = true ↔ ∃ space, a.allows space = true ∧ b.allows space = true) ∧
      b.overlaps a = a.overlaps b ∧
      ∀ (accepts : ElementId → List Name) (limits : Limits) (g : ModelGroup) (root : Node) (k : Nat),
        buildNode accepts limits 0 g.toParticle 0 = .ok (root, k) →
          ∀ (version : Version) (i j : Nat) (x y : Symbol),
            root.symbols[i]? = some x → root.symbols[j]? = some y →
            x.matcher = .spaces a → y.matcher = .spaces b →
              (x.competes version y = true ↔ i ≠ j ∧
                ∃ n, x.matcher.matchesName n = true ∧ y.matcher.matchesName n = true) := by
  refine ⟨Spaces.overlaps_iff, Spaces.overlaps_comm b a, ?_⟩
  intro accepts limits g root k hbuild version i j x y hi hj hx hy
  have hnumbered : root.Numbered := (buildNode_faithful _ hbuild).numbered
  rw [Symbol.competes_iff_of_spaces hx hy, hnumbered.leaf_ne_iff hi hj]

/-- A wildcard for all namespaces but the target, one for all but some other, and one for none. -/
def threeWildcards : ModelGroup where
  compositor := .sequence
  particles := [.any ⟨.other (some "urn:a"), .lax, .once⟩, .any ⟨.except ["urn:b"], .lax, .once⟩,
    .any ⟨.only [], .lax, .once⟩]
  occurs := .once

/-- The first two wildcards compete, each with the other and not with itself; the last one matches
nothing and does not compete. -/
theorem wildcards_compete_iff_threeWildcards :
    ∃ root k x y z, buildNode (fun _ => []) {} 0 threeWildcards.toParticle 0 = .ok (root, k) ∧
      root.symbols = [x, y, z] ∧ x.competes .v11 y = true ∧ y.competes .v11 x = true ∧
      x.competes .v11 x = false ∧ x.competes .v11 z = false := by
  have hbuild : buildNode (fun _ => []) {} 0 threeWildcards.toParticle 0 = .ok (.group .once .sequence
      [.wildcard .once 1 (.other (some "urn:a")) .lax, .wildcard .once 2 (.except ["urn:b"]) .lax,
        .wildcard .once 3 (.only []) .lax], 3) := rfl
  have hother := (wildcards_compete_iff (.other (some "urn:a")) (.except ["urn:b"])).2.2
    _ _ _ _ _ hbuild .v11 0 1 _ _ rfl rfl rfl rfl
  have hexcept := (wildcards_compete_iff (.except ["urn:b"]) (.other (some "urn:a"))).2.2
    _ _ _ _ _ hbuild .v11 1 0 _ _ rfl rfl rfl rfl
  have hsame := (wildcards_compete_iff (.other (some "urn:a")) (.other (some "urn:a"))).2.2
    _ _ _ _ _ hbuild .v11 0 0 _ _ rfl rfl rfl rfl
  have hnone := (wildcards_compete_iff (.other (some "urn:a")) (.only [])).2.2
    _ _ _ _ _ hbuild .v11 0 2 _ _ rfl rfl rfl rfl
  refine ⟨_, _, _, _, _, hbuild, rfl, hother.2 ?_, hexcept.2 ?_, ?_, ?_⟩
  · exact ⟨by decide, ⟨"urn:c", "item"⟩, by decide, by decide⟩
  · exact ⟨by decide, ⟨"urn:c", "item"⟩, by decide, by decide⟩
  · exact Bool.eq_false_iff.2 fun h => (hsame.1 h).1 rfl
  · refine Bool.eq_false_iff.2 fun h => ?_
    obtain ⟨-, n, -, hn⟩ := hnone.1 h
    cases hn

end Node
end ContentModel
end SchemaAssist
