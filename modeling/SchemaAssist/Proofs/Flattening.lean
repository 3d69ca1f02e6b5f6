/-
# What groups of attributes give

A reference to a group of attributes is replaced by what the group gives: its own uses, those of the
groups that it refers to, and before these what the references before it give.  A reference that
leads back to a group around it, or to none, gives nothing and is reported (`Flattens`).  Every list
of references comes to something, whatever the groups refer to
(`Components.flattens_usesOfGroups`): the groups around are different ones, so they nest no deeper
than there are groups.
-/

import SchemaAssist.Schema.Uses
import Mathlib.Data.List.Induction
import Mathlib.Data.List.Nodup
import Mathlib.Data.List.Perm.Subperm

namespace SchemaAssist

/-! ### Uses by name -/

/-- The last use of a name. -/
def lastUse? (uses : List AttributeUse) (n : Name) : Option AttributeUse :=
  uses.reverse.find? fun a => a.name = n

/-- What comes of a use that goes before another one: nothing if it is prohibited. -/
def AttributeUse.over? (own inherited : Option AttributeUse) : Option AttributeUse :=
  match own with
  | some a => if a.prohibited then none else some a
  | none => inherited

theorem AttributeUse.over?_eq_some {own inherited : Option AttributeUse} {a : AttributeUse} :
    over? own inherited = some a ↔
      own = some a ∧ a.prohibited = false ∨ own = none ∧ inherited = some a := by
  cases own with
  | none => simp [over?]
  | some b =>
    cases hp : b.prohibited with
    | true => simp [over?, hp]; rintro rfl; exact hp
    | false => simp [over?, hp]; rintro rfl; exact hp

/-- Nothing is left out where nothing is prohibited. -/
theorem AttributeUse.over?_none {own : Option AttributeUse}
    (h : ∀ a, own = some a → a.prohibited = false) : over? own none = own := by
  cases own with
  | none => rfl
  | some a => simp [over?, h a rfl]

section Uses

variable {uses own base : List AttributeUse} {a : AttributeUse} {n : Name}

theorem lastUse?_concat (uses : List AttributeUse) (a : AttributeUse) (n : Name) :
    lastUse? (uses ++ [a]) n = if a.name = n then some a else lastUse? uses n := by
  rw [lastUse?, List.reverse_append, List.reverse_singleton, List.singleton_append, List.find?_cons]
  split
  · next h => rw [if_pos (of_decide_eq_true h)]
  · next h =>
    rw [if_neg (of_decide_eq_false h)]
    rfl

theorem mem_of_lastUse? (h : lastUse? uses n = some a) : a ∈ uses :=
  List.mem_reverse.1 (List.mem_of_find?_eq_some h)

theorem name_of_lastUse? (h : lastUse? uses n = some a) : a.name = n := by
  rw [lastUse?] at h
  have hname := List.find?_some h
  exact of_decide_eq_true hname

theorem lastUse?_eq_none_iff : lastUse? uses n = none ↔ n ∉ uses.map AttributeUse.name := by
  rw [lastUse?, List.find?_eq_none]
  simp

/-- Where names are different, a use is the last one of its name. -/
theorem lastUse?_of_mem (hnodup : (uses.map AttributeUse.name).Nodup) (ha : a ∈ uses) :
    lastUse? uses a.name = some a := by
  cases hlast : lastUse? uses a.name with
  | none =>
    have hne := List.find?_eq_none.1 hlast a (List.mem_reverse.2 ha)
    exact absurd (decide_eq_true rfl) hne
  | some a' =>
    rw [List.inj_on_of_nodup_map hnodup (mem_of_lastUse? hlast) ha (name_of_lastUse? hlast)]

theorem lastUse?_without (uses : List AttributeUse) (m n : Name) :
    lastUse? (AttributeUse.without uses m) n = if m = n then none else lastUse? uses n := by
  rw [lastUse?, AttributeUse.without, ← List.filter_reverse, List.find?_filter]
  split
  · next h =>
    subst h
    refine List.find?_eq_none.2 fun a _ => ?_
    simp
  · next h =>
    refine congrArg (List.find? · uses.reverse) (funext fun a => ?_)
    by_cases ha : a.name = n
    · simp [ha, Ne.symm h]
    · simp [ha]

theorem lastUse?_override (uses : List AttributeUse) (a : AttributeUse) (n : Name) :
    lastUse? (AttributeUse.override uses a) n =
      if a.name = n then AttributeUse.over? (some a) (lastUse? uses n) else lastUse? uses n := by
  rw [AttributeUse.override, AttributeUse.over?]
  split
  · rw [lastUse?_without]
  · rw [lastUse?_concat, lastUse?_without]
    split <;> rfl

/-- Over a base, the last own use of a name decides. -/
theorem lastUse?_mergeAttributes (base own : List AttributeUse) (n : Name) :
    lastUse? (mergeAttributes base own) n =
      AttributeUse.over? (lastUse? own n) (lastUse? base n) := by
  induction own using List.reverseRecOn with
  | nil => rfl
  | append_singleton own a ih =>
    rw [mergeAttributes_append, lastUse?_concat]
    change lastUse? (AttributeUse.override (mergeAttributes base own) a) n = _
    rw [lastUse?_override, ih]
    split <;> rfl

/-- Before the base is looked at, the last own use of a name decides, be it prohibited. -/
theorem lastUse?_ownUses (inherited own : List AttributeUse) (n : Name) :
    lastUse? (Components.ownUses inherited own) n =
      (lastUse? own n).or (lastUse? inherited n) := by
  induction own using List.reverseRecOn with
  | nil => rfl
  | append_singleton own a ih =>
    rw [Components.ownUses, List.foldl_concat, lastUse?_concat, lastUse?_concat, lastUse?_without]
    split
    · rfl
    · exact ih

theorem nodup_without (h : (uses.map AttributeUse.name).Nodup) (n : Name) :
    ((AttributeUse.without uses n).map AttributeUse.name).Nodup :=
  h.sublist (List.filter_sublist.map _)

theorem nodup_replace (h : (uses.map AttributeUse.name).Nodup) (a : AttributeUse) :
    ((AttributeUse.without uses a.name ++ [a]).map AttributeUse.name).Nodup := by
  rw [List.map_append, List.map_singleton]
  refine List.nodup_append.2 ⟨nodup_without h a.name, List.nodup_singleton _, fun m hm m' hm' => ?_⟩
  obtain ⟨b, hb, rfl⟩ := List.mem_map.1 hm
  rw [List.mem_singleton.1 hm']
  exact of_decide_eq_true (List.mem_filter.1 hb).2

theorem nodup_mergeAttributes (h : (base.map AttributeUse.name).Nodup) (own : List AttributeUse) :
    ((mergeAttributes base own).map AttributeUse.name).Nodup := by
  refine List.foldlRecOn (motive := fun uses : List AttributeUse =>
    (uses.map AttributeUse.name).Nodup) own _ h fun uses huses a _ => ?_
  rw [AttributeUse.override]
  split
  · exact nodup_without huses a.name
  · exact nodup_replace huses a

theorem nodup_ownUses (h : (base.map AttributeUse.name).Nodup) (own : List AttributeUse) :
    ((Components.ownUses base own).map AttributeUse.name).Nodup :=
  List.foldlRecOn (motive := fun uses : List AttributeUse => (uses.map AttributeUse.name).Nodup)
    own _ h fun _ huses a _ => nodup_replace huses a

end Uses

/-! ### Groups -/

/-- What the references to groups of attributes give for each name, inside the groups `around`, and
what is wrong with them. -/
inductive Flattens (groups : NameTable AttributeGroup) :
    List Name → List Name → (Name → Option AttributeUse) → List Fault → Prop
  | nil {around : List Name} : Flattens groups around [] (fun _ => none) []
  /-- A reference that closes a circle gives nothing. -/
  | circular {around refs : List Name} {r : Name} {entry : Name → Option AttributeUse}
    {faults : List Fault} : Flattens groups around refs entry faults → r ∈ around →
      Flattens groups around (refs ++ [r]) entry (faults ++ [.circularAttributeGroup r])
  /-- A reference to no group gives nothing. -/
  | unknown {around refs : List Name} {r : Name} {entry : Name → Option AttributeUse}
    {faults : List Fault} : Flattens groups around refs entry faults → r ∉ around →
      groups.find? r = none →
        Flattens groups around (refs ++ [r]) entry (faults ++ [.unknownAttributeGroup r])
  /-- The uses of a group go before those of the groups that it refers to, and these before what is
  given by the references before it. -/
  | group {around refs : List Name} {r : Name} {g : AttributeGroup}
    {entry nested : Name → Option AttributeUse} {faults more : List Fault} :
      Flattens groups around refs entry faults → r ∉ around → groups.find? r = some g →
        Flattens groups (r :: around) g.groups nested more →
          Flattens groups around (refs ++ [r])
            (fun n => AttributeUse.over? (lastUse? g.attributes n) ((nested n).or (entry n)))
            (faults ++ more)

namespace Flattens

variable {groups : NameTable AttributeGroup} {around refs : List Name}
  {entry : Name → Option AttributeUse} {faults : List Fault} {n : Name} {a : AttributeUse}

/-- References give no prohibited uses. -/
theorem not_prohibited (h : Flattens groups around refs entry faults) (ha : entry n = some a) :
    a.prohibited = false := by
  induction h generalizing a with
  | nil => cases ha
  | circular _ _ ih => exact ih ha
  | unknown _ _ _ ih => exact ih ha
  | group _ _ _ _ ih ihnested =>
    rcases AttributeUse.over?_eq_some.1 ha with ⟨-, hp⟩ | ⟨-, hor⟩
    · exact hp
    · exact (Option.or_eq_some_iff.1 hor).elim ihnested fun h => ih h.2

/-- What references give is declared by one of the groups, under the name that it is given for. -/
theorem exists_declared (h : Flattens groups around refs entry faults) (ha : entry n = some a) :
    a.name = n ∧ ∃ g ∈ groups.values, a ∈ g.attributes := by
  induction h generalizing a with
  | nil => cases ha
  | circular _ _ ih => exact ih ha
  | unknown _ _ _ ih => exact ih ha
  | group _ _ hfind _ ih ihnested =>
    rcases AttributeUse.over?_eq_some.1 ha with ⟨hlast, -⟩ | ⟨-, hor⟩
    · exact ⟨name_of_lastUse? hlast, _, List.mem_map_of_mem (NameTable.mem_of_find? hfind),
        mem_of_lastUse? hlast⟩
    · exact (Option.or_eq_some_iff.1 hor).elim ihnested fun h => ih h.2

/-- What is wrong is that a reference closes a circle or leads to no group. -/
theorem exists_of_mem_faults (h : Flattens groups around refs entry faults) {f : Fault}
    (hf : f ∈ faults) : ∃ r, f = .circularAttributeGroup r ∨ f = .unknownAttributeGroup r := by
  induction h with
  | nil => cases hf
  | circular _ _ ih =>
    rcases List.mem_append.1 hf with hf | hf
    · exact ih hf
    · exact ⟨_, .inl (List.mem_singleton.1 hf)⟩
  | unknown _ _ _ ih =>
    rcases List.mem_append.1 hf with hf | hf
    · exact ih hf
    · exact ⟨_, .inr (List.mem_singleton.1 hf)⟩
  | group _ _ _ _ ih ihnested =>
    rcases List.mem_append.1 hf with hf | hf
    · exact ih hf
    · exact ihnested hf

end Flattens

namespace Components

theorem groupUses_concat (groups : NameTable AttributeGroup) (room : Nat)
    (around refs : List Name) (r : Name) :
    groupUses groups (room + 1) around (refs ++ [r]) =
      let (uses, faults) := groupUses groups (room + 1) around refs
      if r ∈ around then (uses, faults ++ [.circularAttributeGroup r])
      else match groups.find? r with
        | none => (uses, faults ++ [.unknownAttributeGroup r])
        | some g =>
          let (nested, more) := groupUses groups room (r :: around) g.groups
          (mergeAttributes (mergeAttributes uses nested) g.attributes, faults ++ more) := by
  rw [groupUses, List.foldl_concat]
  rfl

/-- References come to what they are to come to, as long as there is room for the groups that may
still be nested. -/
theorem flattens_groupUses (groups : NameTable AttributeGroup) (room : Nat)
    (around refs : List Name) (hnodup : around.Nodup) (hsubset : around ⊆ groups.names)
    (hroom : groups.entries.length < room + around.length) :
    (((groupUses groups room around refs).1.map AttributeUse.name).Nodup) ∧
      Flattens groups around refs (lastUse? (groupUses groups room around refs).1)
        (groupUses groups room around refs).2 := by
  induction room generalizing around refs with
  | zero =>
    have hle := (hnodup.subperm hsubset).length_le
    rw [NameTable.names, List.length_map] at hle
    omega
  | succ room ih =>
    induction refs using List.reverseRecOn with
    | nil => exact ⟨List.nodup_nil, .nil⟩
    | append_singleton refs r ihrefs =>
      rw [groupUses_concat]
      obtain ⟨huses, hflattens⟩ := ihrefs
      dsimp only
      split
      · next hr => exact ⟨huses, .circular hflattens hr⟩
      · next hr =>
        split
        · next hfind => exact ⟨huses, .unknown hflattens hr hfind⟩
        · next g hfind =>
          obtain ⟨-, hnested⟩ := ih (r :: around) g.groups (List.nodup_cons.2 ⟨hr, hnodup⟩)
            (List.cons_subset.2 ⟨NameTable.mem_names_of_find? hfind, hsubset⟩)
            (by rw [List.length_cons]; omega)
          have hentry (n : Name) : lastUse? (mergeAttributes (mergeAttributes
              (groupUses groups (room + 1) around refs).1
              (groupUses groups room (r :: around) g.groups).1) g.attributes) n =
              AttributeUse.over? (lastUse? g.attributes n)
                ((lastUse? (groupUses groups room (r :: around) g.groups).1 n).or
                  (lastUse? (groupUses groups (room + 1) around refs).1 n)) := by
            rw [lastUse?_mergeAttributes, lastUse?_mergeAttributes]
            congr 1
            cases ha : lastUse? (groupUses groups room (r :: around) g.groups).1 n with
            | none => rfl
            | some a => simp [AttributeUse.over?, hnested.not_prohibited ha]
          refine ⟨nodup_mergeAttributes (nodup_mergeAttributes huses _) _, ?_⟩
          rw [funext hentry]
          exact .group hflattens hr hfind hnested

/-- **References to groups of attributes come to something**, whatever the groups refer to: for each
name to at most one use, and to one fault for each reference that closes a circle or leads to no
group. -/
theorem flattens_usesOfGroups (c : Components) (refs : List Name) :
    ((c.usesOfGroups refs).1.map AttributeUse.name).Nodup ∧
      Flattens c.attributeGroups [] refs (lastUse? (c.usesOfGroups refs).1)
        (c.usesOfGroups refs).2 :=
  flattens_groupUses _ _ [] refs List.nodup_nil (List.nil_subset _) (Nat.lt_succ_self _)

end Components
end SchemaAssist
