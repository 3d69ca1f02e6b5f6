/-
# Uses declared over others

Declaring uses of attributes over a base takes uses away and adds others while it goes on, so that a
name can come, go and come again.  What is there in the end can be said at once: the uses of the base
whose names are not declared again, in their order, and then the last use of each name that is, where
it stands among these, unless it is prohibited (`mergeAttributes_eq_append`).  Uses declared over the
result are the same as uses declared behind the first ones.
-/

import SchemaAssist.Proofs.Flattening

namespace SchemaAssist

variable {base own : List AttributeUse}

/-! ### Last uses -/

/-- The last use of each name, in the order in which these stand. -/
def lastUses : List AttributeUse → List AttributeUse
  | [] => []
  | a :: uses => if a.name ∈ uses.map AttributeUse.name then lastUses uses else a :: lastUses uses

/-- One more use is the last of its name, and stands behind all others. -/
theorem lastUses_concat (uses : List AttributeUse) (a : AttributeUse) :
    lastUses (uses ++ [a]) = AttributeUse.without (lastUses uses) a.name ++ [a] := by
  induction uses with
  | nil => rfl
  | cons b uses ih =>
    rw [List.cons_append, lastUses, lastUses, ih]
    by_cases hlater : b.name ∈ uses.map AttributeUse.name
    · rw [if_pos hlater, if_pos (by simp [hlater])]
    by_cases hname : b.name = a.name
    · rw [if_neg hlater, if_pos (by simp [hname]), AttributeUse.without, AttributeUse.without,
        List.filter_cons_of_neg (by simp [hname])]
    · rw [if_neg hlater, if_neg (by simp [hlater, hname]), AttributeUse.without,
        AttributeUse.without, List.filter_cons_of_pos (by simp [hname])]
      rfl

/-- Of the uses of all names but one, those of a name. -/
theorem filter_name_without (uses : List AttributeUse) (m n : Name) :
    (AttributeUse.without uses m).filter (·.name = n) =
      if m = n then [] else uses.filter (·.name = n) := by
  rw [AttributeUse.without, List.filter_filter]
  split
  · next h =>
    subst h
    simp
  · next h =>
    refine List.filter_congr fun a _ => ?_
    by_cases ha : a.name = n
    · simp [ha, Ne.symm h]
    · simp [ha]

/-- Under each name stands its last use. -/
theorem filter_name_lastUses (uses : List AttributeUse) (n : Name) :
    (lastUses uses).filter (·.name = n) = (lastUse? uses n).toList := by
  induction uses using List.reverseRecOn with
  | nil => rfl
  | append_singleton uses a ih =>
    rw [lastUses_concat, List.filter_append, filter_name_without, lastUse?_concat, ih]
    by_cases ha : a.name = n <;> simp [ha]

/-! ### Merging -/

/-- The uses of a base that are not declared again, then the last one of each name that is. -/
theorem mergeAttributes_eq_append (base own : List AttributeUse) :
    mergeAttributes base own = base.filter (·.name ∉ own.map AttributeUse.name) ++
      (lastUses own).filter (!·.prohibited) := by
  induction own using List.reverseRecOn with
  | nil => simp [mergeAttributes, lastUses]
  | append_singleton own a ih =>
    -- one more use takes its name out of both parts, and stands behind them if it is allowed
    have huntouched : AttributeUse.without (base.filter (·.name ∉ own.map AttributeUse.name))
        a.name = base.filter (·.name ∉ (own ++ [a]).map AttributeUse.name) := by
      rw [AttributeUse.without, List.filter_filter]
      refine List.filter_congr fun b _ => ?_
      by_cases hb : b.name = a.name <;> simp [hb]
    have hallowed : AttributeUse.without ((lastUses own).filter (!·.prohibited)) a.name =
        (AttributeUse.without (lastUses own) a.name).filter (!·.prohibited) := by
      rw [AttributeUse.without, AttributeUse.without, List.filter_comm]
    have hwithout : AttributeUse.without (mergeAttributes base own) a.name =
        base.filter (·.name ∉ (own ++ [a]).map AttributeUse.name) ++
          (AttributeUse.without (lastUses own) a.name).filter (!·.prohibited) := by
      rw [ih, ← huntouched, ← hallowed, AttributeUse.without, List.filter_append]
      rfl
    rw [mergeAttributes_append, lastUses_concat, List.filter_append, ← List.append_assoc, ← hwithout]
    change AttributeUse.override (mergeAttributes base own) a = _
    rw [AttributeUse.override]
    cases hp : a.prohibited <;> simp [hp]

/-- Under a name stand the last own use, or none if that is prohibited, or else the uses of the
base. -/
theorem filter_name_mergeAttributes (base own : List AttributeUse) (n : Name) :
    (mergeAttributes base own).filter (·.name = n) =
      match lastUse? own n with
      | some a => if a.prohibited then [] else [a]
      | none => base.filter (·.name = n) := by
  have hown : ((lastUses own).filter (!·.prohibited)).filter (·.name = n) =
      (lastUse? own n).toList.filter (!·.prohibited) := by
    rw [List.filter_comm, filter_name_lastUses]
  rw [mergeAttributes_eq_append, List.filter_append, hown, List.filter_filter]
  cases hlast : lastUse? own n with
  | none =>
    have hn := lastUse?_eq_none_iff.1 hlast
    refine (List.append_nil _).trans (List.filter_congr fun a _ => ?_)
    by_cases ha : a.name = n
    · simp_all
    · simp [ha]
  | some a =>
    have hn : n ∈ own.map AttributeUse.name :=
      List.mem_map.2 ⟨a, mem_of_lastUse? hlast, name_of_lastUse? hlast⟩
    have hnone : base.filter (fun b => decide (b.name = n) &&
        decide (b.name ∉ own.map AttributeUse.name)) = [] :=
      List.filter_eq_nil_iff.2 fun b _ => by
        by_cases hb : b.name = n <;> simp_all
    rw [hnone]
    cases hp : a.prohibited <;> simp [hp]

/-- **The last use of a name wins.**  Over a base of different names, all names are different again,
and under each stands the last own use, nothing if that one is prohibited, and what the base has if
there is none.  First come the uses of the base that are left alone, in the order of the base, then
the own ones, each where its name comes last.  Declaring uses one list after the other is declaring
them together. -/
theorem mergeAttributes_lastWins (hbase : (base.map AttributeUse.name).Nodup)
    (own : List AttributeUse) :
    ((mergeAttributes base own).map AttributeUse.name).Nodup ∧
    (∀ n, (mergeAttributes base own).filter (·.name = n) =
      match lastUse? own n with
      | some a => if a.prohibited then [] else [a]
      | none => base.filter (·.name = n)) ∧
    mergeAttributes base own = base.filter (·.name ∉ own.map AttributeUse.name) ++
      (lastUses own).filter (!·.prohibited) ∧
    ∀ x y, mergeAttributes (mergeAttributes base x) y = mergeAttributes base (x ++ y) :=
  ⟨nodup_mergeAttributes hbase own, filter_name_mergeAttributes base own,
    mergeAttributes_eq_append base own, fun x y => (mergeAttributes_append base x y).symm⟩

/-- The attributes of a page: one that has to be there and two that may. -/
def pageUses : List AttributeUse :=
  [{ name := .unqualified "id", use := .required }, { name := .unqualified "class" },
    { name := .unqualified "lang" }]

/-- What an article declares over a page: `lang` is taken away and comes again, `dir` comes and is
taken away, and `id` need not be there any more. -/
def articleUses : List AttributeUse :=
  [{ name := .unqualified "lang", use := .prohibited }, { name := .unqualified "dir" },
    { name := .unqualified "id" }, { name := .unqualified "lang", default? := some "en" },
    { name := .unqualified "dir", use := .prohibited }]

/-- What the article declares last is what it has, behind the one attribute that it leaves alone. -/
theorem mergeAttributes_lastWins_article :
    (pageUses.map AttributeUse.name).Nodup ∧
      (mergeAttributes pageUses articleUses).map (·.name.localName) = ["class", "id", "lang"] ∧
      (mergeAttributes pageUses articleUses).filter (·.name = .unqualified "lang") =
        [{ name := .unqualified "lang", default? := some "en" }] ∧
      (mergeAttributes pageUses articleUses).filter (·.name = .unqualified "dir") = [] := by
  have hbase : (pageUses.map AttributeUse.name).Nodup := by decide
  obtain ⟨-, hunder, horder, -⟩ := mergeAttributes_lastWins hbase articleUses
  exact ⟨hbase, horder ▸ by decide, (hunder _).trans (by decide), (hunder _).trans (by decide)⟩

end SchemaAssist
