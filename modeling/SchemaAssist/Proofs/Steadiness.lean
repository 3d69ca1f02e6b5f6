/-
# Trees that keep what can be done

A step that can go on with an occurrence never starts the next one instead.  In a steady tree that
loses nothing: the occurrences that may be followed by another one go on with nothing that they
begin with, or one is enough and absorbs what it begins with (`Node.Steady`).  Where each name can
be attributed to one leaf only, steps of a steady tree keep whatever can be done (`Steady.follows`).
-/

import SchemaAssist.Proofs.Absorption

namespace SchemaAssist
namespace ContentModel
namespace Node

mutual

/-- The particles of a group are steady, and if it may occur more than once, an occurrence goes on
with nothing that it begins with, or one is enough and absorbs what it begins with. -/
def Steady : Node → Prop
  | n@(group o c cs) => SteadyEach cs ∧ (o.multiple = true →
      Disjoint (goesOn n.occurrence) (starts n.occurrence) ∨
        n.onceIsEnough = true ∧ AbsorbentEach c cs)
  | _ => True

/-- Each of several trees is steady. -/
def SteadyEach : List Node → Prop
  | [] => True
  | c :: cs => Steady c ∧ SteadyEach cs

end

variable {name : Name} {p : Leaf} {n : Node} {o : Occurs} {c : Compositor} {cs : List Node}

theorem steadyEach_iff : SteadyEach cs ↔ ∀ m ∈ cs, m.Steady := by
  induction cs with
  | nil => exact iff_of_true trivial nofun
  | cons c cs ih => rw [SteadyEach, ih, List.forall_mem_cons]

theorem follows_of_leaf {s : Symbol} (hs : n.symbol? = some s) (hn : n.Proper) :
    Follows name p n := by
  intro st hst honly z hz
  have hrest : ∀ k, n.rest (.leaf k) = n.occurs.further k n.occurrence := fun k => by
    rw [rest, underWay_leaf, one_mul]
    rfl
  obtain ⟨k, rfl⟩ : ∃ k, st = .leaf k := by
    cases n <;> cases hs <;> cases st <;> first | exact ⟨_, rfl⟩ | exact hst.elim
  rw [hrest] at hz
  obtain ⟨hfull, u, v, rfl, hu, hv⟩ := Occurs.exists_of_cons_mem_further hz
  rw [occurrence_of_leaf hs] at hu
  obtain ⟨a, ⟨hname, -⟩, hu⟩ := hu
  obtain ⟨rfl, rfl⟩ := List.cons_eq_cons.1 hu
  have hstart : n.canStart (.leaf k) = true := (canStart_iff hn.ordered hst).2
    ⟨hfull, by rw [underWay_leaf]; exact Language.nil_mem_one⟩
  obtain ⟨t, ht⟩ : ∃ t, n.leafTerm? = some t := by
    cases n <;> cases hs <;> exact ⟨_, rfl⟩
  refine ⟨.leaf (k + 1), t, ?_, hrest (k + 1) ▸ hv⟩
  rw [step_leaf name hs, hstart, hname, ht]
  rfl

/-- A group keeps what can be done after a step if its particles do and what the next occurrence
could have taken is absorbed. -/
theorem follows_of_group (hn : (group o c cs).Proper) (hcs : ∀ m ∈ cs, Follows name p m)
    (h : o.multiple = true → Disjoint (goesOn (group o c cs).occurrence)
      (starts (group o c cs).occurrence) ∨
        (group o c cs).onceIsEnough = true ∧ AbsorbsInside name p (group o c cs)) :
    Follows name p (group o c cs) := by
  intro st hst honly z hz
  have hinside := honly.of_mul_left (Occurs.nonempty_further hn.ordered.valid hst.within
    hn.exists_mem_occurrence)
  have hsame : ∀ st' t, stepInside name cs st = some (st', t) → st'.count = st.count :=
    fun st' t h => (leads_of_stepInside hn.ordered hst h).2.1
  rcases cons_mem_mul.1 hz with ⟨u, v, rfl, hu, hv⟩ | ⟨hnil, hz⟩
  · obtain ⟨st', t, hstep, hu⟩ := stepInside_follows hn hcs hst hinside hu
    refine ⟨st', t, by rw [step_group, hstep, Option.some_or], ?_⟩
    rw [rest, hsame st' t hstep]
    exact Language.append_mem_mul hu hv
  · obtain ⟨hfull, u, v, rfl, hu, hv⟩ := Occurs.exists_of_cons_mem_further hz
    cases hstep : stepInside name cs st with
    | none =>
      have hstart := (canStart_iff hn.ordered hst).2 ⟨hfull, hnil⟩
      have hterm := (honly.of_mul_right hnil).of_further ⟨v, hv⟩
      obtain ⟨st', t, hafresh, hu⟩ := stepAfresh_follows hn hcs hterm (st.count + 1) hu
      obtain ⟨-, hcount, -⟩ :=
        leads_of_stepAfresh hn.ordered (Occurs.full_eq_false_iff.1 hfull) hafresh
      refine ⟨st', t, by rw [step_group, hstep, Option.none_or, if_pos hstart, hafresh], ?_⟩
      rw [rest, hcount]
      exact Language.append_mem_mul hu hv
    | some found =>
      obtain ⟨st', t⟩ := found
      have hcount := one_le_count_of_stepInside hst hstep
      have hmultiple : o.multiple = true := by
        obtain ⟨k, hk, -⟩ := hv
        by_contra hne
        have := hk.le_one (Bool.eq_false_iff.2 hne)
        omega
      refine ⟨st', t, by rw [step_group, hstep, Option.some_or], ?_⟩
      rw [rest, hsame st' t hstep]
      rcases h hmultiple with hdisjoint | ⟨henough, habsorbs⟩
      · have hgoes := mem_goesOn_of_stepInside hst hstep hn hinside hnil
        exact absurd ⟨u, hu⟩ (Set.disjoint_left.1 hdisjoint hgoes)
      · obtain ⟨a, ha, b, hb, rfl⟩ :=
          Language.mem_mul.1 (habsorbs st st' t hst hinside hnil hstep u hu)
        rw [List.append_assoc]
        refine Language.append_mem_mul ha ?_
        rcases hb with rfl | hb
        · exact Occurs.further_succ_le ((onceIsEnough_iff hn.ordered).1 henough) hcount hv
        · exact Occurs.append_mem_further hb hv

/-- **Steps of a steady tree keep what can be done after them**, where a name can be attributed to
one leaf only. -/
theorem Steady.follows (h : n.Steady) (hn : n.Proper) : Follows name p n := by
  suffices Follows name p n ∧ (n.Absorbent → Absorbs name p n) from this.1
  induction n using Node.induct with
  | leaf n s hs =>
    refine ⟨follows_of_leaf hs hn, fun habsorbent => ?_⟩
    rcases absorbent_iff.1 habsorbent with hdisjoint | ⟨hroomy, -⟩
    · exact absorbs_of_disjoint hn hdisjoint
    · exact absorbs_of_leaf hs hn hroomy
  | group o c cs ih =>
    rw [Steady, steadyEach_iff] at h
    have hcs : ∀ m ∈ cs, Follows name p m := fun m hm => (ih m hm (h.1 m hm) (hn.of_mem hm)).1
    have hinside : (group o c cs).AbsorbentInside → AbsorbsInside name p (group o c cs) :=
      absorbsInside_of_absorbent hn hcs fun m hm => (ih m hm (h.1 m hm) (hn.of_mem hm)).2
    refine ⟨follows_of_group hn hcs fun hmultiple => ?_, fun habsorbent => ?_⟩
    · exact (h.2 hmultiple).imp_right fun ⟨henough, heach⟩ => ⟨henough, hinside (Or.inr heach)⟩
    · rcases absorbent_iff.1 habsorbent with hdisjoint | ⟨hroomy, habsorbent⟩
      · exact absorbs_of_disjoint hn hdisjoint
      · exact absorbs_of_absorbsInside hn hcs hroomy (hinside habsorbent)

end Node
end ContentModel
end SchemaAssist
