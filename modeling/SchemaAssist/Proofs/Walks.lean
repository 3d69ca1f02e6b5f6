/-
# Replaying through any content model

What comes of a replay is said here by single steps, for every content model: its states may be of
any kind, and it may tell a term twice or forget one.  A list is rejected at the first element that
the state reached has no step for, and with it every list that goes on from there
(`Replayable.nextTerms_eq_error_iff`, `Replayable.Rejects.extend`).  After any other list, the
terms that may come next are offered, each once, and behind them those members without an upper
bound that the content model no longer tells (`Replayable.offered_eq`).
-/

import SchemaAssist.Replay
import Mathlib.Data.List.Induction

namespace SchemaAssist

open ContentModel (Term)

section Lists

variable {α : Type} [DecidableEq α]

/-- What is added to a list are the new elements of the other one, each where it comes first. -/
theorem addAllNew_eq_append_eraseDups (xs ys : List α) :
    addAllNew xs ys = xs ++ (ys.filter (· ∉ xs)).eraseDups := by
  induction ys using List.reverseRecOn with
  | nil => exact (List.append_nil xs).symm
  | append_singleton ys y ih =>
    have hstep : addAllNew xs (ys ++ [y]) = addNew (addAllNew xs ys) y := addAllNew_append xs ys [y]
    rw [hstep, addNew, List.filter_append, List.eraseDups_append, ← List.append_assoc, ← ih]
    by_cases hxs : y ∈ xs
    · rw [if_pos (mem_addAllNew.2 (.inl hxs))]
      simp [hxs]
    by_cases hys : y ∈ ys
    · rw [if_pos (mem_addAllNew.2 (.inr hys))]
      simp [hxs, hys, List.removeAll]
    · rw [if_neg (by simp [hxs, hys])]
      simp [hxs, hys, List.removeAll, List.eraseDups_cons]

theorem distinct_eq_eraseDups (xs : List α) : distinct xs = xs.eraseDups := by
  have hall : xs.filter (· ∉ ([] : List α)) = xs := List.filter_eq_self.2 fun x _ => by simp
  rw [distinct, addAllNew_eq_append_eraseDups, hall, List.nil_append]

end Lists

namespace Replayable

variable {σ : Type} {m : Replayable σ} {st st' st'' : σ} {n name : Name} {names : List Name}
  {p position : Nat} {t : Term}

/-! ### Steps one after the other -/

/-- A list leads from one state to another, with a step for each of its elements. -/
inductive Walk (m : Replayable σ) : σ → List Name → σ → Prop where
  | nil (st : σ) : Walk m st [] st
  | cons {st st' st'' : σ} {n : Name} {t : Term} {names : List Name} :
      m.step st n = some (st', t) → Walk m st' names st'' → Walk m st (n :: names) st''

/-- From a state, a list is rejected at the position `p`: the elements before it lead to a state which
has no step for the one there, and which rejects it under a name. -/
def Rejects (m : Replayable σ) (st : σ) (names : List Name) (p : Nat) (name : Name) : Prop :=
  ∃ st' n, m.Walk st (names.take p) st' ∧ names[p]? = some n ∧ m.step st' n = none ∧
    m.rejectedAs st' n = name

theorem walk_nil_iff : m.Walk st [] st' ↔ st = st' :=
  ⟨fun h => by cases h; rfl, fun h => h ▸ .nil st⟩

theorem walk_cons_iff (hstep : m.step st n = some (st', t)) :
    m.Walk st (n :: names) st'' ↔ m.Walk st' names st'' := by
  refine ⟨fun h => ?_, .cons hstep⟩
  cases h with
  | cons hstep' h =>
    cases hstep.symm.trans hstep'
    exact h

theorem not_walk_cons (hstep : m.step st n = none) : ¬ m.Walk st (n :: names) st'' := by
  intro h
  cases h with
  | cons hstep' _ => cases hstep.symm.trans hstep'

theorem rejects_zero_iff :
    m.Rejects st (n :: names) 0 name ↔ m.step st n = none ∧ m.rejectedAs st n = name := by
  simp [Rejects, walk_nil_iff]

theorem rejects_succ_iff (hstep : m.step st n = some (st', t)) :
    m.Rejects st (n :: names) (p + 1) name ↔ m.Rejects st' names p name := by
  simp [Rejects, walk_cons_iff hstep]

theorem not_rejects_succ (hstep : m.step st n = none) :
    ¬ m.Rejects st (n :: names) (p + 1) name :=
  fun ⟨_, _, hwalk, _⟩ => not_walk_cons hstep hwalk

/-- What is rejected stays so, whatever comes behind it. -/
theorem Rejects.extend {longer : List Name} (h : m.Rejects st names p name)
    (hlonger : names <+: longer) : m.Rejects st longer p name := by
  obtain ⟨more, rfl⟩ := hlonger
  obtain ⟨st', n, hwalk, hn, hstep⟩ := h
  have hp : p < names.length := (List.getElem?_eq_some_iff.1 hn).1
  refine ⟨st', n, ?_, ?_, hstep⟩
  · rwa [List.take_append_of_le_length (Nat.le_of_lt hp)]
  · rwa [List.getElem?_append_left hp]

/-! ### Replay -/

/-- A replay ends in the state that the list leads to. -/
theorem runFrom_eq_ok_iff : m.runFrom st position names = .ok st' ↔ m.Walk st names st' := by
  induction names generalizing st position with
  | nil => rw [runFrom, walk_nil_iff, Except.ok.injEq]
  | cons n names ih =>
    rw [runFrom]
    cases hstep : m.step st n with
    | none => exact iff_of_false nofun (not_walk_cons hstep)
    | some found => exact ih.trans (walk_cons_iff hstep).symm

/-- A replay fails at the first element without a step, counted from where the list starts. -/
theorem runFrom_eq_error_iff {r : Rejection} : m.runFrom st position names = .error r ↔
    ∃ p, r.position = position + p ∧ m.Rejects st names p r.name := by
  induction names generalizing st position with
  | nil =>
    refine iff_of_false nofun ?_
    rintro ⟨p, -, st', n, -, hn, -⟩
    cases hn
  | cons n names ih =>
    rw [runFrom]
    cases hstep : m.step st n with
    | none =>
      constructor
      · intro h
        cases h
        exact ⟨0, rfl, rejects_zero_iff.2 ⟨hstep, rfl⟩⟩
      · rintro ⟨_ | p, hposition, hrejects⟩
        · obtain ⟨-, hname⟩ := rejects_zero_iff.1 hrejects
          obtain ⟨_, _⟩ := r
          cases hposition
          cases hname
          rfl
        · exact absurd hrejects (not_rejects_succ hstep)
    | some found =>
      -- the rest is replayed with its first element counted one higher, so places move by one
      refine ih.trans ⟨?_, ?_⟩
      · rintro ⟨p, hposition, hrejects⟩
        exact ⟨p + 1, by omega, (rejects_succ_iff hstep).2 hrejects⟩
      · rintro ⟨_ | p, hposition, hrejects⟩
        · cases hstep.symm.trans (rejects_zero_iff.1 hrejects).1
        · exact ⟨p, by omega, (rejects_succ_iff hstep).1 hrejects⟩

/-- The terms after a list are what is offered in the state that it leads to. -/
theorem nextTerms_of_walk (h : m.Walk m.start names st) :
    m.nextTerms names = .ok (m.offered st) := by
  rw [nextTerms, run, runFrom_eq_ok_iff.2 h]
  rfl

/-- No terms are told after a list exactly if it is rejected. -/
theorem nextTerms_eq_error_iff :
    m.nextTerms names = .error ⟨p, name⟩ ↔ m.Rejects m.start names p name := by
  have hrun : m.run names = .error ⟨p, name⟩ ↔ m.Rejects m.start names p name := by
    rw [run, runFrom_eq_error_iff]
    simp
  rw [← hrun, nextTerms]
  cases m.run names with
  | ok st => exact iff_of_false nofun nofun
  | error r => exact ⟨fun h => by cases h; rfl, fun h => by cases h; rfl⟩

/-! ### What is offered -/

/-- The terms offered in every state: in an unordered group of the later version, the members
without an upper bound. -/
def alwaysOffered (m : Replayable σ) : List Term :=
  match m.variant with
  | .standard => []
  | .unordered11 => m.unboundedMembers

theorem offered_eq_addAllNew (m : Replayable σ) (st : σ) :
    m.offered st = addAllNew (distinct (m.candidates st)) m.alwaysOffered := by
  rw [offered, alwaysOffered]
  cases m.variant <;> rfl

theorem nodup_offered (m : Replayable σ) (st : σ) : (m.offered st).Nodup := by
  rw [offered_eq_addAllNew]
  exact nodup_addAllNew (nodup_distinct _) _

/-- The terms that may come next are offered where each comes first, then those of the terms offered
in every state that are not among them. -/
theorem offered_eq (m : Replayable σ) (st : σ) :
    m.offered st = (m.candidates st).eraseDups ++
      (m.alwaysOffered.filter (· ∉ m.candidates st)).eraseDups := by
  rw [offered_eq_addAllNew, addAllNew_eq_append_eraseDups, distinct_eq_eraseDups]
  simp

/-- **A replay tells the first element that does not fit, or all that may come next.**  A list is
rejected at a position exactly if its elements before that position have steps and the one there has
none, and every list that goes on from it is rejected alike.  Otherwise its elements lead to a
state, and what is offered are the terms that may come next in it, in their order, and behind them
those of the members without an upper bound that are not among them, each term once; so it is for
every list that it goes on from. -/
theorem nextTerms_rejects_or_offers (m : Replayable σ) (closed : List Name) :
    (∀ p name, m.nextTerms closed = .error ⟨p, name⟩ ↔ m.Rejects m.start closed p name) ∧
    (∀ p name, m.Rejects m.start closed p name → ∀ longer, closed <+: longer →
      m.nextTerms longer = .error ⟨p, name⟩) ∧
    ((∀ p name, ¬ m.Rejects m.start closed p name) →
      ∃ st terms, m.Walk m.start closed st ∧ m.nextTerms closed = .ok terms ∧ terms.Nodup ∧
        terms = (m.candidates st).eraseDups ++
          (m.alwaysOffered.filter (· ∉ m.candidates st)).eraseDups ∧
        ∀ shorter, shorter <+: closed → ∃ before, m.nextTerms shorter = .ok before) := by
  refine ⟨fun p name => nextTerms_eq_error_iff, fun p name h longer hlonger =>
    nextTerms_eq_error_iff.2 (h.extend hlonger), fun hfits => ?_⟩
  obtain ⟨st, hrun⟩ : ∃ st, m.run closed = .ok st := by
    cases hrun : m.run closed with
    | ok st => exact ⟨st, rfl⟩
    | error r =>
      obtain ⟨p, -, hrejects⟩ := runFrom_eq_error_iff.1 hrun
      exact absurd hrejects (hfits p r.name)
  have hwalk : m.Walk m.start closed st := runFrom_eq_ok_iff.1 hrun
  refine ⟨st, m.offered st, hwalk, nextTerms_of_walk hwalk, nodup_offered m st, offered_eq m st,
    fun shorter hshorter => ?_⟩
  -- a shorter list that is rejected would take this one with it
  cases hnext : m.nextTerms shorter with
  | ok before => exact ⟨before, rfl⟩
  | error r => exact absurd ((nextTerms_eq_error_iff.1 hnext).extend hshorter) (hfits _ _)

/-- Any number of elements `a` and at most one `b`, in any order.  The elements taken are the state;
an `a` is forgotten once it has been taken, and a `b` is told twice. -/
def forgetfulBag : Replayable (List Name) where
  start := []
  step taken n :=
    if n = .unqualified "a" then some (n :: taken, .element ⟨0⟩)
    else if n = .unqualified "b" ∧ n ∉ taken then some (n :: taken, .element ⟨1⟩)
    else none
  candidates taken :=
    (if .unqualified "a" ∈ taken then [] else [.element ⟨0⟩]) ++
      if .unqualified "b" ∈ taken then [] else [.element ⟨1⟩, .element ⟨1⟩]
  variant := .unordered11
  unboundedMembers := [.element ⟨0⟩]

/-- After an `a` a further one is offered all the same, behind the `b`; and whatever comes behind a
second `b`, that is what is rejected. -/
theorem nextTerms_rejects_or_offers_forgetfulBag :
    (∀ p name, ¬ forgetfulBag.Rejects forgetfulBag.start [.unqualified "a"] p name) ∧
      forgetfulBag.nextTerms [.unqualified "a"] = .ok [.element ⟨1⟩, .element ⟨0⟩] ∧
      forgetfulBag.Rejects forgetfulBag.start (["b", "b"].map .unqualified) 1 (.unqualified "b") ∧
      forgetfulBag.nextTerms (["b", "b", "a"].map .unqualified) =
        .error ⟨1, .unqualified "b"⟩ := by
  obtain ⟨hfits, -, hoffers⟩ := nextTerms_rejects_or_offers forgetfulBag [.unqualified "a"]
  obtain ⟨hrejected, hlonger, -⟩ :=
    nextTerms_rejects_or_offers forgetfulBag (["b", "b"].map .unqualified)
  have hnone : ∀ p name, ¬ forgetfulBag.Rejects forgetfulBag.start [.unqualified "a"] p name :=
    fun p name h => nomatch (hfits p name).2 h
  have hsecond := (hrejected 1 (.unqualified "b")).1 rfl
  obtain ⟨st, terms, hwalk, hnext, -, hterms, -⟩ := hoffers hnone
  refine ⟨hnone, ?_, hsecond, hlonger _ _ hsecond _ ⟨[.unqualified "a"], rfl⟩⟩
  cases walk_nil_iff.1 ((walk_cons_iff rfl).1 hwalk)
  rw [hnext, hterms]
  rfl

end Replayable
end SchemaAssist
