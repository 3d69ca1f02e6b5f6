/-
# Surveys

Documents are visited level by level, a level being what the documents of the level before refer to.
Each location is visited once (`survey_nodup`), as the first that leads to it says; whatever a
visited document refers to is visited with one more level (`exists_visit_of_next`), and whatever is
visited is asked for or referred to (`exists_referrer`).
-/

import SchemaAssist.Proofs.Visits

namespace SchemaAssist
namespace Loading

/-- The documents of a list that are not met yet, each location once, and the locations met then. -/
def fresh : List Location.Key → List Pending → List Pending × List Location.Key
  | met, [] => ([], met)
  | met, p :: ps =>
    if p.location.key ∈ met then fresh met ps
    else
      let (qs, met) := fresh (p.location.key :: met) ps
      (p :: qs, met)

/-- The visits of documents that are not met yet. -/
def visitsOf (readFile : ReadFile Id) (limits : Limits) (met : List Location.Key)
    (ps : List Pending) : List Visit := (fresh met ps).1.map (·.visit readFile limits)

/-- The visits within some levels of references, level by level, and the documents beyond them. -/
def survey (readFile : ReadFile Id) (limits : Limits) :
    (levels : Nat) → List Location.Key → List Pending → List Visit × List Pending
  | 0, met, ps => ([], (fresh met ps).1)
  | levels + 1, met, ps =>
    let vs := visitsOf readFile limits met ps
    let (later, beyond) := survey readFile limits levels (fresh met ps).2 (vs.flatMap Visit.next)
    (vs ++ later, beyond)

variable {readFile readFile' : ReadFile Id} {limits : Limits} {levels : Nat}
  {met : List Location.Key} {ps : List Pending} {p : Pending} {v : Visit}

theorem sized_of_mem_visitsOf (hv : v ∈ visitsOf readFile limits met ps) : v.Sized limits := by
  obtain ⟨p, -, rfl⟩ := List.mem_map.1 hv
  exact Visit.sized_visit _ _ p

theorem survey_nil (readFile : ReadFile Id) (limits : Limits) (levels : Nat)
    (met : List Location.Key) : survey readFile limits levels met [] = ([], []) := by
  induction levels generalizing met with
  | zero => rfl
  | succ levels ih =>
    rw [survey]
    exact congrArg (fun s : List Visit × List Pending => ([] ++ s.1, s.2)) (ih met)

/-! ### What is visited -/

theorem mem_of_mem_fresh (hp : p ∈ (fresh met ps).1) : p ∈ ps := by
  induction ps generalizing met with
  | nil => exact hp
  | cons q ps ih =>
    rw [fresh] at hp
    split at hp
    · exact List.mem_cons_of_mem q (ih hp)
    · rcases List.mem_cons.1 hp with rfl | hp
      · exact List.mem_cons_self
      · exact List.mem_cons_of_mem q (ih hp)

/-- Every location of a list is met afterwards, and what is met was met before or is fresh. -/
theorem mem_met_fresh {k : Location.Key} :
    k ∈ (fresh met ps).2 ↔ k ∈ met ∨ ∃ p ∈ (fresh met ps).1, p.location.key = k := by
  induction ps generalizing met with
  | nil => simp [fresh]
  | cons q ps ih =>
    rw [fresh]
    split
    · exact ih
    · simp only [ih, List.mem_cons, exists_eq_or_imp]
      grind

theorem mem_met_of_mem (met : List Location.Key) (hp : p ∈ ps) :
    p.location.key ∈ (fresh met ps).2 := by
  induction ps generalizing met with
  | nil => cases hp
  | cons q ps ih =>
    rw [fresh]
    split
    · next hmet =>
      rcases List.mem_cons.1 hp with rfl | hp
      · exact mem_met_fresh.2 (Or.inl hmet)
      · exact ih _ hp
    · rcases List.mem_cons.1 hp with rfl | hp
      · exact mem_met_fresh.2 (Or.inl List.mem_cons_self)
      · exact ih _ hp

/-- What is fresh has not been met, and each location is fresh once. -/
theorem fresh_spec (met : List Location.Key) (ps : List Pending) :
    (∀ p ∈ (fresh met ps).1, p.location.key ∉ met) ∧
      ((fresh met ps).1.map (·.location.key)).Nodup := by
  induction ps generalizing met with
  | nil => exact ⟨nofun, List.nodup_nil⟩
  | cons q ps ih =>
    rw [fresh]
    split
    · exact ih met
    · next hmet =>
      obtain ⟨hnot, hnodup⟩ := ih (q.location.key :: met)
      refine ⟨fun p hp => ?_, ?_⟩
      · rcases List.mem_cons.1 hp with rfl | hp
        · exact hmet
        · exact fun h => hnot p hp (List.mem_cons_of_mem _ h)
      · rw [List.map_cons, List.nodup_cons]
        refine ⟨fun h => ?_, hnodup⟩
        obtain ⟨p, hp, hkey⟩ := List.mem_map.1 h
        exact hnot p hp (hkey ▸ List.mem_cons_self)

/-- A document is visited as it was asked for or referred to. -/
theorem exists_mem_of_mem_visitsOf (hv : v ∈ visitsOf readFile limits met ps) :
    v.pending ∈ (fresh met ps).1 ∧ v.pending.visit readFile limits = v := by
  obtain ⟨p, hp, rfl⟩ := List.mem_map.1 hv
  exact ⟨hp, rfl⟩

theorem visitsOf_congr
    (h : ∀ v ∈ visitsOf readFile limits met ps, v.location.load readFile' limits = v.text) :
    visitsOf readFile' limits met ps = visitsOf readFile limits met ps :=
  List.map_congr_left fun p hp => congrArg (Visit.mk p) (h _ (List.mem_map_of_mem hp))

/-- Only what is found at the locations that are visited matters. -/
theorem survey_congr (h : ∀ v ∈ (survey readFile limits levels met ps).1,
      v.location.load readFile' limits = v.text) :
    survey readFile' limits levels met ps = survey readFile limits levels met ps := by
  induction levels generalizing met ps with
  | zero => rfl
  | succ levels ih =>
    have hnow : visitsOf readFile' limits met ps = visitsOf readFile limits met ps :=
      visitsOf_congr fun v hv => h v (List.mem_append_left _ hv)
    have hlater : survey readFile' limits levels (fresh met ps).2
        ((visitsOf readFile limits met ps).flatMap Visit.next) =
        survey readFile limits levels (fresh met ps).2
          ((visitsOf readFile limits met ps).flatMap Visit.next) :=
      ih fun v hv => h v (List.mem_append_right _ hv)
    simp only [survey, hnow, hlater]

/-- Each location is visited once, and none that was met before. -/
theorem survey_nodup (readFile : ReadFile Id) (limits : Limits) (levels : Nat)
    (met : List Location.Key) (ps : List Pending) :
    (∀ v ∈ (survey readFile limits levels met ps).1, v.location.key ∉ met) ∧
      ((survey readFile limits levels met ps).1.map (·.location.key)).Nodup := by
  induction levels generalizing met ps with
  | zero => exact ⟨fun v hv => absurd hv List.not_mem_nil, List.nodup_nil⟩
  | succ levels ih =>
    rw [survey]
    obtain ⟨hnot, hnodup⟩ := fresh_spec met ps
    obtain ⟨hlater, hlaterNodup⟩ := ih (fresh met ps).2
      ((visitsOf readFile limits met ps).flatMap Visit.next)
    refine ⟨fun v hv => ?_, ?_⟩
    · rcases List.mem_append.1 hv with hv | hv
      · exact hnot _ (exists_mem_of_mem_visitsOf hv).1
      · exact fun hmet => hlater v hv (mem_met_fresh.2 (Or.inl hmet))
    · rw [List.map_append, List.nodup_append]
      have hkeys : (visitsOf readFile limits met ps).map (·.location.key) =
          (fresh met ps).1.map (·.location.key) := by
        rw [visitsOf, List.map_map]
        rfl
      rw [hkeys]
      refine ⟨hnodup, hlaterNodup, ?_⟩
      rintro k hk k' hk' rfl
      obtain ⟨p, hp, rfl⟩ := List.mem_map.1 hk
      obtain ⟨v, hv, hkey⟩ := List.mem_map.1 hk'
      exact hlater v hv (hkey ▸ mem_met_fresh.2 (Or.inr ⟨p, hp, rfl⟩))

/-- A document that is visited was asked for or is referred to by one that is visited. -/
theorem exists_referrer (hv : v ∈ (survey readFile limits levels met ps).1) :
    v.pending.visit readFile limits = v ∧
      (v.pending ∈ ps ∨ ∃ d ∈ (survey readFile limits levels met ps).1, v.pending ∈ d.next) := by
  induction levels generalizing met ps with
  | zero => cases hv
  | succ levels ih =>
    rw [survey] at hv ⊢
    rcases List.mem_append.1 hv with hv | hv
    · obtain ⟨hp, hvisit⟩ := exists_mem_of_mem_visitsOf hv
      exact ⟨hvisit, Or.inl (mem_of_mem_fresh hp)⟩
    · obtain ⟨hvisit, hp | ⟨d, hd, hp⟩⟩ := ih hv
      · obtain ⟨d, hd, hp⟩ := List.mem_flatMap.1 hp
        exact ⟨hvisit, Or.inr ⟨d, List.mem_append_left _ hd, hp⟩⟩
      · exact ⟨hvisit, Or.inr ⟨d, List.mem_append_right _ hd, hp⟩⟩

theorem sized_of_mem_survey (hv : v ∈ (survey readFile limits levels met ps).1) :
    v.Sized limits := by
  rw [← (exists_referrer hv).1]
  exact Visit.sized_visit _ _ _

/-- What is asked for is visited. -/
theorem exists_visit_of_mem (readFile : ReadFile Id) (limits : Limits) (levels : Nat)
    (hp : p ∈ ps) (hmet : p.location.key ∉ met) :
    ∃ v ∈ (survey readFile limits (levels + 1) met ps).1, v.location.key = p.location.key := by
  obtain ⟨q, hq, hkey⟩ := (mem_met_fresh.1 (mem_met_of_mem met hp)).resolve_left hmet
  rw [survey]
  exact ⟨_, List.mem_append_left _ (List.mem_map_of_mem hq), hkey⟩

/-- What a visited document refers to is visited with one more level. -/
theorem exists_visit_of_next {d : Visit} (hd : d ∈ (survey readFile limits levels met ps).1)
    (hp : p ∈ d.next) (hmet : p.location.key ∉ met) :
    ∃ v ∈ (survey readFile limits (levels + 1) met ps).1, v.location.key = p.location.key := by
  induction levels generalizing met ps with
  | zero => cases hd
  | succ levels ih =>
    rw [survey] at hd ⊢
    by_cases hnow : p.location.key ∈ (fresh met ps).2
    · -- its location is on the level at hand, as another document referred to it
      obtain ⟨q, hq, hkey⟩ := (mem_met_fresh.1 hnow).resolve_left hmet
      exact ⟨_, List.mem_append_left _ (List.mem_map_of_mem hq), hkey⟩
    · rcases List.mem_append.1 hd with hd | hd
      · have hnext : p ∈ (visitsOf readFile limits met ps).flatMap Visit.next :=
          List.mem_flatMap.2 ⟨d, hd, hp⟩
        obtain ⟨v, hv, hkey⟩ := exists_visit_of_mem readFile limits levels hnext hnow
        exact ⟨v, List.mem_append_right _ hv, hkey⟩
      · obtain ⟨v, hv, hkey⟩ := ih hd hnow
        exact ⟨v, List.mem_append_right _ hv, hkey⟩

/-! ### The survey of a load -/

/-- The documents that are asked for. -/
def requests (locations : List Location) : List Pending := locations.map ({ location := · })

/-- What a load surveys: the documents asked for are the first level. -/
def surveyed (readFile : ReadFile Id) (limits : Limits) (locations : List Location) :
    List Visit × List Pending :=
  survey readFile limits (limits.schemaDepth + 1) [] (requests locations)

/-- The visits of a load within some levels. -/
def visitsWithin (readFile : ReadFile Id) (limits : Limits) (levels : Nat)
    (locations : List Location) : List Visit :=
  (survey readFile limits levels [] (requests locations)).1

/-- The visits of a load. -/
def visits (readFile : ReadFile Id) (limits : Limits) (locations : List Location) : List Visit :=
  visitsWithin readFile limits (limits.schemaDepth + 1) locations

end Loading
end SchemaAssist
