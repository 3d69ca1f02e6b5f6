/-
# The search for documents

The documents of a load are attempted as by a worklist: what waits longest is taken, passed over if
its location has been met, and otherwise attempted, and what it refers to has to wait behind
everything else (`Worklist.Step`).  A document that is further away than allowed is attempted in vain.

The levels of a survey are what such a worklist attempts (`Worklist.runs_attemptsFrom`), and the
level of a document is the length of a shortest way to it (`Frontier.isDistance_of_mem_attemptsFrom`).
So the documents within the limit are just those that are that near, and each of them that cannot be
loaded, and each one just beyond the limit, is recorded once (`Grammar.load_search`).
-/

import SchemaAssist.Proofs.Loads

namespace SchemaAssist
namespace Loading

variable {readFile : ReadFile Id} {limits : Limits} {locations : List Location}
  {room n m : Nat} {met : List Location.Key} {ps : List Pending} {vs : List Visit}
  {a : Nat × Pending} {k : Location.Key}

/-! ### A worklist -/

/-- Documents that wait, each with the number of references that it is away, the locations met, and
the documents attempted so far. -/
structure Worklist where
  waiting : List (Nat × Pending)
  met : List Location.Key
  attempted : List (Nat × Pending)

/-- What a document that is so many references away turns out to refer to. -/
def found (readFile : ReadFile Id) (limits : Limits) (a : Nat × Pending) : List (Nat × Pending) :=
  if a.1 ≤ limits.schemaDepth then (a.2.visit readFile limits).next.map (a.1 + 1, ·) else []

/-- A step of a worklist: a document whose location has been met is passed over, another one is
attempted. -/
inductive Worklist.Step (readFile : ReadFile Id) (limits : Limits) : Worklist → Worklist → Prop
  | skip {a waiting met attempted} (h : a.2.location.key ∈ met) :
    Step readFile limits ⟨a :: waiting, met, attempted⟩ ⟨waiting, met, attempted⟩
  | attempt {a waiting met attempted} (h : a.2.location.key ∉ met) :
    Step readFile limits ⟨a :: waiting, met, attempted⟩
      ⟨waiting ++ found readFile limits a, a.2.location.key :: met, attempted ++ [a]⟩

/-- Any number of steps. -/
abbrev Worklist.Runs (readFile : ReadFile Id) (limits : Limits) : Worklist → Worklist → Prop :=
  Relation.ReflTransGen (Worklist.Step readFile limits)

/-- The documents attempted, `room` being the number of levels of references that may be followed and
`n` the depth of the level at hand. -/
def attemptsFrom (readFile : ReadFile Id) (limits : Limits) :
    (room n : Nat) → List Location.Key → List Pending → List (Nat × Pending)
  | 0, n, met, ps => (fresh met ps).1.map (n, ·)
  | room + 1, n, met, ps =>
    (fresh met ps).1.map (n, ·) ++ attemptsFrom readFile limits room (n + 1) (fresh met ps).2
      ((visitsOf readFile limits met ps).flatMap Visit.next)

/-- The documents that a load attempts, the one asked for first. -/
def attempts (readFile : ReadFile Id) (limits : Limits) (locations : List Location) :
    List (Nat × Pending) :=
  attemptsFrom readFile limits (limits.schemaDepth + 1) 0 [] (requests locations)

/-- A level is worked off, and what it refers to waits behind the rest. -/
theorem Worklist.runs_level (readFile : ReadFile Id) (limits : Limits) (n : Nat)
    (met : List Location.Key) (ps : List Pending) (later attempted : List (Nat × Pending)) :
    Worklist.Runs readFile limits ⟨ps.map (n, ·) ++ later, met, attempted⟩
      ⟨later ++ ((fresh met ps).1.map (n, ·)).flatMap (found readFile limits), (fresh met ps).2,
        attempted ++ (fresh met ps).1.map (n, ·)⟩ := by
  induction ps generalizing met later attempted with
  | nil => simpa [fresh] using Relation.ReflTransGen.refl
  | cons p ps ih =>
    rw [fresh]
    split
    · next hmet => exact .head (.skip hmet) (ih met later attempted)
    · next hmet =>
      have hrest := ih (p.location.key :: met) (later ++ found readFile limits (n, p))
        (attempted ++ [(n, p)])
      refine .head (.attempt hmet) ?_
      simpa [List.append_assoc] using hrest

/-- **A worklist runs dry**, and what it has attempted is attempted level by level. -/
theorem Worklist.runs_attemptsFrom (hroom : n + room = limits.schemaDepth + 1)
    (met : List Location.Key) (ps : List Pending) (attempted : List (Nat × Pending)) :
    ∃ met', Worklist.Runs readFile limits ⟨ps.map (n, ·), met, attempted⟩
      ⟨[], met', attempted ++ attemptsFrom readFile limits room n met ps⟩ := by
  induction room generalizing n met ps attempted with
  | zero =>
    have hnone : ((fresh met ps).1.map (n, ·)).flatMap (found readFile limits) = [] := by
      refine List.flatMap_eq_nil_iff.2 fun a ha => ?_
      obtain ⟨p, -, rfl⟩ := List.mem_map.1 ha
      exact if_neg (by omega)
    have hlevel := Worklist.runs_level readFile limits n met ps [] attempted
    rw [hnone] at hlevel
    refine ⟨(fresh met ps).2, ?_⟩
    simpa [attemptsFrom] using hlevel
  | succ room ih =>
    have hnext : ((fresh met ps).1.map (n, ·)).flatMap (found readFile limits) =
        ((visitsOf readFile limits met ps).flatMap Visit.next).map (n + 1, ·) := by
      rw [List.flatMap_map, visitsOf, List.flatMap_map, List.map_flatMap]
      refine List.flatMap_congr fun p _ => ?_
      exact if_pos (by omega)
    have hlevel := Worklist.runs_level readFile limits n met ps [] attempted
    rw [hnext, List.append_nil, List.nil_append] at hlevel
    obtain ⟨met', hrest⟩ := ih (n := n + 1) (by omega) (fresh met ps).2
      ((visitsOf readFile limits met ps).flatMap Visit.next)
      (attempted ++ (fresh met ps).1.map (n, ·))
    refine ⟨met', ?_⟩
    rw [attemptsFrom, ← List.append_assoc]
    exact hlevel.trans hrest

/-! ### What is attempted -/

/-- Why an attempt is in vain, if it is: the document is too far away, or it is left out. -/
def failure? (readFile : ReadFile Id) (limits : Limits) (a : Nat × Pending) : Option LoadError :=
  if a.1 ≤ limits.schemaDepth then (a.2.visit readFile limits).failure?
  else some (Gathering.tooDeep limits)

theorem depth_of_mem_attemptsFrom (ha : a ∈ attemptsFrom readFile limits room n met ps) :
    n ≤ a.1 ∧ a.1 ≤ n + room := by
  induction room generalizing n met ps with
  | zero =>
    obtain ⟨p, -, rfl⟩ := List.mem_map.1 ha
    exact ⟨Nat.le_refl _, Nat.le_refl _⟩
  | succ room ih =>
    rcases List.mem_append.1 ha with ha | ha
    · obtain ⟨p, -, rfl⟩ := List.mem_map.1 ha
      exact ⟨Nat.le_refl _, Nat.le_add_right _ _⟩
    · obtain ⟨hlow, hhigh⟩ := ih ha
      omega

/-- The attempts of one level are within the limit or all beyond it. -/
theorem filter_level (within : Nat → Bool) (n : Nat) (ps : List Pending) :
    (ps.map ((n, ·) : Pending → Nat × Pending)).filter (fun a => within a.1) =
      if within n then ps.map (n, ·) else [] := by
  cases hn : within n <;> simp [List.filter_map, Function.comp_def, hn]

/-- The visits of a survey are the attempts within the limit, and the documents beyond it are the
attempts just beyond the limit. -/
theorem survey_eq_attemptsFrom (hroom : n + room = limits.schemaDepth + 1)
    (met : List Location.Key) (ps : List Pending) :
    survey readFile limits room met ps =
      (((attemptsFrom readFile limits room n met ps).filter (·.1 ≤ limits.schemaDepth)).map
          (·.2.visit readFile limits),
        ((attemptsFrom readFile limits room n met ps).filter
          (limits.schemaDepth < ·.1)).map (·.2)) := by
  induction room generalizing n met ps with
  | zero =>
    rw [survey, attemptsFrom, filter_level (· ≤ limits.schemaDepth),
      filter_level (limits.schemaDepth < ·)]
    simp [show n = limits.schemaDepth + 1 by omega, Function.comp_def]
  | succ room ih =>
    have hnow : n ≤ limits.schemaDepth := by omega
    rw [survey, attemptsFrom, ih (n := n + 1) (by omega), List.filter_append, List.filter_append,
      filter_level (· ≤ limits.schemaDepth), filter_level (limits.schemaDepth < ·)]
    simp [hnow, visitsOf, Function.comp_def, Nat.not_lt.2 hnow]

/-- Each location is attempted once, and none that was met before. -/
theorem nodup_attemptsFrom (readFile : ReadFile Id) (limits : Limits) (room n : Nat)
    (met : List Location.Key) (ps : List Pending) :
    (∀ a ∈ attemptsFrom readFile limits room n met ps, a.2.location.key ∉ met) ∧
      ((attemptsFrom readFile limits room n met ps).map (·.2.location.key)).Nodup := by
  induction room generalizing n met ps with
  | zero =>
    obtain ⟨hnot, hnodup⟩ := fresh_spec met ps
    refine ⟨fun a ha => ?_, ?_⟩
    · obtain ⟨p, hp, rfl⟩ := List.mem_map.1 ha
      exact hnot p hp
    · rw [attemptsFrom, List.map_map]
      exact hnodup
  | succ room ih =>
    obtain ⟨hnot, hnodup⟩ := fresh_spec met ps
    obtain ⟨hlater, hlaterNodup⟩ := ih (n + 1) (fresh met ps).2
      ((visitsOf readFile limits met ps).flatMap Visit.next)
    refine ⟨fun a ha => ?_, ?_⟩
    · rcases List.mem_append.1 ha with ha | ha
      · obtain ⟨p, hp, rfl⟩ := List.mem_map.1 ha
        exact hnot p hp
      · exact fun hmet => hlater a ha (mem_met_fresh.2 (Or.inl hmet))
    · rw [attemptsFrom, List.map_append, List.map_map, List.nodup_append]
      refine ⟨hnodup, hlaterNodup, ?_⟩
      rintro k hk k' hk' rfl
      obtain ⟨p, hp, rfl⟩ := List.mem_map.1 hk
      obtain ⟨a, ha, hkey⟩ := List.mem_map.1 hk'
      exact hlater a ha (hkey ▸ mem_met_fresh.2 (Or.inr ⟨p, hp, rfl⟩))

/-- What is nearer is attempted first. -/
theorem pairwise_attemptsFrom (readFile : ReadFile Id) (limits : Limits) (room n : Nat)
    (met : List Location.Key) (ps : List Pending) :
    (attemptsFrom readFile limits room n met ps).Pairwise (·.1 ≤ ·.1) := by
  have hlevel (n : Nat) (qs : List Pending) :
      (qs.map ((n, ·) : Pending → Nat × Pending)).Pairwise (·.1 ≤ ·.1) :=
    List.pairwise_map.2 (List.pairwise_of_forall fun _ _ => Nat.le_refl n)
  induction room generalizing n met ps with
  | zero => exact hlevel n _
  | succ room ih =>
    rw [attemptsFrom, List.pairwise_append]
    refine ⟨hlevel n _, ih _ _ _, fun a ha b hb => ?_⟩
    obtain ⟨p, -, rfl⟩ := List.mem_map.1 ha
    exact Nat.le_of_succ_le (depth_of_mem_attemptsFrom hb).1

/-! ### How far away a document is -/

/-- A location is reached over a number of references from the locations asked for, each reference in
a document that is not left out of some visits. -/
inductive Reaches (vs : List Visit) (locations : List Location) : Nat → Location.Key → Prop
  | requested {l} (hl : l ∈ locations) : Reaches vs locations 0 l.key
  | referred {n v p} (hv : v ∈ vs) (hadded : v.failure? = none)
    (h : Reaches vs locations n v.location.key) (hp : p ∈ v.next) :
    Reaches vs locations (n + 1) p.location.key

/-- A document that is left out refers to nothing. -/
theorem failure?_of_mem_next {v : Visit} {p : Pending} (hp : p ∈ v.next) : v.failure? = none := by
  cases hschema : v.schema? with
  | ok tree => rw [Visit.failure?, hschema]
  | error e =>
    have hnone : v.next = [] := by rw [Visit.next, Visit.references, Visit.content, hschema]; rfl
    rw [hnone] at hp
    cases hp

/-- The least number of references over which a location is reached. -/
def IsDistance (vs : List Visit) (locations : List Location) (n : Nat) (k : Location.Key) : Prop :=
  Reaches vs locations n k ∧ ∀ m, Reaches vs locations m k → n ≤ m

/-- Where a search stands when it comes to a level of depth `n`: what has been met is what is nearer,
with all that it refers to on the level at hand at the latest. -/
structure Frontier (vs : List Visit) (locations : List Location) (n : Nat)
    (met : List Location.Key) (ps : List Pending) : Prop where
  reached : ∀ p ∈ ps, Reaches vs locations n p.location.key
  passed : ∀ m k, m < n → Reaches vs locations m k → k ∈ met
  front : ∀ k, Reaches vs locations n k → k ∈ met ∨ ∃ p ∈ ps, p.location.key = k
  closed : ∀ v ∈ vs, v.location.key ∈ met → ∀ q ∈ v.next,
    q.location.key ∈ met ∨ ∃ p ∈ ps, p.location.key = q.location.key

theorem frontier_requests (vs : List Visit) (locations : List Location) :
    Frontier vs locations 0 [] (requests locations) where
  reached p hp := by
    obtain ⟨l, hl, rfl⟩ := List.mem_map.1 hp
    exact .requested hl
  passed m k hm := absurd hm (Nat.not_lt_zero m)
  front k hk := by
    cases hk with
    | requested hl => exact Or.inr ⟨_, List.mem_map_of_mem hl, rfl⟩
  closed v _ hmet := absurd hmet List.not_mem_nil

/-- All of a level is met afterwards. -/
theorem mem_met_of_key (h : k ∈ met ∨ ∃ p ∈ ps, p.location.key = k) : k ∈ (fresh met ps).2 := by
  rcases h with h | ⟨p, hp, rfl⟩
  · exact mem_met_fresh.2 (Or.inl h)
  · exact mem_met_of_mem met hp

/-- A search goes on to the next level. -/
theorem Frontier.next (h : Frontier vs locations n met ps)
    (hnodup : (vs.map (·.location.key)).Nodup)
    (hvs : ∀ v ∈ visitsOf readFile limits met ps, v ∈ vs) :
    Frontier vs locations (n + 1) (fresh met ps).2
      ((visitsOf readFile limits met ps).flatMap Visit.next) := by
  -- a visit whose location is fresh is the one of the level at hand
  have hfresh : ∀ v ∈ vs, v.location.key ∈ (fresh met ps).2 → v.location.key ∉ met →
      v ∈ visitsOf readFile limits met ps := by
    intro v hv hmet hnot
    obtain ⟨p, hp, hkey⟩ := (mem_met_fresh.1 hmet).resolve_left hnot
    have hvisit : p.visit readFile limits ∈ visitsOf readFile limits met ps :=
      List.mem_map_of_mem hp
    rwa [List.inj_on_of_nodup_map hnodup hv (hvs _ hvisit) hkey.symm]
  have hnext : ∀ v ∈ vs, v.location.key ∈ (fresh met ps).2 → ∀ q ∈ v.next,
      q.location.key ∈ (fresh met ps).2 ∨
        ∃ p ∈ (visitsOf readFile limits met ps).flatMap Visit.next,
          p.location.key = q.location.key := by
    intro v hv hmet q hq
    by_cases hold : v.location.key ∈ met
    · exact Or.inl (mem_met_of_key (h.closed v hv hold q hq))
    · exact Or.inr ⟨q, List.mem_flatMap.2 ⟨v, hfresh v hv hmet hold, hq⟩, rfl⟩
  refine ⟨fun p hp => ?_, fun m k hm hk => ?_, fun k hk => ?_, hnext⟩
  · obtain ⟨v, hv, hp⟩ := List.mem_flatMap.1 hp
    obtain ⟨hpending, -⟩ := exists_mem_of_mem_visitsOf hv
    exact .referred (hvs v hv) (failure?_of_mem_next hp) (h.reached _ (mem_of_mem_fresh hpending)) hp
  · rcases Nat.lt_succ_iff_lt_or_eq.1 hm with hm | rfl
    · exact mem_met_fresh.2 (Or.inl (h.passed m k hm hk))
    · exact mem_met_of_key (h.front k hk)
  · cases hk with
    | referred hv _ hreach hp => exact hnext _ hv (mem_met_of_key (h.front _ hreach)) _ hp

/-- What is attempted from a level on is attempted at its distance. -/
theorem Frontier.isDistance_of_mem_attemptsFrom (h : Frontier vs locations n met ps)
    (hnodup : (vs.map (·.location.key)).Nodup)
    (hvs : ∀ v ∈ (survey readFile limits room met ps).1, v ∈ vs)
    (ha : a ∈ attemptsFrom readFile limits room n met ps) :
    IsDistance vs locations a.1 a.2.location.key := by
  -- what is fresh on a level is reached over as many references, and over no fewer
  have hlevel {n : Nat} {met : List Location.Key} {ps : List Pending}
      (h : Frontier vs locations n met ps) {p : Pending} (hp : p ∈ (fresh met ps).1) :
      IsDistance vs locations n p.location.key := by
    refine ⟨h.reached p (mem_of_mem_fresh hp), fun m hm => Nat.not_lt.1 fun hlt => ?_⟩
    exact (fresh_spec met ps).1 p hp (h.passed m _ hlt hm)
  induction room generalizing n met ps with
  | zero =>
    obtain ⟨p, hp, rfl⟩ := List.mem_map.1 ha
    exact hlevel h hp
  | succ room ih =>
    rcases List.mem_append.1 ha with ha | ha
    · obtain ⟨p, hp, rfl⟩ := List.mem_map.1 ha
      exact hlevel h hp
    · rw [survey] at hvs
      exact ih (h.next hnodup fun v hv => hvs v (List.mem_append_left _ hv))
        (fun v hv => hvs v (List.mem_append_right _ hv)) ha

/-- Whatever is reached in time is attempted. -/
theorem Frontier.exists_attempt (h : Frontier vs locations n met ps)
    (hnodup : (vs.map (·.location.key)).Nodup)
    (hvs : ∀ v ∈ (survey readFile limits room met ps).1, v ∈ vs) (hm : m ≤ n + room)
    (hk : Reaches vs locations m k) :
    k ∈ met ∨ ∃ a ∈ attemptsFrom readFile limits room n met ps, a.2.location.key = k := by
  -- what is met on a level was met before or is attempted there
  have hlevel (n : Nat) {met : List Location.Key} {ps : List Pending} (hk : k ∈ (fresh met ps).2) :
      k ∈ met ∨ ∃ a ∈ (fresh met ps).1.map ((n, ·) : Pending → Nat × Pending),
        a.2.location.key = k := by
    refine (mem_met_fresh.1 hk).imp_right ?_
    rintro ⟨p, hp, hkey⟩
    exact ⟨(n, p), List.mem_map_of_mem hp, hkey⟩
  induction room generalizing n met ps with
  | zero =>
    rcases Nat.lt_or_eq_of_le hm with hm | rfl
    · exact Or.inl (h.passed m k hm hk)
    · exact hlevel _ (mem_met_of_key (h.front k hk))
  | succ room ih =>
    rw [survey] at hvs
    rcases ih (h.next hnodup fun v hv => hvs v (List.mem_append_left _ hv))
      (fun v hv => hvs v (List.mem_append_right _ hv)) (by omega) with hmet | ⟨a, ha, hkey⟩
    · refine (hlevel n hmet).imp_right ?_
      rintro ⟨a, ha, hkey⟩
      exact ⟨a, List.mem_append_left _ ha, hkey⟩
    · exact Or.inr ⟨a, List.mem_append_right _ ha, hkey⟩

end Loading

/-! ### What is recorded -/

/-- The problem that a document is left out. -/
def LoadError.problem (l : Location) (e : LoadError) : Problem :=
  { fault := .notLoaded e, source? := some l.toString }

namespace Visit

variable {limits : Limits} {c : Components} {v : Visit}

/-- What is recorded of a visit, if it is in vain. -/
def problem? (v : Visit) : Option Problem := v.failure?.map (LoadError.problem v.location)

theorem leftOut_leaveOut (l : Location) (e : LoadError) (c : Components) :
    ((leaveOut l e).run c).2.leftOut = c.leftOut ++ [e.problem l] := by
  change (c.problems.push (e.problem l)).toList.filter _ = _
  rw [Array.toList_push, List.filter_append]
  rfl

/-- A visit in vain is recorded once, and no other document is recorded as left out. -/
theorem leftOut_add (hsized : v.Sized c.limits) :
    (v.add.run c).2.leftOut = c.leftOut ++ v.problem?.toList := by
  cases htext : v.text with
  | error e =>
    have hfailure : v.failure? = some e := by simp only [failure?, schema?, tree?, htext]
    rw [problem?, hfailure, add, htext]
    exact leftOut_leaveOut v.location e c
  | ok text =>
    obtain ⟨hfst, -⟩ := addDocument_spec htext (hsized text htext)
    obtain ⟨-, -, hleftOut, -⟩ :=
      Components.change_addDocument text v.location v.pending.including? c
    cases hdoc : (Components.addDocument text v.location v.pending.including?).run c with
    | mk a c' =>
      have ha : a = v.schema?.map fun _ => v.references := (congrArg Prod.fst hdoc).symm.trans hfst
      have hc' : c'.leftOut = c.leftOut := (congrArg (·.2.leftOut) hdoc).symm.trans hleftOut
      rw [run_add htext hdoc, ← hc', problem?, failure?]
      cases hschema : v.schema? with
      | error e =>
        rw [hschema] at ha
        subst ha
        exact leftOut_leaveOut v.location e c'
      | ok tree =>
        rw [hschema] at ha
        subst ha
        exact ((keeps_reportFaults v.location v.references c').leftOut).trans
          (List.append_nil _).symm

theorem leftOut_forM_add {vs : List Visit} (hsized : ∀ v ∈ vs, v.Sized limits)
    (hlimits : c.limits = limits) :
    ((vs.forM add).run c).2.leftOut = c.leftOut ++ vs.filterMap problem? := by
  induction vs generalizing c with
  | nil => exact (List.append_nil _).symm
  | cons v vs ih =>
    rw [List.forall_mem_cons] at hsized
    have hv : v.Sized c.limits := hlimits ▸ hsized.1
    have hnext := ih hsized.2 ((limits_add hv).trans hlimits)
    rw [leftOut_add hv, List.append_assoc] at hnext
    rw [List.filterMap_cons]
    refine hnext.trans (congrArg (c.leftOut ++ ·) ?_)
    cases v.problem? <;> rfl

theorem leftOut_leaveOutAll (e : LoadError) (ps : List Pending) (c : Components) :
    ((ps.forM fun p => leaveOut p.location e).run c).2.leftOut =
      c.leftOut ++ ps.map fun p => e.problem p.location := by
  induction ps generalizing c with
  | nil => exact (List.append_nil _).symm
  | cons p ps ih =>
    refine (ih ((leaveOut p.location e).run c).2).trans ?_
    rw [leftOut_leaveOut, List.append_assoc]
    rfl

end Visit

namespace Loading

variable {readFile : ReadFile Id} {limits : Limits} {locations : List Location} {room n : Nat}

/-- What is recorded of an attempt, if it is in vain. -/
def problem? (readFile : ReadFile Id) (limits : Limits) (a : Nat × Pending) : Option Problem :=
  (failure? readFile limits a).map (LoadError.problem a.2.location)

theorem filterMap_problem?_attemptsFrom (hroom : n + room = limits.schemaDepth + 1)
    (met : List Location.Key) (ps : List Pending) :
    (attemptsFrom readFile limits room n met ps).filterMap (problem? readFile limits) =
      (survey readFile limits room met ps).1.filterMap Visit.problem? ++
        (survey readFile limits room met ps).2.map fun p =>
          (Gathering.tooDeep limits).problem p.location := by
  induction room generalizing n met ps with
  | zero =>
    have hbeyond (p : Pending) : problem? readFile limits (n, p) =
        some ((Gathering.tooDeep limits).problem p.location) := by
      rw [problem?, failure?, if_neg (by omega)]
      rfl
    rw [attemptsFrom, survey, List.filterMap_map]
    simp [hbeyond]
  | succ room ih =>
    have hwithin (p : Pending) :
        problem? readFile limits (n, p) = (p.visit readFile limits).problem? := by
      rw [problem?, failure?, if_pos (show n ≤ limits.schemaDepth by omega)]
      rfl
    rw [attemptsFrom, survey, List.filterMap_append, ih (n := n + 1) (by omega)]
    simp [visitsOf, List.filterMap_map, hwithin]

/-- What is recorded while documents are gathered. -/
theorem leftOut_gather (readFile : ReadFile Id) (limits : Limits) (version : Version)
    (locations : List Location) :
    ((Gathering.gather limits (surveyed readFile limits locations)).run
        (.empty version limits)).2.leftOut =
      (attempts readFile limits locations).filterMap (problem? readFile limits) := by
  have hroom : 0 + (limits.schemaDepth + 1) = limits.schemaDepth + 1 := Nat.zero_add _
  have hvisits :
      (((surveyed readFile limits locations).1.forM Visit.add).run (.empty version limits)).2.leftOut =
        (surveyed readFile limits locations).1.filterMap Visit.problem? :=
    Visit.leftOut_forM_add (fun v hv => sized_of_mem_survey hv) rfl
  rw [attempts, filterMap_problem?_attemptsFrom hroom]
  exact (Visit.leftOut_leaveOutAll _ _ _).trans (congrArg (· ++ _) hvisits)

theorem limits_gather (readFile : ReadFile Id) (limits : Limits) (version : Version)
    (locations : List Location) :
    ((Gathering.gather limits (surveyed readFile limits locations)).run
        (.empty version limits)).2.limits = limits := by
  have hcatalog := Grammar.catalog_gather (c := .empty version limits)
    (s := surveyed readFile limits locations) (fun v hv => sized_of_mem_survey hv) rfl
  exact (congrArg Catalog.limits hcatalog).trans (Visit.limits_foldl_enter _ _)

/-! ### The search of a load -/

/-- The documents attempted within the limit, with what is found at their locations. -/
def visited (readFile : ReadFile Id) (limits : Limits) (as : List (Nat × Pending)) : List Visit :=
  (as.filter (·.1 ≤ limits.schemaDepth)).map (·.2.visit readFile limits)

/-- The worklist of the documents asked for. -/
def Worklist.start (locations : List Location) : Worklist :=
  ⟨(requests locations).map (0, ·), [], []⟩

/-- Some documents are those that a breadth-first search attempts, each with its depth. -/
structure IsSearch (readFile : ReadFile Id) (limits : Limits) (locations : List Location)
    (as : List (Nat × Pending)) : Prop where
  /-- The worklist runs dry, whatever steps have been taken, and has attempted these documents. -/
  runs_dry : ∃ met, ∀ w, Worklist.Runs readFile limits (.start locations) w →
    Worklist.Runs readFile limits w ⟨[], met, as⟩
  /-- No location is attempted twice. -/
  once : (as.map (·.2.location.key)).Nodup
  /-- What is nearer is attempted first. -/
  ordered : as.Pairwise (·.1 ≤ ·.1)
  /-- The depth of a document is the number of references on a shortest way to it, each in a document
  that was added, and exceeds the limit by one at most. -/
  nearest : ∀ a ∈ as, a.1 ≤ limits.schemaDepth + 1 ∧
    IsDistance (visited readFile limits as) locations a.1 a.2.location.key
  /-- Whatever can be reached within the limit, or just beyond it, is attempted, and no further away
  than it can be reached. -/
  complete : ∀ n k, n ≤ limits.schemaDepth + 1 → Reaches (visited readFile limits as) locations n k →
    ∃ a ∈ as, a.1 ≤ n ∧ a.2.location.key = k

/-- There is at most one step to take. -/
theorem Worklist.step_unique {w w₁ w₂ : Worklist} (h₁ : Worklist.Step readFile limits w w₁)
    (h₂ : Worklist.Step readFile limits w w₂) : w₁ = w₂ := by
  cases h₁ with
  | skip hmet =>
    cases h₂ with
    | skip _ => rfl
    | attempt hnot => exact absurd hmet hnot
  | attempt hnot =>
    cases h₂ with
    | skip hmet => exact absurd hmet hnot
    | attempt _ => rfl

/-- When nothing waits, no step is left. -/
theorem Worklist.eq_of_runs_nil {met : List Location.Key} {as : List (Nat × Pending)} {w : Worklist}
    (h : Worklist.Runs readFile limits ⟨[], met, as⟩ w) : w = ⟨[], met, as⟩ := by
  rcases Relation.ReflTransGen.cases_head h with rfl | ⟨_, hstep, -⟩
  · rfl
  · cases hstep

theorem visits_eq_visited (readFile : ReadFile Id) (limits : Limits) (locations : List Location) :
    visits readFile limits locations =
      visited readFile limits (attempts readFile limits locations) :=
  congrArg Prod.fst (survey_eq_attemptsFrom (Nat.zero_add _) [] (requests locations))

/-- **A load searches breadth first.** -/
theorem isSearch_attempts (readFile : ReadFile Id) (limits : Limits) (locations : List Location) :
    IsSearch readFile limits locations (attempts readFile limits locations) := by
  have hfrontier := frontier_requests (visited readFile limits (attempts readFile limits locations))
    locations
  have hnodup : ((visited readFile limits (attempts readFile limits locations)).map
      (·.location.key)).Nodup := by
    rw [← visits_eq_visited]
    exact (survey_nodup readFile limits _ [] (requests locations)).2
  have hvisited : ∀ v ∈ (survey readFile limits (limits.schemaDepth + 1) []
      (requests locations)).1, v ∈ visited readFile limits (attempts readFile limits locations) := by
    rw [← visits_eq_visited]
    exact fun v hv => hv
  have hdistance : ∀ a ∈ attempts readFile limits locations,
      IsDistance (visited readFile limits (attempts readFile limits locations)) locations a.1
        a.2.location.key :=
    fun a ha => hfrontier.isDistance_of_mem_attemptsFrom hnodup hvisited ha
  refine ⟨?_, (nodup_attemptsFrom readFile limits _ 0 [] _).2,
    pairwise_attemptsFrom readFile limits _ 0 [] _, fun a ha => ⟨?_, hdistance a ha⟩,
    fun n k hn hk => ?_⟩
  · obtain ⟨met, hrun⟩ : ∃ met, Worklist.Runs readFile limits (.start locations)
        ⟨[], met, attempts readFile limits locations⟩ :=
      Worklist.runs_attemptsFrom (Nat.zero_add _) [] (requests locations) []
    have hunique : Relator.RightUnique (Worklist.Step readFile limits) :=
      fun _ _ _ => Worklist.step_unique
    refine ⟨met, fun w hw => ?_⟩
    rcases Relation.ReflTransGen.total_of_right_unique hunique hw hrun with h | h
    · exact h
    · rw [Worklist.eq_of_runs_nil h]
  · exact (depth_of_mem_attemptsFrom ha).2.trans (Nat.le_of_eq (Nat.zero_add _))
  · have hroom : n ≤ 0 + (limits.schemaDepth + 1) := by rwa [Nat.zero_add]
    obtain ⟨a, ha, rfl⟩ :=
      (hfrontier.exists_attempt hnodup hvisited hroom hk).resolve_left List.not_mem_nil
    exact ⟨a, ha, (hdistance a ha).2 n hk, rfl⟩

/-- The documents asked for are those of depth nought. -/
theorem findSome?_failure?_attempts (readFile : ReadFile Id) (limits : Limits)
    (locations : List Location) :
    ((attempts readFile limits locations).filter (·.1 = 0)).findSome? (failure? readFile limits) =
      (visitsOf readFile limits [] (requests locations)).findSome? Visit.failure? := by
  have hlater (as : List (Nat × Pending)) (has : ∀ a ∈ as, 1 ≤ a.1) :
      as.filter (·.1 = 0) = [] :=
    List.filter_eq_nil_iff.2 fun a ha => by
      have := has a ha
      simpa using Nat.ne_of_gt this
  have hnow (p : Pending) :
      failure? readFile limits (0, p) = (p.visit readFile limits).failure? :=
    if_pos (Nat.zero_le _)
  rw [attempts, attemptsFrom, List.filter_append, filter_level (· = 0),
    hlater _ fun a ha => (depth_of_mem_attemptsFrom ha).1, visitsOf]
  simp [List.findSome?_map, Function.comp_def, hnow]

end Loading

namespace Grammar

open Loading

variable {readFile : ReadFile Id} {limits : Limits} {version : Version} {locations : List Location}

/-- The problems of a finished grammar that say that a document is left out. -/
theorem filter_problems_finish (c : Components) :
    c.finish.problems.toList.filter (·.fault.isLoading) = c.leftOut := by
  have hproblems : ({ c with problems := c.finish.problems } : Components).leftOut = c.leftOut := by
    refine Components.leftOut_append (Array.toList_appendList ..) fun p hp => ?_
    obtain ⟨f, hf, rfl⟩ := List.mem_map.1 hp
    obtain ⟨⟨d, m⟩, -, hf⟩ := List.mem_filterMap.1 hf
    cases m with
    | refused refusal =>
      cases hf
      rfl
    | compiled => cases hf
    | absent => cases hf
  exact hproblems

/-- Components are refused for their number, and for nothing else. -/
theorem exists_count_of_build {c : Components} {e : LoadError} (h : c.build = .error e) :
    ∃ n, c.limits.components < n ∧ e = .limit (.components n c.limits.components) := by
  rw [Components.build] at h
  split at h
  · next hcheck =>
    cases h
    rw [Limits.checkComponents, Limits.check] at hcheck
    split at hcheck
    · next hlt =>
      cases hcheck
      exact ⟨_, hlt, rfl⟩
    · cases hcheck
  · cases h

/-- If all documents asked for can be loaded, there are too many components, or there is a grammar
that holds what was visited and records what was left out. -/
theorem load_of_requested (hlocations : locations ≠ [])
    (hnone : (visitsOf readFile limits [] (requests locations)).findSome? Visit.failure? = none) :
    (∃ n, limits.components < n ∧ Grammar.load readFile limits version locations =
        .error (.limit (.components n limits.components))) ∨
      ∃ g, Grammar.load readFile limits version locations = .ok g ∧
        g.locations.toList = ((visited readFile limits (attempts readFile limits locations)).filter
          Visit.isKept).map Visit.location ∧
        g.problems.toList.filter (·.fault.isLoading) =
          (attempts readFile limits locations).filterMap (problem? readFile limits) := by
  let c := ((Gathering.gather limits (surveyed readFile limits locations)).run
    (.empty version limits)).2
  have hload : Grammar.load readFile limits version locations = c.build := by
    rw [load_eq hlocations, hnone]
  cases hbuild : c.build with
  | error e =>
    obtain ⟨n, hn, rfl⟩ := exists_count_of_build hbuild
    have hlimits : c.limits = limits := limits_gather readFile limits version locations
    rw [hlimits] at hn hbuild
    exact Or.inl ⟨n, hn, hload.trans hbuild⟩
  | ok g =>
    refine Or.inr ⟨g, hload.trans hbuild, ?_, ?_⟩
    · rw [(holds_of_load (hload.trans hbuild)).1, visits_eq_visited]
    · obtain ⟨c', hc', rfl⟩ := Components.exists_finish_of_build hbuild
      rw [filter_problems_finish, hc'.leftOut]
      exact leftOut_gather readFile limits version locations

/-- **What a load attempts, and what comes of it.**  For all files, limits and locations a load
searches breadth first.  The first document asked for that cannot be loaded makes the load fail.
Otherwise there is a grammar, unless there are no locations or too many components.  It holds the
documents within the limit whose texts are well-formed, and records each document that is left out
once, both in the order of the attempts. -/
theorem load_search (readFile : ReadFile Id) (limits : Limits) (version : Version)
    (locations : List Location) :
    let as := attempts readFile limits locations
    let result : Except LoadError Grammar := Grammar.load readFile limits version locations
    IsSearch readFile limits locations as ∧
      (∀ e, (as.filter (·.1 = 0)).findSome? (failure? readFile limits) = some e →
        result = .error e) ∧
      ((as.filter (·.1 = 0)).findSome? (failure? readFile limits) = none →
        locations = [] ∧ result = .error .noLocation ∨
        (∃ n, limits.components < n ∧ result = .error (.limit (.components n limits.components))) ∨
        ∃ g, result = .ok g ∧
          g.locations.toList =
            ((visited readFile limits as).filter Visit.isKept).map Visit.location ∧
          g.problems.toList.filter (·.fault.isLoading) =
            as.filterMap fun a =>
              (failure? readFile limits a).map (LoadError.problem a.2.location)) := by
  intro as result
  refine ⟨isSearch_attempts readFile limits locations, fun e he => ?_, fun hnone => ?_⟩
  · rw [findSome?_failure?_attempts] at he
    have hlocations : locations ≠ [] := by
      rintro rfl
      cases he
    simp only [result, load_eq hlocations, he]
  · rw [findSome?_failure?_attempts] at hnone
    by_cases hlocations : locations = []
    · subst hlocations
      exact Or.inl ⟨rfl, load_nil readFile limits version⟩
    · exact Or.inr (load_of_requested hlocations hnone)

end Grammar
end SchemaAssist
