/-
# What references stand for

A reference in a model group stands for the element or the group that it names, with its own bounds
in place of those of the definition; named groups refer to each other freely, so that their words are
the least solution of what their definitions say (`Components.named`).  Once the references of a type
have been looked up without a fault, its model group has just the words that it had with them
(`Components.language_expandTypes`).  That comes to an end however the named groups refer to each
other, as no group is looked up inside itself (`Components.exists_room`).
-/

import SchemaAssist.Proofs.Attributions
import SchemaAssist.Proofs.Resolution

namespace SchemaAssist

open Referring (Sound)

/-! ### Languages that grow -/

section Growing

variable {α : Type*} {l l' m m' : Language α} {ls ms : List (Language α)}

theorem shuffle_mono (hl : l ≤ l') (hm : m ≤ m') : shuffle l m ≤ shuffle l' m' := by
  rintro w ⟨u, hu, v, hv, h⟩
  exact ⟨u, hl hu, v, hm hv, h⟩

theorem Occurs.words_mono (o : Occurs) (h : l ≤ l') : o.words l ≤ o.words l' := by
  rintro w ⟨k, hk, hw⟩
  exact ⟨k, hk, pow_le_pow_left' h k hw⟩

/-- A group has more words if its particles have. -/
theorem Compositor.combine_mono (c : Compositor) (h : List.Forall₂ (· ≤ ·) ls ms) :
    c.combine ls ≤ c.combine ms := by
  cases c with
  | sequence => exact h.prod_le_prod'
  | choice =>
    cases h with
    | nil => exact le_rfl
    | cons hl hls => exact (List.Forall₂.cons hl hls).sum_le_sum
  | all =>
    induction h with
    | nil => exact le_rfl
    | cons hl _ ih => exact shuffle_mono hl ih

end Growing

namespace Particle

mutual

/-- The words of one occurrence of a particle where references stand for the elements and the words
given for their names. -/
def meaning (accepts : ElementId → List Name) (element? : Name → Option ElementId)
    (named : Name → Language Name) : Particle → Language Name
  | element d _ => {w | ∃ n ∈ accepts d, w = [n]}
  | any wildcard => {w | ∃ n, wildcard.admits n = true ∧ w = [n]}
  | group c ps _ => c.combine (meanings accepts element? named ps)
  | elementRef n _ => {w | ∃ d ∈ element? n, ∃ m ∈ accepts d, w = [m]}
  | groupRef n _ => named n

/-- The words of each of several particles, without those that may never occur, where references
stand for the elements and the words given for their names. -/
def meanings (accepts : ElementId → List Name) (element? : Name → Option ElementId)
    (named : Name → Language Name) : List Particle → List (Language Name)
  | [] => []
  | p :: ps =>
    if p.occurs.never then meanings accepts element? named ps
    else p.occurs.words (meaning accepts element? named p) :: meanings accepts element? named ps

end

variable {accepts : ElementId → List Name} {element? : Name → Option ElementId}
  {named named' : Name → Language Name}

mutual

/-- References that stand for more words make more words. -/
theorem meaning_mono (h : named ≤ named') :
    ∀ p : Particle, p.meaning accepts element? named ≤ p.meaning accepts element? named'
  | element .. => le_rfl
  | any _ => le_rfl
  | group c ps _ => c.combine_mono (meanings_mono h ps)
  | elementRef .. => le_rfl
  | groupRef n _ => h n

theorem meanings_mono (h : named ≤ named') : ∀ ps : List Particle,
    List.Forall₂ (· ≤ ·) (meanings accepts element? named ps)
      (meanings accepts element? named' ps)
  | [] => .nil
  | p :: ps => by
    rw [meanings, meanings]
    split
    · exact meanings_mono h ps
    · exact .cons (p.occurs.words_mono (meaning_mono h p)) (meanings_mono h ps)

end

end Particle

namespace Components

variable {c : Components} {accepts : ElementId → List Name} {n : Name}

/-- What the definitions of named groups make of the words that references to them stand for. -/
def definedWords (c : Components) (accepts : ElementId → List Name) :
    (Name → Language Name) →o (Name → Language Name) where
  toFun named n :=
    match c.groups.find? n with
    | some g => g.compositor.combine
        (Particle.meanings accepts c.globalElements.find? named g.particles)
    | none => 0
  monotone' named named' h n := by
    dsimp only
    split
    · exact Compositor.combine_mono _ (Particle.meanings_mono h _)
    · exact le_rfl

/-- The words of one occurrence of each named group: no more than its definition asks for, which may
refer to other groups and to itself. -/
def named (c : Components) (accepts : ElementId → List Name) : Name → Language Name :=
  (c.definedWords accepts).lfp

/-- A reference to a group stands for what is in its definition. -/
theorem named_eq {g : ModelGroup} (hn : c.groups.find? n = some g) :
    c.named accepts n = g.compositor.combine
      (Particle.meanings accepts c.globalElements.find? (c.named accepts) g.particles) := by
  have hfixed := congrFun (c.definedWords accepts).map_lfp n
  rw [named, ← hfixed]
  change (match c.groups.find? n with | some g => _ | none => _) = _
  rw [hn]

/-- The contents that a model group admits, where each reference stands for the element or for the
group that it names. -/
def languageOf (c : Components) (accepts : ElementId → List Name) (g : ModelGroup) :
    Language Name :=
  g.occurs.words (g.toParticle.meaning accepts c.globalElements.find? (c.named accepts))

/-! ### Looking references up -/

variable {room : Nat} {around : List Name} {p : Particle} {ps : List Particle}

/-- A particle without references, and what was wrong with it. -/
def expandParticle (c : Components) (room : Nat) (around : List Name) :
    Particle → Option Particle × List Fault
  | .elementRef n o =>
    match c.globalElements.find? n with
    | some d => (some (.element d o), [])
    | none => (none, [.unknownElement n])
  | .groupRef n o =>
    if n ∈ around then (none, [.circularGroup n])
    else match c.groups.find? n with
      | some g => (some (.group g.compositor (c.expandParticles room (n :: around) g.particles).1 o),
          (c.expandParticles room (n :: around) g.particles).2)
      | none => (none, [.unknownGroup n])
  | .group k qs o => (some (.group k (c.expandParticles room around qs).1 o),
      (c.expandParticles room around qs).2)
  | p => (some p, [])

theorem expandParticles_succ (c : Components) (room : Nat) (around : List Name)
    (ps : List Particle) : c.expandParticles (room + 1) around ps =
      (ps.filterMap fun p => (c.expandParticle room around p).1,
        ps.flatMap fun p => (c.expandParticle room around p).2) := by
  rw [expandParticles, List.map_congr_left (g := c.expandParticle room around)]
  · rw [List.filterMap_map, List.flatMap_map]
    rfl
  · intro p _
    cases p <;> rfl

/-- A particle that is expanded without a fault has the words that it had with its references. -/
theorem exists_expandParticle
    (hparticles : ∀ around ps, (c.expandParticles room around ps).2 = [] →
      Particle.contentsOf accepts (c.expandParticles room around ps).1 =
        Particle.meanings accepts c.globalElements.find? (c.named accepts) ps)
    (h : (c.expandParticle room around p).2 = []) :
    ∃ q, (c.expandParticle room around p).1 = some q ∧ q.occurs = p.occurs ∧
      q.contents accepts = p.meaning accepts c.globalElements.find? (c.named accepts) := by
  cases p with
  | element d o => exact ⟨.element d o, rfl, rfl, rfl⟩
  | any w => exact ⟨.any w, rfl, rfl, rfl⟩
  | group k qs o =>
    refine ⟨_, rfl, rfl, ?_⟩
    rw [Particle.contents, Particle.meaning, hparticles around qs h]
  | elementRef n o =>
    rw [expandParticle] at h ⊢
    cases hn : c.globalElements.find? n with
    | none =>
      rw [hn] at h
      cases h
    | some d =>
      refine ⟨.element d o, rfl, rfl, ?_⟩
      rw [Particle.contents, Particle.meaning, hn]
      ext w
      constructor
      · rintro ⟨m, hm, rfl⟩
        exact ⟨d, rfl, m, hm, rfl⟩
      · rintro ⟨_, ⟨⟩, m, hm, rfl⟩
        exact ⟨m, hm, rfl⟩
  | groupRef n o =>
    rw [expandParticle] at h ⊢
    split at h
    · cases h
    · next hnew =>
      rw [if_neg hnew]
      cases hn : c.groups.find? n with
      | none =>
        rw [hn] at h
        cases h
      | some g =>
        rw [hn] at h
        refine ⟨_, rfl, rfl, ?_⟩
        rw [Particle.contents, Particle.meaning, named_eq hn, hparticles (n :: around) _ h]

/-- **Particles that are expanded without a fault have the words that they had with their
references.** -/
theorem contentsOf_expandParticles (h : (c.expandParticles room around ps).2 = []) :
    Particle.contentsOf accepts (c.expandParticles room around ps).1 =
      Particle.meanings accepts c.globalElements.find? (c.named accepts) ps := by
  induction room generalizing around ps with
  | zero => cases h
  | succ room ih =>
    rw [expandParticles_succ] at h ⊢
    dsimp only at h ⊢
    induction ps with
    | nil => rfl
    | cons p ps ihps =>
      rw [List.flatMap_cons, List.append_eq_nil_iff] at h
      obtain ⟨q, hq, hoccurs, hcontents⟩ := exists_expandParticle (fun _ _ => ih) h.1
      have hexpanded : (p :: ps).filterMap (fun p => (c.expandParticle room around p).1) =
          q :: ps.filterMap fun p => (c.expandParticle room around p).1 :=
        List.filterMap_cons_some hq
      rw [hexpanded, Particle.contentsOf, Particle.meanings, hoccurs, hcontents, ihps h.2]

end Components

/-- Bounds that allow nothing are met by nothing. -/
theorem Occurs.words_of_never {α : Type*} {o : Occurs} (ho : o.Valid) (h : o.never = true)
    (l : Language α) : o.words l = 1 := by
  have hmax : o.max = some 0 := by simpa [never] using h
  have hmin : o.min ≤ 0 := ho 0 hmax
  ext w
  rw [Language.mem_one]
  constructor
  · rintro ⟨k, hk, hw⟩
    obtain rfl : k = 0 := Nat.le_zero.1 (hk.2 0 hmax)
    exact hw
  · rintro rfl
    refine nil_mem_words_of_allows ⟨hmin, fun max _ => Nat.zero_le max⟩

theorem Occurs.words_once {α : Type*} (l : Language α) : once.words l = l := by
  ext w
  constructor
  · rintro ⟨k, hk, hw⟩
    obtain rfl : k = 1 := Nat.le_antisymm (hk.2 1 rfl) hk.1
    exact pow_one l ▸ hw
  · exact mem_words_of_allows_one ⟨Nat.le_refl 1, by rintro _ ⟨⟩; exact Nat.le_refl 1⟩

/-- A sequence of nothing but one group, once, has the words of that group. -/
theorem ModelGroup.language_unwrap {accepts : ElementId → List Name} {g : ModelGroup}
    (hg : ∀ p ∈ g.particles, p.occurs.Valid) : g.unwrap.language accepts = g.language accepts := by
  rw [unwrap.eq_def]
  split
  · next k ps o =>
    have ho : o.Valid := hg _ (List.mem_singleton_self _)
    change o.words _ = Occurs.once.words ((Particle.contentsOf accepts [.group k ps o]).prod)
    rw [Occurs.words_once, Particle.contentsOf, Particle.contentsOf]
    split
    · next h => rw [Occurs.words_of_never ho h, List.prod_nil]
    · rw [List.prod_singleton]
      rfl
  · rfl

namespace Components

variable {c : Components} {accepts : ElementId → List Name}

/-- The model group that is left once references have been looked up without a fault has the words
that it had with them. -/
theorem language_expandGroup (hc : c.Intact) {g : ModelGroup} (hg : Sound c.extent g)
    (h : (c.expandGroup g).2 = []) :
    (c.expandGroup g).1.unwrap.language accepts = c.languageOf accepts g := by
  have hparticles := (Particle.soundIn_group.1 hg).2
  have hbounds : ∀ p ∈ (c.expandGroup g).1.particles, p.occurs.Valid := fun p hp =>
    ((expandParticles_spec hc hparticles p hp).1 p p.self_mem_subtrees).1
  have hcontents : Particle.contentsOf accepts (c.expandGroup g).1.particles =
      Particle.meanings accepts c.globalElements.find? (c.named accepts) g.particles :=
    contentsOf_expandParticles h
  rw [ModelGroup.language_unwrap hbounds, ModelGroup.language, languageOf]
  change g.occurs.words (g.compositor.combine (Particle.contentsOf accepts _)) =
    g.occurs.words (g.compositor.combine (Particle.meanings _ _ _ _))
  rw [hcontents]

/-! ### No end of room -/

/-- A particle takes only so much room. -/
theorem exists_room_particles {around : List Name} {ps : List Particle}
    (h : ∀ p ∈ ps, ∃ least, ∀ room ≥ least,
      c.expandParticle room around p = c.expandParticle least around p) :
    ∃ least, ∀ room ≥ least,
      c.expandParticles room around ps = c.expandParticles least around ps := by
  have hall : ∃ least, ∀ room ≥ least, ∀ p ∈ ps,
      c.expandParticle room around p = c.expandParticle least around p := by
    induction ps with
    | nil => exact ⟨0, fun _ _ => nofun⟩
    | cons p ps ih =>
      rw [List.forall_mem_cons] at h
      obtain ⟨least, hp⟩ := h.1
      obtain ⟨least', hps⟩ := ih h.2
      refine ⟨max least least', fun room hroom => List.forall_mem_cons.2 ⟨?_, fun q hq => ?_⟩⟩
      · rw [hp room (by omega), hp _ (Nat.le_max_left _ _)]
      · rw [hps room (by omega) q hq, hps _ (Nat.le_max_right _ _) q hq]
  obtain ⟨least, hleast⟩ := hall
  refine ⟨least + 1, fun room hroom => ?_⟩
  obtain ⟨room, rfl⟩ : ∃ r, room = r + 1 := ⟨room - 1, by omega⟩
  have hroom' : room ≥ least := Nat.le_of_succ_le_succ hroom
  rw [expandParticles_succ, expandParticles_succ]
  have hfound : ps.filterMap (fun p => (c.expandParticle room around p).1) =
      ps.filterMap fun p => (c.expandParticle least around p).1 :=
    List.filterMap_congr fun p hp => by rw [hleast room hroom' p hp]
  have hfaults : ps.flatMap (fun p => (c.expandParticle room around p).2) =
      ps.flatMap fun p => (c.expandParticle least around p).2 :=
    List.flatMap_congr fun p hp => by rw [hleast room hroom' p hp]
  rw [hfound, hfaults]

/-- **Looking up references comes to an end**, however the named groups refer to each other: from
some depth on, more room changes nothing. -/
theorem exists_room (c : Components) (around : List Name) (ps : List Particle) :
    ∃ least, ∀ room ≥ least,
      c.expandParticles room around ps = c.expandParticles least around ps := by
  -- Each reference that is followed takes one of the names of groups away.
  induction hcount : c.groups.names.countP (· ∉ around) using Nat.strong_induction_on
    generalizing around ps with
  | _ count ih =>
    refine exists_room_particles fun p hp => ?_
    clear hp
    induction p using Particle.induct with
    | element d o => exact ⟨0, fun _ _ => rfl⟩
    | any w => exact ⟨0, fun _ _ => rfl⟩
    | elementRef n o => exact ⟨0, fun _ _ => rfl⟩
    | group k qs o hqs =>
      obtain ⟨least, hleast⟩ := exists_room_particles hqs
      exact ⟨least, fun room hroom => by rw [expandParticle, expandParticle, hleast room hroom]⟩
    | groupRef n o =>
      by_cases hn : n ∈ around
      · exact ⟨0, fun _ _ => by rw [expandParticle, expandParticle, if_pos hn, if_pos hn]⟩
      · cases hg : c.groups.find? n with
        | none => exact ⟨0, fun _ _ => by rw [expandParticle, expandParticle, hg]⟩
        | some g =>
          have hfewer : c.groups.names.countP (· ∉ n :: around) < count := by
            rw [← hcount]
            exact Substitutions.countP_lt_of_mem
              (fun m hm => decide_eq_true fun h => of_decide_eq_true hm (List.mem_cons_of_mem n h))
              (NameTable.mem_names_of_find? hg) (decide_eq_true hn)
              (decide_eq_false (not_not_intro List.mem_cons_self))
          obtain ⟨least, hleast⟩ := ih _ hfewer (n :: around) g.particles rfl
          refine ⟨least, fun room hroom => ?_⟩
          rw [expandParticle, expandParticle, hg]
          dsimp only
          rw [hleast room hroom]

/-! ### All types -/

/-- **Looking up references keeps the words of model groups.**  When documents have been added and
no fault is found in the references of a type, the model group that is left for it admits the contents
that it admitted with its references, each of which stands for the element or the group of its name
with its own bounds.  And no table of groups keeps the looking up from coming to an end. -/
theorem language_expandTypes (version : Version) (limits : Limits) (docs : List Submission)
    (accepts : ElementId → List Name) :
    let c := (empty version limits).after docs
    (∀ (i : Nat) ct g, c.types[i]? = some (.complex ct) → ct.content = .group g →
      (c.expandType (.complex ct)).2 = [] →
        ∃ h, (expandTypes.run c).2.types[i]? = some (.complex { ct with content := .group h }) ∧
          h.language accepts = c.languageOf accepts g) ∧
    ∀ (table : Components) ps, ∃ least, ∀ room ≥ least,
      table.expandParticles room [] ps = table.expandParticles least [] ps := by
  intro c
  obtain ⟨hintact, -⟩ := intact_after (intact_empty version limits) docs
  refine ⟨fun i ct g hi hg hfaults => ?_, fun table ps => exists_room table [] ps⟩
  have hsound : Sound c.extent g := by
    obtain ⟨hcontent, -⟩ := hintact.types _ (Array.mem_of_getElem? hi)
    rw [hg] at hcontent
    exact hcontent
  rw [expandType, hg] at hfaults
  refine ⟨(c.expandGroup g).1.unwrap, ?_, language_expandGroup hintact hsound hfaults⟩
  have htypes : (expandTypes.run c).2.types = (c.types.map c.expandType).map (·.1) := rfl
  rw [htypes, Array.getElem?_map, Array.getElem?_map, hi, Option.map_some, Option.map_some,
    expandType, hg]

/-- A type that refers to a group, which refers to an element, each with bounds of its own. -/
def nestedGroups : Submission where
  text := "<s:schema xmlns:s='http://www.w3.org/2001/XMLSchema'><s:element name='a'/>" ++
    "<s:group name='g'><s:choice maxOccurs='7'><s:element ref='a'/></s:choice></s:group>" ++
    "<s:complexType name='T'><s:group ref='g' minOccurs='0'/></s:complexType></s:schema>"
  location := .path "nested.xsd"

/-- The references of the type in `nestedGroups` are looked up without a fault. -/
theorem language_expandTypes_nestedGroups :
    let c := (empty .v10 {}).after [nestedGroups]
    ∃ ct g, c.types[0]? = some (.complex ct) ∧ ct.content = .group g ∧
      (c.expandType (.complex ct)).2 = [] ∧
      ∃ h, (expandTypes.run c).2.types[0]? = some (.complex { ct with content := .group h }) ∧
        h.language twoNames = c.languageOf twoNames g := by
  intro c
  have hfirst : (c.types[0]?.any fun d => d.group?.isSome && (c.expandType d).2.isEmpty) = true := by
    decide +kernel
  obtain ⟨hlooked, -⟩ := language_expandTypes .v10 {} [nestedGroups] twoNames
  cases htype : c.types[0]? with
  | none =>
    rw [htype] at hfirst
    cases hfirst
  | some d =>
    rw [htype, Option.any_some, Bool.and_eq_true, List.isEmpty_iff] at hfirst
    obtain ⟨g, hg⟩ := Option.isSome_iff_exists.1 hfirst.1
    cases d with
    | simple st => cases hg
    | complex ct =>
      have hcontent : ct.content = .group g := by
        change ct.group? = some g at hg
        rw [ComplexType.group?] at hg
        split at hg
        · next g' hg' => rw [hg', Option.some.inj hg]
        · cases hg
      exact ⟨ct, g, rfl, hcontent, hfirst.2, hlooked 0 ct g htype hcontent hfirst.2⟩

end Components
end SchemaAssist
