/-
# Types whose way up ends

A type comes to what it is to come to as long as no way up from it leads around a circle
(`Components.Grounded`), whatever other types derive from: a type that waits for its base is met
again only from types on a circle.  So what holds of types that derive from no circle holds of them
in every grammar (`Components.exists_course`).
-/

import SchemaAssist.Proofs.Marking

namespace SchemaAssist

open Relation (ReflTransGen TransGen)

namespace Components

variable {c₀ c c' c₁ : Components} {keys : List String} {done : List TypeId} {t : TypeId}

/-- No way up from a type leads around a circle. -/
def Grounded (c : Components) (t : TypeId) : Prop :=
  ∀ u, ReflTransGen (DerivesFrom c) t u → ¬ TransGen (DerivesFrom c) u u

theorem Grounded.base {b : TypeId} (h : Grounded c t) (hb : DerivesFrom c t b) : Grounded c b :=
  fun u hu => h u (.head hb hu)

/-- Derivation on the way: the types in `done` have come to what they come to, unless a way up from
them leads around a circle, and what is wrong with them has been reported in one piece.  The others
are still as their bases have been looked up. -/
structure Course (c₀ c₁ : Components) (done : List TypeId) (keys : List String) (c : Components) :
    Prop where
  midway : ∃ T, Midway c₀ T keys c
  elements : c.elements = c₁.elements
  types : ∀ (t : TypeId) d, c₀.types[t.index]? = some d → ∃ d', c.types[t.index]? = some d' ∧
    if t ∈ done then Grounded c₀ t → Derived c₀ keys t d' else Based c₀ keys d d'
  reported : ∀ t ∈ done, ∀ ct, c₀.types[t.index]? = some (.complex ct) →
    (c₀.derivationFaults (.complex ct)).map Fault.problem <:+: c.problems.toList

namespace Course

/-- A type that is not done is there as its base has been found. -/
theorem based (h : Course c₀ c₁ done keys c) (hdone : t ∉ done) {d d' : TypeDef}
    (hd : c₀.types[t.index]? = some d) (hd' : c.types[t.index]? = some d') : Based c₀ keys d d' := by
  obtain ⟨d'', hd'', hbased⟩ := h.types t d hd
  cases hd'.symm.trans hd''
  rwa [if_neg hdone] at hbased

/-- A complex type that is not done is there as it was declared, or else the type of any content. -/
theorem of_complex (h : Course c₀ c₁ done keys c) (hdone : t ∉ done) {ct : ComplexType}
    (hct : c.types[t.index]? = some (.complex ct)) :
    c₀.types[t.index]? = some (.complex ct) ∨ c₀.types.size ≤ t.index ∧ ct = Builtin.anyType := by
  by_cases hlt : t.index < c₀.types.size
  · have hget := Array.getElem?_eq_getElem hlt
    have hbased := h.based hdone hget hct
    refine .inl (hget.trans (congrArg some ?_))
    cases hd : c₀.types[t.index] with
    | simple st =>
      rw [hd] at hbased
      obtain ⟨_, hsimple⟩ := hbased.exists_simple
      cases hsimple
    | complex ct₀ =>
      rw [hd] at hbased
      exact hbased.symm
  · have hge := Nat.le_of_not_lt hlt
    obtain ⟨T, hT⟩ := h.midway
    rw [hT.types, Array.getElem?_append_right (by rw [hT.size]; exact hge), List.getElem?_toArray]
      at hct
    obtain ⟨k, -, hk⟩ := List.mem_map.1 (List.mem_of_getElem? hct)
    refine .inr ⟨hge, ?_⟩
    rw [Builtin.definition] at hk
    split at hk <;> cases hk
    rfl

/-- What is looked up changes nothing about types. -/
theorem look (h : Course c₀ c₁ done keys c) {α : Type} {x : Building α}
    {found : List String → α → Prop} {faults : List Fault} {calls : List String}
    (hx : Looks c₀ x found faults calls) :
    Course c₀ c₁ done (addAllNew keys calls) (x.run c).2 ∧
      (x.run c).2.problems.toList = c.problems.toList ++ faults.map Fault.problem ∧
      found (addAllNew keys calls) (x.run c).1 := by
  obtain ⟨T, hT⟩ := h.midway
  obtain ⟨hmidway, helements, hproblems, hfound⟩ := hx T keys c hT
  have hle := prefix_addAllNew keys calls
  have hgrows : c.problems.toList <+: (x.run c).2.problems.toList :=
    hproblems ▸ List.prefix_append _ _
  have htypes := hT.types_looks (P := fun keys t d => Grounded c₀ t → Derived c₀ keys t d) hmidway
    hle (fun _ _ hd hgrounded => (hd hgrounded).mono hle) h.types
  exact ⟨⟨⟨T, hmidway⟩, helements.trans h.elements, htypes,
    fun s hs ct hct => (h.reported s hs ct hct).trans hgrows.isInfix⟩, hproblems, hfound⟩

/-- A type is done when it has been replaced by what it comes to. -/
theorem finish (h : Course c₀ c₁ done keys c) {ct : ComplexType}
    (ht : c₀.types[t.index]? = some (.complex ct)) {d : TypeDef}
    (hreported : (c₀.derivationFaults (.complex ct)).map Fault.problem <:+: c.problems.toList)
    (hd : Grounded c₀ t → Derived c₀ keys t d) :
    Course c₀ c₁ (t :: done) keys ((setType t d).run c).2 := by
  obtain ⟨T, hT⟩ := h.midway
  have hown (ct' : ComplexType) (ht' : c₀.types[t.index]? = some (.complex ct')) :
      (c₀.derivationFaults (.complex ct')).map Fault.problem <:+: c.problems.toList := by
    cases ht.symm.trans ht'
    exact hreported
  exact ⟨⟨_, hT.setType (Array.getElem?_eq_some_iff.1 ht).1 d⟩, h.elements,
    types_setType (P := fun keys t d => Grounded c₀ t → Derived c₀ keys t d) hd h.types,
    List.forall_mem_cons.2 ⟨hown, h.reported⟩⟩

/-- A type that has come to what it comes to already is done as it is. -/
theorem finish_same (h : Course c₀ c₁ done keys c)
    (hct : ∀ ct, c₀.types[t.index]? ≠ some (.complex ct))
    (hd : ∀ d, c₀.types[t.index]? = some d → ∀ d', c.types[t.index]? = some d' →
      Grounded c₀ t → Derived c₀ keys t d') :
    Course c₀ c₁ (t :: done) keys c := by
  refine ⟨h.midway, h.elements, fun s d hs => ?_,
    List.forall_mem_cons.2 ⟨fun ct ht => absurd ht (hct ct), h.reported⟩⟩
  obtain ⟨d', hd', hs'⟩ := h.types s d hs
  refine ⟨d', hd', ?_⟩
  by_cases hst : s = t
  · subst hst
    rw [if_pos List.mem_cons_self]
    exact hd d hs d' hd'
  · simpa only [List.mem_cons, hst, false_or] using hs'

/-- A type that was not there at first is done as it is. -/
theorem finish_builtin (h : Course c₀ c₁ done keys c) (ht : c₀.types.size ≤ t.index) :
    Course c₀ c₁ (t :: done) keys c :=
  h.finish_same (fun _ hs => absurd (Array.getElem?_eq_some_iff.1 hs).1 (Nat.not_lt.2 ht))
    fun _ hs => absurd (Array.getElem?_eq_some_iff.1 hs).1 (Nat.not_lt.2 ht)

/-- A type that is not complex is done as it is. -/
theorem finish_simple (h : Course c₀ c₁ done keys c) (hdone : t ∉ done)
    (hsimple : ∀ ct, c.types[t.index]? ≠ some (.complex ct)) :
    Course c₀ c₁ (t :: done) keys c := by
  have hnot (ct : ComplexType) : c₀.types[t.index]? ≠ some (.complex ct) := by
    intro hct
    obtain ⟨d', hd', -⟩ := h.types t _ hct
    have hsame : d' = .complex ct := h.based hdone hct hd'
    exact hsimple ct (hsame ▸ hd')
  refine h.finish_same hnot fun d hd d' hd' _ => ?_
  cases d with
  | simple st => exact .simple hd (h.based hdone hd hd')
  | complex ct => exact absurd hd (hnot ct)

/-- What is reported changes nothing about types. -/
theorem report (h : Course c₀ c₁ done keys c) (f : Fault) :
    c.problems.toList <+: ((Components.report f).run c).2.problems.toList ∧
      Course c₀ c₁ done keys ((Components.report f).run c).2 := by
  have hnothing : Looks c₀ (Components.report f) (fun _ _ => True) [f] [] := looks_report f
  obtain ⟨hreported, hproblems, -⟩ := h.look hnothing
  exact ⟨hproblems ▸ List.prefix_append _ _, hreported⟩

/-- What a complex type refers to has been found, and what is wrong with that has been reported in
one piece. -/
theorem lookUp (h : Course c₀ c₁ done keys c) {ct : ComplexType}
    {found : List AttributeUse × Option (Derivation × TypeId)}
    (hrun : (Components.lookUp ct).run c = (found, c')) :
    ∃ keys', keys <+: keys' ∧ c.problems.toList <+: c'.problems.toList ∧
      Course c₀ c₁ done keys' c' ∧ LookedUp c₀ ct keys' found ∧
      (c₀.derivationFaults (.complex ct)).map Fault.problem <:+: c'.problems.toList := by
  obtain ⟨hlooked, hproblems, hfound⟩ := h.look (looks_lookUp ct)
  rw [hrun] at hlooked hproblems hfound
  exact ⟨_, prefix_addAllNew _ _, hproblems ▸ List.prefix_append _ _, hlooked, hfound,
    hproblems ▸ (List.suffix_append _ _).isInfix⟩

/-- A base that is done, or built in, has come to what it comes to. -/
theorem exists_base (h : Course c₀ c₁ done keys c)
    (hglobal : ∀ n u, c₀.globalTypes.find? n = some u → u.index < c₀.types.size) {base : Name}
    {b : TypeId} (hbase : Named c₀ keys base (some b))
    (hdone : b.index < c₀.types.size → Grounded c₀ b ∧ b ∈ done) :
    ∃ d, c.types[b.index]? = some d ∧ Derived c₀ keys b d := by
  cases hbase with
  | global hn =>
    have hb := hglobal base b hn
    obtain ⟨hgrounded, hmem⟩ := hdone hb
    obtain ⟨d, hd, hderived⟩ := h.types b _ (Array.getElem?_eq_getElem hb)
    rw [if_pos hmem] at hderived
    exact ⟨d, hd, hderived hgrounded⟩
  | builtin _ _ hk =>
    obtain ⟨T, hT⟩ := h.midway
    exact ⟨_, hT.getElem?_builtin hk, .builtin hk⟩

end Course

/-- A base that the documents define comes next on the way up. -/
theorem LookedUp.derivesFrom {ct : ComplexType} {uses : List AttributeUse} {method : Derivation}
    {b : TypeId} (h : LookedUp c ct keys (uses, some (method, b)))
    (ht : c.types[t.index]? = some (.complex ct)) (hb : b.index < c.types.size) :
    DerivesFrom c t b := by
  obtain ⟨-, base, hderivation, hbase⟩ := h
  cases hbase with
  | global hn => exact ⟨ct, method, base, ht, hderivation, hn⟩
  | builtin => exact absurd rfl (ne_builtinId (Array.getElem?_eq_getElem hb) _)

/-- Nothing is looked up for the type of any content. -/
theorem run_lookUp_anyType (c : Components) :
    (lookUp Builtin.anyType).run c = (([], none), c) := rfl

/-- **Deriving a type leaves it as what it comes to**, unless a way up from it leads around a
circle. -/
theorem Visits.course {m m' : Marks} (h : Visits t m c m' c')
    (hglobal : ∀ n u, c₀.globalTypes.find? n = some u → u.index < c₀.types.size)
    (hcourse : Course c₀ c₁ m.done keys c)
    (hwaiting : ∀ w ∈ m.waiting, w.index < c₀.types.size ∧
      (t.index < c₀.types.size → TransGen (DerivesFrom c₀) w t)) :
    ∃ keys', keys <+: keys' ∧ c.problems.toList <+: c'.problems.toList ∧
      Course c₀ c₁ m'.done keys' c' ∧ (Grounded c₀ t → t ∈ m'.done) := by
  induction h generalizing keys with
  | done hdone => exact ⟨keys, List.prefix_rfl, List.prefix_rfl, hcourse, fun _ => hdone⟩
  | simple hdone hsimple =>
    exact ⟨keys, List.prefix_rfl, List.prefix_rfl, hcourse.finish_simple hdone hsimple,
      fun _ => List.mem_cons_self⟩
  | @circular t m c ct hdone ht hmem =>
    obtain ⟨hlt, hcircle⟩ := hwaiting t hmem
    obtain ⟨hgrows, hreported⟩ := hcourse.report (.circularDerivation (TypeDef.complex ct).label)
    exact ⟨keys, List.prefix_rfl, hgrows, hreported,
      fun hgrounded => absurd (hcircle hlt) (hgrounded t .refl)⟩
  | @alone t m c c' ct uses hdone ht hnew hrun =>
    rcases hcourse.of_complex hdone ht with hget | ⟨hge, rfl⟩
    · obtain ⟨keys', hkeys, hgrows, hlooked, ⟨huses, hbase⟩, hfaults⟩ := hcourse.lookUp hrun
      exact ⟨keys', hkeys, hgrows,
        hlooked.finish hget hfaults fun _ => .alone hget huses hbase, fun _ => List.mem_cons_self⟩
    · rw [run_lookUp_anyType] at hrun
      cases hrun
      have hset : (setType t (.complex (Builtin.anyType.withUses []).pruned)).run c = ((), c) :=
        run_setType_of_getElem? ht
      rw [hset]
      exact ⟨keys, List.prefix_rfl, List.prefix_rfl, hcourse.finish_builtin hge,
        fun _ => List.mem_cons_self⟩
  | @self t m c c' ct uses method hdone ht hnew hrun =>
    rcases hcourse.of_complex hdone ht with hget | ⟨-, rfl⟩
    · have hlt := (Array.getElem?_eq_some_iff.1 hget).1
      obtain ⟨keys', hkeys, hgrows, hlooked, hfound, hfaults⟩ := hcourse.lookUp hrun
      obtain ⟨hgrows', hreported⟩ := hlooked.report (.selfDerivation (TypeDef.complex ct).label)
      have hself : ¬ Grounded c₀ t := fun hgrounded =>
        hgrounded t .refl (.single (hfound.derivesFrom hget hlt))
      exact ⟨keys', hkeys, hgrows.trans hgrows',
        hreported.finish hget (hfaults.trans hgrows'.isInfix) fun hgrounded =>
          absurd hgrounded hself, fun _ => List.mem_cons_self⟩
    · rw [run_lookUp_anyType] at hrun
      cases hrun
  | @derived t b m m' c c' c'' ct uses method hdone ht hnew hrun hne _ ih =>
    rcases hcourse.of_complex hdone ht with hget | ⟨-, rfl⟩
    · have hlt := (Array.getElem?_eq_some_iff.1 hget).1
      obtain ⟨keys', hkeys, hgrows, hlooked, hfound, hfaults⟩ := hcourse.lookUp hrun
      have hnext : b.index < c₀.types.size → DerivesFrom c₀ t b := hfound.derivesFrom hget
      obtain ⟨keys'', hkeys', hgrows', hafter, hmem⟩ := ih hlooked (List.forall_mem_cons.2
        ⟨⟨hlt, fun hb => .single (hnext hb)⟩, fun w hw =>
          ⟨(hwaiting w hw).1, fun hb => ((hwaiting w hw).2 hlt).tail (hnext hb)⟩⟩)
      obtain ⟨huses, base, hderivation, hbase⟩ := hfound
      refine ⟨keys'', hkeys.trans hkeys', hgrows.trans hgrows', hafter.finish hget
        (hfaults.trans hgrows'.isInfix) fun hgrounded => ?_, fun _ => List.mem_cons_self⟩
      obtain ⟨d, hd, hderived⟩ := hafter.exists_base hglobal (hbase.mono hkeys') fun hb =>
        ⟨hgrounded.base (hnext hb), hmem (hgrounded.base (hnext hb))⟩
      obtain ⟨T, hT⟩ := hafter.midway
      rw [hd, hT.frame.version]
      exact .derived hget (huses.mono hkeys') hderivation (hbase.mono hkeys') hderived
    · rw [run_lookUp_anyType] at hrun
      cases hrun

/-- What types come to when they are derived in turn. -/
theorem VisitsInTurn.course {ts : List TypeId} {m m' : Marks} (h : VisitsInTurn ts m c m' c')
    (hglobal : ∀ n u, c₀.globalTypes.find? n = some u → u.index < c₀.types.size)
    (hcourse : Course c₀ c₁ m.done keys c) (hnone : m.waiting = []) :
    ∃ keys', keys <+: keys' ∧ Course c₀ c₁ m'.done keys' c' := by
  induction h generalizing keys with
  | nil => exact ⟨keys, List.prefix_rfl, hcourse⟩
  | cons hvisits _ ih =>
    obtain ⟨keys', hkeys, -, hafter, -⟩ := hvisits.course hglobal hcourse (hnone ▸ nofun)
    obtain ⟨keys'', hkeys', hlast⟩ := ih hafter (hvisits.waiting.trans hnone)
    exact ⟨keys'', hkeys.trans hkeys', hlast⟩

/-- The bases of simple types have been looked up, and then every type has been derived: types whose
way up ends have come to what they come to, and no others matter to that. -/
theorem exists_course (hglobal : ∀ n u, c₀.globalTypes.find? n = some u → u.index < c₀.types.size)
    (h : Midway c₀ c₀.types [] c₀) :
    ∃ done keys, Course c₀ c₀ done keys ((resolveBases >>= fun _ => deriveTypes).run c₀).2 ∧
      ∀ t : TypeId, t.index < c₀.types.size → t ∈ done := by
  obtain ⟨T, hbased, helements, -, hbases⟩ := exists_resolveBases h
  generalize addAllNew [] (c₀.types.toList.flatMap c₀.calledByBase) = K at hbased hbases
  have hstart : Course c₀ c₀ [] K (resolveBases.run c₀).2 := by
    refine ⟨⟨T, hbased⟩, helements, fun t d ht => ?_, nofun⟩
    obtain ⟨d', hd', hd⟩ := hbases t.index d ht
    refine ⟨d', (hbased.getElem?_types (Array.getElem?_eq_some_iff.1 ht).1).trans hd', ?_⟩
    rwa [if_neg List.not_mem_nil]
  have hsize : c₀.types.size ≤ (resolveBases.run c₀).2.types.size := by
    rw [hbased.types, Array.size_append, hbased.size]
    exact Nat.le_add_right _ _
  obtain ⟨done, -, hvisits, hdone⟩ := (resolveBases.run c₀).2.visitsInTurn_deriveTypes
  obtain ⟨keys, -, hcourse⟩ := hvisits.course hglobal hstart rfl
  exact ⟨done, keys, hcourse, fun t ht => hdone t (Nat.lt_of_lt_of_le ht hsize)⟩

end Components
end SchemaAssist
