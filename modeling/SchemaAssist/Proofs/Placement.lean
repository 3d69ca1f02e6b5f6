/-
# Components behind others

Two sets of components are put one behind the other (`Components.append`) by renaming the
identifiers of the second so that they come after those of the first.  A step of reading is placed
(`Building.PlacedAt`) if it keeps components intact, and if it does behind other components what it
does without them, provided that the two declare nothing in common.
-/

import SchemaAssist.Proofs.Renaming

namespace SchemaAssist

open Referring (rename Sound sound_mono)

/-! ### Tables -/

namespace NameTable

variable {α : Type}

/-- The entries of one table before those of another. -/
def append (t u : NameTable α) : NameTable α := ⟨t.entries ++ u.entries⟩

theorem append_empty (t : NameTable α) : t.append {} = t := congrArg mk (List.append_nil t.entries)

theorem find?_append (t u : NameTable α) (n : Name) :
    (t.append u).find? n = (t.find? n).or (u.find? n) := List.lookup_append

theorem has_append (t u : NameTable α) (n : Name) :
    (t.append u).has n = (t.has n || u.has n) := by
  rw [has, find?_append, Option.isSome_or]
  rfl

theorem add_append (t u : NameTable α) (n : Name) (a : α) :
    (t.append u).add n a = t.append (u.add n a) := by
  rw [add, append, List.append_assoc]
  rfl

theorem has_eq_true_iff {t : NameTable α} {n : Name} : t.has n = true ↔ n ∈ t.names := by
  rw [has, find?, List.lookup_isSome_iff, names, List.mem_map]
  constructor
  · rintro ⟨e, he, hn⟩
    exact ⟨e, he, (eq_of_beq hn).symm⟩
  · rintro ⟨e, he, rfl⟩
    exact ⟨e, he, beq_self_eq_true _⟩

theorem has_add {t : NameTable α} {n m : Name} {a : α} :
    (t.add n a).has m = true ↔ t.has m = true ∨ m = n := by
  rw [has_eq_true_iff, has_eq_true_iff, names, names, add, List.map_append, List.mem_append,
    List.map_singleton, List.mem_singleton]

theorem has_put {t : NameTable α} {n m : Name} {a : α} :
    (t.put n a).has m = true ↔ t.has m = true ∨ m = n := by
  rw [put]
  split
  · next hn =>
    have hnames : (t.entries.map fun e => if e.1 = n then (n, a) else e).map (·.1) =
        t.entries.map (·.1) := by
      rw [List.map_map]
      refine List.map_congr_left fun e _ => ?_
      change (if e.1 = n then (n, a) else e).1 = e.1
      split
      · next he => exact he.symm
      · rfl
    rw [has_eq_true_iff, has_eq_true_iff, names, names, hnames]
    refine (or_iff_left_of_imp ?_).symm
    rintro rfl
    exact has_eq_true_iff.1 hn
  · exact has_add

/-- An entry of a name that only the second of two tables may have. -/
theorem put_append {t u : NameTable α} {n : Name} (h : t.has n = false) (a : α) :
    (t.append u).put n a = t.append (u.put n a) := by
  have hentries : (t.entries.map fun e => if e.1 = n then (n, a) else e) = t.entries := by
    have hsame : (t.entries.map fun e => if e.1 = n then (n, a) else e) = t.entries.map id := by
      refine List.map_congr_left fun e he => if_neg ?_
      rintro rfl
      rw [← Bool.not_eq_true, has_eq_true_iff] at h
      exact h (List.mem_map.2 ⟨e, he, rfl⟩)
    rw [hsame, List.map_id]
  rw [put, put, has_append, h, Bool.false_or]
  split
  · rw [append, append, List.map_append, hentries]
  · exact add_append t u n a

variable [Referring α]

theorem find?_rename (ρ : Renaming) (t : NameTable α) (n : Name) :
    (rename ρ t).find? n = (t.find? n).map (rename ρ) := by
  obtain ⟨es⟩ := t
  change (es.map fun e => (e.1, rename ρ e.2)).lookup n = (es.lookup n).map (rename ρ)
  induction es with
  | nil => rfl
  | cons e es ih =>
    rw [List.map_cons, List.lookup_cons, List.lookup_cons, ih]
    cases n == e.1 <;> rfl

theorem has_rename (ρ : Renaming) (t : NameTable α) (n : Name) :
    (rename ρ t).has n = t.has n := by
  rw [has, find?_rename, Option.isSome_map]
  rfl

theorem rename_add (ρ : Renaming) (t : NameTable α) (n : Name) (a : α) :
    rename ρ (t.add n a) = (rename ρ t).add n (rename ρ a) :=
  congrArg mk List.map_append

theorem rename_put (ρ : Renaming) (t : NameTable α) (n : Name) (a : α) :
    rename ρ (t.put n a) = (rename ρ t).put n (rename ρ a) := by
  rw [put, put, has_rename]
  split
  · refine congrArg mk ?_
    change (t.entries.map _).map _ = (t.entries.map _).map _
    rw [List.map_map, List.map_map]
    refine List.map_congr_left fun e _ => ?_
    change rename ρ (if e.1 = n then (n, a) else e) =
      if e.1 = n then (n, rename ρ a) else rename ρ e
    split <;> rfl
  · exact rename_add ρ t n a

theorem names_perm {ρ : Renaming} {t t' : NameTable α}
    (h : t'.entries.Perm (rename ρ t.entries)) : t'.names.Perm t.names := by
  refine (h.map Prod.fst).trans (.of_eq ?_)
  change (t.entries.map _).map _ = _
  rw [List.map_map]
  rfl

theorem sound_find? {e : Extent} {t : NameTable α} {n : Name} {a : α} (ht : Sound e t)
    (ha : t.find? n = some a) : Sound e a := (ht (n, a) (mem_of_find? ha)).2

theorem sound_add {e : Extent} {t : NameTable α} {n : Name} {a : α} (ht : Sound e t)
    (ha : Sound e a) : Sound e (t.add n a) := by
  intro p hp
  rcases List.mem_append.1 hp with hp | hp
  · exact ht p hp
  · rw [List.mem_singleton.1 hp]
    exact ⟨trivial, ha⟩

theorem sound_put {e : Extent} {t : NameTable α} {n : Name} {a : α} (ht : Sound e t)
    (ha : Sound e a) : Sound e (t.put n a) := by
  rw [put]
  split
  · intro p hp
    obtain ⟨q, hq, rfl⟩ := List.mem_map.1 hp
    split
    · exact ⟨trivial, ha⟩
    · exact ht q hq
  · exact sound_add ht ha

end NameTable

/-! ### Components -/

/-- The version that applies if either of two does. -/
def Version.later : Version → Version → Version
  | .v10, v => v
  | .v11, _ => .v11

/-- The kinds of components that are declared by name at the top of documents. -/
inductive ComponentKind where
  | element
  | type
  | group
  | attributeGroup
  | «attribute»
  deriving DecidableEq, Repr

namespace Components

variable {c c' c'' base : Components}

/-- Whether a component of the kind and the name is declared. -/
def declares (c : Components) : ComponentKind → Name → Bool
  | .element, n => c.globalElements.has n
  | .type, n => c.globalTypes.has n
  | .group, n => c.groups.has n
  | .attributeGroup, n => c.attributeGroups.has n
  | .attribute, n => c.globalAttributes.has n

/-- Two sets of components declare nothing in common. -/
def Unrelated (c c' : Components) : Prop :=
  ∀ k n, c.declares k n = true → c'.declares k n = true → False

/-- What there is to refer to. -/
def extent (c : Components) : Extent := ⟨c.elements.size, c.types.size, c.locations.size⟩

/-- Everything that components refer to is there as far as the extent says, and all bounds are in
order. -/
structure SoundIn (e : Extent) (c : Components) : Prop where
  elements : Sound e c.elements
  types : Sound e c.types
  globalElements : Sound e c.globalElements
  globalTypes : Sound e c.globalTypes
  groups : Sound e c.groups
  attributeGroups : Sound e c.attributeGroups
  globalAttributes : Sound e c.globalAttributes
  builtins : Sound e c.builtins

theorem SoundIn.mono {e e' : Extent} (h : e ≤ e') (hc : c.SoundIn e) : c.SoundIn e' where
  elements := sound_mono h hc.elements
  types := sound_mono h hc.types
  globalElements := sound_mono h hc.globalElements
  globalTypes := sound_mono h hc.globalTypes
  groups := sound_mono h hc.groups
  attributeGroups := sound_mono h hc.attributeGroups
  globalAttributes := sound_mono h hc.globalAttributes
  builtins := sound_mono h hc.builtins

/-- Everything that components refer to is there, and all bounds are in order. -/
def Intact (c : Components) : Prop := c.SoundIn c.extent

/-- The new identifiers of components that come after others. -/
def offset (base : Components) : Renaming := .shift base.extent

/-- Some components, and others behind them. -/
def append (base c : Components) : Components where
  version := base.version.later c.version
  limits := base.limits
  target? := if base.locations.size = 0 then c.target? else base.target?
  locations := base.locations ++ c.locations
  elements := base.elements ++ rename base.offset c.elements
  types := base.types ++ rename base.offset c.types
  globalElements := base.globalElements.append (rename base.offset c.globalElements)
  globalTypes := base.globalTypes.append (rename base.offset c.globalTypes)
  groups := base.groups.append (rename base.offset c.groups)
  attributeGroups := base.attributeGroups.append (rename base.offset c.attributeGroups)
  globalAttributes := base.globalAttributes.append (rename base.offset c.globalAttributes)
  builtins := base.builtins ++ rename base.offset c.builtins
  problems := base.problems ++ c.problems

/-- What reading only adds to. -/
structure Grows (c c' : Components) : Prop where
  extent : c.extent ≤ c'.extent
  declares : ∀ k n, c.declares k n = true → c'.declares k n = true
  limits : c'.limits = c.limits
  builtins : c'.builtins = c.builtins

namespace Grows

theorem refl (c : Components) : Grows c c := ⟨Extent.le_refl _, fun _ _ h => h, rfl, rfl⟩

theorem trans (h : Grows c c') (h' : Grows c' c'') : Grows c c'' where
  extent := Extent.le_trans h.extent h'.extent
  declares k n hn := h'.declares k n (h.declares k n hn)
  limits := h'.limits.trans h.limits
  builtins := h'.builtins.trans h.builtins

theorem apart (h : Grows c c') (hapart : Unrelated base c') : Unrelated base c :=
  fun k n hbase hc => hapart k n hbase (h.declares k n hc)

end Grows
end Components

open Components (Unrelated Grows)

/-! ### Steps of construction -/

namespace Building

variable {α β : Type} [Referring α] [Referring β] {base : Components}

/-- **A step that does the same behind other components.**  It keeps components intact and adds to
them; and its counterpart does to the components behind others what the step does without them, if
the two declare nothing in common. -/
structure PlacedAt (base : Components) (x x' : Building α) (c : Components) : Prop where
  intact : (x.run c).2.Intact
  grows : Grows c (x.run c).2
  sound : Sound (x.run c).2.extent (x.run c).1
  placed : Unrelated base (x.run c).2 → x'.run (base.append c) =
    (rename base.offset (x.run c).1, base.append (x.run c).2)

namespace PlacedAt

variable {c : Components}

theorem pure (hc : c.Intact) {a : α} (ha : Sound c.extent a) :
    PlacedAt base (pure a) (pure (rename base.offset a)) c :=
  ⟨hc, .refl c, ha, fun _ => rfl⟩

theorem bind {x x' : Building α} {f f' : α → Building β} (hx : PlacedAt base x x' c)
    (hf : PlacedAt base (f (x.run c).1) (f' (rename base.offset (x.run c).1)) (x.run c).2) :
    PlacedAt base (x >>= f) (x' >>= f') c where
  intact := hf.intact
  grows := hx.grows.trans hf.grows
  sound := hf.sound
  placed hapart := by
    have hrun : (x' >>= f').run (base.append c) =
      (f' (x'.run (base.append c)).1).run (x'.run (base.append c)).2 := rfl
    rw [hrun, hx.placed (hf.grows.apart hapart)]
    exact hf.placed hapart

/-- A step that changes the components by themselves. -/
theorem modify {f f' : Components → Components} (hintact : (f c).Intact) (hgrows : Grows c (f c))
    (hplaced : Unrelated base (f c) → f' (base.append c) = base.append (f c)) :
    PlacedAt base (modify f) (modify f') c :=
  ⟨hintact, hgrows, trivial, fun hapart => Prod.ext rfl (hplaced hapart)⟩

end PlacedAt
end Building

namespace Components

open Building (PlacedAt)

variable {c base : Components} {n : Name}

theorem placedAt_record (hc : c.Intact) (p : Problem) :
    PlacedAt base (record p) (record p) c :=
  .modify { hc with } { Grows.refl c with } fun _ => by
    rw [append, append, Array.append_push]

theorem placedAt_report (hc : c.Intact) (f : Fault) :
    PlacedAt base (report f) (report f) c := placedAt_record hc f.problem

theorem placedAt_requireLater (hc : c.Intact) : PlacedAt base requireLater requireLater c :=
  .modify { hc with } { Grows.refl c with } fun _ => by
    have hlater : base.version.later .v11 = .v11 := by cases base.version <;> rfl
    rw [append, append, hlater]

theorem placedAt_addElement (hc : c.Intact) {e : ElementDecl} (he : Sound c.extent e) :
    PlacedAt base (addElement e) (addElement (rename base.offset e)) c := by
  let c' : Components := { c with elements := c.elements.push e }
  have hextent : c.extent ≤ c'.extent :=
    ⟨by simp [extent, c'], Nat.le_refl _, Nat.le_refl _⟩
  refine ⟨{ SoundIn.mono hextent hc with elements := ?_ }, { Grows.refl c with extent := hextent },
    ?_, fun _ => ?_⟩
  · intro e' he'
    rcases Array.mem_push.1 he' with he' | rfl
    · exact sound_mono hextent (hc.elements e' he')
    · exact sound_mono hextent he
  · change c.elements.size < (c.elements.push e).size
    simp
  · refine Prod.ext ?_ ?_
    · change (⟨(base.elements ++ _).size⟩ : ElementId) = ⟨base.elements.size + c.elements.size⟩
      rw [Array.size_append]
      simp [rename]
    · change ({ base.append c with elements := (base.elements ++ _).push _ } : Components) =
        base.append c'
      rw [append, append, ← Array.append_push]
      simp [rename, c']

theorem placedAt_addType (hc : c.Intact) {t : TypeDef} (ht : Sound c.extent t) :
    PlacedAt base (addType t) (addType (rename base.offset t)) c := by
  let c' : Components := { c with types := c.types.push t }
  have hextent : c.extent ≤ c'.extent :=
    ⟨Nat.le_refl _, by simp [extent, c'], Nat.le_refl _⟩
  refine ⟨{ SoundIn.mono hextent hc with types := ?_ }, { Grows.refl c with extent := hextent },
    ?_, fun _ => ?_⟩
  · intro t' ht'
    rcases Array.mem_push.1 ht' with ht' | rfl
    · exact sound_mono hextent (hc.types t' ht')
    · exact sound_mono hextent ht
  · change c.types.size < (c.types.push t).size
    simp
  · refine Prod.ext ?_ ?_
    · change (⟨(base.types ++ _).size⟩ : TypeId) = ⟨base.types.size + c.types.size⟩
      rw [Array.size_append]
      simp [rename]
    · change ({ base.append c with types := (base.types ++ _).push _ } : Components) =
        base.append c'
      rw [append, append, ← Array.append_push]
      simp [rename, c']

theorem declares_append (base c : Components) (k : ComponentKind) (n : Name) :
    (base.append c).declares k n = (base.declares k n || c.declares k n) := by
  cases k <;> exact (NameTable.has_append _ _ n).trans (congrArg _ (NameTable.has_rename _ _ n))

/-- A component that is entered unless there is one of its kind and name is entered behind other
components as well, if they declare none. -/
theorem placedAt_enter {k : ComponentKind} {f : Fault} {step step' : Building PUnit}
    {add add' : Components → Components}
    (hstep : ∀ c, step.run c = if c.declares k n then (report f).run c else ((), add c))
    (hstep' : ∀ c, step'.run c = if c.declares k n then (report f).run c else ((), add' c))
    (hc : c.Intact) (hintact : (add c).Intact) (hgrows : Grows c (add c))
    (hadds : (add c).declares k n = true) (hplaced : add' (base.append c) = base.append (add c)) :
    PlacedAt base step step' c := by
  have hbase {c' : Components} (hc' : c'.declares k n = true) (hapart : Unrelated base c') :
      base.declares k n = false := by
    rw [← Bool.not_eq_true]
    exact fun hb => hapart k n hb hc'
  cases hn : c.declares k n with
  | true =>
    have hrun := hstep c
    rw [hn, if_pos rfl] at hrun
    have hplacedAt : PlacedAt base (report f) (report f) c := placedAt_report hc f
    obtain ⟨hreported, hmore, -, hreport⟩ := hplacedAt
    rw [← hrun] at hreported hmore hreport
    refine ⟨hreported, hmore, trivial, fun hapart => ?_⟩
    rw [hstep', declares_append, hbase hn (hmore.apart hapart), hn]
    exact hreport hapart
  | false =>
    have hrun := hstep c
    rw [hn, if_neg nofun] at hrun
    refine ⟨by rwa [hrun], by rwa [hrun], trivial, fun hapart => ?_⟩
    rw [hrun] at hapart ⊢
    rw [hstep', declares_append, hbase hadds hapart, hn, ← hplaced]
    rfl

/-- Entering a global element: a second one of the name is reported. -/
theorem run_enterElement (n : Name) (d : ElementId) (c : Components) :
    (enterElement n d).run c =
      if c.globalElements.has n then (report (.duplicateElement n)).run c
      else ((), { c with globalElements := c.globalElements.add n d }) := by
  rw [enterElement]
  cases hn : c.globalElements.has n <;> simp [hn]
  rfl

/-- Entering a global type: a second one of the name is reported. -/
theorem run_enterType (n : Name) (t : TypeId) (c : Components) :
    (enterType n t).run c =
      if c.globalTypes.has n then (report (.duplicateType n)).run c
      else ((), { c with globalTypes := c.globalTypes.add n t }) := by
  rw [enterType]
  cases hn : c.globalTypes.has n <;> simp [hn]
  rfl

theorem placedAt_enterElement (hc : c.Intact) {d : ElementId} (hd : Sound c.extent d) :
    PlacedAt base (enterElement n d) (enterElement n (rename base.offset d)) c := by
  refine placedAt_enter (k := .element) (run_enterElement n d)
    (run_enterElement n (rename base.offset d)) hc
    { hc with globalElements := NameTable.sound_add hc.globalElements hd }
    { Grows.refl c with declares := fun k m hm => ?_ } (NameTable.has_add.2 (Or.inr rfl)) ?_
  · cases k with
    | element => exact NameTable.has_add.2 (Or.inl hm)
    | _ => exact hm
  · rw [append, append, NameTable.add_append, NameTable.rename_add]

theorem placedAt_enterType (hc : c.Intact) {t : TypeId} (ht : Sound c.extent t) :
    PlacedAt base (enterType n t) (enterType n (rename base.offset t)) c := by
  refine placedAt_enter (k := .type) (run_enterType n t)
    (run_enterType n (rename base.offset t)) hc
    { hc with globalTypes := NameTable.sound_add hc.globalTypes ht }
    { Grows.refl c with declares := fun k m hm => ?_ } (NameTable.has_add.2 (Or.inr rfl)) ?_
  · cases k with
    | type => exact NameTable.has_add.2 (Or.inl hm)
    | _ => exact hm
  · rw [append, append, NameTable.add_append, NameTable.rename_add]

theorem placedAt_enterGroup (hc : c.Intact) {g : ModelGroup} (hg : Sound c.extent g) :
    PlacedAt base (enterGroup n g) (enterGroup n (rename base.offset g)) c := by
  refine .modify { hc with groups := NameTable.sound_put hc.groups hg }
    { Grows.refl c with declares := fun k m hm => ?_ } fun hapart => ?_
  · cases k with
    | group => exact NameTable.has_put.2 (Or.inl hm)
    | _ => exact hm
  · have hbase : base.groups.has n = false := by
      rw [← Bool.not_eq_true]
      exact fun hb => hapart .group n hb (NameTable.has_put.2 (Or.inr rfl))
    rw [append, append, NameTable.put_append hbase, NameTable.rename_put]

theorem placedAt_enterAttributeGroup (hc : c.Intact) {g : AttributeGroup}
    (hg : Sound c.extent g) : PlacedAt base (enterAttributeGroup n g)
      (enterAttributeGroup n (rename base.offset g)) c := by
  refine .modify { hc with attributeGroups := NameTable.sound_put hc.attributeGroups hg }
    { Grows.refl c with declares := fun k m hm => ?_ } fun hapart => ?_
  · cases k with
    | attributeGroup => exact NameTable.has_put.2 (Or.inl hm)
    | _ => exact hm
  · have hbase : base.attributeGroups.has n = false := by
      rw [← Bool.not_eq_true]
      exact fun hb => hapart .attributeGroup n hb (NameTable.has_put.2 (Or.inr rfl))
    rw [append, append, NameTable.put_append hbase, NameTable.rename_put]

theorem placedAt_enterAttribute (hc : c.Intact) {a : AttributeUse} (ha : Sound c.extent a) :
    PlacedAt base (enterAttribute a) (enterAttribute (rename base.offset a)) c := by
  refine .modify { hc with globalAttributes := NameTable.sound_put hc.globalAttributes ha }
    { Grows.refl c with declares := fun k m hm => ?_ } fun hapart => ?_
  · cases k with
    | «attribute» => exact NameTable.has_put.2 (Or.inl hm)
    | _ => exact hm
  · have hbase : base.globalAttributes.has a.name = false := by
      rw [← Bool.not_eq_true]
      exact fun hb => hapart .attribute a.name hb (NameTable.has_put.2 (Or.inr rfl))
    rw [append, append, show (rename base.offset a).name = a.name from rfl,
      NameTable.put_append hbase, NameTable.rename_put]

end Components
end SchemaAssist
