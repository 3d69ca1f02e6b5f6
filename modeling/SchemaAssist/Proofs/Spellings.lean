/-
# Spellings of a path

Two relative paths lead to the same file if they come to the same names once dots are passed over
and two dots take back the name before them (`Path.settled`, `Files.settled_of_locate`).  A load
compares paths by their steps, of which two dots are some, so that one file may be read under several
spellings.  It is read once as long as the paths that are listed have the same steps whenever they
come to the same names, and in particular if they have no dots (`Grammar.listsOnce_iff`).
-/

import SchemaAssist.Proofs.Loads
import SchemaAssist.Proofs.Writing

namespace SchemaAssist

/-! ### Where a path leads -/

namespace Path

/-- The names, the last first, that some steps come to from a directory below the working directory;
outside of that there are none. -/
def walk : (ns : List String) → List String → Option (List String)
  | ns, [] => some ns
  | ns, name :: names =>
    if isIdle name then walk ns names
    else if name = ".." then
      match ns with
      | [] => none
      | _ :: ns => walk ns names
    else walk (name :: ns) names

/-- The names, the last first, that a path comes to. -/
def settled (s : Steps) : Option (List String) := if s.absolute then none else walk [] s.names

theorem walk_cons_of_isIdle {name : String} (h : isIdle name = true) (ns names : List String) :
    walk ns (name :: names) = walk ns names := by
  rw [walk.eq_def]
  exact if_pos h

theorem walk_filter (ns names : List String) :
    walk ns (names.filter (!isIdle ·)) = walk ns names := by
  induction names generalizing ns with
  | nil => rfl
  | cons name names ih =>
    rw [List.filter_cons]
    cases hidle : isIdle name with
    | true => exact (ih ns).trans (walk_cons_of_isIdle hidle ns names).symm
    | false =>
      rw [Bool.not_false, if_pos rfl, walk.eq_def ns (name :: names), walk.eq_def]
      simp only [ih]

/-- Names that are no dots come to themselves. -/
theorem walk_of_plain {ns names : List String}
    (h : ∀ name ∈ names, isIdle name = false ∧ name ≠ "..") :
    walk ns names = some (names.reverse ++ ns) := by
  induction names generalizing ns with
  | nil => rfl
  | cons name names ih =>
    rw [List.forall_mem_cons] at h
    obtain ⟨⟨hidle, hup⟩, hrest⟩ := h
    rw [walk.eq_def]
    simp only [hidle, Bool.false_eq_true, if_false, if_neg hup, ih hrest, List.reverse_cons,
      List.append_assoc, List.singleton_append]

theorem ne_empty_of_mem_steps {path name : String} (h : name ∈ (steps path).names) : name ≠ "" := by
  rintro rfl
  rw [steps] at h
  rcases List.mem_append.1 h with h | h
  · split at h <;> simp at h
  · exact absurd (List.mem_filter.1 h).2 (by decide)

/-- A relative path without dots comes to its steps. -/
theorem settled_of_plain {path : String} {ns : List String}
    (h : ∀ name ∈ (steps path).names, name ≠ "." ∧ name ≠ "..")
    (hsettled : settled (steps path) = some ns) : steps path = ⟨false, ns.reverse⟩ := by
  have hidle : ∀ name ∈ (steps path).names, isIdle name = false ∧ name ≠ ".." := fun name hname =>
    ⟨by simp [isIdle, ne_empty_of_mem_steps hname, (h name hname).1], (h name hname).2⟩
  rw [settled] at hsettled
  split at hsettled
  · cases hsettled
  · next habsolute =>
    rw [walk_of_plain hidle, List.append_nil] at hsettled
    rw [← Option.some.inj hsettled, List.reverse_reverse, ← Bool.eq_false_iff.2 habsolute]

/-- What a relative path comes to shows in its pieces. -/
theorem settled_steps {path : String} (h : isAbsolute path = false) :
    settled (steps path) = walk [] (Text.pieces '/' path) := by
  rw [isAbsolute, decide_eq_false_iff_not] at h
  rw [settled, steps, parts, Text.pieces]
  split
  · next hcs => exact absurd (congrArg List.head? hcs) h
  · next hcs =>
    rw [hcs]
    rfl
  · next cs hcs =>
    have hpieces : Text.piecesList '/' ('.' :: '/' :: cs) = ['.'] :: Text.piecesList '/' cs := by
      simp [Text.piecesList]
    rw [hcs, hpieces]
    have hidle : isIdle "." = true := by decide
    calc walk [] ("." :: ("" :: (Text.piecesList '/' cs).map String.ofList).filter (!isIdle ·))
        = walk [] (("" :: (Text.piecesList '/' cs).map String.ofList).filter (!isIdle ·)) :=
          walk_cons_of_isIdle hidle [] _
      _ = walk [] ("" :: (Text.piecesList '/' cs).map String.ofList) := walk_filter [] _
      _ = walk [] ((Text.piecesList '/' cs).map String.ofList) :=
          walk_cons_of_isIdle (by decide) [] _
      _ = walk [] ("." :: (Text.piecesList '/' cs).map String.ofList) :=
          (walk_cons_of_isIdle hidle [] _).symm
  · exact walk_filter [] _

end Path

namespace Files

variable {fs : Files} {names : List String} {q : Place}

theorem follow_outside (h : fs.follow .outside names = .ok q) : q = .outside := by
  induction names with
  | nil => exact (Except.ok.inj h).symm
  | cons name names ih =>
    rw [follow] at h
    simp only [entry] at h
    split at h
    · cases h
    · split at h
      · next p hstep =>
        obtain rfl : p = .outside := by
          unfold step at hstep
          split at hstep
          · exact (Option.some.inj hstep).symm
          · split at hstep
            · exact (Option.some.inj hstep).symm
            · cases hstep
        exact ih h
      · cases h

/-- Steps lead where they come to, if they lead anywhere inside. -/
theorem walk_of_follow {ns ms : List String}
    (h : fs.follow (.inside ns) names = .ok (.inside ms)) : Path.walk ns names = some ms := by
  induction names generalizing ns with
  | nil =>
    cases h
    rfl
  | cons name names ih =>
    rw [follow] at h
    split at h
    · split at h
      · cases h
      · split at h
        · next p hstep =>
          rw [step.eq_def] at hstep
          rw [Path.walk.eq_def]
          split at hstep
          · next hidle =>
            cases hstep
            exact (if_pos hidle).trans (ih h)
          · next hidle =>
            refine (if_neg hidle).trans ?_
            split at hstep
            · next hup =>
              rw [if_pos hup]
              cases ns with
              | nil =>
                cases hstep
                cases follow_outside h
              | cons n ns =>
                cases hstep
                exact ih h
            · next hup =>
              rw [if_neg hup]
              dsimp only at hstep
              split at hstep <;> cases hstep
              exact ih h
        · cases h
    · cases h

/-- A path leads to the place that it comes to. -/
theorem settled_of_locate {path : String} {ms : List String}
    (h : fs.locate path = .ok (.inside ms)) : Path.settled (Path.steps path) = some ms := by
  rw [locate] at h
  split at h
  · cases h
  · split at h
    · cases h
    · split at h
      · cases h
      · cases habsolute : Path.isAbsolute path with
        | true =>
          rw [habsolute, if_pos rfl] at h
          cases follow_outside h
        | false =>
          rw [habsolute, if_neg Bool.false_ne_true] at h
          rw [Path.settled_steps habsolute, walk_of_follow h]

end Files

/-! ### How often a file is read -/

namespace Grammar

open Loading

variable {fs : Files} {limits : Limits} {version : Version} {locations : List Location} {g : Grammar}

/-- Each file is among the documents of a grammar at most once. -/
def ListsOnce (fs : Files) (g : Grammar) : Prop :=
  ∀ place, g.locations.toList.countP (·.leadsTo fs place) ≤ 1

/-- No two documents of a grammar have the same key. -/
theorem nodup_key_of_load (hload : Grammar.load fs.reader limits version locations = .ok g) :
    (g.locations.toList.map Location.key).Nodup := by
  obtain ⟨hlocations, -⟩ := holds_of_load hload
  obtain ⟨-, hnodup⟩ := survey_nodup fs.reader limits (limits.schemaDepth + 1) [] (requests locations)
  rw [hlocations, List.map_map]
  exact hnodup.sublist (List.filter_sublist.map _)

/-- A document of a grammar that is found at a path is a file at the place that the path comes to. -/
theorem exists_settled_of_load (hload : Grammar.load fs.reader limits version locations = .ok g)
    {p : String} (hp : .path p ∈ g.locations) :
    ∃ place, Path.settled (Path.steps p) = some place ∧ place ∈ fs.files.map Prod.fst ∧
      ∀ place', (Location.path p).leadsTo fs place' = true ↔ place' = place := by
  obtain ⟨hlocations, -⟩ := holds_of_load hload
  rw [hlocations, List.mem_toArray] at hp
  obtain ⟨v, hv, hpath⟩ := List.mem_map.1 hp
  obtain ⟨hv, hkept⟩ := List.mem_filter.1 hv
  obtain ⟨text, htext⟩ := Visit.exists_text_of_isKept hkept
  have hload : v.location.load fs.reader limits = .ok text :=
    (congrArg Visit.text (exists_referrer hv).1).trans htext
  rw [hpath] at hload
  obtain ⟨hsource | ⟨p', hsource, hread⟩, -⟩ := Location.load_eq_ok_iff.1 hload
  · cases hsource
  · cases hsource
    obtain ⟨q, hlocate, hentry⟩ := Files.read_eq_ok_iff.1 hread
    cases q with
    | outside => cases hentry
    | inside place =>
      refine ⟨place, Files.settled_of_locate hlocate, ?_, fun place' => ?_⟩
      · rw [Files.entry] at hentry
        split at hentry
        · next c hlookup =>
          obtain ⟨before, after, hfiles, -⟩ := List.lookup_eq_some_iff.1 hlookup
          rw [hfiles]
          simp
        · split at hentry <;> cases hentry
      · rw [Location.leadsTo, Location.source]
        simp only [hlocate, decide_eq_true_eq, Place.inside.injEq]
        exact eq_comm

/-- The names that the path of a location comes to. -/
def placeOf : Location → List String
  | .path p => (Path.settled (Path.steps p)).getD []
  | _ => []

/-- Of some locations of which at most one leads to a file, any two that do are the same. -/
theorem eq_of_countP_le_one {place : List String} {ls : List Location} {l l' : Location}
    (h : ls.countP (·.leadsTo fs place) ≤ 1) (hl : l ∈ ls) (hl' : l' ∈ ls)
    (hleads : l.leadsTo fs place = true) (hleads' : l'.leadsTo fs place = true) : l = l' := by
  have hmem : l ∈ ls.filter (·.leadsTo fs place) := List.mem_filter.2 ⟨hl, hleads⟩
  have hmem' : l' ∈ ls.filter (·.leadsTo fs place) := List.mem_filter.2 ⟨hl', hleads'⟩
  rw [List.countP_eq_length_filter] at h
  match hfilter : ls.filter (·.leadsTo fs place) with
  | [] =>
    rw [hfilter] at hmem
    cases hmem
  | [_] =>
    rw [hfilter] at hmem hmem'
    rw [List.mem_singleton.1 hmem, List.mem_singleton.1 hmem']
  | _ :: _ :: _ =>
    rw [hfilter] at h
    simp at h

/-- Of some locations without two of one key, at most one leads to a file if all that do have one
key. -/
theorem countP_le_one_of_key {place : List String} {ls : List Location}
    (hnodup : (ls.map Location.key).Nodup)
    (h : ∀ l ∈ ls, ∀ l' ∈ ls, l.leadsTo fs place = true → l'.leadsTo fs place = true →
      l.key = l'.key) : ls.countP (·.leadsTo fs place) ≤ 1 := by
  rw [List.countP_eq_length_filter]
  have hsub : ((ls.filter (·.leadsTo fs place)).map Location.key).Nodup :=
    hnodup.sublist (List.filter_sublist.map _)
  have hmem : ∀ l ∈ ls.filter (·.leadsTo fs place), l ∈ ls ∧ l.leadsTo fs place = true :=
    fun l hl => List.mem_filter.1 hl
  match hfilter : ls.filter (·.leadsTo fs place) with
  | [] => rw [hfilter]; exact Nat.zero_le _
  | [_] => rw [hfilter]; exact Nat.le_refl _
  | l :: l' :: rest =>
    rw [hfilter] at hsub hmem
    obtain ⟨hl, hleads⟩ := hmem l (by simp)
    obtain ⟨hl', hleads'⟩ := hmem l' (by simp)
    have hkey := h l hl l' hl' hleads hleads'
    simp [hkey] at hsub

/-- If each file is listed once, paths that come to the same names have the same steps. -/
theorem ListsOnce.steps_eq (honce : g.ListsOnce fs)
    (hload : Grammar.load fs.reader limits version locations = .ok g) {p q : String}
    (hp : .path p ∈ g.locations) (hq : .path q ∈ g.locations)
    (hsettled : Path.settled (Path.steps p) = Path.settled (Path.steps q)) :
    Path.steps p = Path.steps q := by
  obtain ⟨place, hplace, -, hleads⟩ := exists_settled_of_load hload hp
  obtain ⟨place', hplace', -, hleads'⟩ := exists_settled_of_load hload hq
  obtain rfl : place = place' := by
    rw [hplace, hplace'] at hsettled
    exact Option.some.inj hsettled
  have hsame := eq_of_countP_le_one (honce place) (Array.mem_toList_iff.2 hp)
    (Array.mem_toList_iff.2 hq) ((hleads place).2 rfl) ((hleads' place).2 rfl)
  rw [Location.path.inj hsame]

/-- If paths that come to the same names have the same steps, each file is listed once. -/
theorem listsOnce_of_steps (hload : Grammar.load fs.reader limits version locations = .ok g)
    (hpaths : ∀ l ∈ g.locations, ∃ p, l = .path p)
    (hsteps : ∀ p q, .path p ∈ g.locations → .path q ∈ g.locations →
      Path.settled (Path.steps p) = Path.settled (Path.steps q) → Path.steps p = Path.steps q) :
    g.ListsOnce fs := by
  intro place
  refine countP_le_one_of_key (nodup_key_of_load hload) fun l hl l' hl' hleads hleads' => ?_
  rw [Array.mem_toList_iff] at hl hl'
  obtain ⟨p, rfl⟩ := hpaths l hl
  obtain ⟨q, rfl⟩ := hpaths l' hl'
  obtain ⟨place₁, hplace₁, -, hleads₁⟩ := exists_settled_of_load hload hl
  obtain ⟨place₂, hplace₂, -, hleads₂⟩ := exists_settled_of_load hload hl'
  rw [← (hleads₁ place).1 hleads] at hplace₁
  rw [← (hleads₂ place).1 hleads'] at hplace₂
  exact congrArg Location.Key.path (hsteps p q hl hl' (hplace₁.trans hplace₂.symm))

/-- If each file is listed once, no more documents are listed than there are files. -/
theorem ListsOnce.size_le (honce : g.ListsOnce fs)
    (hload : Grammar.load fs.reader limits version locations = .ok g)
    (hpaths : ∀ l ∈ g.locations, ∃ p, l = .path p) : g.locations.size ≤ fs.files.length := by
  have hsettled : ∀ l ∈ g.locations.toList, ∃ p place, l = .path p ∧
      Path.settled (Path.steps p) = some place ∧ place ∈ fs.files.map Prod.fst := by
    intro l hl
    rw [Array.mem_toList_iff] at hl
    obtain ⟨p, rfl⟩ := hpaths l hl
    obtain ⟨place, hplace, hfile, -⟩ := exists_settled_of_load hload hl
    exact ⟨p, place, rfl, hplace, hfile⟩
  have hkeys := nodup_key_of_load hload
  have hnodup : (g.locations.toList.map placeOf).Nodup := by
    refine List.Nodup.map_on (fun l hl l' hl' hsame => ?_) (List.Nodup.of_map _ hkeys)
    obtain ⟨p, place, rfl, hplace, -⟩ := hsettled l hl
    obtain ⟨q, place', rfl, hplace', -⟩ := hsettled l' hl'
    rw [placeOf, placeOf, hplace, hplace', Option.getD_some, Option.getD_some] at hsame
    have hsteps := honce.steps_eq hload (Array.mem_toList_iff.1 hl) (Array.mem_toList_iff.1 hl')
      (by rw [hplace, hplace', hsame])
    exact List.inj_on_of_nodup_map hkeys hl hl' (congrArg Location.Key.path hsteps)
  have hsub : g.locations.toList.map placeOf ⊆ fs.files.map Prod.fst := by
    intro names hnames
    obtain ⟨l, hl, rfl⟩ := List.mem_map.1 hnames
    obtain ⟨p, place, rfl, hplace, hfile⟩ := hsettled l hl
    rwa [placeOf, hplace, Option.getD_some]
  have hlength := (hnodup.subperm hsub).length_le
  simpa using hlength

/-- **When each file is read once.**  Of a grammar whose documents are found at paths, each file is
among the documents at most once exactly if paths that come to the same names have the same steps; it
has no more documents than there are files then.  So it is if none of the paths has a step of one or
two dots. -/
theorem listsOnce_iff (hload : Grammar.load fs.reader limits version locations = .ok g)
    (hpaths : ∀ l ∈ g.locations, ∃ p, l = .path p) :
    (g.ListsOnce fs ↔ ∀ p q, .path p ∈ g.locations → .path q ∈ g.locations →
        Path.settled (Path.steps p) = Path.settled (Path.steps q) → Path.steps p = Path.steps q) ∧
      (g.ListsOnce fs → g.locations.size ≤ fs.files.length) ∧
      ((∀ p, .path p ∈ g.locations → ∀ name ∈ (Path.steps p).names, name ≠ "." ∧ name ≠ "..") →
        g.ListsOnce fs) := by
  refine ⟨⟨fun honce p q => honce.steps_eq hload, listsOnce_of_steps hload hpaths⟩,
    fun honce => honce.size_le hload hpaths,
    fun hplain => listsOnce_of_steps hload hpaths fun p q hp hq hsettled => ?_⟩
  obtain ⟨place, hplace, -⟩ := exists_settled_of_load hload hp
  rw [Path.settled_of_plain (hplain p hp) hplace,
    Path.settled_of_plain (hplain q hq) (hsettled ▸ hplace)]

/-! ### Two ways to one file -/

/-- A schema that includes others. -/
def includingAll (references : List String) : FileContent :=
  .text ("<schema xmlns='http://www.w3.org/2001/XMLSchema'>" ++
    String.join (references.map fun r => "<include schemaLocation='" ++ r ++ "'/>") ++ "</schema>")

/-- A document that includes one beside it and one further down, which includes the former, too. -/
def sharedPart : Files :=
  ((({} : Files).write "main.xsd" (includingAll ["part.xsd", "sub/side.xsd"])).write "part.xsd"
    (.text "<schema xmlns='http://www.w3.org/2001/XMLSchema'><element name='part'/></schema>")).write
    "sub/side.xsd" (includingAll ["../part.xsd"])

/-- The path of a location that is one. -/
def pathOf? : Location → Option String
  | .path p => some p
  | _ => none

theorem eq_of_map_pathOf? {ls : List Location} {ps : List String}
    (h : ls.map pathOf? = ps.map some) : ls = ps.map .path := by
  induction ls generalizing ps with
  | nil =>
    obtain rfl := List.map_eq_nil_iff.1 h.symm
    rfl
  | cons l ls ih =>
    obtain ⟨p, ps, rfl, hp, hps⟩ := List.map_eq_cons_iff.1 h.symm
    rw [ih hps.symm, List.map_cons]
    cases l <;> cases hp
    rfl

/-- The paths of the documents of a grammar, and whether it reports an element declared twice. -/
def overview : Except LoadError Grammar → Option (List (Option String) × Bool)
  | .error _ => none
  | .ok g => some (g.locations.toList.map pathOf?,
      g.problems.any fun p => p.fault matches .duplicateElement _)

/-- The paths that these files are read under. -/
def sharedPaths : List String := ["main.xsd", "part.xsd", "sub/side.xsd", "sub/../part.xsd"]

theorem overview_sharedPart :
    overview (Grammar.load sharedPart.reader {} .v10 [.path "main.xsd"]) =
      some (sharedPaths.map some, true) := by
  decide +kernel

theorem exists_load_sharedPart :
    ∃ g, Grammar.load sharedPart.reader {} .v10 [.path "main.xsd"] = .ok g ∧
      g.locations.toList = sharedPaths.map .path ∧
      g.problems.any (fun p => p.fault matches .duplicateElement _) = true := by
  have hoverview := overview_sharedPart
  cases hload : Grammar.load sharedPart.reader {} .v10 [.path "main.xsd"] with
  | error e =>
    rw [hload] at hoverview
    cases hoverview
  | ok g =>
    rw [hload] at hoverview
    obtain ⟨hpaths, hduplicate⟩ := Prod.mk.inj (Option.some.inj hoverview)
    exact ⟨g, rfl, eq_of_map_pathOf? hpaths, hduplicate⟩

/-- The part is read under two paths of different steps that come to the same names. -/
theorem listsOnce_iff_sharedPart :
    ∃ g, Grammar.load sharedPart.reader {} .v10 [.path "main.xsd"] = .ok g ∧
      (∀ l ∈ g.locations, ∃ p, l = .path p) ∧ ¬ g.ListsOnce sharedPart := by
  obtain ⟨g, hload, hlocations, -⟩ := exists_load_sharedPart
  have hmem (p : String) (hp : p ∈ sharedPaths) : .path p ∈ g.locations := by
    rw [← Array.mem_toList_iff, hlocations]
    exact List.mem_map_of_mem hp
  have hpaths : ∀ l ∈ g.locations, ∃ p, l = .path p := by
    intro l hl
    rw [← Array.mem_toList_iff, hlocations] at hl
    obtain ⟨p, -, rfl⟩ := List.mem_map.1 hl
    exact ⟨p, rfl⟩
  refine ⟨g, hload, hpaths, fun honce => ?_⟩
  have hsteps := (listsOnce_iff hload hpaths).1.1 honce "part.xsd" "sub/../part.xsd"
    (hmem _ (by decide)) (hmem _ (by decide)) (by decide)
  exact absurd hsteps (by decide)

/-- **A file that is referred to in two ways is read twice**, and what it declares is reported as
declared twice. -/
theorem not_listsOnce_sharedPart :
    ∃ g, Grammar.load sharedPart.reader {} .v10 [.path "main.xsd"] = .ok g ∧
      ¬ g.ListsOnce sharedPart ∧ sharedPart.files.length < g.locations.size ∧
      g.problems.any (fun p => p.fault matches .duplicateElement _) = true := by
  obtain ⟨g, hload, hlocations, hduplicate⟩ := exists_load_sharedPart
  refine ⟨g, hload, fun honce => ?_, ?_, hduplicate⟩
  · have hpart := honce ["part.xsd"]
    rw [hlocations] at hpart
    revert hpart
    decide
  · rw [← Array.length_toList, hlocations]
    decide

end Grammar
end SchemaAssist
