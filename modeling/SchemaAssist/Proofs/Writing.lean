/-
# Writing a file

A file that is written changes what stands at its own place, and makes the directories around it.
A path that led somewhere still leads there (`Files.locate_write`), and a text that was found at a
location is still found there unless the location leads to the file
(`Location.load_write_of_not_leadsTo`).
-/

import SchemaAssist.Loading.Resource

namespace SchemaAssist

namespace Files

variable {fs : Files} {path : String} {content : FileContent} {p q : Place}

/-- No directory stands where a file is to be written. -/
def Writable (fs : Files) (path : String) : Prop := fs.entry (.inside (names path)) ≠ .directory

instance (fs : Files) (path : String) : Decidable (fs.Writable path) :=
  inferInstanceAs (Decidable (_ ≠ _))

theorem lookup_filter_of_ne {names place : List String} (h : names ≠ place)
    (files : List (List String × FileContent)) :
    (files.filter (·.1 ≠ place)).lookup names = files.lookup names := by
  induction files with
  | nil => rfl
  | cons e files ih =>
    obtain ⟨k, c⟩ := e
    rw [List.filter_cons]
    by_cases hk : k = place
    · have hne : (names == k) = false := beq_eq_false_iff_ne.2 fun h' => h (h'.trans hk)
      rw [if_neg (by simp [hk]), ih, List.lookup_cons, hne]
    · rw [if_pos (by simp [hk]), List.lookup_cons, List.lookup_cons, ih]

theorem lookup_write_of_ne (fs : Files) (content : FileContent) {names : List String}
    (h : names ≠ Files.names path) :
    (fs.write path content).files.lookup names = fs.files.lookup names := by
  have hne : (names == Files.names path) = false := beq_eq_false_iff_ne.2 h
  rw [write, List.lookup_cons, hne]
  exact lookup_filter_of_ne h fs.files

/-- What stands elsewhere stays; where nothing stood, a directory may be made. -/
theorem entry_write_of_ne (fs : Files) (content : FileContent) (hp : p ≠ .inside (names path)) :
    (fs.write path content).entry p = fs.entry p ∨
      fs.entry p = .nothing ∧ (fs.write path content).entry p = .directory := by
  cases p with
  | outside => exact Or.inl rfl
  | inside ns =>
    have hlookup := lookup_write_of_ne fs content
      (fun h : ns = names path => hp (congrArg _ h))
    rw [entry, entry, hlookup]
    cases hfile : fs.files.lookup ns with
    | some c => exact Or.inl rfl
    | none =>
      have hsub : fs.directories.contains ns = true →
          (fs.write path content).directories.contains ns = true := fun h =>
        List.contains_iff_mem.2 (List.mem_append_right _ (List.contains_iff_mem.1 h))
      by_cases hdir : (ns.isEmpty || fs.directories.contains ns) = true
      · have hdir' : (ns.isEmpty || (fs.write path content).directories.contains ns) = true := by
          rw [Bool.or_eq_true] at hdir ⊢
          exact hdir.imp_right hsub
        rw [if_pos hdir, if_pos hdir']
        exact Or.inl rfl
      · rw [if_neg hdir]
        dsimp only
        split
        · exact Or.inr ⟨rfl, rfl⟩
        · exact Or.inl rfl

theorem entry_write_self : (fs.write path content).entry (.inside (names path)) = .file content := by
  rw [entry, write, List.lookup_cons, beq_self_eq_true]

/-- A directory stays one. -/
theorem entry_write_directory (hw : fs.Writable path) (hp : fs.entry p = .directory) :
    (fs.write path content).entry p = .directory := by
  have hne : p ≠ .inside (names path) := by
    rintro rfl
    exact hw hp
  rcases entry_write_of_ne fs content hne with h | ⟨h, -⟩
  · exact h.trans hp
  · rw [hp] at h
    cases h

/-- Something stays something. -/
theorem entry_write_ne_nothing (hp : fs.entry p ≠ .nothing) :
    (fs.write path content).entry p ≠ .nothing := by
  by_cases hne : p = .inside (names path)
  · rw [hne, entry_write_self]
    exact nofun
  · rcases entry_write_of_ne fs content hne with h | ⟨h, -⟩
    · rwa [h]
    · exact absurd h hp

theorem step_write {name : String} (h : fs.step p name = some q) :
    (fs.write path content).step p name = some q := by
  rw [step.eq_def] at h ⊢
  split at h
  · next hidle => rw [if_pos hidle, h]
  · next hidle =>
    rw [if_neg hidle]
    split at h
    · next hup => rw [if_pos hup, h]
    · next hup =>
      rw [if_neg hup]
      cases p with
      | outside => cases h
      | inside ns =>
        simp only at h ⊢
        split at h
        · cases h
        · next hsome => rw [if_neg (entry_write_ne_nothing hsome), h]

/-- Steps that led somewhere still lead there. -/
theorem follow_write (hw : fs.Writable path) {steps : List String}
    (h : fs.follow p steps = .ok q) : (fs.write path content).follow p steps = .ok q := by
  induction steps generalizing p with
  | nil => exact h
  | cons name rest ih =>
    rw [follow] at h ⊢
    cases hentry : fs.entry p with
    | file c => simp only [hentry] at h; cases h
    | nothing => simp only [hentry] at h; cases h
    | directory =>
      -- only directories are walked through, and they stay
      simp only [hentry, entry_write_directory hw hentry] at h ⊢
      split at h
      · cases h
      · next hname =>
        rw [if_neg hname]
        cases hstep : fs.step p name with
        | none => simp only [hstep] at h; cases h
        | some p' =>
          simp only [hstep] at h
          simp only [step_write hstep]
          exact ih h

theorem locate_write (hw : fs.Writable path) (content : FileContent) {path' : String}
    (h : fs.locate path' = .ok q) : (fs.write path content).locate path' = .ok q := by
  rw [locate] at h ⊢
  split at h
  · cases h
  · next hnull =>
    rw [if_neg hnull]
    split at h
    · cases h
    · next hempty =>
      rw [if_neg hempty]
      split at h
      · cases h
      · next hlong =>
        rw [if_neg hlong]
        exact follow_write hw h

theorem read_eq_ok_iff {path text : String} :
    fs.read path = .ok text ↔ ∃ q, fs.locate path = .ok q ∧ fs.entry q = .file (.text text) := by
  rw [read]
  cases fs.locate path with
  | error e => simp [bind, Except.bind]
  | ok q =>
    cases hentry : fs.entry q with
    | file c =>
      cases c <;> simp [bind, Except.bind, hentry, pure, Except.pure, throw, throwThe,
        MonadExceptOf.throw]
    | directory => simp [bind, Except.bind, hentry, throw, throwThe, MonadExceptOf.throw]
    | nothing => simp [bind, Except.bind, hentry, throw, throwThe, MonadExceptOf.throw]

/-- A text that was read is read still, unless the path leads to the file that is written. -/
theorem read_write (hw : fs.Writable path) {path' text : String} (h : fs.read path' = .ok text)
    (hne : (fs.write path content).locate path' ≠ .ok (.inside (names path))) :
    (fs.write path content).read path' = .ok text := by
  obtain ⟨q, hlocate, hentry⟩ := read_eq_ok_iff.1 h
  have hlocate' := locate_write hw content hlocate
  have hq : q ≠ .inside (names path) := by
    rintro rfl
    exact hne hlocate'
  refine read_eq_ok_iff.2 ⟨q, hlocate', ?_⟩
  rcases entry_write_of_ne fs content hq with hsame | ⟨hnothing, -⟩
  · rw [hsame, hentry]
  · rw [hnothing] at hentry
    cases hentry

end Files

namespace Location

/-- Whether a location leads to the file at a place. -/
def leadsTo (fs : Files) (place : List String) (l : Location) : Bool :=
  match l.source with
  | .ok (.inl p) =>
    match fs.locate p with
    | .ok q => q = .inside place
    | .error _ => false
  | _ => false

variable {fs : Files} {limits : Limits} {file text : String} {content : FileContent} {l : Location}

/-- A text that was found at a location is found there still, unless the location leads to the file
that is written. -/
theorem load_write_of_not_leadsTo (hw : fs.Writable file) (h : l.load fs.reader limits = .ok text)
    (hnot : l.leadsTo (fs.write file content) (Files.names file) = false) :
    l.load (fs.write file content).reader limits = .ok text := by
  obtain ⟨hsource, hsize⟩ := load_eq_ok_iff.1 h
  refine load_eq_ok_iff.2 ⟨hsource.imp_right ?_, hsize⟩
  rintro ⟨p, hp, hread⟩
  have hplace : (fs.write file content).locate p ≠ .ok (.inside (Files.names file)) := by
    intro hlocate
    simp [leadsTo, hp, hlocate] at hnot
  exact ⟨p, hp, Files.read_write hw hread hplace⟩

end Location
end SchemaAssist
