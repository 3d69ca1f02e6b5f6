/-
# Texts at locations

The text of a schema stands in a file or in its location itself; other hosts are not asked.  How
files are read is left open.
-/

import SchemaAssist.Loading.Failure

namespace SchemaAssist

/-- How the text of a file is read. -/
abbrev ReadFile (m : Type → Type) := String → m (Except FileError String)

/-- How the text of a file is read from files that are known. -/
def Files.reader (fs : Files) : ReadFile Id := fun path => fs.read path

namespace Location

/-- The file that holds the text of a location, or that text itself. -/
def source : Location → Except Unavailable (String ⊕ String)
  | .path p => .ok (.inl p)
  | .bytes p => .ok (.inl (Location.bytes p).text)
  | .inline s => .ok (.inr s)
  | .url u =>
    if u.scheme ≠ "file" then .error (.remote u)
    else match u.filePath? with
      | some p => .ok (.inl (ofBytes p).text)
      | none => .error (.fileUrl u)

/-- A text that is not too large. -/
def checkSize (limits : Limits) (text : String) : Except LoadError String :=
  match limits.checkSchemaSize text.utf8ByteSize with
  | .ok () => .ok text
  | .error e => .error (.limit e)

/-- The text of a location. -/
def load {m : Type → Type} [Monad m] (readFile : ReadFile m) (limits : Limits) (l : Location) :
    m (Except LoadError String) := do
  match l.source with
  | .error e => return .error (.unavailable e)
  | .ok (.inr s) => return checkSize limits s
  | .ok (.inl p) =>
    match ← readFile p with
    | .error e => return .error (.unavailable (.file p e))
    | .ok s => return checkSize limits s

variable {readFile : ReadFile Id} {limits : Limits} {l : Location} {s text : String}

theorem checkSize_eq_ok_iff :
    checkSize limits s = .ok text ↔
      s = text ∧ limits.checkSchemaSize text.utf8ByteSize = .ok () := by
  rw [checkSize]
  cases hsize : limits.checkSchemaSize s.utf8ByteSize with
  | ok _ =>
    refine ⟨fun h => ?_, fun h => congrArg Except.ok h.1⟩
    cases h
    exact ⟨rfl, hsize⟩
  | error e =>
    refine ⟨nofun, fun ⟨hs, hok⟩ => ?_⟩
    rw [hs, hok] at hsize
    cases hsize

/-- A text is found in a file or in the location itself, and is not too large. -/
theorem load_eq_ok_iff :
    l.load readFile limits = .ok text ↔
      (l.source = .ok (.inr text) ∨ ∃ p, l.source = .ok (.inl p) ∧ readFile p = .ok text) ∧
        limits.checkSchemaSize text.utf8ByteSize = .ok () := by
  rw [load]
  cases l.source with
  | error e => simp [pure]
  | ok source =>
    cases source with
    | inr s => exact checkSize_eq_ok_iff.trans (by simp)
    | inl p =>
      cases hread : readFile p with
      | error e => simp [pure, bind, hread]
      | ok s =>
        simp only [pure, bind, hread]
        refine checkSize_eq_ok_iff.trans (and_congr ⟨?_, ?_⟩ Iff.rfl)
        · rintro rfl
          exact Or.inr ⟨p, rfl, hread⟩
        · rintro (hp | ⟨p', hp, hread'⟩)
          · cases hp
          · cases hp
            exact Except.ok.inj (hread.symm.trans hread')

end Location
end SchemaAssist
