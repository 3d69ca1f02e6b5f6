/-
# Cutting a text at a mark

A prefixed name, a URL or a key with its value is cut in two at the first or the last place where a
mark stands; the mark itself belongs to neither part.
-/

namespace SchemaAssist
namespace Text

/-- The characters before and after the first `mark`, or `none` if there is no `mark`. -/
def cutList (mark : Char) : List Char → Option (List Char × List Char)
  | [] => none
  | c :: cs =>
    if c = mark then some ([], cs)
    else (cutList mark cs).map fun (before, after) => (c :: before, after)

/-- The parts of a text before and after the first `mark`. -/
def cut (mark : Char) (s : String) : Option (String × String) :=
  (cutList mark s.toList).map fun (before, after) => (String.ofList before, String.ofList after)

/-- The characters before and after the last `mark`. -/
def cutLastList (mark : Char) (cs : List Char) : Option (List Char × List Char) :=
  (cutList mark cs.reverse).map fun (after, before) => (before.reverse, after.reverse)

/-- The parts of a text before and after the last `mark`. -/
def cutLast (mark : Char) (s : String) : Option (String × String) :=
  (cutLastList mark s.toList).map fun (before, after) => (String.ofList before, String.ofList after)

/-- The text after `lead`, if it starts with `lead`. -/
def dropLead (lead : List Char) : List Char → Option (List Char)
  | cs => if lead.isPrefixOf cs then some (cs.drop lead.length) else none

/-- The pieces between the marks: one more than there are marks. -/
def piecesList (mark : Char) : List Char → List (List Char)
  | [] => [[]]
  | c :: cs =>
    if c = mark then [] :: piecesList mark cs
    else match piecesList mark cs with
      | [] => [[c]]
      | p :: ps => (c :: p) :: ps

/-- The pieces of a text between the marks. -/
def pieces (mark : Char) (s : String) : List String :=
  (piecesList mark s.toList).map String.ofList

/-- A cut loses nothing but the mark, and the first part is free of it. -/
theorem cutList_eq_some_iff {mark : Char} {cs before after : List Char} :
    cutList mark cs = some (before, after) ↔ cs = before ++ mark :: after ∧ mark ∉ before := by
  induction cs generalizing before with
  | nil => simp [cutList]
  | cons c cs ih =>
    by_cases h : c = mark
    · subst h
      cases before with
      | nil => simp [cutList]
      | cons b bs => simp [cutList]; grind
    · cases before with
      | nil => simp [cutList, h]
      | cons b bs => simp [cutList, h, ih]; grind

/-- There is a cut unless the mark is missing. -/
theorem cutList_eq_none_iff {mark : Char} {cs : List Char} :
    cutList mark cs = none ↔ mark ∉ cs := by
  induction cs with
  | nil => simp [cutList]
  | cons c cs ih =>
    by_cases h : c = mark
    · simp [cutList, h]
    · simp [cutList, h, ih]; grind

/-- What is dropped and what is left make up the text. -/
theorem dropLead_eq_some_iff {lead cs rest : List Char} :
    dropLead lead cs = some rest ↔ cs = lead ++ rest := by
  rw [dropLead]
  constructor
  · intro h
    split at h
    · next hlead =>
      obtain ⟨after, rfl⟩ := List.isPrefixOf_iff_prefix.1 hlead
      rw [List.drop_left] at h
      rw [Option.some.inj h]
    · cases h
  · rintro rfl
    rw [if_pos (List.isPrefixOf_iff_prefix.2 (List.prefix_append lead rest)), List.drop_left]

end Text
end SchemaAssist
