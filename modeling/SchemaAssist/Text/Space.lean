/-
# Blanks and quotes of markup

The four blanks that separate the parts of a tag, and the two quotes that attribute values stand
between; facts on the length of what is left after blanks or after a mark.
-/

import SchemaAssist.Text.Cut

namespace SchemaAssist
namespace Text

/-- A space, a tab, a carriage return or a line feed. -/
def isSpace (c : Char) : Bool := c = ' ' || c = '\t' || c = '\r' || c = '\n'

/-- One of the marks that attribute values stand between. -/
def isQuote (c : Char) : Bool := c = '"' || c = '\''

theorem length_dropWhile_le {α : Type _} (p : α → Bool) (xs : List α) :
    (xs.dropWhile p).length ≤ xs.length :=
  (List.dropWhile_sublist p).length_le

theorem length_lt_of_dropWhile {α : Type _} {p : α → Bool} {xs ys : List α} {x : α}
    (h : xs.dropWhile p = x :: ys) : ys.length < xs.length := by
  have := length_dropWhile_le p xs
  rw [h, List.length_cons] at this
  omega

theorem length_lt_of_cutList {mark : Char} {cs before after : List Char}
    (h : cutList mark cs = some (before, after)) : after.length < cs.length := by
  rw [(cutList_eq_some_iff.1 h).1, List.length_append, List.length_cons]
  omega

theorem suffix_of_cutList {mark : Char} {cs before after : List Char}
    (h : cutList mark cs = some (before, after)) : after <:+ cs := by
  rw [(cutList_eq_some_iff.1 h).1]
  exact (List.suffix_cons _ _).trans (List.suffix_append _ _)

end Text
end SchemaAssist
