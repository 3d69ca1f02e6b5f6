/-
# Blanks

Attribute values hold words set apart by blanks: the characters with the Unicode property
`White_Space`.  A value is trimmed of them at both ends (`trim`) or cut into its words (`words`).
The zero-width space and the byte order mark do not have the property, so they belong to words.
-/

namespace SchemaAssist
namespace Text

/-- A character with the Unicode property `White_Space`. -/
def isBlank (c : Char) : Bool :=
  let n := c.toNat
  (0x09 ≤ n && n ≤ 0x0D) || n == 0x20 || n == 0x85 || n == 0xA0 || n == 0x1680 ||
    (0x2000 ≤ n && n ≤ 0x200A) || n == 0x2028 || n == 0x2029 || n == 0x202F || n == 0x205F ||
    n == 0x3000

/-- The characters left when the blanks at the end are dropped. -/
def dropBlanksAtEnd (cs : List Char) : List Char := (cs.reverse.dropWhile isBlank).reverse

/-- A text without the blanks at its two ends. -/
def trim (s : String) : String := String.ofList (dropBlanksAtEnd (s.toList.dropWhile isBlank))

/-- The maximal runs of characters that are not blanks, in order. -/
def wordsOf : List Char → List (List Char)
  | [] => []
  | c :: cs =>
    if isBlank c then wordsOf cs
    else match cs, wordsOf cs with
      | d :: _, w :: ws => if isBlank d then [c] :: w :: ws else (c :: w) :: ws
      | _, ws => [c] :: ws

/-- The words of a text. -/
def words (s : String) : List String := (wordsOf s.toList).map String.ofList

example : words " ab  c\t" = ["ab", "c"] := by decide
example : trim "\u00a0a b\n" = "a b" := by decide

/-- A word holds no blank. -/
theorem not_isBlank_of_mem_wordsOf {cs : List Char} :
    ∀ w ∈ wordsOf cs, ∀ c ∈ w, isBlank c = false := by
  fun_induction wordsOf cs with grind

end Text
end SchemaAssist
