/-
# Tags of an editor document

The tags of a text with the bytes they take up, up to the first syntax error.  Text, comments,
character data sections, processing instructions and document type declarations are passed over.  A
start tag without its closing bracket takes the rest of the text and is given one byte, its opening
bracket; an end tag without it takes the rest of the text.
-/

import SchemaAssist.Document.Tag

namespace SchemaAssist
namespace Document

open Text

/-- A tag and the byte offsets of its start and of its end. -/
inductive Event where
  | start (first stop : Nat) (tag : Tag)
  | empty (first stop : Nat) (tag : Tag)
  | finish (first stop : Nat) (name : String)
  deriving Repr, Inhabited

namespace Event

/-- The offset of the opening bracket. -/
def first : Event → Nat
  | start n _ _ => n
  | empty n _ _ => n
  | finish n _ _ => n

/-- The offset after the tag. -/
def stop : Event → Nat
  | start _ n _ => n
  | empty _ n _ => n
  | finish _ n _ => n

end Event

/-- The number of bytes of characters. -/
def byteLength : List Char → Nat
  | [] => 0
  | c :: cs => c.utf8Size + byteLength cs

/-- The text of a tag up to the first closing bracket outside quotes, and what follows it. -/
def cutTag : (quote : Option Char) → List Char → Option (List Char × List Char)
  | _, [] => none
  | none, c :: cs =>
    if c = '>' then some ([], cs)
    else (cutTag (if isQuote c then some c else none) cs).map fun (tag, rest) => (c :: tag, rest)
  | some q, c :: cs =>
    (cutTag (if c = q then none else some q) cs).map fun (tag, rest) => (c :: tag, rest)

/-- What follows the first `mark`. -/
def afterMark (mark : List Char) : List Char → Option (List Char)
  | [] => none
  | c :: cs => if mark.isPrefixOf (c :: cs) then some ((c :: cs).drop mark.length)
      else afterMark mark cs

/-- What stands before the closing bracket that balances `depth` opening ones, and what follows. -/
def cutBalanced : (depth : Nat) → List Char → Option (List Char × List Char)
  | _, [] => none
  | depth, c :: cs =>
    if c = '>' ∧ depth = 0 then some ([], cs)
    else
      let depth := if c = '<' then depth + 1 else if c = '>' then depth - 1 else depth
      (cutBalanced depth cs).map fun (inside, rest) => (c :: inside, rest)

/-- What follows `word` at the start of a text, in capital or small letters. -/
def afterWord (word : List Char) (cs : List Char) : Option (List Char) :=
  if (cs.take word.length).map Char.toUpper = word then some (cs.drop word.length) else none

/-- What follows a declaration, given what follows its `<!`: a comment, a section of character data
or a document type declaration with something in it; `none` is a syntax error. -/
def afterDeclaration (cs : List Char) : Option (List Char) :=
  match cs with
  | '-' :: '-' :: cs => afterMark ['-', '-', '>'] cs
  | '[' :: _ => (afterWord "[CDATA[".toList cs).bind (afterMark [']', ']', '>'])
  | _ =>
    (afterWord "DOCTYPE".toList cs).bind fun cs =>
      (cutBalanced 0 cs).bind fun (inside, rest) => if inside.all isSpace then none else some rest

/-- What follows a processing instruction, given what follows its `<?`; `none` is a syntax error. -/
def afterInstruction (cs : List Char) : Option (List Char) :=
  (Text.cutList '>' cs).bind fun (inside, rest) =>
    if inside.length ≥ 2 ∧ inside.getLast? = some '?' then some rest else none

/-- The name in an end tag: without the blanks at its end, unless there is nothing else. -/
def endTagName (cs : List Char) : String :=
  let trimmed := (cs.reverse.dropWhile isSpace).reverse
  String.ofList (if trimmed.isEmpty then cs else trimmed)

/-- What a text that starts with `<` begins with, given the offset of that `<` and what follows it:
a tag or nothing of note, and what follows it if the text can be read on. -/
def lexeme (first : Nat) (cs : List Char) : Option Event × Option (List Char) :=
  match cs with
  | [] => (none, none)
  | '!' :: cs => (none, afterDeclaration cs)
  | '?' :: cs => (none, afterInstruction cs)
  | '/' :: cs =>
    match Text.cutList '>' cs with
    | some (name, rest) =>
      (some (.finish first (first + 3 + byteLength name) (endTagName name)), rest)
    | none => (some (.finish first (first + 2 + byteLength cs) (endTagName cs)), none)
  | c :: cs =>
    let event (stop : Nat) (tag : List Char) : Event :=
      match Tag.read tag with
      | (tag, true) => .empty first stop tag
      | (tag, false) => .start first stop tag
    match cutTag none (c :: cs) with
    | some (tag, rest) => (some (event (first + 2 + byteLength tag) tag), rest)
    | none => (some (event (first + 1) (c :: cs)), none)

theorem suffix_of_cutTag {quote : Option Char} {cs tag rest : List Char}
    (h : cutTag quote cs = some (tag, rest)) : rest <:+ cs := by
  fun_induction cutTag quote cs generalizing tag with
  | case1 => cases h
  | case2 => cases h; exact List.suffix_cons ..
  | case3 c cs hc ih =>
    obtain ⟨⟨t, r⟩, ht, he⟩ := Option.map_eq_some_iff.1 h
    cases he
    exact (ih ht).trans (List.suffix_cons ..)
  | case4 q c cs ih =>
    obtain ⟨⟨t, r⟩, ht, he⟩ := Option.map_eq_some_iff.1 h
    cases he
    exact (ih ht).trans (List.suffix_cons ..)

theorem suffix_of_afterMark {mark cs rest : List Char} (h : afterMark mark cs = some rest) :
    rest <:+ cs := by
  fun_induction afterMark mark cs with
  | case1 => cases h
  | case2 c cs hc => cases h; exact List.drop_suffix ..
  | case3 c cs hc ih => exact (ih h).trans (List.suffix_cons ..)

theorem suffix_of_cutBalanced {depth : Nat} {cs inside rest : List Char}
    (h : cutBalanced depth cs = some (inside, rest)) : rest <:+ cs := by
  induction cs generalizing depth inside with
  | nil => cases h
  | cons c cs ih =>
    rw [cutBalanced] at h
    split at h
    · cases h; exact List.suffix_cons ..
    · obtain ⟨⟨t, r⟩, ht, he⟩ := Option.map_eq_some_iff.1 h
      cases he
      exact (ih ht).trans (List.suffix_cons ..)

theorem suffix_of_afterWord {word cs rest : List Char} (h : afterWord word cs = some rest) :
    rest <:+ cs := by
  unfold afterWord at h
  split at h <;> cases h
  exact List.drop_suffix ..

theorem suffix_of_afterDeclaration {cs rest : List Char} (h : afterDeclaration cs = some rest) :
    rest <:+ cs := by
  unfold afterDeclaration at h
  split at h
  · exact ((suffix_of_afterMark h).trans (List.suffix_cons ..)).trans (List.suffix_cons ..)
  · obtain ⟨r, hr, h⟩ := Option.bind_eq_some_iff.1 h
    exact (suffix_of_afterMark h).trans (suffix_of_afterWord hr)
  · obtain ⟨r, hr, h⟩ := Option.bind_eq_some_iff.1 h
    obtain ⟨⟨inside, r'⟩, hr', h⟩ := Option.bind_eq_some_iff.1 h
    dsimp only at h
    split at h <;> cases h
    exact (suffix_of_cutBalanced hr').trans (suffix_of_afterWord hr)

theorem suffix_of_afterInstruction {cs rest : List Char} (h : afterInstruction cs = some rest) :
    rest <:+ cs := by
  obtain ⟨⟨inside, r⟩, hr, h⟩ := Option.bind_eq_some_iff.1 h
  dsimp only at h
  split at h <;> cases h
  exact suffix_of_cutList hr

/-- A text is read on from its end part. -/
theorem suffix_of_lexeme {first : Nat} {cs rest : List Char} {event : Option Event}
    (h : lexeme first cs = (event, some rest)) : rest <:+ cs := by
  unfold lexeme at h
  split at h
  · cases h
  · exact (suffix_of_afterDeclaration (Prod.mk.inj h).2).trans (List.suffix_cons ..)
  · exact (suffix_of_afterInstruction (Prod.mk.inj h).2).trans (List.suffix_cons ..)
  · split at h
    · rename_i heq
      cases h
      exact (suffix_of_cutList heq).trans (List.suffix_cons ..)
    · cases h
  · dsimp only at h
    split at h
    · rename_i heq
      cases (Prod.mk.inj h).2
      exact suffix_of_cutTag heq
    · cases h

/-- The tags of the part `cs` at the end of a text of `total` bytes. -/
def eventsFrom (total : Nat) (cs : List Char) : List Event :=
  match hopen : Text.cutList '<' cs with
  | none => []
  | some (_, rest) =>
    match hlexeme : lexeme (total - byteLength rest - 1) rest with
    | (event, none) => event.toList
    | (event, some rest') =>
      have : rest'.length < cs.length :=
        Nat.lt_of_le_of_lt (suffix_of_lexeme hlexeme).length_le (length_lt_of_cutList hopen)
      event.toList ++ eventsFrom total rest'
termination_by cs.length

/-- The characters of a text without a byte order mark at its start. -/
def dropMark : List Char → List Char
  | '\ufeff' :: cs => cs
  | cs => cs

/-- The tags of a text; a byte order mark at its start counts for nothing. -/
def events (text : String) : List Event :=
  let cs := dropMark text.toList
  eventsFrom (byteLength cs) cs

end Document
end SchemaAssist
