/-
# Before the root element

A document may start with a declaration of its version, with comments and processing instructions,
and with a document type declaration, of which only the entities are kept.
-/

import SchemaAssist.Markup.Tag

namespace SchemaAssist
namespace Markup
namespace Scan

/-- Takes a comment after its `<!--`: two hyphens stand only at its end. -/
def comment : Scan Unit := do
  let content ← takeUntil "-->"
  if (String.ofList content).contains "--" || content.getLast? = some '-' then
    throw (.unexpected "'--' in a comment")

/-- Takes a processing instruction after its `<?`. -/
def instruction : Scan Unit := do
  if ← startsWith "xml " then throw (.unexpected "declaration")
  let _ ← name
  let _ ← spaces
  let _ ← takeUntil "?>"

/-- Takes comments, processing instructions and blanks, one of them at a time. -/
def miscPart (_ : Unit) : Scan (Unit ⊕ Unit) := do
  let _ ← spaces
  if ← accept "<!--" then
    comment
    return .inl ()
  else if ← accept "<?" then
    instruction
    return .inl ()
  else return .inr ()

/-- Takes comments, processing instructions and blanks. -/
def misc : Scan Unit := iterate miscPart ()

/-- Takes the blanks between the parts of the version declaration. -/
def declarationSpaces : Scan Unit := do
  if !(← spaces) then
    if !(← get).isEmpty && !(← startsWith "?>") then throw (.expected "a blank")

/-- Takes the version declaration after its `<?xml`. -/
def versionDeclaration : Scan Unit := do
  declarationSpaces
  if !(← startsWith "version") then throw (.expected "version")
  let _ ← attribute'
  declarationSpaces
  if ← startsWith "encoding" then
    let _ ← attribute'
    declarationSpaces
  if ← startsWith "standalone" then
    let _ ← attribute'
  let _ ← spaces
  expect "?>"

/-- Takes a reference to an external resource, if there is one. -/
def externalId : Scan Bool := do
  if ← accept "SYSTEM" then
    someSpaces
    let _ ← literal
    return true
  else if ← accept "PUBLIC" then
    someSpaces
    let _ ← literal
    someSpaces
    let _ ← literal
    return true
  else return false

/-- Takes the text of an entity or a reference to one outside, of which nothing is kept. -/
def entityText (general : Bool) : Scan (Option (List Char × Nat)) := do
  match (← get).head? with
  | some c =>
    if Text.isQuote c then
      let text ← literal
      return some (text, (← get).length + 1)
    else if ← externalId then
      if general then
        let _ ← spaces
        if ← accept "NDATA" then
          someSpaces
          if !(← get).isEmpty then
            let _ ← name
      return none
    else throw (.expected "the text of an entity")
  | none => throw (.expected "the text of an entity")

/-- Takes the declaration of an entity after its `<!ENTITY`; `after` characters of the document
follow the scanned text. -/
def entity : Scan (List Entity) := do
  someSpaces
  let general := !(← accept "%")
  if !general then someSpaces
  let name ← name
  someSpaces
  let text ← entityText general
  let _ ← spaces
  expect ">"
  return match text with
    | some (text, after) => [⟨name, text, after⟩]
    | none => []

/-- Takes one part of the inner declarations of a document type, up to the bracket that ends
them. -/
def typePart (entities : List Entity) : Scan (List Entity ⊕ List Entity) := do
  let _ ← spaces
  if (← get).isEmpty then return .inr entities
  if ← accept "<!ENTITY" then return .inl (entities ++ (← entity))
  if ← accept "<!--" then
    comment
    return .inl entities
  if ← accept "<?" then
    instruction
    return .inl entities
  if ← accept "]" then
    let _ ← spaces
    expect ">"
    return .inr entities
  if (← startsWith "<!ELEMENT") || (← startsWith "<!ATTLIST") || (← startsWith "<!NOTATION") then
    let _ ← takeWhile (· != '>')
    expect ">"
    return .inl entities
  throw (.unexpected "text in a document type")

/-- Takes a document type declaration after its `<!DOCTYPE` and gives the entities that it
declares, in order. -/
def documentType : Scan (List Entity) := do
  someSpaces
  if !(← get).isEmpty then
    let _ ← name
  let _ ← spaces
  let _ ← externalId
  let _ ← spaces
  if ← accept ">" then return []
  expect "["
  iterate typePart []

/-- Takes all that stands before the root element and gives the declared entities. -/
def prolog : Scan (List Entity) := do
  let _ ← accept "\ufeff"
  if ← startsWith "<?xml " then
    expect "<?xml"
    versionDeclaration
  misc
  let entities ← if ← accept "<!DOCTYPE" then documentType else pure []
  misc
  return entities

end Scan
end Markup
end SchemaAssist
