/-
# Built-in types

The types that every schema knows: the simple types of the schema language, and the type of elements
declared without one, which allows any content.
-/

import SchemaAssist.Schema.Component

namespace SchemaAssist
namespace Builtin

/-- The local name of the type that allows any content. -/
def anyTypeName : String := "anyType"

/-- The local names of the built-in simple types. -/
def simpleTypeNames : List String :=
  ["anySimpleType", "anyAtomicType", "string", "normalizedString", "token", "language", "Name",
    "NCName", "ID", "IDREF", "IDREFS", "ENTITY", "ENTITIES", "NMTOKEN", "NMTOKENS", "boolean",
    "decimal", "integer", "long", "int", "short", "byte", "nonNegativeInteger", "positiveInteger",
    "unsignedLong", "unsignedInt", "unsignedShort", "unsignedByte", "nonPositiveInteger",
    "negativeInteger", "float", "double", "duration", "dayTimeDuration", "yearMonthDuration",
    "dateTime", "dateTimeStamp", "time", "date", "gYearMonth", "gYear", "gMonthDay", "gDay",
    "gMonth", "hexBinary", "base64Binary", "anyURI", "QName", "NOTATION"]

/-- A name of a built-in simple type. -/
def isSimpleType (n : Name) : Bool :=
  n.space == schemaNamespace && simpleTypeNames.contains n.localName

/-- The name of the type that allows any content. -/
def isAnyType (n : Name) : Bool := n.space == schemaNamespace && n.localName == anyTypeName

/-- Any elements in any number, between any text. -/
def anyType : ComplexType where
  name? := some ⟨schemaNamespace, anyTypeName⟩
  content := .group ⟨.sequence, [.any ⟨.any, .lax, .anyNumber⟩], .once⟩
  mixed := true

/-- The definition of the built-in type of a local name. -/
def definition (localName : String) : TypeDef :=
  if localName = anyTypeName then .complex anyType
  else .simple { name? := some ⟨schemaNamespace, localName⟩, builtin := true }

end Builtin
end SchemaAssist
