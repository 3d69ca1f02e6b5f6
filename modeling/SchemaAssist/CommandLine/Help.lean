/-
# Help on the command line

The texts that say which commands and options there are.
-/

import SchemaAssist.CommandLine.Arguments

namespace SchemaAssist
namespace CommandLine

/-- The name of the program. -/
def programName : String := "xsd-complete"

/-- The name and the version of the program. -/
def versionText : String := programName ++ " 0.1.0"

/-- What a command does. -/
def Command.summary : Command → String
  | .children => "List the child elements permitted in an element"
  | .caret => "List the child elements permitted at a caret offset of a document"
  | .inspect => "Show documentation, attributes and enumerations of an element"

/-- The placeholders of the values that a command must be given. -/
def Command.usage : Command → String
  | .children => "children [OPTIONS] --schema <SCHEMA> --element <ELEMENT>"
  | .caret => "at [OPTIONS] --file <FILE> --offset <OFFSET>"
  | .inspect => "inspect [OPTIONS] --schema <SCHEMA> --element <ELEMENT>"

/-- The lines on options that all commands have. -/
def xsdVersionLine : String :=
  "      --xsd-version <XSD_VERSION>  XML Schema version used to compile grammars: 1.0 or 1.1 " ++
    "[default: 1.0]"

/-- The line on JSON. -/
def jsonLine : String := "  -j, --json                       Output as JSON"

/-- The line on help. -/
def helpLine : String := "  -h, --help                       Print help"

/-- The line on schemas. -/
def schemaLine : String := "  -s, --schema <SCHEMA>            Path to the XSD schema file"

/-- The line on elements, given what the element is for. -/
def elementLine (purpose : String) : String :=
  "  -e, --element <ELEMENT>          Global element " ++ purpose

/-- The lines on the options of a command. -/
def Command.optionLines : Command → List String
  | .children =>
    [schemaLine, xsdVersionLine, elementLine "whose children are listed", jsonLine,
      "  -a, --after <AFTER>              Comma-separated children already written, in order",
      helpLine]
  | .caret =>
    [schemaLine ++ " (defaults to the document's xsi hints)", xsdVersionLine,
      "  -f, --file <FILE>                Path to the XML document", jsonLine,
      "  -o, --offset <OFFSET>            Byte offset of the caret", helpLine]
  | .inspect => [schemaLine, xsdVersionLine, elementLine "to inspect", jsonLine, helpLine]

/-- The help on a command, or on all. -/
def help : Option Command → List String
  | some c =>
    [c.summary, "", s!"Usage: {programName} {c.usage}", "", "Options:"] ++ c.optionLines
  | none =>
    ["XML Schema content-model completion tool", "", s!"Usage: {programName} [OPTIONS] <COMMAND>",
      "", "Commands:",
      "  children  " ++ Command.children.summary,
      "  at        " ++ Command.caret.summary,
      "  inspect   " ++ Command.inspect.summary,
      "  help      Print this message or the help of the given subcommand(s)",
      "", "Options:", xsdVersionLine, jsonLine, helpLine,
      "  -V, --version                    Print version"]

end CommandLine
end SchemaAssist
