/-
# Arguments of the command line

The arguments name one command, with options before and after it.  An option is written with one
dash and a letter or two dashes and a word; its value follows in the same argument or in the next
one.  Letters of options without a value may be run together.
-/

import SchemaAssist.Text.Cut
import SchemaAssist.Text.Numeral

namespace SchemaAssist
namespace CommandLine

/-- What is asked of a schema. -/
inductive Command where
  /-- The elements that may follow some children of an element. -/
  | children
  /-- The elements that may be written at a caret. -/
  | caret
  /-- All about an element. -/
  | inspect
  deriving DecidableEq, Repr, Inhabited

/-- All commands. -/
def Command.all : List Command := [.children, .caret, .inspect]

/-- How a command is written. -/
def Command.word : Command → String
  | .children => "children"
  | .caret => "at"
  | .inspect => "inspect"

/-- An option. -/
inductive Opt where
  | xsdVersion
  | json
  | schema
  | element
  | after
  | file
  | offset
  | help
  | version
  deriving DecidableEq, Repr, Inhabited

namespace Opt

/-- The word of an option. -/
def long : Opt → String
  | .xsdVersion => "xsd-version"
  | .json => "json"
  | .schema => "schema"
  | .element => "element"
  | .after => "after"
  | .file => "file"
  | .offset => "offset"
  | .help => "help"
  | .version => "version"

/-- The letter of an option that has one. -/
def short? : Opt → Option Char
  | .xsdVersion => none
  | .json => some 'j'
  | .schema => some 's'
  | .element => some 'e'
  | .after => some 'a'
  | .file => some 'f'
  | .offset => some 'o'
  | .help => some 'h'
  | .version => some 'V'

/-- The largest offset. -/
def maxOffset : Nat := 0xFFFFFFFFFFFFFFFF

/-- Which values an option takes; `none` for one that takes none. -/
def takes? : Opt → Option (String → Bool)
  | .json => none
  | .help => none
  | .version => none
  | .schema => some (· ≠ "")
  | .file => some (· ≠ "")
  | .offset => some fun s => (Text.readNat? maxOffset s).isSome
  | _ => some fun _ => true

/-- Whether an option may be given more than once. -/
def repeats (o : Opt) : Bool := o = .after

end Opt

/-- The options that may stand before a command. -/
def commonOptions : List Opt := [.xsdVersion, .json, .help, .version]

/-- The options of a command. -/
def Command.options : Command → List Opt
  | .children => [.schema, .element, .after, .xsdVersion, .json, .help]
  | .caret => [.schema, .file, .offset, .xsdVersion, .json, .help]
  | .inspect => [.schema, .element, .xsdVersion, .json, .help]

/-- Why no command is carried out. -/
inductive Stop where
  /-- The arguments do not fit. -/
  | misused
  /-- The options of a command, or the commands, are asked for. -/
  | help (command? : Option Command)
  /-- The version of the program is asked for. -/
  | version
  deriving DecidableEq, Repr

/-- Options that were given, with their values, in order. -/
abbrev Given := List (Opt × String)

/-- One more option: a question ends the reading, and an option given twice is misused. -/
def give (command? : Option Command) (given : Given) (o : Opt) (value : String) :
    Except Stop Given :=
  match o with
  | .help => .error (.help command?)
  | .version => .error .version
  | o =>
    if (!o.repeats && (given.lookup o).isSome) || !((o.takes?.map (· value)).getD true) then
      .error .misused
    else .ok (given ++ [(o, value)])

/-- Whether an argument is written like an option. -/
def isOption (arg : String) : Bool :=
  match arg.toList with
  | '-' :: _ :: _ => true
  | _ => false

/-- The options of the letters of one argument, and the option that waits for its value. -/
def giveLetters (command? : Option Command) (options : List Opt) (given : Given) :
    List Char → Except Stop (Given × Option Opt)
  | [] => .ok (given, none)
  | c :: cs =>
    match options.find? (·.short? = some c) with
    | none => .error .misused
    | some o =>
      match o.takes?, cs with
      | none, cs => do giveLetters command? options (← give command? given o "") cs
      | some _, [] => .ok (given, some o)
      | some _, '=' :: cs => (give command? given o (String.ofList cs)).map (·, none)
      | some _, cs => (give command? given o (String.ofList cs)).map (·, none)

/-- The option of a word with or without a value, and the option that waits for its value. -/
def giveWord (command? : Option Command) (options : List Opt) (given : Given) (word : String) :
    Except Stop (Given × Option Opt) :=
  let (long, value?) :=
    match Text.cut '=' word with
    | some (long, value) => (long, some value)
    | none => (word, none)
  match options.find? (·.long = long) with
  | none => .error .misused
  | some o =>
    match o.takes?, value? with
    | none, none => (give command? given o "").map (·, none)
    | none, some _ => .error .misused
    | some _, none => .ok (given, some o)
    | some _, some value => (give command? given o value).map (·, none)

/-- The options of one argument that is written like one, and the option that waits for its
value. -/
def giveArgument (command? : Option Command) (options : List Opt) (given : Given) (arg : String) :
    Except Stop (Given × Option Opt) :=
  match arg.toList with
  | '-' :: '-' :: word => giveWord command? options given (String.ofList word)
  | '-' :: letters => giveLetters command? options given letters
  | _ => .error .misused

/-- Reads options up to the first argument that is none: that argument and those after it, if there
is one.  Two dashes alone end the options, and nothing may follow them. -/
def readOptions (command? : Option Command) (options : List Opt) (given : Given) :
    List String → Except Stop (Given × List String)
  | [] => .ok (given, [])
  | arg :: rest =>
    if arg = "--" then if rest.isEmpty then .ok (given, []) else .error .misused
    else if isOption arg then
      match giveArgument command? options given arg with
      | .error stop => .error stop
      | .ok (given, none) => readOptions command? options given rest
      | .ok (given, some o) =>
        match rest with
        | [] => .error .misused
        | value :: rest =>
          if isOption value then .error .misused
          else match give command? given o value with
            | .error stop => .error stop
            | .ok given => readOptions command? options given rest
    else .ok (given, arg :: rest)

/-- What a command is given. -/
inductive Task where
  | children (schema element : String) (after : List String)
  | caret (schema? : Option String) (file : String) (offset : Nat)
  | inspect (schema element : String)
  deriving DecidableEq, Repr, Inhabited

/-- A command with what it is given, the version asked for, and whether the answer is JSON. -/
structure Invocation where
  task : Task
  xsdVersion : String
  json : Bool
  deriving DecidableEq, Repr, Inhabited

/-- What a command is given by its options, if none is missing. -/
def Command.task? (c : Command) (given : Given) : Option Task := do
  match c with
  | .children =>
    let after := (given.filter (·.1 = .after)).flatMap fun (_, value) => Text.pieces ',' value
    return .children (← given.lookup .schema) (← given.lookup .element) after
  | .caret =>
    let offset ← Text.readNat? Opt.maxOffset (← given.lookup .offset)
    return .caret (given.lookup .schema) (← given.lookup .file) offset
  | .inspect => return .inspect (← given.lookup .schema) (← given.lookup .element)

/-- The command of a word. -/
def Command.ofWord? (word : String) : Option Command := Command.all.find? (·.word = word)

/-- Reads a question about a command: the word `help` and at most one command. -/
def readHelp : List String → Stop
  | [] => .help none
  | [word] =>
    match Command.ofWord? word with
    | some c => .help (some c)
    | none => .misused
  | _ => .misused

/-- Reads the arguments.  An option given after the command goes before the same one given
before. -/
def read (args : List String) : Except Stop Invocation := do
  let (common, rest) ← readOptions none commonOptions [] args
  match rest with
  | [] => throw .misused
  | "help" :: words => throw (readHelp words)
  | word :: args =>
    match Command.ofWord? word with
    | none => throw .misused
    | some c =>
      match ← readOptions (some c) c.options [] args with
      | (given, []) =>
        match c.task? given with
        | none => throw .misused
        | some task =>
          let all := given ++ common
          return ⟨task, (all.lookup .xsdVersion).getD "1.0", (all.lookup .json).isSome⟩
      | _ => throw .misused

end CommandLine
end SchemaAssist
