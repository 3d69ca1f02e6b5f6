/-
# The program

Reads files, prints lines, and leaves everything else to the library.
-/

import SchemaAssist.CommandLine

namespace SchemaAssist

/-- Why a file could not be read, by the number that the system gives. -/
def FileError.ofSystem : IO.Error → FileError
  | .inappropriateType _ code _ => if code = 21 then .isDirectory else .notDirectory
  | .invalidArgument _ code _ => if code = 22 then .nullInPath else .nameTooLong
  | _ => .missing

/-- Reads the text of a file. -/
def readTextFile : ReadFile IO := fun path => do
  try
    match String.fromUTF8? (← IO.FS.readBinFile path) with
    | some text => return .ok text
    | none => return .error .notText
  catch e => return .error (.ofSystem e)

end SchemaAssist

open SchemaAssist in
/-- Runs the program on its arguments. -/
def main (args : List String) : IO UInt32 := do
  let outcome ← CommandLine.run readTextFile args
  for line in outcome.messages do IO.eprintln line
  for line in outcome.out do IO.println line
  return outcome.code.toUInt32
