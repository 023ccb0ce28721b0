import DirectiveTemplates.CommandLine.Run

/-!
The command: reads files as a run asks for them, and prints what the run writes.
-/
namespace DirectiveTemplates.CommandLine

open Files

abbrev ReadFiles := List (String × Except FileError (List UInt8))

def ReadFiles.reader (known : ReadFiles) : FileReader := fun path =>
  (known.lookup path).getD (.error .notFound)

def causeOf : IO.Error → FileError
  | .noFileOrDirectory .. => .notFound
  | .inappropriateType _ code _ => if code = 21 then .isDirectory else .notDirectory
  | e@(.invalidArgument _ code _) =>
    if code = 36 ∨ code = -36 then .nameTooLong else .other (toString e)
  | .permissionDenied .. => .other "Permission denied (os error 13)"
  | e => .other (toString e)

def readBytes (path : String) : IO (Except FileError (List UInt8)) := do
  if path.toList.contains '\x00' then return .error .nulInName
  try
    return .ok (← IO.FS.readBinFile path).toList
  catch e =>
    return .error (causeOf e)

partial def gather (a : Arguments) (known : ReadFiles) : IO ReadFiles := do
  match (wanted known.reader a).filter fun path => (known.lookup path).isNone with
  | [] => return known
  | path :: _ => gather a ((path, ← readBytes path) :: known)

def perform (arguments : List String) : IO UInt32 := do
  let known ← match Arguments.parse arguments with
    | .ok a => gather a []
    | .error _ => pure []
  let exit := run known.reader arguments
  IO.print exit.output
  IO.eprint exit.errors
  return UInt32.ofNat exit.code

end DirectiveTemplates.CommandLine

def main (arguments : List String) : IO UInt32 :=
  DirectiveTemplates.CommandLine.perform arguments
