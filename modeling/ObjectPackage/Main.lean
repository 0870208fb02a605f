/-
The command line: it reads the files that the arguments name and prints what the
inspection command answers.
-/
import ObjectPackage.Inspect.Command

namespace ObjectPackage

def errorText (error : IO.Error) : String :=
  match error with
  | .noFileOrDirectory _ _ _ => "No such file or directory (os error 2)"
  | error => toString error

def readFile (path : String) : IO (Except String (List UInt8)) := do
  try
    return .ok (← IO.FS.readBinFile path).toList
  catch error => return .error (errorText error)

def usage : String :=
  "usage: SCHEMA [--struct NAME] [--names FILE] [--format-version N] [--tagged FILE] " ++
    "[--script FILE] [--script-size N] [--json]"

def runCommand (arguments : List String) : IO UInt32 := do
  match Arguments.ofList? arguments with
  | none =>
      IO.eprintln usage
      return 2
  | some arguments =>
      let contents ← arguments.paths.mapM fun path => return (path, ← readFile path)
      let files : Files := fun path => (contents.lookup path).getD (.error "not read")
      match Command.run files arguments with
      | .ok text =>
          IO.print text
          return 0
      | .error failure =>
          IO.eprint failure.text
          return 1

end ObjectPackage

def main (arguments : List String) : IO UInt32 :=
  ObjectPackage.runCommand arguments
