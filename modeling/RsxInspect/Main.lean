import RsxInspect.Command.Arguments

/-!
# The program

Reads the arguments, the environment and the file, and writes what `Invocation.respond` answers.
-/

namespace RsxInspect

/-- What stands at a path. -/
def readContent (path : String) : IO FileContent := do
  try
    return .ofBytes (← IO.FS.readBinFile path)
  catch
    | .noFileOrDirectory .. => return .missing
    | e => return .unreadable e.toString

/-- How the program is called. -/
def usage : String := "Usage: rsx tokens|tree|check [--json] [-v] PATH"

/-- Answers one call, with its exit status. A source that the scanner cannot get through is refused,
and so is one with a value that it cannot get through. -/
def answer (args : List String) : IO UInt32 := do
  let some invocation := Invocation.ofArguments? args (← IO.getEnv "RUST_LOG")
    | IO.eprintln usage
      return 2
  match invocation.respond (← readContent invocation.path) with
  | some response =>
    IO.print response.out
    IO.eprint response.err
    return response.exit.toUInt32
  | none =>
    IO.eprintln s!"Error: the scan of {invocation.path} stands still"
    return 1

end RsxInspect

def main (args : List String) : IO UInt32 := RsxInspect.answer args
