import RsxInspect.Command.Invocation

/-!
# Arguments

The arguments of a call are a command and a path, with switches anywhere among them. Reading them
gives the invocation that they ask for.
-/

namespace RsxInspect

/-- The arguments of a call, its switches told apart from its words. -/
structure Arguments where
  words : List String
  json : Bool
  verbosity : Nat
  deriving DecidableEq, Repr

namespace Arguments

/-- The verbosity that a switch adds: one for each `v` behind a single dash, or for the word. -/
def verbosity? (s : String) : Option Nat :=
  if s == "--verbose" then some 1
  else
    match s.toList with
    | '-' :: 'v' :: more => if more.all (· == 'v') then some (more.length + 1) else none
    | _ => none

/-- Tells switches from words, unless there is an unknown switch. -/
def ofList? : List String → Option Arguments
  | [] => some ⟨[], false, 0⟩
  | s :: more => do
    let rest ← ofList? more
    if s == "--json" then
      some { rest with json := true }
    else
      match verbosity? s with
      | some n => some { rest with verbosity := n + rest.verbosity }
      | none => if s.startsWith "-" then none else some { rest with words := s :: rest.words }

end Arguments

/-- The invocation that the arguments of a call ask for, with the log filter of its environment.
There is no JSON form of a check. -/
def Invocation.ofArguments? (args : List String) (logFilter : Option String) :
    Option Invocation := do
  let args ← Arguments.ofList? args
  let [word, path] := args.words | none
  let command ← Command.ofWord? word
  if args.json && command == .check then none
  else some ⟨command, path, args.json, args.verbosity, logFilter⟩

end RsxInspect
