import SandboxMounts.Command.Arguments
import SandboxMounts.Command.Run
import SandboxMounts.Host.Listing

/-!
The command line, as a rehearsal: standard input lists the host, one path a line, and the mount calls
that the command makes on it are shown on standard error.
-/

set_option autoImplicit false

open SandboxMounts

partial def readLines (input : IO.FS.Stream) : IO (List String) := do
  let line ← input.getLine
  if line.isEmpty then return []
  return String.ofList (line.toList.filter (· ≠ '\n')) :: (← readLines input)

def main (args : List String) : IO UInt32 := do
  let environment ← IO.getEnv Invocation.configVariable
  let host := Host.ofLines (← readLines (← IO.getStdin))
  match Run.ofArguments (environment.map Utf8.ofString) (args.map Utf8.ofString) host with
  | (.error refusal, _) =>
    IO.eprintln refusal.text
    return if refusal.isAnswer then 0 else 2
  | (.ok run, host) =>
    IO.print run.printed
    host.calls.forM fun call => IO.eprintln call.text
    match run.result with
    | .ok () => return 0
    | .error e =>
      IO.eprintln e.message
      return 1
