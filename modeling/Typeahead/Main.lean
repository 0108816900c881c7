import Typeahead.CommandLine

/-!
# The program

Fetches arguments, standard input and the time, and prints the reply.

| here | there |
| --- | --- |
| `main` | `main` |
-/

section

open Typeahead.CommandLine

/-- Read all of standard input; nothing if it is not text. -/
def readStandardInput : IO (Option String) := do
  let bytes ← (← IO.getStdin).readBinToEnd
  return String.fromUTF8? bytes

/-- Print a reply and give its exit code. -/
def deliver (reply : Reply) : IO UInt32 := do
  (← IO.getStdout).putStr reply.out
  (← IO.getStderr).putStr reply.err
  return reply.code.toUInt32

def main (arguments : List String) : IO UInt32 := do
  match Plan.ofArguments arguments with
  | .answer reply => deliver reply
  | .read invocation =>
    match ← if invocation.wantsInput then readStandardInput else pure (some "") with
    | none => deliver unreadable
    | some standard =>
      let start ← IO.monoNanosNow
      let findings ← IO.lazyPure fun _ => invocation.findings (invocation.input standard)
      let stop ← IO.monoNanosNow
      let terminal ← (← IO.getStdout).isTty
      deliver (invocation.report terminal (Timing.ofNanos (stop - start)) findings)

end
