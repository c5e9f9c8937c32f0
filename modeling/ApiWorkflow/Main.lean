import ApiWorkflow.Command.Run
import ApiWorkflow.Json.Text
import ApiWorkflow.Source.Decoder

/-! # The command line

The program works on a snapshot of files, which it reads from standard input. The
paths of its arguments are paths of the snapshot.
-/

namespace ApiWorkflow

/-- The name of the directory at the top of a snapshot. -/
def snapshotRoot : List (List Char) := ["snapshot".toList]

/-- The tree of files that a text describes. -/
def readSnapshot (text : String) : FileSystem :=
  let entries := match Source.decode (Json.source text.toList) Source.opaqueValue with
    | .ok (.array items) => items.filterMap FileEntry.ofJson?
    | _ => []
  FileSystem.ofEntries 0 0 snapshotRoot entries

/-- The variables of the environment that the program looks at. -/
def variableNames : List String :=
  [Arguments.configKey, Settings.logLevelKey, Settings.lifetimeKey, Settings.maxDepthKey]

end ApiWorkflow

open ApiWorkflow

def main (arguments : List String) : IO UInt32 := do
  let files := readSnapshot (← (← IO.getStdin).readToEnd)
  let time ← IO.monoNanosNow
  let values ← variableNames.mapM fun name => do pure (name, ← IO.getEnv name)
  let env : Environment := fun name => (values.lookup name).join
  let outcome := Command.run { now := { files := files, time := time }, env := env } arguments
  IO.print outcome.printed.output
  match outcome.failed with
  | some message => IO.eprintln ("arazzo failed: " ++ message)
  | none => pure ()
  pure (UInt32.ofNat outcome.exitCode)
