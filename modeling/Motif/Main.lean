import Motif.Command.Run

/-!
# The command

Reads the files that the arguments name, performs the run, and prints what it gives. The exit code is
zero for a result, one for a failure and two for a mistake in usage.
-/

open Motif.Command

/-- The text of one file. -/
def readDisk (name : String) : IO (Except FileFault (List Char)) := do
  try
    return textOfBytes (← IO.FS.readBinFile name)
  catch
    | .noFileOrDirectory .. => return .error .missing
    | .inappropriateType _ 21 _ => return .error .directory
    | .inappropriateType .. => return .error .notDirectory
    | e => return .error (.system e.toString)

def printChain : List String → IO Unit
  | [] => return ()
  | [reason] => IO.eprintln s!"Error: {reason}"
  | reason :: causes => do
    IO.eprintln s!"Error: {reason}\n\nCaused by:"
    for cause in causes do
      IO.eprintln s!"    {cause}"

def main (args : List String) : IO UInt32 := do
  let names := ((Options.ofArguments args).map files).getD []
  let texts ← names.mapM fun name => return (name, ← readDisk name)
  let disk : Disk := fun name => (texts.lookup name).getD (.error .missing)
  match run disk 1 args with
  | .printed text =>
    IO.print (String.ofList text)
    return 0
  | .misused =>
    IO.eprintln "error: the arguments cannot be used"
    return 2
  | .halted (.failed cause) =>
    printChain cause.chain
    return 1
  | .halted (.broken cause) =>
    IO.eprintln (cause.message?.getD "index out of bounds")
    return 101
