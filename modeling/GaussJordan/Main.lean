import GaussJordan.CommandLine.Run

/-!
# GaussJordan.Main

The command on the files of the machine. Records go to the standard error stream, one line each.
-/

open GaussJordan

/-- Runs a file action; a failure that is not a missing file or a directory counts as one of
them. -/
def guardFile {β : Type} (action : IO β) : IO (Except FileFault β) := do
  try
    return .ok (← action)
  catch
    | .noFileOrDirectory .. => return .error .notFound
    | .inappropriateType .. => return .error .isDirectory
    | _ => return .error .notFound

def machineAccess : CommandLine.Access IO where
  read path := guardFile (IO.FS.readBinFile path)
  write path bytes := guardFile (IO.FS.writeBinFile path bytes)

def main (arguments : List String) : IO UInt32 := do
  let outcome ← CommandLine.command machineAccess arguments
  for record in outcome.log do
    IO.eprintln record.text
  match outcome.ending with
  | .exited status text =>
    if status = 0 then IO.print text else IO.eprint text
    return status.toUInt32
  | .escaped (.solving fault) =>
    IO.eprintln fault.message
    return 1
  | .escaped (.settings _) =>
    let path := Settings.path
    IO.eprintln s!"unusable settings in {path}"
    return 1
