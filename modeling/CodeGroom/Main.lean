import CodeGroom.CommandLine.Parse
import CodeGroom.Job

/-!
# The command

Reads the command line and the files that it names, and prints what the job over them prints; reports and faults go to standard
error.
-/

open CodeGroom

/-- The name of a file for the operating system. -/
def osName (file : FilePath) : String := file.toText.plain

/-- The fault that an error of the operating system stands for. -/
def faultOf (file : FilePath) : IO.Error → Fault
  | .noFileOrDirectory .. => .fileMissing file.toText
  | .inappropriateType .. => .fileIsDirectory file.toText
  | e => .unreadable file.toText e.toString

/-- The bytes of a file. -/
def readFile (file : FilePath) : IO (Except Fault (List UInt8)) := do
  try
    let bytes ← IO.FS.readBinFile (osName file)
    return .ok bytes.toList
  catch e => return .error (faultOf file e)

/-- Runs the command and gives its exit code. -/
def main (args : List String) : IO UInt32 := do
  let stderr ← IO.getStderr
  match CommandLine.parse (args.map Text.ofString) with
  | .error e =>
    stderr.putStrLn e.message
    return e.exitCode.toUInt32
  | .ok settings =>
    let files ← settings.files.mapM fun file => return (file, ← readFile file)
    let result := Job.run settings fun file => (files.lookup file).getD (.error (.fileMissing file.toText))
    (← IO.getStdout).write (ByteArray.mk result.printed.toArray)
    result.report.forM stderr.putStrLn
    match result.fault with
    | some e =>
      stderr.putStrLn e.message
      return 1
    | none => return 0
