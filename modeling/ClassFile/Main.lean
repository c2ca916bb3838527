import ClassFile.CommandLine

/-!
# The program

Reads the files that the arguments name, and prints and writes what the request comes to.
-/

open ClassFile CommandLine

/-- The bytes of a file. -/
def readBytes (path : String) : IO Bytes := do
  return (← IO.FS.readBinFile path).data

/-- The class files in a directory and all below it; the class path may also name one file. -/
def readClassPath (path : String) : IO (List Bytes) := do
  let root := System.mkFilePath [path]
  let found ← if ← root.isDir then root.walkDir else pure #[root]
  let files ← found.toList.filterM fun file => do
    return isClassFile file.toString && (← file.pathExists) && !(← file.isDir)
  files.mapM fun file => readBytes file.toString

/-- Carries a request out. -/
def carryOut (r : Request) : IO UInt32 := do
  let input ← readBytes r.input
  let classPath ← if r.dump then pure [] else r.classPath.mapM readClassPath
  let outcome := r.run input classPath.flatten
  outcome.lines.forM IO.println
  if let (some output, some bytes) := (r.output, outcome.written) then
    IO.FS.writeBinFile output ⟨bytes⟩
  if let some line := outcome.failureLine then
    IO.eprintln line
  return outcome.exitCode

def main (arguments : List String) : IO UInt32 := do
  match parse arguments with
  | .run request =>
    try carryOut request
    catch e =>
      IO.eprintln ("Error: " ++ toString e)
      return 1
  | .help =>
    usageLines.forM IO.println
    return 0
  | .version =>
    IO.println versionLine
    return 0
  | .misuse reason =>
    IO.eprintln ("error: " ++ reason)
    return misuseCode
