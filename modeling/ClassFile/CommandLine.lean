import ClassFile.Directory
import ClassFile.Error.Report
import ClassFile.Hierarchy.Platform
import ClassFile.Image.Reencode
import ClassFile.Listing.Lines

/-!
# The command line

The arguments name a class file and say what to do with it: list it, or encode it anew with stack maps computed afresh. What
a run prints and writes is a function of the arguments and of the bytes of the files that they name; `perform` is the same
for a directory with all its files.
-/

namespace ClassFile

namespace CommandLine

/-- What is asked for. -/
structure Request where
  input : String
  output : Option String
  frames : FramePolicy
  /-- Directories of class files from which superclasses are known. -/
  classPath : List String
  copyPool : Bool
  dump : Bool
  deriving DecidableEq, Repr

/-- What a list of arguments comes to. -/
inductive Invocation where
  | run (request : Request)
  | help
  | version
  | misuse (reason : String)
  deriving DecidableEq, Repr

/-- The arguments read so far. -/
structure Arguments where
  input : Option String := none
  output : Option String := none
  frames : Option FramePolicy := none
  classPath : List String := []
  copyPool : Bool := false
  dump : Bool := false
  deriving DecidableEq, Repr

namespace Arguments

/-- Takes the class file to read. -/
def operand (a : Arguments) (value : String) : Except String Arguments :=
  if a.input.isSome then .error ("unexpected argument '" ++ value ++ "'") else .ok { a with input := some value }

/-- Whether the option of a name takes a value. -/
def takesValue (name : String) : Bool :=
  name == "output" || name == "frames" || name == "classpath"

/-- Takes an option with its value. All but the class path stand at most once. -/
def take (a : Arguments) (name value : String) : Except String Arguments :=
  let once (given : Bool) (taken : Except String Arguments) : Except String Arguments :=
    if given then .error ("the argument '--" ++ name ++ "' cannot be used multiple times") else taken
  if name = "output" then once a.output.isSome (.ok { a with output := some value })
  else if name = "frames" then
    once a.frames.isSome ((FramePolicy.parse value).map fun policy => { a with frames := some policy })
  else .ok { a with classPath := a.classPath ++ [value] }

/-- Takes an option without a value, if there is one of the name and it has not been taken yet. -/
def flag? (a : Arguments) (name : String) : Option Arguments :=
  match name with
  | "copy-pool" => if a.copyPool then none else some { a with copyPool := true }
  | "dump" => if a.dump then none else some { a with dump := true }
  | _ => none

/-- The request, if there is a class file to read. -/
def finish (a : Arguments) : Invocation :=
  match a.input with
  | some input =>
    .run ⟨input, a.output, a.frames.getD .auto, a.classPath, a.copyPool, a.dump⟩
  | none => .misuse "the required argument <INPUT> was not provided"

/-- Whether an argument can be the value of an option that stands before it. -/
def isValue (argument : String) : Bool :=
  !argument.startsWith "-" || argument == "-"

/-- The name of a long option, and its value if it stands behind an equals sign. -/
def splitOption (argument : List Char) : String × Option String :=
  match argument.span (· != '=') with
  | (name, _ :: value) => (String.ofList name, some (String.ofList value))
  | (name, []) => (String.ofList name, none)

/-- Takes the arguments behind a double dash, which are no options. -/
def operands (a : Arguments) (arguments : List String) : Invocation :=
  match arguments.foldlM operand a with
  | .ok a => a.finish
  | .error reason => .misuse reason

/-- Takes arguments one by one; the first one that asks for help or the version, or makes no sense, decides. An option may
wait for its value. -/
def read (a : Arguments) (waiting : Option String) : List String → Invocation
  | [] =>
    match waiting with
    | some name => .misuse ("a value is required for '--" ++ name ++ "'")
    | none => a.finish
  | argument :: rest =>
    let continued (taken : Except String Arguments) : Invocation :=
      match taken with
      | .ok a => a.read none rest
      | .error reason => .misuse reason
    let unexpected : Invocation := .misuse ("unexpected argument '" ++ argument ++ "'")
    match waiting with
    | some name =>
      if isValue argument then continued (a.take name argument)
      else .misuse ("a value is required for '--" ++ name ++ "'")
    | none =>
      match argument.toList with
      | ['-', '-'] => a.operands rest
      | '-' :: '-' :: text =>
        match splitOption text with
        | (name, some value) => if takesValue name then continued (a.take name value) else unexpected
        | (name, none) =>
          if takesValue name then a.read (some name) rest
          else if name = "help" then .help
          else if name = "version" then .version
          else
            match a.flag? name with
            | some a => a.read none rest
            | none => unexpected
      | '-' :: 'h' :: _ => .help
      | '-' :: 'V' :: _ => .version
      | '-' :: _ :: _ => unexpected
      | _ => continued (a.operand argument)

end Arguments

/-- What a list of arguments comes to. -/
def parse (arguments : List String) : Invocation :=
  ({} : Arguments).read none arguments

/-- The name and version of the program. -/
def versionLine : String := "Class file rewriter 0.1.0"

/-- How the program is used. -/
def usageLines : List String := [
  "Usage: classfile [OPTIONS] <INPUT>",
  "",
  "Read a JVM class file and write it back, recomputing stack maps",
  "",
  "  --output <FILE>    Write the re-encoded class to this file",
  "  --frames <MODE>    What to compute for method bodies [auto, max-stack, frames]",
  "  --classpath <DIR>  Directory of class files whose superclasses are used when merging types",
  "  --copy-pool        Keep the constant pool and copy unchanged methods as they are",
  "  --dump             Print the structure of the class instead of encoding it anew",
  "  -h, --help         Print help",
  "  -V, --version      Print version"]

/-- Whether a path names a class file. -/
def isClassFile (path : String) : Bool :=
  let name := (path.toList.reverse.takeWhile (· != '/')).reverse
  ".class".toList.isSuffixOf name && name.length > 6

/-- What a run leaves behind: the lines it prints, the failure that ended it, and the bytes for the output file. -/
structure Outcome where
  lines : List String := []
  failure : Option Error := none
  written : Option Bytes := none
  deriving Repr

namespace Outcome

/-- A run that an error ended. -/
def ofError (e : Error) : Outcome :=
  { failure := some e }

/-- The line for the failure that ended a run. -/
def failureLine (o : Outcome) : Option String :=
  o.failure.map fun e => "Error: " ++ e.report

/-- Zero for a run that came to its end. -/
def exitCode (o : Outcome) : UInt32 :=
  if o.failure.isSome then 1 else 0

end Outcome

/-- The exit code of a run that never starts since its arguments make no sense. -/
def misuseCode : UInt32 := 2

/-- The superclasses known from the platform and from class files; what is no class file is passed over. -/
def hierarchy (classPath : List Bytes) : Hierarchy :=
  classPath.foldl (fun h bytes => match h.insertClassFile bytes with
    | .ok (_, h) => h
    | .error _ => h) .platform

/-- What a request comes to for a class file and the class files of the class path. -/
def Request.run (r : Request) (input : Bytes) (classPath : List Bytes) : Outcome :=
  match Image.parse input with
  | .error e => .ofError e
  | .ok image =>
    if r.dump then
      let (result, lines) := Listing.ofImage image
      { lines, failure := match result with
        | .ok _ => none
        | .error e => some e }
    else
      match image.reencode r.frames r.copyPool (hierarchy classPath) with
      | .error e => .ofError e
      | .ok bytes =>
        if r.output.isSome then { written := some bytes }
        else { lines := [r.input ++ s!": {input.size} bytes read, {bytes.size} bytes re-encoded"] }

/-- How the program ends in a directory: its exit code, the lines it prints, the line on what went wrong, and
the files as they are then. -/
structure Ending where
  code : UInt32
  lines : List String
  failureLine : Option String
  files : Directory
  deriving Repr

/-- The end of a run for which a file is missing. -/
def Ending.missing (d : Directory) : Ending :=
  ⟨1, [], some "Error: no such file or directory", d⟩

/-- Carries a request out in a directory. -/
def Request.perform (r : Request) (d : Directory) : Ending :=
  match d.read? r.input with
  | none => .missing d
  | some input =>
    let found := r.classPath.flatMap d.below
    let outcome := r.run input ((found.filter fun (name, _) => isClassFile name).map (·.2))
    match r.output, outcome.written with
    | some output, some bytes =>
      match d.write? output bytes with
      | none => .missing d
      | some d => ⟨outcome.exitCode, outcome.lines, outcome.failureLine, d⟩
    | _, _ => ⟨outcome.exitCode, outcome.lines, outcome.failureLine, d⟩

/-- What the program does in a directory when it is given arguments. -/
def perform (arguments : List String) (d : Directory) : Ending :=
  match parse arguments with
  | .run request => request.perform d
  | .help => ⟨0, usageLines, none, d⟩
  | .version => ⟨0, [versionLine], none, d⟩
  | .misuse reason => ⟨misuseCode, [], some ("error: " ++ reason), d⟩

end CommandLine

end ClassFile
