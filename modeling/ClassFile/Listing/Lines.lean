import ClassFile.Image.Contents
import ClassFile.Listing.Labels
import ClassFile.Listing.Value
import ClassFile.Opcode.Mnemonic

/-!
# Listings of classes

The contents of a class as lines of text, one event after the other. What belongs to the class stands two spaces in, what
belongs to a method four, instructions six, and the elements of an annotation two more than the annotation. Fields are listed
without their annotations.
-/

namespace ClassFile.Listing

/-- Where in a class a listing stands. -/
structure Place where
  /-- Whether a method is open. -/
  inMethod : Bool := false
  /-- How far in the next element of an annotation is written. -/
  depth : Nat := 0
  deriving DecidableEq, Repr

/-- Lines set in by a number of spaces. -/
def indent (n : Nat) (line : String) : String :=
  String.ofList (List.replicate n ' ') ++ line

/-- A label by its number. -/
def label (l : Label) : String :=
  "L" ++ toString l.id

/-- An instruction with its operands. -/
def instruction : Instruction → String
  | .bare op => Opcode.mnemonic op
  | .immediate op operand => Opcode.mnemonic op ++ " " ++ toString operand.toInt
  | .moveLocal op slot => Opcode.mnemonic op ++ " " ++ toString slot
  | .typed op name => Opcode.mnemonic op ++ " " ++ name
  | .field op owner name descriptor => Opcode.mnemonic op ++ " " ++ owner ++ "." ++ name ++ " " ++ descriptor
  | .invoke op member => Opcode.mnemonic op ++ " " ++ member.owner ++ "." ++ member.name ++ member.descriptor
  | .invokeDynamic name descriptor bootstrap arguments =>
    "invokedynamic " ++ name ++ descriptor ++ " via " ++ bootstrap.member.owner ++ "." ++ bootstrap.member.name ++
      s!" ({arguments.length} arguments)"
  | .jump op l => Opcode.mnemonic op ++ " " ++ label l
  | .constant value => "ldc " ++ value.describe
  | .increment slot amount => "iinc " ++ toString slot ++ " " ++ toString amount.toInt
  | .tableSwitch low high defaultLabel labels =>
    "tableswitch " ++ toString low.toInt ++ "..=" ++ toString high.toInt ++ " " ++
      Text.bracketed (labels.map label) ++ " default " ++ label defaultLabel
  | .lookupSwitch defaultLabel keys labels =>
    let cases := (keys.zip labels).map fun (key, l) => toString key.toInt ++ ": " ++ label l
    "lookupswitch " ++ Text.bracketed cases ++ " default " ++ label defaultLabel
  | .multiArray descriptor dimensions => "multianewarray " ++ descriptor ++ " " ++ toString dimensions

/-- An element of an annotation behind its name, if it has one. -/
def element (place : Place) (name : Option String) (text : String) : String :=
  indent place.depth (match name with
    | some name => name ++ " = " ++ text
    | none => text)

/-- A line for a text that may be missing. -/
def optional (lead : String) (text : Option String) : List String :=
  (text.map (lead ++ ·)).toList

/-- The lines of a class before its members. -/
def header (version : Version) (access : UInt32) (name : String) (signature superName : Option String)
    (interfaces : List String) : List String :=
  ["class " ++ name ++ " (version " ++ version.describe ++ ", " ++ FlagOwner.classes.describe access ++ ")"] ++
    optional "  extends " superName ++ interfaces.map ("  implements " ++ ·) ++ optional "  signature " signature

/-- The method or class that encloses a class. -/
def enclosing (owner : String) (name descriptor : Option String) : String :=
  match name, descriptor with
  | some name, some descriptor => "  enclosing method " ++ owner ++ "." ++ name ++ descriptor
  | _, _ => "  enclosing class " ++ owner

/-- An inner class. -/
def innerClass (name : String) (outer inner : Option String) (access : UInt16) : String :=
  "  inner class " ++ name ++ " (outer " ++ outer.getD "-" ++ ", simple name " ++ inner.getD "-" ++ ", " ++
    FlagOwner.innerClasses.describe access.toUInt32 ++ ")"

/-- A field, with the value it starts with if there is one. -/
def field (access : UInt32) (name descriptor : String) (value : Option ConstantValue) : String :=
  "  field " ++ name ++ " " ++ descriptor ++ ((value.map (" = " ++ ·.describe)).getD "") ++
    " (" ++ FlagOwner.fields.describe access ++ ")"

/-- The lines of an event, and where the listing stands after it. -/
def step (place : Place) : Event → Place × List String
  | .header version access name signature superName interfaces =>
    (place, header version access name signature superName interfaces)
  | .source file debug =>
    (place, optional "  source " file ++ (debug.map fun text => s!"  source debug ({text.utf8ByteSize} chars)").toList)
  | .outerClass owner name descriptor => (place, [enclosing owner name descriptor])
  | .nestHost name => (place, ["  nest host " ++ name])
  | .nestMember name => (place, ["  nest member " ++ name])
  | .innerClass name outer inner access => (place, [innerClass name outer inner access])
  | .annotationOpen descriptor =>
    let base := if place.inMethod then 4 else 2
    ({ place with depth := base + 2 }, [indent base ("@" ++ descriptor)])
  | .parameterAnnotationOpen parameter descriptor =>
    ({ place with depth := 6 }, ["    parameter " ++ toString parameter ++ " @" ++ descriptor])
  | .elementValue name value => (place, [element place name value.describe])
  | .elementEnum name descriptor constant => (place, [element place name (descriptor ++ "." ++ constant)])
  | .elementNested name descriptor =>
    ({ place with depth := place.depth + 2 }, [element place name ("@" ++ descriptor)])
  | .elementArray name => ({ place with depth := place.depth + 2 }, [element place name "["])
  | .elementsClose => ({ place with depth := place.depth - 2 }, [])
  | .fieldOpen access name descriptor _ value => (place, [field access name descriptor value])
  | .fieldClose => (place, [])
  | .methodOpen access name descriptor _ exceptions =>
    ({ place with inMethod := true },
      ("  method " ++ name ++ descriptor ++ " (" ++ FlagOwner.methods.describe access ++ ")") ::
        exceptions.map ("    throws " ++ ·))
  | .methodClose => ({ place with inMethod := false }, [])
  | .methodCopy _ _ => (place, [])
  | .instruction i => (place, [indent 6 (instruction i)])
  | .label l => (place, [indent 4 (label l ++ ":")])
  | .tryCatch start stop handler type =>
    (place, ["    try " ++ label start ++ ".." ++ label stop ++ " catch " ++ type.getD "any" ++ " -> " ++ label handler])
  | .localVariable name descriptor _ start stop slot =>
    (place, ["    local " ++ toString slot ++ " " ++ name ++ " " ++ descriptor ++ " (" ++ label start ++ ".." ++
      label stop ++ ")"])
  | .lineNumber line start => (place, ["    line " ++ toString line ++ " at " ++ label start])
  | .maxStack height => (place, ["    max stack " ++ toString height])
  | .classClose => (place, ["end"])
  | .abandon => (place, [])

/-- The lines of the contents of a class. -/
def lines (events : List Event) : List String :=
  let (_, lines) := (numberLabels events).foldl (fun (place, lines) event =>
    let (place, more) := step place event
    (place, lines ++ more.toArray)) (({} : Place), (#[] : Array String))
  lines.toList

/-- The listing of a class file, and what stopped it if something did. -/
def ofImage (image : Image) : Except Error Unit × List String :=
  let (result, events) := image.contents {} { fields := false }
  (result, lines events)

end ClassFile.Listing
