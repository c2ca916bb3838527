import ClassFile.Attribute
import ClassFile.AccessFlags
import ClassFile.Event

/-!
# What the parts of a class share while it is written

The constant pool, the type table and what is known of other classes. A step that fails is reported here, where the first
report stays.
-/

namespace ClassFile

/-- State shared by a class and its members while they are written. -/
structure Context where
  pool : ConstantPool
  types : TypeTable := .empty
  hierarchy : Hierarchy
  version : Version := .java8
  className : String := ""
  policy : FramePolicy
  /-- The class file whose pool this pool started from. -/
  source : Option SourceId
  /-- First cause of failure. -/
  failure : Option Error := none

namespace Context

/-- The context after a cause of failure; an earlier one stays. -/
def fail (ctx : Context) (e : Error) : Context :=
  { ctx with failure := ctx.failure.or (some e) }

/-- The context after a possible cause of failure. -/
def check (ctx : Context) (e : Option Error) : Context :=
  match e with
  | some e => ctx.fail e
  | none => ctx

/-- Takes constants from the pool, which may grow. -/
def intern {α : Type} (ctx : Context) (step : Interning α) : α × Context :=
  let ⟨pool, types, hierarchy, version, className, policy, source, failure⟩ := ctx
  let (a, pool) := step pool
  (a, ⟨pool, types, hierarchy, version, className, policy, source, failure⟩)

end Context

/-- The markers of a member, which say what its flags do not say in the class file. -/
def syntheticMarker (access : UInt32) (major : UInt16) : List AttributeContent :=
  if AccessFlags.hasSyntheticMarker access major then [.synthetic] else []

/-- The marker of a deprecated member. -/
def deprecatedMarker (access : UInt32) : List AttributeContent :=
  if AccessFlags.isDeprecated access then [.deprecated] else []

/-- The attribute of annotations, if there are any. -/
def annotationsContent (list : AnnotationList) : List AttributeContent :=
  if list.isEmpty then [] else [.visibleAnnotations list]

/-- Attributes under their names, in order. -/
def internAttributes : List AttributeContent → Interning (List Attribute)
  | [] => pure []
  | content :: rest => do
    let a ← ConstantPool.attribute content
    let as ← internAttributes rest
    pure (a :: as)

end ClassFile
