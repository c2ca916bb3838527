import ClassFile.Draft.Class
import ClassFile.Image.Contents

/-!
# Writing what was read

The contents of a class file go to a writer event by event. A writer that keeps the constant pool of the class file can take
its methods as they stand, since the indices in them still mean the same.
-/

namespace ClassFile

namespace Image

/-- The writer after the contents of a class file, with nothing left open, and what stopped the contents if something did.
Methods are taken as they stand if the class file has the number of a source. -/
def playTo (image : Image) (omitted : Omissions) (source : Option SourceId) (writer : Writer) : Except Error Unit × Writer :=
  let (result, events) := image.contents omitted { copies := source }
  (result, (writer.play events).closeAll)

/-- The class file encoded anew. With its constant pool kept, methods are taken as they stand. -/
def reencode (image : Image) (policy : FramePolicy) (keepPool : Bool) (h : Hierarchy) : Except Error Bytes := do
  let source : Option SourceId := if keepPool then some 0 else none
  let writer ←
    if keepPool then pure (Writer.withPool policy h (← image.pool.toPool) source)
    else pure (Writer.start policy h)
  let (result, writer) := image.playTo {} source writer
  result
  writer.toBytes

end Image

end ClassFile
