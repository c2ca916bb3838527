import ClassFile.Bytes.Buffer
import ClassFile.Main
import ClassFile.Proofs.PoolGrowth
import ClassFile.Proofs.PoolConstants
import ClassFile.Proofs.PoolReading
import ClassFile.Proofs.Reading
import ClassFile.Proofs.TextEncoding
import ClassFile.Proofs.StackMapFormat
import ClassFile.Proofs.StackMapCompression
import ClassFile.Proofs.StackMapTables
import ClassFile.Proofs.TypeTableGrowth
import ClassFile.Proofs.DescriptorTypes
import ClassFile.Proofs.StraightLine
import ClassFile.Proofs.FrameTypes
import ClassFile.Proofs.FrameMeaning
import ClassFile.Proofs.FrameAgreement
import ClassFile.Proofs.FrameLeaving
import ClassFile.Proofs.FrameInstructions
import ClassFile.Proofs.FrameComposition
import ClassFile.Proofs.Superclasses
import ClassFile.Proofs.TypeOrder
import ClassFile.Proofs.TypeJoin
import ClassFile.Proofs.TypeLattice
import ClassFile.Proofs.NearestSuperclass
import ClassFile.Proofs.FrameMerge
import ClassFile.Proofs.FrameTaking
import ClassFile.Proofs.FrameRoom
import ClassFile.Proofs.BlockArena
import ClassFile.Proofs.FrameSearch
import ClassFile.Proofs.SearchEnd
import ClassFile.Proofs.SearchInvariant
import ClassFile.Proofs.SearchRun
import ClassFile.Proofs.FrameDrafting
import ClassFile.Proofs.FlowDrafting
import ClassFile.Proofs.SearchStart
import ClassFile.Proofs.SearchRounds
import ClassFile.Proofs.FrameSolution
import ClassFile.Proofs.CodeLayout
import ClassFile.Proofs.FlowPlaces
import ClassFile.Proofs.CodeEvents
import ClassFile.Proofs.PoolAccounts
import ClassFile.Proofs.PoolInterning
import ClassFile.Proofs.PoolRequests
import ClassFile.Proofs.CodeRecording
import ClassFile.Proofs.CodeDecoding
import ClassFile.Proofs.CodeReports
import ClassFile.Proofs.WriterGrowth
import ClassFile.Proofs.CodeListing
import ClassFile.Proofs.PoolScanning
import ClassFile.Proofs.PoolDecoding
import ClassFile.Proofs.DraftDriving
import ClassFile.Proofs.ClassLayout
import ClassFile.Proofs.ClassReading
import ClassFile.Proofs.MethodClosing
import ClassFile.Proofs.MethodReading
import ClassFile.Proofs.ClassPools
import ClassFile.Proofs.PoolCopying
import ClassFile.Proofs.CopiedPools
import ClassFile.Proofs.FlowStretches
import ClassFile.Proofs.FlowPlacing
import ClassFile.Proofs.LateLabels
import ClassFile.Proofs.CodeStretches
import ClassFile.Proofs.FlowHandlers
import ClassFile.Proofs.SearchMarks
import ClassFile.Proofs.StretchCuts
import ClassFile.Proofs.PoolRecall
import ClassFile.Proofs.AnnotationFormat
import ClassFile.Proofs.AnnotationReplay
import ClassFile.Proofs.AnnotationDrafting
import ClassFile.Proofs.AttributeFormat
import ClassFile.Proofs.FieldFormat
import ClassFile.Proofs.MethodFormat
import ClassFile.Proofs.ClassFormat
import ClassFile.Proofs.ClassDrafting
import ClassFile.Proofs.ClassReplay
import ClassFile.Proofs.ClassCopying
import ClassFile.Proofs.AnnotationTrees
import ClassFile.Proofs.Listening
import ClassFile.Proofs.CodeScanning
import ClassFile.Proofs.OmittedDebug
import ClassFile.Proofs.PartialContents
import ClassFile.Proofs.DeadCode
import ClassFile.Proofs.ExceptionRanges
import ClassFile.Proofs.FramedOffsets
import ClassFile.Proofs.SearchedStretches
import ClassFile.Proofs.FramedMethods
import ClassFile.Proofs.ReachableCode
import ClassFile.Proofs.SearchKeeping
import ClassFile.Proofs.FoundFrames
import ClassFile.Proofs.FrameMoves
import ClassFile.Proofs.FrameTracking
import ClassFile.Proofs.HandlerRanges
import ClassFile.Proofs.HandlerLocals
import ClassFile.Proofs.StoredLocals
import ClassFile.Proofs.FoundStretches
import ClassFile.Proofs.HandledMethods
import ClassFile.Proofs.Mirroring
import ClassFile.Proofs.MirroredWalks
import ClassFile.Proofs.MirroredCode
import ClassFile.Proofs.ClassParts
import ClassFile.Proofs.PartReading
import ClassFile.Proofs.GatheredAttributes
import ClassFile.Proofs.PlacedCode
import ClassFile.Proofs.PlacedParts
import ClassFile.Proofs.FoundParts
import ClassFile.Proofs.RevisedAttributes
import ClassFile.Proofs.AttributeOrder
import ClassFile.Proofs.CodePasses
import ClassFile.Proofs.LabelledCode
import ClassFile.Proofs.DebugEntries
import ClassFile.Proofs.EventKinds
import ClassFile.Proofs.Markers
import ClassFile.Proofs.MetadataScan
import ClassFile.Proofs.BufferStrings
import ClassFile.Proofs.DescriptorScans
import ClassFile.Proofs.ParameterLocals
import ClassFile.Proofs.ReferenceDescriptors
import ClassFile.Proofs.AnnouncedSizes
import ClassFile.Proofs.BlockOrder
import ClassFile.Proofs.RecordedBlocks
import ClassFile.Proofs.WideTypes
import ClassFile.Proofs.WideMerges
import ClassFile.Proofs.WideStores
import ClassFile.Proofs.SearchLoop
import ClassFile.Proofs.WideSearch
import ClassFile.Proofs.BlockOperations
import ClassFile.Proofs.WideLocals
