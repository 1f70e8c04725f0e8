import WalbTools.InterruptedApply
import WalbTools.Archive
import WalbTools.WlogResend
import WalbTools.DiffMerge
import WalbTools.StopCommands
import WalbTools.FullRepl
import WalbTools.QueueCrash
import WalbTools.DirtyHashSync
import WalbTools.DiffRepl
import WalbTools.BdevWriter
import WalbTools.DiffCompressor
import WalbTools.WldevReader
import WalbTools.DiffVirt
import WalbTools.IndexedReader
import WalbTools.GarbageDiffs
import WalbTools.DiffMemRuns
import WalbTools.MergeProgress
import WalbTools.WdiffTransfer
import WalbTools.WlogNet
import WalbTools.MergeKeeps
import WalbTools.IndexLookup
import WalbTools.LogPackLayout
import WalbTools.SuperBlock
import WalbTools.MetaText
import WalbTools.Tasks
import WalbTools.FinishTransfer
import WalbTools.SortedReader
import WalbTools.PackSize
import WalbTools.LruCache
import WalbTools.OverlapCount
import WalbTools.UnitText
import WalbTools.IoQueue
import WalbTools.BdevBounds
import WalbTools.PackRoundTrip
import WalbTools.WlogFile
import WalbTools.SortedFile
import WalbTools.WlogRedo
import WalbTools.WlogConvert
import WalbTools.ArchiveStates
import WalbTools.StorageStates
