import Xtrax.PackLockSafety
import Xtrax.FileGuardSnapshot
import Xtrax.FileGuardJobs
import Xtrax.LedgerCompact
import Xtrax.LedgerLookup
import Xtrax.LedgerRows
import Xtrax.LedgerBlobs
import Xtrax.UnitReadersSafety
import Xtrax.IntentLoop
import Xtrax.DependenceSound
import Xtrax.IntentScanAroundWhile
import Xtrax.ZarrDurableSafety
import Xtrax.RefWriters
import Xtrax.OutcomeLabels
import Xtrax.EngineSteps
import Xtrax.IndexedStream
import Xtrax.SlicesSound
import Xtrax.Holm
import Xtrax.Preemption
import Xtrax.KeyStream
import Xtrax.Onnx
import Xtrax.RungProbes
import Xtrax.RuntimeKeysSound
import Xtrax.ModelJitSound
import Xtrax.ExportCompositionSound
import Xtrax.LedgerReaderRuns
import Xtrax.Bucket
import Xtrax.BatchPlannerHeterogeneous
import Xtrax.KernelParity
import Xtrax.Attestation
import Xtrax.DedupDispatch
import Xtrax.CseSound
import Xtrax.GraphDocuments
import Xtrax.MemoCache
import Xtrax.UnitIndexPrecedence
import Xtrax.DurableDrain
import Xtrax.IntentAddresses
import Xtrax.MemorySinkDigest
import Xtrax.LooseMembersExact
import Xtrax.RecordValues
import Xtrax.ZarrSinkRuns
import Xtrax.SourceFingerprint
import Xtrax.FileGuardRetries
import Xtrax.WriterLiveness
import Xtrax.CoreDigest
import Xtrax.OrcdReport
import Xtrax.StructuralMutation
import Xtrax.EvaluatorChangeGate
import Xtrax.IntentPlanJson
import Xtrax.IntentSites
import Xtrax.InputPipeline
import Xtrax.BusyTime
import Xtrax.NormalForm
