import LlamaCpp.Alloc.PlanReuse
import LlamaCpp.Dsv4.DeferredCopies
import LlamaCpp.Dsv4.WindowRuns
import LlamaCpp.Gguf.RoundTrip
import LlamaCpp.Kv.CellsRuns
import LlamaCpp.Kv.PrevTokens
import LlamaCpp.Kv.Dsa
import LlamaCpp.Grammar.RecursionCheck
import LlamaCpp.Grammar.MaskAgreement
import LlamaCpp.Server.AloraScan
import LlamaCpp.Server.Stranded
import LlamaCpp.Server.Results
import LlamaCpp.Server.Stream
import LlamaCpp.Server.Sessions
import LlamaCpp.Server.StopWords
import LlamaCpp.Chat.Stream
import LlamaCpp.Server.Positions
import LlamaCpp.Server.CheckpointRuns
import LlamaCpp.Server.SpeculativeRuns
import LlamaCpp.Moe.CacheRuns
import LlamaCpp.Kv.SearchComplete
import LlamaCpp.Rpc.Replay
import LlamaCpp.Rpc.GraphShipping
import LlamaCpp.Rpc.GraphCacheRuns
import LlamaCpp.Rpc.ResponseOrder
import LlamaCpp.Rpc.FenceOrder
import LlamaCpp.Batch.SplitTails
import LlamaCpp.Batch.SeqSets
import LlamaCpp.Recurrent.Removals
import LlamaCpp.Recurrent.Hybrid
import LlamaCpp.Kv.TransposedValues
import LlamaCpp.Moe.PlacementTables
import LlamaCpp.Kv.KqMaskRows
import LlamaCpp.Grammar.Repetition
import LlamaCpp.Grammar.PartialChars
import LlamaCpp.Common.Penalties
import LlamaCpp.Common.DryScan
import LlamaCpp.Common.MaximalCoupling
import LlamaCpp.Peg.Until
import LlamaCpp.Alloc.TallocrRuns
import LlamaCpp.Common.BudgetRuns
import LlamaCpp.Schema.ObjectSequences
import LlamaCpp.Schema.IntRule
import LlamaCpp.Alloc.ContextPacking
