import RaptorqTs.Lib.Machine
import RaptorqTs.Lib.BTreeMap
import RaptorqTs.Lib.Reorder
import RaptorqTs.Lib.Slice
import RaptorqTs.Lib.Fifo
import RaptorqTs.Lib.Frontier
import RaptorqTs.Lib.Comb
import RaptorqTs.Lib.Framing
import RaptorqTs.Lib.XorLinear
import RaptorqTs.Lib.WriteBehind
import RaptorqTs.Lib.Paced
import RaptorqTs.Lib.Rounding
import RaptorqTs.Common.Raptorq
import RaptorqTs.Common.WireTheorems
import RaptorqTs.Common.Reference
import RaptorqTs.Common.RoundTrip
import RaptorqTs.Stream
import RaptorqTs.Dec.RunDecoder
import RaptorqTs.Dec.Routing
import RaptorqTs.Dec.Position
import RaptorqTs.Dec.Timeout
import RaptorqTs.Dec.Order
import RaptorqTs.Dec.Content
import RaptorqTs.Dec.Recovery
import RaptorqTs.Dec.Classify
import RaptorqTs.Dec.Determinism
import RaptorqTs.Dec.Useless
import RaptorqTs.Dec.Playout
import RaptorqTs.Dec.Permute
import RaptorqTs.Dec.OwnOti
import RaptorqTs.Dec.Agreement
import RaptorqTs.Dec.Tally
import RaptorqTs.Dec.Reader
import RaptorqTs.Dec.Resync
import RaptorqTs.Dec.BestEffort
import RaptorqTs.Dec.GiveUp
import RaptorqTs.Dec.Drain
import RaptorqTs.Dec.Unwrap
import RaptorqTs.Dec.Process
import RaptorqTs.Dec.Completion
import RaptorqTs.Dec.TuneIn
import RaptorqTs.Dec.InStep
import RaptorqTs.Dec.Regain
import RaptorqTs.Dec.Damage
import RaptorqTs.Dec.BlockStats
import RaptorqTs.Enc.Reader
import RaptorqTs.Enc.Encoder
import RaptorqTs.Enc.Xorshift
import RaptorqTs.Enc.Spacing
import RaptorqTs.Enc.Sent
import RaptorqTs.Enc.InBand
import RaptorqTs.Enc.Adaptive
import RaptorqTs.Enc.Repair
import RaptorqTs.Enc.Pick
import RaptorqTs.Enc.Prune
import RaptorqTs.Enc.Writer
import RaptorqTs.Enc.Pacing
import RaptorqTs.Enc.Timed
import RaptorqTs.Enc.Numbering
import RaptorqTs.EndToEnd
import RaptorqTs.Enc.Pipeline
import RaptorqTs.Enc.Shutdown
import RaptorqTs.Enc.Completion
import RaptorqTs.Link
import RaptorqTs.System
import RaptorqTs.Restart
import RaptorqTs.Damage
import RaptorqTs.Cli
import RaptorqTs.Config
import RaptorqTs.Loss
import RaptorqTs.Memory
