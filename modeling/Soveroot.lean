import Soveroot.Sync.Blocking
import Soveroot.Sync.Honest
import Soveroot.Accounting.Crash
import Soveroot.Miner.Plan
import Soveroot.Sv2.Declare
import Soveroot.Multihost.Replay
import Soveroot.Multihost.Diversity
import Soveroot.Multihost.Signature
import Soveroot.Multihost.KeyExchange
import Soveroot.Pow.HalfRecompute
import Soveroot.Pow.Packed
import Soveroot.Pow.Sparse
import Soveroot.Pow.Inclusion
import Soveroot.Pow.Schedule
import Soveroot.Coins.Stack
import Soveroot.Coins.Replay
import Soveroot.Headers.Honest
import Soveroot.Chain.Difficulty
import Soveroot.Chain.Versionbits
import Soveroot.Merkle.Partial
import Soveroot.TxRequest.Runs
import Soveroot.Pool.Withholding
import Soveroot.Accounting.NormalForm
import Soveroot.Miner.MerklePath
import Soveroot.Serialize.VarInt
import Soveroot.Pow.Shuffle
import Soveroot.Sv2.HexText
