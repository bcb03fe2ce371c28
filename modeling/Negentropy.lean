import Negentropy.Deltas
import Negentropy.Storage.Windows
import Negentropy.Storage.LMDB.Programs
import Negentropy.Storage.BTree.Oscillation
import Negentropy.Interchange
import Negentropy.Partition
import Negentropy.Settled
import Negentropy.Bounds
import Negentropy.History
import Negentropy.Grammar
import Negentropy.IdLists
import Negentropy.Sealing
import Negentropy.Js.Accumulator
import Negentropy.Js.Implementations
import Negentropy.Js.Messages
import Negentropy.Js.Sessions
import Negentropy.Js.Order
import Negentropy.Js.Varint
import Negentropy.Lib.Rbsr.Divide
import Negentropy.Lib.Rbsr.Traffic
import Negentropy.Lib.Rbsr.Size
import Negentropy.Efficiency
import Negentropy.Storage.BTree.Height
import Negentropy.Lib.Rbsr.Ongoing
import Negentropy.Live.Reports
import Negentropy.Live.Settling
import Negentropy.Live.Sessions
import Negentropy.Lib.Generations
import Negentropy.Storage.BTree.Debug
import Negentropy.Storage.BTree.Accepted
import Negentropy.Storage.BTree.Checked
import Negentropy.Storage.LMDB.Debug
import Negentropy.Lib.Guarded
import Negentropy.Exceptions
