import Stoneleaf.Log.LogCrash
import Stoneleaf.Raft.StaleIndex
import Stoneleaf.Server.Startup
import Stoneleaf.Raft.HardStateRun
import Stoneleaf.Transaction.Deadlock
import Stoneleaf.Log.AppendFault
import Stoneleaf.Log.Rebuild
import Stoneleaf.Storage.PagerRefinement
import Stoneleaf.Storage.Replacement
import Stoneleaf.KeyStore.ScanSpec
import Stoneleaf.Client.CommandCodec
import Stoneleaf.Encoding.KeyInput
import Stoneleaf.Encoding.ValueInput
import Stoneleaf.Log.WalPayloadCodec
import Stoneleaf.Raft.ClusterConfig
import Stoneleaf.Storage.Corruption
import Stoneleaf.Transaction.LockQueue
import Stoneleaf.BTree.EffectKinds
import Stoneleaf.BTree.PageBytes
import Stoneleaf.Storage.LockMgr
import Stoneleaf.Raft.Replication
import Stoneleaf.BTree.InternalSplit
import Stoneleaf.BTree.MapRefinement
