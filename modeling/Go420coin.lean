import Go420coin.Lib.BigEndian
import Go420coin.Rlp.Encode
import Go420coin.Rlp.Decode
import Go420coin.Rlp.StreamSpec
import Go420coin.Rlp.Canonical
import Go420coin.Rlp.Raw
import Go420coin.Trie.Encoding
import Go420coin.Trie.Trie
import Go420coin.Lib.ListMap
import Go420coin.Trie.Canonical
import Go420coin.Trie.Update
import Go420coin.Lib.Store
import Go420coin.Trie.Map
import Go420coin.Trie.Hasher
import Go420coin.Lib.KeyOrder
import Go420coin.Trie.StackTrie
import Go420coin.Lib.Except
import Go420coin.Trie.Committer
import Go420coin.Trie.NodeEncoding
import Go420coin.Trie.StackTrieRefinement
import Go420coin.Core.Types
import Go420coin.Core.DeriveSha
import Go420coin.Ethash.Difficulty
import Go420coin.Ethash.Reward
import Go420coin.Clique.Snapshot
import Go420coin.Clique.Seal
import Go420coin.Lib.ExchangeSort
import Go420coin.Core.ForkId
import Go420coin.Lib.SetMap
import Go420coin.Fetcher.TxFetcher
import Go420coin.Fetcher.Trackers
import Go420coin.Lib.EStateM
import Go420coin.Core.StateTransition
import Go420coin.Miner.Worker
import Go420coin.Rawdb.FreezerTable
import Go420coin.Rawdb.Truncate
import Go420coin.Core.TxPool
import Go420coin.Core.TxPoolEvict
import Go420coin.Lib.MemFilter
import Go420coin.Snapshot.Layers
import Go420coin.Snapshot.Tree
import Go420coin.Snapshot.Reads
import Go420coin.P2p.Netutil
import Go420coin.P2p.Table
import Go420coin.Les.FlowControl
import Go420coin.Lib.BinaryHeap
import Go420coin.Core.TxSortedMap
import Go420coin.Core.TxList
import Go420coin.Core.TxByPrice
import Go420coin.Vm.Smoke
import Go420coin.Vm.Interpreter
import Go420coin.Lib.BitArray
import Go420coin.Vm.Analysis
import Go420coin.State.StateObject
import Go420coin.State.AccessList
import Go420coin.State.StateDB
import Go420coin.State.Revert
import Go420coin.Lib.Loop
import Go420coin.State.Copy
import Go420coin.Rlp.RawStream
import Go420coin.Lib.Chunks
import Go420coin.Rlp.Output
import Go420coin.Rlp.StreamBounds
import Go420coin.Trie.NodeDecoding
import Go420coin.Rawdb.Repair
import Go420coin.Rawdb.RepairWrap
import Go420coin.Core.Signing
import Go420coin.Vm.Modexp
import Go420coin.Lib.Search
import Go420coin.Rlp.Elements
import Go420coin.P2p.Enr
import Go420coin.Lib.Least
import Go420coin.P2p.Lookup
import Go420coin.Common.Bitutil
import Go420coin.Common.Hexutil
import Go420coin.Lib.HeapInterface
import Go420coin.Common.Prque
import Go420coin.Downloader.ResultStore
import Go420coin.Core.Bloom
import Go420coin.Common.Bitwise
import Go420coin.Lib.Interval
import Go420coin.Bloombits.Generator
import Go420coin.Bloombits.Matcher
import Go420coin.Filters.Filter
import Go420coin.Fourtwenty.Bloombits
import Go420coin.Bloombits.Scheduler
import Go420coin.Bloombits.Distributor
import Go420coin.Lib.Arena
import Go420coin.Trie.Pointers
