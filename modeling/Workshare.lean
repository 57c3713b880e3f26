import Workshare.Basic
import Workshare.Layered
import Workshare.Steps
import Workshare.StackedMap
import Workshare.StackedMap.Reference
import Workshare.Rlp
import Workshare.Lowrlp
import Workshare.RlpValue
import Workshare.Outcome
import Workshare.State.Account
import Workshare.State.State
import Workshare.State.Checkpoint
import Workshare.State.Frame
import Workshare.Runtime.StateDB
import Workshare.Runtime.Snapshot
import Workshare.Runtime.Energy
import Workshare.Consensus.Authority
import Workshare.Consensus.Poa
import Workshare.Consensus.Schedule
import Workshare.Trie.Key
import Workshare.Trie.Node
import Workshare.Trie.Trie
import Workshare.Trie.Hasher
import Workshare.Trie.Extended
import Workshare.Muxdb.Cache
import Workshare.Muxdb.Trie
import Workshare.Trie.Tree
import Workshare.Trie.TreeUpdate
import Workshare.Trie.Sound
import Workshare.Trie.Load
import Workshare.Trie.Refine
import Workshare.Trie.Commit
import Workshare.Trie.Run
import Workshare.Trie.Leaves
import Workshare.Trie.Iterator
import Workshare.Trie.IteratorWalk
import Workshare.Trie.Proof
import Workshare.Trie.DeriveRoot
import Workshare.Tx.Transaction
import Workshare.Packer.Flow
import Workshare.Builtin.Energy
import Workshare.Builtin.Prototype
import Workshare.Runtime.ResolvedTx
import Workshare.Runtime.Executor
import Workshare.Codec
import Workshare.RlpCodec
import Workshare.Tx.Codec
import Workshare.Block.GasLimit
import Workshare.Vm.Memory
import Workshare.Txpool.TxObjectMap
import Workshare.Search
import Workshare.Chain.Chain
import Workshare.Comm.Sync
import Workshare.Vm.Analysis
import Workshare.Block.Block
import Workshare.Trie.NodeCodec
import Workshare.Logdb.Sequence
import Workshare.Cache.RandCache
import Workshare.Muxdb.Keys
import Workshare.GoHeap
import Workshare.Cache.PrioCache
import Workshare.Loop
import Workshare.Vm.Evm
import Workshare.Vm.Instructions
import Workshare.Vm.GasTable
import Workshare.Vm.JumpTable
import Workshare.Vm.Interpreter
