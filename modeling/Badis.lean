import Badis.Lib.Acyclic
import Badis.Lib.Bytes
import Badis.Lib.Crc
import Badis.Lib.CrcCancel
import Badis.Lib.Msgpack
import Badis.Lib.Occurrences
import Badis.Lib.OrdFinmap
import Badis.Lib.OrdMap
import Badis.Lib.Overwrite
import Badis.Lib.RWLock
import Badis.Lib.Relay
import Badis.Lib.Sha1
import Badis.Lib.Simulation
import Badis.Lib.Slice
import Badis.Lib.Txn
import Badis.Lib.Wildcard
import Badis.Lib.Wrap
import Badis.Store.Badger
import Badis.Store.Checked
import Badis.Store.Command
import Badis.Store.Compaction
import Badis.Store.Coordination
import Badis.Store.Encoding
import Badis.Store.Fsm
import Badis.Store.Glob
import Badis.Store.Keyspace
import Badis.Store.Log
import Badis.Store.LogStore
import Badis.Store.Lua
import Badis.Store.Plan
import Badis.Store.RaftStore
import Badis.Store.Reachable
import Badis.Store.Reads
import Badis.Store.Registry
import Badis.Store.Replay
import Badis.Store.Return
import Badis.Store.Serial
import Badis.Store.Snapshot
import Badis.Store.StableStore
import Badis.Store.Proofs.ActionProofs
import Badis.Store.Proofs.AgreementProofs
import Badis.Store.Proofs.BadgerProofs
import Badis.Store.Proofs.BatchProofs
import Badis.Store.Proofs.CheckedProofs
import Badis.Store.Proofs.ClockProofs
import Badis.Store.Proofs.CommuteProofs
import Badis.Store.Proofs.CompactionProofs
import Badis.Store.Proofs.CoordinationProofs
import Badis.Store.Proofs.EffectProofs
import Badis.Store.Proofs.ErrorProofs
import Badis.Store.Proofs.ExistenceProofs
import Badis.Store.Proofs.ExpiryProofs
import Badis.Store.Proofs.FailureProofs
import Badis.Store.Proofs.FlushProofs
import Badis.Store.Proofs.GlobCutProofs
import Badis.Store.Proofs.GlobLanguageProofs
import Badis.Store.Proofs.GlobProofs
import Badis.Store.Proofs.IsolationProofs
import Badis.Store.Proofs.KeyspaceProofs
import Badis.Store.Proofs.LogStoreProofs
import Badis.Store.Proofs.LuaProofs
import Badis.Store.Proofs.MultiKeyProofs
import Badis.Store.Proofs.MutationProofs
import Badis.Store.Proofs.NumeralProofs
import Badis.Store.Proofs.PlanProofs
import Badis.Store.Proofs.RaftRestoreProofs
import Badis.Store.Proofs.RaftStoreProofs
import Badis.Store.Proofs.ReadsProofs
import Badis.Store.Proofs.RegistryProofs
import Badis.Store.Proofs.ReplayProofs
import Badis.Store.Proofs.RestartProofs
import Badis.Store.Proofs.ReturnProofs
import Badis.Store.Proofs.ScriptReadsProofs
import Badis.Store.Proofs.SerialProofs
import Badis.Store.Proofs.SnapshotProofs
import Badis.Store.Proofs.StableStoreProofs
import Badis.Store.Proofs.StepProofs
import Badis.Store.Proofs.TypeProofs
import Badis.Store.Proofs.ViewProofs
import Badis.Store.Proofs.WrongTypeProofs
import Badis.Server.Attempts
import Badis.Server.Cluster
import Badis.Server.ClusterRun
import Badis.Server.Concurrent
import Badis.Server.CounterSpec
import Badis.Server.Expiry
import Badis.Server.Forward
import Badis.Server.Handlers
import Badis.Server.HashSpec
import Badis.Server.Interleaving
import Badis.Server.ListSpec
import Badis.Server.Proxy
import Badis.Server.Replication
import Badis.Server.Requests
import Badis.Server.Resp
import Badis.Server.Router
import Badis.Server.ScriptCall
import Badis.Server.Session
import Badis.Server.SetGrammar
import Badis.Server.SetSpec
import Badis.Server.Shard
import Badis.Server.SlotChange
import Badis.Server.SlotSpec
import Badis.Server.StringSpec
import Badis.Server.TypedCall
import Badis.Server.Proofs.AggregateProofs
import Badis.Server.Proofs.AttemptsProofs
import Badis.Server.Proofs.CallEffectProofs
import Badis.Server.Proofs.ClusterProofs
import Badis.Server.Proofs.ClusterRunProofs
import Badis.Server.Proofs.ConcurrentProofs
import Badis.Server.Proofs.CounterSpecProofs
import Badis.Server.Proofs.ExpiryRequestProofs
import Badis.Server.Proofs.ForwardProofs
import Badis.Server.Proofs.HandlerProofs
import Badis.Server.Proofs.HashSpecProofs
import Badis.Server.Proofs.InterleavingProofs
import Badis.Server.Proofs.KeyUseProofs
import Badis.Server.Proofs.LRemProofs
import Badis.Server.Proofs.ListSpecProofs
import Badis.Server.Proofs.ProxyProofs
import Badis.Server.Proofs.ReplicationProofs
import Badis.Server.Proofs.ReplyProofs
import Badis.Server.Proofs.RequestsProofs
import Badis.Server.Proofs.RespProofs
import Badis.Server.Proofs.ResultProofs
import Badis.Server.Proofs.ScriptCallProofs
import Badis.Server.Proofs.ScriptSetProofs
import Badis.Server.Proofs.SessionProofs
import Badis.Server.Proofs.SetGrammarProofs
import Badis.Server.Proofs.SetSpecProofs
import Badis.Server.Proofs.ShardProofs
import Badis.Server.Proofs.SlotChangeProofs
import Badis.Server.Proofs.SlotSpecProofs
import Badis.Server.Proofs.SlotSpreadProofs
import Badis.Server.Proofs.StringSpecProofs
import Badis.Server.Proofs.TypedCallProofs
