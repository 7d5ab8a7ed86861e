import Ayubd.Base.Runs
import Ayubd.Base.Chain
import Ayubd.Base.SeqQueue
import Ayubd.Base.Buffer
import Ayubd.Base.Block
import Ayubd.Base.Loop
import Ayubd.Base.KeyStore
import Ayubd.Base.Read
import Ayubd.Base.Memory
import Ayubd.Base.Cut
import Ayubd.Base.Region
import Ayubd.Config
import Ayubd.Queue.Stailq
import Ayubd.Queue.StailqInv
import Ayubd.Queue.Lfq
import Ayubd.Queue.LfqInv
import Ayubd.Queue.Agree
import Ayubd.Queue.Release
import Ayubd.Queue.Spsc
import Ayubd.Queue.Slist
import Ayubd.Assoc
import Ayubd.Http.Parser
import Ayubd.Http.Session
import Ayubd.Http.Answer
import Ayubd.Http.Connection
import Ayubd.Http.RouteTable
import Ayubd.Http.Wire
import Ayubd.Http.Bounds
import Ayubd.Http.Framing
import Ayubd.Daemon.State
import Ayubd.Daemon.Step
import Ayubd.Daemon.Lane
import Ayubd.Daemon.LaneInv
import Ayubd.Daemon.Hooks
import Ayubd.Daemon.Inv
import Ayubd.Daemon.Refcount
import Ayubd.Daemon.Descriptor
import Ayubd.Daemon.Readiness
import Ayubd.Startup.Socket
import Ayubd.Startup.Load
import Ayubd.Startup.FdArray
import Ayubd.Strings.Tokens
import Ayubd.Strings.Scan
import Ayubd.Strings.Split
import Ayubd.Strings.Replace
import Ayubd.Strings.Termination
import Ayubd.Strings.Regex
import Ayubd.Strings.Invariant
import Ayubd.AssocKey
import Ayubd.LruCache
import Ayubd.Session.Accept
import Ayubd.Session.Pool
import Ayubd.Session.PoolInv
import Ayubd.Session.Sessions
import Ayubd.Session.Header
import Ayubd.Session.View
import Ayubd.Session.Separate
import Ayubd.Session.PoolNodes
import Ayubd.HatTrie.Slot
import Ayubd.HatTrie.Table
import Ayubd.HatTrie.TableInv
import Ayubd.HatTrie.TableWalk
import Ayubd.HatTrie.TableMap
import Ayubd.HatTrie.TableIter
import Ayubd.HatTrie.TableFile
import Ayubd.HatTrie.Trie
import Ayubd.HatTrie.TrieInv
import Ayubd.HatTrie.Lookup
import Ayubd.HatTrie.Split
import Ayubd.HatTrie.SplitHybrid
import Ayubd.HatTrie.SplitPure
import Ayubd.HatTrie.Get
import Ayubd.HatTrie.Array
import Ayubd.HatTrie.Nodes
import Ayubd.HatTrie.Free
import Ayubd.HatTrie.Iter
import Ayubd.HatTrie.IterInv
import Ayubd.HatTrie.Entries
import Ayubd.HatTrie.Dup
import Ayubd.HatTrie.AssocRefine
