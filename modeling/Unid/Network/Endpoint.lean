import Unid.Lib.Udp
import Unid.Common.PoolContract

/-!
# `Udp_client` and `Udp_server`

The two classes as programs over what they ask of the `Mempool`, of the socket
and of their own members.  `async_receive`, `async_send` and the handlers they
install are the same text in both classes but for what they print; the
constructors differ.  Printing and logging are left out.

Two threads run: the application's, which allocates chunks, fills them and
passes them to `async_send`, and the `io_context`'s, which runs one completion
handler at a time.  A handler is executed request by request, so the
application may act between any two of its requests; a call of the `Mempool` is
one request.  What asio does is the environment's part: it writes at most the
buffer length of a datagram into the buffer, writes the sender into the endpoint
object the receive was given, takes the destination of a send at the call, and
runs the handler of each operation once.  An exception that leaves a handler
leaves `io_context::run` and terminates the process.

## Main definitions

* `NetSig`, `N` — the requests of endpoint code.
* `asyncReceive`, `onReceive`, `asyncSend`, `onSend` — the methods and handlers.
* `UdpClient.new`, `UdpServer.new` — the constructors.
* `NetState`, `Event`, `network` — the two threads and the socket, as a machine.
-/

namespace Unid.Network
open Lib Common

/-- What endpoint code asks of its environment. -/
inductive NetReq
  | alloc
  | free (chunk : Word)
  | stats
  /-- Assign the member `chunk_size_`. -/
  | setChunkSize (n : Word)
  /-- Assign the member `remote_endpoint_`. -/
  | setRemote (a : Endpoint)
  /-- `socket_.async_receive_from(buffer(chunk, chunk_size_), remote_endpoint_, …)`. -/
  | receiveFrom (chunk : Word)
  /-- `socket_.async_send_to(buffer(chunk, length), remote_endpoint_, …)`. -/
  | sendTo (chunk length : Word)

abbrev NetReq.Ans : NetReq → Type
  | .alloc => Except String Word
  | .stats => MempoolStats
  | _ => Unit

abbrev NetSig : Sig := ⟨NetReq, NetReq.Ans⟩

/-- Endpoint code. -/
abbrev N (α : Type) := Prog NetSig α

def ask (r : NetReq) : N (NetReq.Ans r) := Prog.ask (E := NetSig) r

/-! ## Methods and handlers -/

/-- `async_receive` of both classes; an exception of `alloc` passes through it. -/
def asyncReceive : N (Except String Unit) := do
  match ← ask .alloc with
  | .error e => pure (.error e)
  | .ok chunk => do
      ask (.receiveFrom chunk)
      pure (.ok ())

/-- The handler `async_receive` installs, with the chunk it captures. -/
def onReceive (chunk : Word) (ec : Option ErrorCode) : N (Except String Unit) :=
  match ec with
  | none => do
      ask (.free chunk)
      asyncReceive
  | some _ => pure (.ok ())

/-- `async_send` of both classes. -/
def asyncSend (chunk length : Word) : N Unit := ask (.sendTo chunk length)

/-- The handler `async_send` installs, with the chunk it captures. -/
def onSend (chunk : Word) (ec : Option ErrorCode) : N (Except String Unit) :=
  match ec with
  | none => do
      ask (.free chunk)
      pure (.ok ())
  | some _ => pure (.ok ())

/-- The constructor of `Udp_client`. `server` is the endpoint resolved from host and service;
the chunk size goes to a local variable that hides the member. -/
def UdpClient.new (server : Endpoint) : N (Except String Unit) := do
  let _chunkSize := (← ask .stats).chunkSz
  ask (.setRemote server)
  asyncReceive

/-- The constructor of `Udp_server`. `localEndpoint` is what the bound socket reports. -/
def UdpServer.new (localEndpoint : Endpoint) : N (Except String Unit) := do
  let chunkSize := (← ask .stats).chunkSz
  ask (.setChunkSize chunkSize)
  ask (.setRemote localEndpoint)
  asyncReceive

/-- Which of the two classes is running. -/
inductive Kind
  | client
  | server
  deriving DecidableEq

def Kind.new : Kind → Endpoint → N (Except String Unit)
  | .client => UdpClient.new
  | .server => UdpServer.new

/-! ## The state of the process -/

/-- A receive given to the socket. -/
structure Receive where
  chunk : Word
  length : Word
  deriving DecidableEq

/-- A send given to the socket. -/
structure Send where
  chunk : Word
  length : Word
  dest : Endpoint
  deriving DecidableEq

/-- The io thread: no handler running, what is left of the one that is, or dead. -/
inductive Io
  | idle
  | running (p : N (Except String Unit))
  | terminated (what : String)

namespace Io

/-- The io thread when a handler has this left to do. -/
def after : N (Except String Unit) → Io
  | .ret (.ok ()) => .idle
  | .ret (.error e) => .terminated e
  | .req e k => .running (.req e k)

def isIdle : Io → Bool
  | idle => true
  | _ => false

def isRunning : Io → Bool
  | running _ => true
  | _ => false

def isTerminated : Io → Bool
  | terminated _ => true
  | _ => false

/-- The receive handler has freed its chunk and not yet allocated the next. -/
def isRearming : Io → Bool
  | running (.req .alloc _) => true
  | _ => false

end Io

structure NetState where
  pool : PoolState
  /-- The member `chunk_size_`. -/
  chunkSize : Word
  /-- The member `remote_endpoint_`. -/
  remote : Endpoint
  receives : List Receive
  sends : List Send
  io : Io
  /-- The chunks the application holds and has not passed to `async_send`. -/
  app : List Word
  /-- Every receive ever posted. -/
  posted : List Receive
  /-- Every send ever handed to the socket, newest first. -/
  dispatched : List Send
  /-- The chunks of the operations that completed with an error. -/
  failed : List Word
  /-- The chunks freed while nobody held them. -/
  twice : List Word

namespace NetState

/-- Before the constructor: the members hold whatever they hold. -/
def blank (pool : PoolState) (garbage : Word) : NetState where
  pool := pool
  chunkSize := garbage
  remote := ⟨0, 0⟩
  receives := []
  sends := []
  io := .idle
  app := pool.held
  posted := []
  dispatched := []
  failed := []
  twice := []

/-- What each request answers and does. -/
def handle : Handler NetSig NetState
  | .alloc, s => (s.pool.obj.alloc.val s.pool.heap, { s with pool := s.pool.next .alloc })
  | .free chunk, s => ((), { s with
      pool := s.pool.next (.free chunk)
      twice := if chunk ∈ s.pool.held then s.twice else chunk :: s.twice })
  | .stats, s => (s.pool.obj.stats.val s.pool.heap, { s with pool := s.pool.next .stats })
  | .setChunkSize n, s => ((), { s with chunkSize := n })
  | .setRemote a, s => ((), { s with remote := a })
  | .receiveFrom chunk, s => ((), { s with
      receives := ⟨chunk, s.chunkSize⟩ :: s.receives
      posted := ⟨chunk, s.chunkSize⟩ :: s.posted })
  | .sendTo chunk length, s => ((), { s with
      sends := ⟨chunk, length, s.remote⟩ :: s.sends
      dispatched := ⟨chunk, length, s.remote⟩ :: s.dispatched })

/-- The process after the constructor, when it does not throw. -/
def new (kind : Kind) (a : Endpoint) (garbage : Word) (pool : PoolState) : Except String NetState :=
  match (kind.new a).run handle (blank pool garbage) with
  | (.ok (), s) => .ok s
  | (.error e, _) => .error e

end NetState

/-! ## The machine -/

/-- What may happen next. -/
inductive Event
  | appAlloc
  | appWrite (chunk : Word) (i : ℕ) (b : Byte)
  | appSend (chunk length : Word)
  | received (op : Receive) (source : Endpoint) (data : List Byte)
  | receiveFailed (op : Receive) (ec : ErrorCode)
  | sent (op : Send)
  | sendFailed (op : Send) (ec : ErrorCode)
  /-- The next request of the handler that is running. -/
  | ioStep

namespace NetState

/-- The bytes of a datagram that asio writes into the buffer. -/
def landing (op : Receive) (data : List Byte) : List Byte := data.take op.length.toNat

/-- The io thread makes its next request. -/
def ioStep (s : NetState) : NetState :=
  match s.io with
  | .running p =>
      match Prog.step handle p s with
      | some (q, t) => { t with io := .after q }
      | none => s
  | _ => s

def next (s : NetState) : Event → NetState
  | .appAlloc =>
      match (ask .alloc).run handle s with
      | (.ok chunk, t) => { t with app := chunk :: t.app }
      | (.error _, t) => t
  | .appWrite chunk i b => { s with pool := s.pool.next (.write chunk i b) }
  | .appSend chunk length =>
      (asyncSend chunk length).state handle { s with app := s.app.erase chunk }
  | .received op source data => { s with
      pool := { s.pool with heap := { s.pool.heap with
        mem := writeBytes s.pool.heap.mem op.chunk.toNat (landing op data) } }
      remote := source
      receives := s.receives.erase op
      io := .after (onReceive op.chunk none) }
  | .receiveFailed op ec => { s with
      receives := s.receives.erase op
      failed := op.chunk :: s.failed
      io := .after (onReceive op.chunk (some ec)) }
  | .sent op => { s with
      sends := s.sends.erase op
      io := .after (onSend op.chunk none) }
  | .sendFailed op ec => { s with
      sends := s.sends.erase op
      failed := op.chunk :: s.failed
      io := .after (onSend op.chunk (some ec)) }
  | .ioStep => s.ioStep

/-- What may happen when. The application uses the chunks it holds, an operation that
completes is pending and finds the io thread idle, and nothing happens after `terminate`. -/
def guard (s : NetState) : Event → Prop
  | .appAlloc => s.io.isTerminated = false
  | .appWrite chunk i _ =>
      s.io.isTerminated = false ∧ chunk ∈ s.app ∧ i < s.pool.obj.chunkSz.toNat
  | .appSend chunk _ => s.io.isTerminated = false ∧ chunk ∈ s.app
  | .received op _ _ => s.io.isIdle = true ∧ op ∈ s.receives
  | .receiveFailed op _ => s.io.isIdle = true ∧ op ∈ s.receives
  | .sent op => s.io.isIdle = true ∧ op ∈ s.sends
  | .sendFailed op _ => s.io.isIdle = true ∧ op ∈ s.sends
  | .ioStep => s.io.isRunning = true

instance (s : NetState) : (e : Event) → Decidable (s.guard e)
  | .appAlloc => inferInstanceAs (Decidable (_ = _))
  | .appWrite .. => inferInstanceAs (Decidable (_ ∧ _ ∧ _))
  | .appSend .. => inferInstanceAs (Decidable (_ ∧ _))
  | .received .. => inferInstanceAs (Decidable (_ ∧ _))
  | .receiveFailed .. => inferInstanceAs (Decidable (_ ∧ _))
  | .sent _ => inferInstanceAs (Decidable (_ ∧ _))
  | .sendFailed .. => inferInstanceAs (Decidable (_ ∧ _))
  | .ioStep => inferInstanceAs (Decidable (_ = _))

end NetState

/-- A running endpoint: the application, the io thread and the network. -/
def network : Machine NetState Event := ⟨NetState.next, NetState.guard⟩

instance (s : NetState) (e : Event) : Decidable (network.guard s e) :=
  inferInstanceAs (Decidable (s.guard e))

end Unid.Network
