import Unid.Lib.Udp
import Unid.Lib.Machine
import Unid.Lib.Outbox

/-!
# The asynchronous UDP prototypes

`UdpServer` and `UdpClient` of `asio_async_udp`.  Both keep what they send in a
queue with one send in flight.  The server receives into one buffer and one
endpoint, which the next datagram overwrites; its handler copies both into the
task that it posts before it lets the socket receive again.

One thread runs all tasks and handlers.  The socket completes a receive by
writing the buffer and the endpoint, some time before the handler runs.

## Main definitions

* `UdpServer`, `ServerEvent`, `server` — the server, as a machine.
* `UdpClient`, `ClientEvent`, `client` — the sending side of the client.
* `reply`, `datagrams` — what should be sent, and what has been received.
* `UdpServer.Echoes` — the replies go out in order, each once.
-/

namespace Unid.Spike
open Lib

/-! ## The server -/

structure ReplyItem where
  data : List Byte
  client : Endpoint
  deriving DecidableEq

/-- The receive of the server. -/
inductive Receive
  /-- None is in progress. -/
  | stopped
  | pending
  /-- Completed with so many bytes; the handler has not run. -/
  | ready (bytesRecvd : ℕ)
  /-- Completed with an error; the handler has not run. -/
  | failed (ec : ErrorCode)
  deriving DecidableEq

/-- The members of `UdpServer`, and its operations on the socket. -/
structure UdpServer where
  recvBuffer : List Byte
  remoteEndpoint : Endpoint
  receive : Receive
  replyQueue : Outbox ReplyItem

/-- The size of `recv_buffer_`. -/
def recvBufferSize : ℕ := 1024

/-- The characters of `"Echo: "`. -/
def echo : List Byte := "Echo: ".toList.map fun c => BitVec.ofNat 8 c.toNat

namespace UdpServer

def startReceive (s : UdpServer) : UdpServer := { s with receive := .pending }

/-- The constructor; `recvBuffer` is what the buffer holds at first. -/
def new (recvBuffer : List Byte) : UdpServer :=
  startReceive ⟨recvBuffer, ⟨0, 0⟩, .stopped, .empty⟩

/-- `send_reply`: message and endpoint are copied into the task. -/
def sendReply (s : UdpServer) (message : List Byte) (targetClient : Endpoint) : UdpServer :=
  { s with replyQueue := s.replyQueue.post ⟨message, targetClient⟩ }

/-- The socket completes the receive: the datagram, as far as it fits, goes to the buffer. -/
def arrive (s : UdpServer) (source : Endpoint) (data : List Byte) : UdpServer :=
  let landing := data.take recvBufferSize
  { s with
    recvBuffer := landing ++ s.recvBuffer.drop landing.length
    remoteEndpoint := source
    receive := .ready landing.length }

/-- The handler of `start_receive`. -/
def onReceive (s : UdpServer) : UdpServer :=
  match s.receive with
  | .ready bytesRecvd =>
      let message := s.recvBuffer.take bytesRecvd
      (s.sendReply (echo ++ message) s.remoteEndpoint).startReceive
  | .failed _ => { s with receive := .stopped }
  | _ => s

end UdpServer

/-- What may happen next. -/
inductive ServerEvent
  | arrive (source : Endpoint) (data : List Byte)
  | receiveError (ec : ErrorCode)
  | onReceive
  /-- The oldest posted task runs. -/
  | task
  /-- The send of the reply with this number completes, and its handler runs. -/
  | onSend (op : ℕ) (ec : Option ErrorCode)

namespace UdpServer

def next (s : UdpServer) : ServerEvent → UdpServer
  | .arrive source data => s.arrive source data
  | .receiveError ec => { s with receive := .failed ec }
  | .onReceive => s.onReceive
  | .task => { s with replyQueue := s.replyQueue.run }
  | .onSend op ec => { s with replyQueue := s.replyQueue.complete op ec }

/-- The handler of the receive is due. -/
def receiveDone (s : UdpServer) : Bool :=
  match s.receive with
  | .ready _ | .failed _ => true
  | _ => false

/-- Each operation completes once, and each handler runs after that. -/
def guard (s : UdpServer) : ServerEvent → Prop
  | .arrive .. | .receiveError _ => s.receive = .pending
  | .onReceive => s.receiveDone = true
  | .task => s.replyQueue.posted ≠ []
  | .onSend op _ => op ∈ s.replyQueue.inFlight

instance (s : UdpServer) : (e : ServerEvent) → Decidable (s.guard e)
  | .arrive .. | .receiveError _ => inferInstanceAs (Decidable (_ = Receive.pending))
  | .onReceive => inferInstanceAs (Decidable (_ = true))
  | .task => inferInstanceAs (Decidable (_ ≠ []))
  | .onSend .. => inferInstanceAs (Decidable (_ ∈ _))

end UdpServer

/-- The server and its socket. -/
def server : Machine UdpServer ServerEvent := ⟨UdpServer.next, UdpServer.guard⟩

instance (s : UdpServer) (e : ServerEvent) : Decidable (server.guard s e) :=
  inferInstanceAs (Decidable (s.guard e))

/-- The error that a send completes with. -/
def ServerEvent.sendError : ServerEvent → Option ErrorCode
  | .onSend _ ec => ec
  | _ => none

/-! ## The client -/

/-- The sending side of `UdpClient`. -/
structure UdpClient where
  remoteEndpoint : Endpoint
  writeQueue : Outbox (List Byte)

namespace UdpClient

/-- The constructor, with the endpoint that it has resolved. -/
def new (remoteEndpoint : Endpoint) : UdpClient := ⟨remoteEndpoint, .empty⟩

def send (s : UdpClient) (message : List Byte) : UdpClient :=
  { s with writeQueue := s.writeQueue.post message }

end UdpClient

inductive ClientEvent
  /-- The application calls `send`. -/
  | send (message : List Byte)
  | task
  | onSend (op : ℕ) (ec : Option ErrorCode)

namespace UdpClient

def next (s : UdpClient) : ClientEvent → UdpClient
  | .send message => s.send message
  | .task => { s with writeQueue := s.writeQueue.run }
  | .onSend op ec => { s with writeQueue := s.writeQueue.complete op ec }

def guard (s : UdpClient) : ClientEvent → Prop
  | .send _ => True
  | .task => s.writeQueue.posted ≠ []
  | .onSend op _ => op ∈ s.writeQueue.inFlight

instance (s : UdpClient) : (e : ClientEvent) → Decidable (s.guard e)
  | .send _ => .isTrue trivial
  | .task => inferInstanceAs (Decidable (_ ≠ []))
  | .onSend .. => inferInstanceAs (Decidable (_ ∈ _))

end UdpClient

/-- The client and its socket. -/
def client : Machine UdpClient ClientEvent := ⟨UdpClient.next, UdpClient.guard⟩

instance (s : UdpClient) (e : ClientEvent) : Decidable (client.guard s e) :=
  inferInstanceAs (Decidable (s.guard e))

def ClientEvent.sendError : ClientEvent → Option ErrorCode
  | .onSend _ ec => ec
  | _ => none

/-! ## What the server is for -/

/-- A datagram that has arrived. -/
structure Datagram where
  source : Endpoint
  data : List Byte

def ServerEvent.datagram : ServerEvent → Option Datagram
  | .arrive source data => some ⟨source, data⟩
  | _ => none

/-- The datagrams received in a run, in order. -/
def datagrams (es : List ServerEvent) : List Datagram := es.filterMap ServerEvent.datagram

/-- The reply to a datagram: what fits the buffer, back to its sender. -/
def reply (d : Datagram) : ReplyItem := ⟨echo ++ d.data.take recvBufferSize, d.source⟩

namespace UdpServer

/-- Nothing is left to do but to receive. -/
def Quiet (s : UdpServer) : Prop :=
  (∀ n, s.receive ≠ .ready n) ∧ s.replyQueue.posted = [] ∧ s.replyQueue.inFlight = []

/-- The replies go out in order, each once, one at a time. -/
structure Echoes (s : UdpServer) (replies : List ReplyItem) : Prop where
  /-- At most one send is in flight. -/
  single : s.replyQueue.inFlight.length ≤ 1
  /-- The sends started so far are those of the first replies, in order. -/
  ordered : s.replyQueue.handed <+: replies
  /-- What the socket has read and sent is what the sends were started with. -/
  sent : s.replyQueue.written <+: s.replyQueue.handed
  /-- When nothing is left to do, all replies have been handed to the socket. -/
  all : s.Quiet → s.replyQueue.handed = replies

end UdpServer
end Unid.Spike
