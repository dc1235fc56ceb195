import Mathlib.Data.Fintype.Basic
import Unid.Spike.AsyncContract

/-!
# The echo server and its clients

The prototypes of `asio_async_udp` together: one server, any number of clients, and
a network that delivers datagrams late, repeatedly or not at all, and carries the
datagrams of strangers as well.  Server and clients each have one buffer and one
endpoint that every datagram overwrites, and queues of their own in between.

Still nothing gets mixed up: what a client prints as coming from the server is the
echo of a message that this client was given to send (`echoes_own`), whatever the
other clients and the strangers send meanwhile, and even if sends and receives
fail.

## Main definitions

* `EchoClient` — the client, with its receiving side.
* `Homes` — the addresses of the server and of the clients.
* `EchoNet`, `EchoEvent`, `echoNet` — all of them and the wire, as a machine.
-/

namespace Unid.Spike
open Lib

/-! ## The client -/

/-- The members of `UdpClient`, and what it has printed. -/
structure EchoClient where
  sending : UdpClient
  recvBuffer : List Byte
  senderEndpoint : Endpoint
  receive : Receive
  shown : List (Endpoint × List Byte)

/-- What may happen to a client next. -/
inductive EchoClientEvent
  | sending (e : ClientEvent)
  | arrive (source : Endpoint) (data : List Byte)
  | receiveError (ec : ErrorCode)
  | onReceive

namespace EchoClient

def startReceive (c : EchoClient) : EchoClient := { c with receive := .pending }

/-- The constructor, with the endpoint that it has resolved; `recvBuffer` is what the buffer holds
at first. -/
def new (remoteEndpoint : Endpoint) (recvBuffer : List Byte) : EchoClient :=
  startReceive ⟨.new remoteEndpoint, recvBuffer, ⟨0, 0⟩, .stopped, []⟩

/-- The socket completes the receive. -/
def arrive (c : EchoClient) (source : Endpoint) (data : List Byte) : EchoClient :=
  let landing := data.take recvBufferSize
  { c with
    recvBuffer := landing ++ c.recvBuffer.drop landing.length
    senderEndpoint := source
    receive := .ready landing.length }

/-- The handler of `start_receive`. -/
def onReceive (c : EchoClient) : EchoClient :=
  match c.receive with
  | .ready bytesRecvd =>
      let message := c.recvBuffer.take bytesRecvd
      startReceive { c with shown := c.shown ++ [(c.senderEndpoint, message)] }
  | .failed _ => { c with receive := .stopped }
  | _ => c

def next (c : EchoClient) : EchoClientEvent → EchoClient
  | .sending e => { c with sending := c.sending.next e }
  | .arrive source data => c.arrive source data
  | .receiveError ec => { c with receive := .failed ec }
  | .onReceive => c.onReceive

/-- The handler of the receive is due. -/
def receiveDone (c : EchoClient) : Bool :=
  match c.receive with
  | .ready _ | .failed _ => true
  | _ => false

def guard (c : EchoClient) : EchoClientEvent → Prop
  | .sending e => c.sending.guard e
  | .arrive .. | .receiveError _ => c.receive = .pending
  | .onReceive => c.receiveDone = true

instance (c : EchoClient) : (e : EchoClientEvent) → Decidable (c.guard e)
  | .sending e => inferInstanceAs (Decidable (c.sending.guard e))
  | .arrive .. | .receiveError _ => inferInstanceAs (Decidable (_ = Receive.pending))
  | .onReceive => inferInstanceAs (Decidable (_ = true))

end EchoClient

/-! ## The network -/

/-- The addresses of the server and of the clients. -/
structure Homes (ι : Type) where
  server : Endpoint
  client : ι → Endpoint
  injective : Function.Injective client
  apart : ∀ i, client i ≠ server

structure EchoNet (ι : Type) where
  server : UdpServer
  clients : ι → EchoClient
  /-- Every datagram that has been put on the wire. -/
  wire : List Packet
  /-- What each client was given to send. -/
  said : ι → List (List Byte)

inductive EchoEvent (ι : Type)
  | server (e : ServerEvent)
  | client (i : ι) (e : EchoClientEvent)
  /-- The server's socket puts the reply with this number on the wire. -/
  | reply (op : ℕ)
  /-- A client's socket puts its message with this number on the wire. -/
  | message (i : ι) (op : ℕ)
  /-- Somebody else puts a datagram on the wire. -/
  | stranger (p : Packet)

/-- The datagram that a client receives. -/
def EchoClientEvent.datagram : EchoClientEvent → Option Datagram
  | .arrive source data => some ⟨source, data⟩
  | _ => none

/-- What the application gives a client to send. -/
def EchoClientEvent.spoken : EchoClientEvent → List (List Byte)
  | .sending (.send message) => [message]
  | _ => []

namespace EchoNet
variable {ι : Type}

/-- All have been constructed, and nothing has been sent. -/
def start (H : Homes ι) (recvBuffer : List Byte) (recvBuffers : ι → List Byte) : EchoNet ι :=
  ⟨.new recvBuffer, fun i => .new H.server (recvBuffers i), [], fun _ => []⟩

/-- A datagram that arrives somewhere is on the wire, a send reads its message while it is in
flight, and strangers have addresses of their own. -/
def guard (H : Homes ι) (N : EchoNet ι) : EchoEvent ι → Prop
  | .server e => N.server.guard e ∧
      ∀ d ∈ e.datagram, ⟨d.source, H.server, d.data⟩ ∈ N.wire
  | .client i e => (N.clients i).guard e ∧
      ∀ d ∈ e.datagram, ⟨d.source, H.client i, d.data⟩ ∈ N.wire
  | .reply op => op ∈ N.server.replyQueue.inFlight
  | .message i op => op ∈ (N.clients i).sending.writeQueue.inFlight
  | .stranger p => p.source ≠ H.server ∧ ∀ i, p.source ≠ H.client i

instance [Fintype ι] (H : Homes ι) (N : EchoNet ι) : (e : EchoEvent ι) → Decidable (N.guard H e)
  | .server _ | .client .. => inferInstanceAs (Decidable (_ ∧ ∀ d ∈ _, _ ∈ _))
  | .reply _ | .message .. => inferInstanceAs (Decidable (_ ∈ _))
  | .stranger _ => inferInstanceAs (Decidable (_ ≠ _ ∧ ∀ _, _ ≠ _))

variable [DecidableEq ι]

def next (H : Homes ι) (N : EchoNet ι) : EchoEvent ι → EchoNet ι
  | .server e => { N with server := N.server.next e }
  | .client i e => { N with
      clients := Function.update N.clients i ((N.clients i).next e)
      said := Function.update N.said i (N.said i ++ e.spoken) }
  | .reply op =>
      match N.server.replyQueue.message op with
      | some item => { N with wire := ⟨H.server, item.client, item.data⟩ :: N.wire }
      | none => N
  | .message i op =>
      match (N.clients i).sending.writeQueue.message op with
      | some message => { N with
          wire := ⟨H.client i, (N.clients i).sending.remoteEndpoint, message⟩ :: N.wire }
      | none => N
  | .stranger p => { N with wire := p :: N.wire }

end EchoNet

/-- Server, clients and strangers on one network. -/
def echoNet {ι : Type} [DecidableEq ι] (H : Homes ι) : Machine (EchoNet ι) (EchoEvent ι) :=
  ⟨EchoNet.next H, EchoNet.guard H⟩

instance {ι : Type} [DecidableEq ι] [Fintype ι] (H : Homes ι) (N : EchoNet ι) (e : EchoEvent ι) :
    Decidable ((echoNet H).guard N e) :=
  inferInstanceAs (Decidable (N.guard H e))

/-! ## Nothing gets mixed up -/

/-- The item is the reply to a datagram to the server. -/
def Asked {ι : Type} (H : Homes ι) (wire : List Packet) (item : ReplyItem) : Prop :=
  ∃ p ∈ wire, p.dest = H.server ∧ item = reply ⟨p.source, p.data⟩

/-- Bytes and sender are those of a datagram to this address, as far as it fits the buffer. -/
def Came (wire : List Packet) (home source : Endpoint) (bytes : List Byte) : Prop :=
  ∃ p ∈ wire, p.dest = home ∧ p.source = source ∧ bytes = p.data.take recvBufferSize

section Monotone
variable {ι : Type} {H : Homes ι} {wire : List Packet} {item : ReplyItem} {home source : Endpoint}
  {bytes : List Byte}

theorem Asked.cons (h : Asked H wire item) (p : Packet) : Asked H (p :: wire) item := by
  obtain ⟨q, hq, hrest⟩ := h
  exact ⟨q, List.mem_cons_of_mem p hq, hrest⟩

theorem Came.cons (h : Came wire home source bytes) (p : Packet) :
    Came (p :: wire) home source bytes := by
  obtain ⟨q, hq, hrest⟩ := h
  exact ⟨q, List.mem_cons_of_mem p hq, hrest⟩

end Monotone

namespace EchoNet
variable {ι : Type} {H : Homes ι} {N : EchoNet ι} {i : ι}

/-- What the server has in hand answers datagrams to it. -/
structure ServerInv (H : Homes ι) (wire : List Packet) (s : UdpServer) : Prop where
  queue : s.replyQueue.Holds (Asked H wire)
  ready : ∀ n, s.receive = .ready n →
    Asked H wire ⟨echo ++ s.recvBuffer.take n, s.remoteEndpoint⟩

/-- What a client has in hand was given to it or has come to it. -/
structure ClientInv (wire : List Packet) (home : Endpoint) (said : List (List Byte))
    (c : EchoClient) : Prop where
  queue : c.sending.writeQueue.Holds (· ∈ said)
  ready : ∀ n, c.receive = .ready n → Came wire home c.senderEndpoint (c.recvBuffer.take n)
  shown : ∀ x ∈ c.shown, Came wire home x.1 x.2

/-- What holds of the whole at any time. -/
structure Inv (H : Homes ι) (N : EchoNet ι) : Prop where
  server : ServerInv H N.wire N.server
  clients : ∀ i, ClientInv N.wire (H.client i) (N.said i) (N.clients i)
  /-- Datagrams from the server answer datagrams to it. -/
  replies : ∀ p ∈ N.wire, p.source = H.server → Asked H N.wire ⟨p.data, p.dest⟩
  /-- Datagrams from a client carry what it was given. -/
  messages : ∀ p ∈ N.wire, ∀ i, p.source = H.client i → p.data ∈ N.said i

theorem inv_start (recvBuffer : List Byte) (recvBuffers : ι → List Byte) :
    (start H recvBuffer recvBuffers).Inv H :=
  ⟨⟨Outbox.holds_empty, nofun⟩, fun _ => ⟨Outbox.holds_empty, nofun, nofun⟩, nofun, nofun⟩

theorem ServerInv.next {wire : List Packet} {s : UdpServer} (h : ServerInv H wire s)
    {e : ServerEvent} (he : ∀ d ∈ e.datagram, ⟨d.source, H.server, d.data⟩ ∈ wire) :
    ServerInv H wire (s.next e) := by
  cases e with
  | arrive source data =>
      refine ⟨h.queue, ?_⟩
      rintro n ⟨⟩
      refine ⟨_, he _ rfl, rfl, ?_⟩
      simp [UdpServer.next, UdpServer.arrive, reply]
  | receiveError ec => exact ⟨h.queue, by simp [UdpServer.next]⟩
  | onReceive =>
      change ServerInv H wire s.onReceive
      unfold UdpServer.onReceive
      split
      · next n hn => exact ⟨h.queue.post (h.ready n hn), by simp [UdpServer.startReceive]⟩
      · exact ⟨h.queue, by simp⟩
      · exact h
  | task => exact ⟨h.queue.run, h.ready⟩
  | onSend op ec => exact ⟨h.queue.complete op ec, h.ready⟩

theorem ClientInv.next {wire : List Packet} {home : Endpoint} {said : List (List Byte)}
    {c : EchoClient} (h : ClientInv wire home said c) {e : EchoClientEvent}
    (he : ∀ d ∈ e.datagram, ⟨d.source, home, d.data⟩ ∈ wire) :
    ClientInv wire home (said ++ e.spoken) (c.next e) := by
  have hqueue : c.sending.writeQueue.Holds (· ∈ said ++ e.spoken) :=
    h.queue.mono fun m hm => List.mem_append_left _ hm
  cases e with
  | sending e =>
      refine ⟨?_, h.ready, h.shown⟩
      cases e with
      | send message => exact hqueue.post (List.mem_append_right _ List.mem_cons_self)
      | task => exact hqueue.run
      | onSend op ec => exact hqueue.complete op ec
  | arrive source data =>
      refine ⟨hqueue, ?_, h.shown⟩
      rintro n ⟨⟩
      refine ⟨_, he _ rfl, rfl, rfl, ?_⟩
      simp [EchoClient.next, EchoClient.arrive]
  | receiveError ec => exact ⟨hqueue, nofun, h.shown⟩
  | onReceive =>
      change ClientInv wire home _ c.onReceive
      unfold EchoClient.onReceive
      split
      · next n hn =>
          refine ⟨hqueue, nofun, ?_⟩
          exact List.forall_mem_append.mpr ⟨h.shown, List.forall_mem_singleton.mpr (h.ready n hn)⟩
      · exact ⟨hqueue, nofun, h.shown⟩
      · exact ⟨hqueue, h.ready, h.shown⟩

/-- A datagram goes on the wire. -/
theorem Inv.put (h : N.Inv H) (p : Packet)
    (hreply : p.source = H.server → Asked H N.wire ⟨p.data, p.dest⟩)
    (hmessage : ∀ i, p.source = H.client i → p.data ∈ N.said i) :
    Inv H { N with wire := p :: N.wire } := by
  refine ⟨⟨h.server.queue.mono fun _ ha => ha.cons p, fun n hn => (h.server.ready n hn).cons p⟩,
    fun i => ⟨(h.clients i).queue, fun n hn => ((h.clients i).ready n hn).cons p,
      fun x hx => ((h.clients i).shown x hx).cons p⟩, ?_, ?_⟩
  · exact List.forall_mem_cons.mpr ⟨fun hs => (hreply hs).cons p,
      fun q hq hs => (h.replies q hq hs).cons p⟩
  · exact List.forall_mem_cons.mpr ⟨hmessage, h.messages⟩

variable [DecidableEq ι]

theorem Inv.client (h : N.Inv H) {e : EchoClientEvent} (hg : N.guard H (.client i e)) :
    (N.next H (.client i e)).Inv H := by
  refine ⟨h.server, ?_, h.replies, ?_⟩
  · intro j
    by_cases hj : j = i
    · subst hj
      simp only [next, Function.update_self]
      exact (h.clients j).next hg.2
    · simp only [next, Function.update_of_ne hj]
      exact h.clients j
  · intro p hp j hsource
    have hsaid := h.messages p hp j hsource
    by_cases hj : j = i
    · subst hj
      simp only [next, Function.update_self]
      exact List.mem_append_left _ hsaid
    · simp only [next, Function.update_of_ne hj]
      exact hsaid

theorem Inv.next (h : N.Inv H) {e : EchoEvent ι} (hg : N.guard H e) : (N.next H e).Inv H := by
  cases e with
  | server e => exact ⟨h.server.next hg.2, h.clients, h.replies, h.messages⟩
  | client i e => exact h.client hg
  | reply op =>
      simp only [EchoNet.next]
      split
      · next item hitem =>
          refine h.put _ (fun _ => h.server.queue.message hitem) ?_
          intro i hsource
          exact absurd hsource.symm (H.apart i)
      · exact h
  | message i op =>
      simp only [EchoNet.next]
      split
      · next message hmessage =>
          refine h.put _ (fun hsource => absurd hsource (H.apart i)) ?_
          intro j hsource
          obtain rfl := H.injective hsource
          exact (h.clients i).queue.message hmessage
      · exact h
  | stranger p =>
      exact h.put p (fun hsource => absurd hsource hg.1) fun i hsource => absurd hsource (hg.2 i)

end EchoNet

/-- Whatever else goes on: what a client prints as coming from the server is the echo, as far as it
fits the buffers, of a message that this client was given to send. -/
theorem echoes_own {ι : Type} [DecidableEq ι] (H : Homes ι) (recvBuffer : List Byte)
    (recvBuffers : ι → List Byte) {es : List (EchoEvent ι)}
    (hes : (echoNet H).Admits (.start H recvBuffer recvBuffers) es) (i : ι) (shown : List Byte)
    (hshown : (H.server, shown) ∈
      (((echoNet H).exec (.start H recvBuffer recvBuffers) es).clients i).shown) :
    ∃ message ∈ ((echoNet H).exec (.start H recvBuffer recvBuffers) es).said i,
      shown = (echo ++ message.take recvBufferSize).take recvBufferSize := by
  have hinv := Machine.exec_induction (M := echoNet H) (I := fun N => N.Inv H)
    (fun _ _ h hg => h.next hg) (EchoNet.inv_start recvBuffer recvBuffers) hes
  -- what was printed came from the server, which had answered a datagram from this client
  obtain ⟨p, hp, hdest, hsource, hbytes⟩ := (hinv.clients i).shown _ hshown
  obtain ⟨q, hq, -, hreply⟩ := hinv.replies p hp hsource
  simp only [reply, ReplyItem.mk.injEq] at hreply
  obtain ⟨hdata, hclient⟩ := hreply
  refine ⟨q.data, hinv.messages q hq i (hclient.symm.trans hdest), ?_⟩
  rw [← hdata]
  exact hbytes

/-- A server with the clients `alice` and `bob`. -/
def twoHomes : Homes Bool where
  server := ⟨0x0a0000fe, 8080⟩
  client b := if b then alice else bob
  injective := by decide
  apart := by decide

/-- Both clients send a byte, and the datagram of `bob` is the first to be answered. -/
def twoMessages : List (EchoEvent Bool) :=
  [.client true (.sending (.send [1])), .client true (.sending .task), .message true 0,
    .client false (.sending (.send [2])), .client false (.sending .task), .message false 0,
    .server (.arrive bob [2]), .server .onReceive, .server .task, .reply 0,
    .server (.arrive alice [1]), .server .onReceive, .server (.onSend 0 none), .server .task,
    .reply 1, .client true (.arrive twoHomes.server (echo ++ [1])), .client true .onReceive]

theorem echoes_own_twoMessages :
    ∃ message ∈ ((echoNet twoHomes).exec (.start twoHomes [] fun _ => []) twoMessages).said true,
      echo ++ [1] = (echo ++ message.take recvBufferSize).take recvBufferSize :=
  echoes_own twoHomes [] (fun _ => []) (by decide +kernel) true (echo ++ [1]) (by decide +kernel)

end Unid.Spike
