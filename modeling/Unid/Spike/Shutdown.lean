import Unid.Lib.EventLoop
import Unid.Spike.EchoNet

/-!
# How the prototypes end

Each prototype runs its `io_context` in a thread of its own, which `main` joins at
the end.  The client of `asio_async_udp_client.cpp` only sends: when `main` has
let go of its work guard, the thread writes what is left and ends.  The client of
`asio_async_udp/client.cpp` and the server of `asio_async_udp_server.cpp` do the
same, but they always have a receive in progress, and nobody stops the
`io_context`: `main` waits until a receive fails.

## Main definitions

* `sendLoop`, `echoLoop`, `serverLoop` — the three programs under their loops.
* `messages` — what `main` has called `send` with.
-/

namespace Unid.Spike
open Lib

/-! ## The client that only sends -/

/-- `main` calls `send`; the rest runs on the network thread. -/
def ClientEvent.actor : ClientEvent → Actor
  | .send _ => .caller
  | .task | .onSend .. => .loop

/-- A task is posted, or a send is in flight. -/
def UdpClient.Busy (s : UdpClient) : Prop :=
  s.writeQueue.posted ≠ [] ∨ s.writeQueue.inFlight ≠ []

instance (s : UdpClient) : Decidable s.Busy := inferInstanceAs (Decidable (_ ∨ _))

def sendLoop : EventLoop UdpClient ClientEvent := ⟨client, ClientEvent.actor, UdpClient.Busy⟩

instance (s : UdpClient) (e : ClientEvent) : Decidable (sendLoop.program.guard s e) :=
  inferInstanceAs (Decidable (s.guard e))

instance (s : UdpClient) : Decidable (sendLoop.busy s) := inferInstanceAs (Decidable s.Busy)

def ClientEvent.message : ClientEvent → Option (List Byte)
  | .send message => some message
  | _ => none

def messages (es : List ClientEvent) : List (List Byte) := es.filterMap ClientEvent.message

theorem messages_cons (e : ClientEvent) (es : List ClientEvent) :
    messages (e :: es) = e.message.toList ++ messages es := by
  cases h : e.message <;> simp [messages, h]

namespace UdpClient
variable {s : UdpClient} {ms : List (List Byte)}

theorem orderly_next (h : s.writeQueue.Orderly ms) {e : ClientEvent} (hg : s.guard e)
    (he : e.sendError = none) : (s.next e).writeQueue.Orderly (ms ++ e.message.toList) := by
  cases e with
  | send message => exact h.post message
  | task =>
      simp only [ClientEvent.message, Option.toList_none, List.append_nil]
      exact h.run
  | onSend op ec =>
      obtain rfl : ec = none := he
      simp only [ClientEvent.message, Option.toList_none, List.append_nil]
      exact h.complete (ε := ErrorCode) hg

theorem orderly_exec (h : s.writeQueue.Orderly ms) {es : List ClientEvent}
    (hes : client.Admits s es) (hgood : ∀ e ∈ es, e.sendError = none) :
    (client.exec s es).writeQueue.Orderly (ms ++ messages es) := by
  induction es generalizing s ms with
  | nil => simpa [messages] using h
  | cons e es ih =>
      obtain ⟨he, hrest⟩ := List.forall_mem_cons.mp hgood
      rw [messages_cons, ← List.append_assoc]
      exact ih (orderly_next h hes.1 he) hes.2 hrest

/-- With nothing left to do, all has been written. -/
theorem written_eq (h : s.writeQueue.Orderly ms) (hidle : ¬ s.Busy) :
    s.writeQueue.written = ms := by
  obtain ⟨hposted, hflight⟩ : s.writeQueue.posted = [] ∧ s.writeQueue.inFlight = [] := by
    simpa [Busy] using hidle
  have hqueue : s.writeQueue.queue = [] := by
    by_contra hne
    rw [h.busy hne] at hflight
    cases hflight
  have hreads := h.reads
  rw [h.handed_eq hposted hflight, hqueue, List.take_nil, List.append_nil] at hreads
  exact hreads.symm

/-- A task or a handler is due, and leaves less to do. -/
theorem progress (h : s.writeQueue.Orderly ms) (hbusy : s.Busy) :
    ∃ e : ClientEvent, s.guard e ∧ e.actor = .loop ∧ e.sendError = none ∧
      (s.next e).writeQueue.Orderly ms ∧ (s.next e).writeQueue.work < s.writeQueue.work := by
  by_cases hposted : s.writeQueue.posted = []
  · obtain ⟨op, hop⟩ := List.exists_mem_of_ne_nil _ (hbusy.resolve_left (· hposted))
    obtain ⟨m, rest, hqueue, -⟩ := h.of_mem_inFlight hop
    have hne : s.writeQueue.queue ≠ [] := by simp [hqueue]
    exact ⟨.onSend op none, hop, rfl, rfl, h.complete (ε := ErrorCode) hop,
      Outbox.work_complete_lt (ε := ErrorCode) hne op⟩
  · exact ⟨.task, hposted, rfl, rfl, h.run, Outbox.work_run_lt hposted⟩

end UdpClient

/-- The client that only sends, as long as its sends succeed: when `main` has joined the network
thread, all its messages have been written in order; and once `main` has let go of its guard, the
network thread can come to that end by itself. -/
theorem sends_drained (remoteEndpoint : Endpoint) {es : List (LoopEvent ClientEvent)}
    (hes : sendLoop.machine.Admits (.start (.new remoteEndpoint)) es)
    (hgood : ∀ e ∈ programEvents es, e.sendError = none) :
    let S := sendLoop.machine.exec (.start (.new remoteEndpoint)) es
    (S.returned = true → S.app.writeQueue.written = messages (programEvents es)) ∧
      (S.guarded = false → ∃ es', sendLoop.machine.Admits S es' ∧
        (∀ e ∈ es', sendLoop.ByLoop (fun e => e.sendError = none) e) ∧
        (sendLoop.machine.exec S es').returned = true ∧
        (sendLoop.machine.exec S es').app.writeQueue.written = messages (programEvents es)) := by
  intro S
  have horderly : S.app.writeQueue.Orderly (messages (programEvents es)) := by
    obtain ⟨hadmits, happ⟩ := EventLoop.exec_program hes
    have hrun := UdpClient.orderly_exec (s := .new remoteEndpoint) Outbox.orderly_empty hadmits
      hgood
    rw [List.nil_append] at hrun
    exact happ ▸ hrun
  refine ⟨?_, ?_⟩
  · intro hreturned
    exact UdpClient.written_eq horderly (EventLoop.idle_of_returned hes hreturned)
  · intro hguarded
    obtain ⟨es', hes', hloop, hend, hreturned⟩ := EventLoop.exists_returned (L := sendLoop)
      (I := fun s => s.writeQueue.Orderly (messages (programEvents es)))
      (G := fun e : ClientEvent => e.sendError = none) (fun s : UdpClient => s.writeQueue.work)
      (fun _ h hbusy => UdpClient.progress h hbusy) horderly hguarded
    refine ⟨es', hes', hloop, hreturned, UdpClient.written_eq hend ?_⟩
    have hall : sendLoop.machine.Admits (.start (.new remoteEndpoint)) (es ++ es') :=
      (Machine.admits_append ..).mpr ⟨hes, hes'⟩
    have hidle := EventLoop.idle_of_returned hall
    rw [Machine.exec_append] at hidle
    exact hidle hreturned

/-- `main` of the client: two messages, and the end. -/
def twoSends : List (LoopEvent ClientEvent) :=
  [.program (.send [1]), .program (.send [2]), .program .task, .reset, .program (.onSend 0 none),
    .program .task, .program (.onSend 1 none), .returns]

theorem sends_drained_twoSends :
    (sendLoop.machine.exec (.start (.new bob)) twoSends).app.writeQueue.written =
      [[1], [2]] := by
  have hes : sendLoop.machine.Admits (.start (.new bob)) twoSends := by decide +kernel
  exact (sends_drained bob hes (by decide)).1 (by decide +kernel)

/-! ## The programs that receive -/

def EchoClientEvent.actor : EchoClientEvent → Actor
  | .sending e => e.actor
  | .arrive .. | .receiveError _ | .onReceive => .loop

def EchoClient.Busy (c : EchoClient) : Prop := c.receive ≠ .stopped ∨ c.sending.Busy

/-- The client that also receives. -/
def echoLoop : EventLoop EchoClient EchoClientEvent :=
  ⟨⟨EchoClient.next, EchoClient.guard⟩, EchoClientEvent.actor, EchoClient.Busy⟩

instance (c : EchoClient) (e : EchoClientEvent) : Decidable (echoLoop.program.guard c e) :=
  inferInstanceAs (Decidable (c.guard e))

instance (c : EchoClient) : Decidable (echoLoop.busy c) :=
  inferInstanceAs (Decidable (_ ∨ c.sending.Busy))

def UdpServer.Busy (s : UdpServer) : Prop :=
  s.receive ≠ .stopped ∨ s.replyQueue.posted ≠ [] ∨ s.replyQueue.inFlight ≠ []

/-- The server; all that it does, it does on its own thread. -/
def serverLoop : EventLoop UdpServer ServerEvent := ⟨server, fun _ => .loop, UdpServer.Busy⟩

instance (s : UdpServer) (e : ServerEvent) : Decidable (serverLoop.program.guard s e) :=
  inferInstanceAs (Decidable (s.guard e))

instance (s : UdpServer) : Decidable (serverLoop.busy s) :=
  inferInstanceAs (Decidable (_ ∨ _ ∨ _))

/-- A receive is in progress, or has completed without an error. -/
def Receive.Listening : Receive → Prop
  | .pending | .ready _ => True
  | .stopped | .failed _ => False

theorem Receive.Listening.ne_stopped {r : Receive} (h : r.Listening) : r ≠ .stopped := by
  rintro rfl
  exact h

/-- As long as no receive fails, the next one is started. -/
theorem EchoClient.listening_next {c : EchoClient} (h : c.receive.Listening) {e : EchoClientEvent}
    (he : ¬ ∃ ec, e = .receiveError ec) : (c.next e).receive.Listening := by
  cases e with
  | sending e => exact h
  | arrive source data => trivial
  | receiveError ec => exact absurd ⟨ec, rfl⟩ he
  | onReceive =>
      change c.onReceive.receive.Listening
      unfold EchoClient.onReceive
      split
      · trivial
      · next hfailed => simp [hfailed, Receive.Listening] at h
      · exact h

theorem UdpServer.listening_next {s : UdpServer} (h : s.receive.Listening) {e : ServerEvent}
    (he : ¬ ∃ ec, e = .receiveError ec) : (s.next e).receive.Listening := by
  cases e with
  | arrive source data => trivial
  | receiveError ec => exact absurd ⟨ec, rfl⟩ he
  | onReceive =>
      change s.onReceive.receive.Listening
      unfold UdpServer.onReceive
      split
      · trivial
      · next hfailed => simp [hfailed, Receive.Listening] at h
      · exact h
  | task => exact h
  | onSend op ec => exact h

/-- `main` of the client that also receives, and of the server that is not stopped, gets past the
`join` only if a receive has failed, whatever else has happened. -/
theorem joins_only_after_error (remoteEndpoint : Endpoint) (recvBuffer : List Byte) :
    (∀ es, echoLoop.machine.Admits (.start (.new remoteEndpoint recvBuffer)) es →
      (echoLoop.machine.exec (.start (.new remoteEndpoint recvBuffer)) es).returned = true →
        ∃ e ∈ programEvents es, ∃ ec, e = .receiveError ec) ∧
    (∀ es, serverLoop.machine.Admits (.start (.new recvBuffer)) es →
      (serverLoop.machine.exec (.start (.new recvBuffer)) es).returned = true →
        ∃ e ∈ programEvents es, ∃ ec, e = .receiveError ec) := by
  constructor
  · intro es hes hreturned
    exact EventLoop.exists_of_returned (L := echoLoop) (I := fun c => c.receive.Listening)
      (s := .new remoteEndpoint recvBuffer) (fun _ h => .inl h.ne_stopped)
      (fun _ _ h he => EchoClient.listening_next h he) trivial hes hreturned
  · intro es hes hreturned
    exact EventLoop.exists_of_returned (L := serverLoop) (I := fun s => s.receive.Listening)
      (s := .new recvBuffer) (fun _ h => .inl h.ne_stopped)
      (fun _ _ h he => UdpServer.listening_next h he) trivial hes hreturned

/-- One message, and a receive that fails. -/
def failedReceive : List (LoopEvent EchoClientEvent) :=
  [.program (.sending (.send [1])), .program (.sending .task), .program (.sending (.onSend 0 none)),
    .reset, .program (.receiveError ⟨1⟩), .program .onReceive, .returns]

/-- A server whose first receive fails. -/
def deafServer : List (LoopEvent ServerEvent) :=
  [.program (.receiveError ⟨1⟩), .program .onReceive, .reset, .returns]

theorem joins_only_after_error_runs :
    (∃ e ∈ programEvents failedReceive, ∃ ec, e = .receiveError ec) ∧
      ∃ e ∈ programEvents deafServer, ∃ ec, e = .receiveError ec := by
  obtain ⟨hclient, hserver⟩ := joins_only_after_error bob []
  exact ⟨hclient failedReceive (by decide +kernel) (by decide +kernel),
    hserver deafServer (by decide +kernel) (by decide +kernel)⟩

end Unid.Spike
