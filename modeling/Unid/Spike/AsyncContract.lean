import Unid.Spike.AsyncUdp

/-!
# What becomes of the replies

As long as sends succeed, the server's replies go through tasks, queue and socket
in the order of their datagrams, and every one of them gets there
(`echoes_in_order`): the handler has copied buffer and endpoint before the next
datagram can arrive.

A send that fails is another matter.  Its handler leaves the message at the front
of the queue and starts nothing, and later tasks take the queue for one that is
being emptied.  So in both prototypes the queue matches the sends in flight
exactly as long as no send has failed (`queues_balanced_iff`).

## Main definitions

* `UdpServer.Tracks` — the invariant of runs in which sends succeed.
-/

namespace Unid.Spike
open Lib

namespace UdpServer
variable {s : UdpServer} {ds : List Datagram}

/-- The reply that the handler of the receive is about to post. -/
def unread (s : UdpServer) : List ReplyItem :=
  match s.receive with
  | .ready n => [⟨echo ++ s.recvBuffer.take n, s.remoteEndpoint⟩]
  | _ => []

/-- The replies to `ds` have been taken in by the queue, but for the one that is about to be. -/
def Tracks (s : UdpServer) (ds : List Datagram) : Prop :=
  ∃ taken, s.replyQueue.Orderly taken ∧ taken ++ s.unread = ds.map reply

theorem tracks_new (recvBuffer : List Byte) : (new recvBuffer).Tracks [] :=
  ⟨[], Outbox.orderly_empty, rfl⟩

/-- What arrives is what the handler will find. -/
theorem unread_arrive (source : Endpoint) (data : List Byte) :
    (s.arrive source data).unread = [reply ⟨source, data⟩] := by
  simp [unread, arrive, reply]

/-- What a step does that is neither a receive nor its handler. -/
theorem Tracks.of_queue {queue : Outbox ReplyItem}
    (hqueue : ∀ taken, s.replyQueue.Orderly taken → queue.Orderly taken) (h : s.Tracks ds) :
    Tracks { s with replyQueue := queue } ds := by
  obtain ⟨taken, horderly, hds⟩ := h
  exact ⟨taken, hqueue taken horderly, hds⟩

theorem Tracks.onReceive (h : s.Tracks ds) : s.onReceive.Tracks ds := by
  obtain ⟨taken, horderly, hds⟩ := h
  cases hreceive : s.receive with
  | ready n =>
      -- the buffer and the endpoint are copied into the task before the next receive starts
      simp only [unread, hreceive] at hds
      simp only [UdpServer.onReceive, hreceive]
      exact ⟨_, horderly.post _, by simpa [unread, startReceive, sendReply] using hds⟩
  | failed ec =>
      simp only [unread, hreceive] at hds
      simp only [UdpServer.onReceive, hreceive]
      exact ⟨taken, horderly, hds⟩
  | stopped | pending =>
      simp only [UdpServer.onReceive, hreceive]
      exact ⟨taken, horderly, hds⟩

theorem Tracks.arrive (h : s.Tracks ds) (hpending : s.receive = .pending) (source : Endpoint)
    (data : List Byte) : (s.arrive source data).Tracks (ds ++ [⟨source, data⟩]) := by
  obtain ⟨taken, horderly, hds⟩ := h
  refine ⟨taken, horderly, ?_⟩
  rw [unread_arrive, List.map_append, ← hds]
  simp only [unread, hpending, List.append_nil, List.map_cons, List.map_nil]

theorem Tracks.receiveError (h : s.Tracks ds) (hpending : s.receive = .pending) (ec : ErrorCode) :
    Tracks { s with receive := .failed ec } ds := by
  obtain ⟨taken, horderly, hds⟩ := h
  simp only [unread, hpending] at hds
  exact ⟨taken, horderly, hds⟩

/-- A step whose sends, if any, succeed keeps the invariant. -/
theorem Tracks.next (h : s.Tracks ds) {e : ServerEvent} (hguard : s.guard e)
    (hsucceeds : e.sendError = none) : (s.next e).Tracks (ds ++ e.datagram.toList) := by
  have hsame : ∀ {t : UdpServer}, t.Tracks ds → t.Tracks (ds ++ []) := by
    intro t ht
    rwa [List.append_nil]
  cases e with
  | arrive source data => exact h.arrive hguard source data
  | receiveError ec => exact hsame (h.receiveError hguard ec)
  | onReceive => exact hsame h.onReceive
  | task => exact hsame (h.of_queue fun _ horderly => horderly.run)
  | onSend op ec =>
      obtain rfl : ec = none := hsucceeds
      exact hsame (h.of_queue fun _ horderly => horderly.complete hguard)

/-- The invariant over runs. -/
theorem Tracks.exec (h : s.Tracks ds) {es : List ServerEvent}
    (hes : (server.restrict fun _ e => e.sendError = none).Admits s es) :
    (server.exec s es).Tracks (ds ++ datagrams es) := by
  induction es generalizing s ds with
  | nil => simpa [datagrams] using h
  | cons e es ih =>
      obtain ⟨⟨hguard, hsucceeds⟩, hrest⟩ := hes
      have htracks := ih (h.next hguard hsucceeds) hrest
      have hsplit : datagrams (e :: es) = e.datagram.toList ++ datagrams es := by
        simp only [datagrams, List.filterMap_cons]
        cases e.datagram <;> rfl
      rw [hsplit, ← List.append_assoc]
      exact htracks

theorem Tracks.echoes (h : s.Tracks ds) : s.Echoes (ds.map reply) := by
  obtain ⟨taken, horderly, hds⟩ := h
  refine ⟨horderly.length_inFlight_le, ?_, horderly.written_prefix, ?_⟩
  · exact horderly.handed_prefix.trans ⟨_, hds⟩
  · rintro ⟨hready, hposted, hflight⟩
    have hunread : s.unread = [] := by
      unfold unread
      split
      · next n hn => exact absurd hn (hready n)
      · rfl
    rw [horderly.handed_eq hposted hflight, ← hds, hunread, List.append_nil]

/-- How many tasks and handlers are still to run if nothing more arrives. -/
def work (s : UdpServer) : ℕ := 3 * s.unread.length + s.replyQueue.work

theorem work_onReceive_lt {n : ℕ} (hn : s.receive = .ready n) : s.onReceive.work < s.work := by
  simp only [onReceive, hn, work, unread, startReceive, sendReply, Outbox.work, Outbox.post,
    List.length_append, List.length_cons, List.length_nil]
  omega

/-- While something is left to do, a task or a handler is ready to run, and running it leaves less
to do. -/
theorem Tracks.progress (h : s.Tracks ds) (hquiet : ¬ s.Quiet) :
    ∃ e : ServerEvent, s.guard e ∧ (e.sendError = none ∧ e.datagram = none) ∧
      (s.next e).Tracks ds ∧ (s.next e).work < s.work := by
  by_cases hready : ∀ n, s.receive ≠ .ready n
  · by_cases hposted : s.replyQueue.posted = []
    · -- a send is in flight, so the queue is not empty
      have hflight : s.replyQueue.inFlight ≠ [] := fun hflight => hquiet ⟨hready, hposted, hflight⟩
      obtain ⟨op, hop⟩ := List.exists_mem_of_ne_nil _ hflight
      obtain ⟨taken, horderly, hds⟩ := id h
      obtain ⟨m, rest, hqueue, -⟩ := horderly.of_mem_inFlight hop
      have hne : s.replyQueue.queue ≠ [] := by simp [hqueue]
      have hlt : (s.replyQueue.complete op (none : Option ErrorCode)).work < s.replyQueue.work :=
        Outbox.work_complete_lt hne op
      refine ⟨.onSend op none, hop, ⟨rfl, rfl⟩, h.of_queue fun _ ho => ho.complete hop, ?_⟩
      exact Nat.add_lt_add_left hlt _
    · refine ⟨.task, hposted, ⟨rfl, rfl⟩, h.of_queue fun _ ho => ho.run, ?_⟩
      exact Nat.add_lt_add_left (Outbox.work_run_lt hposted) _
  · obtain ⟨n, hn⟩ := not_forall.mp hready
    have hn : s.receive = .ready n := not_not.mp hn
    have hdone : s.receiveDone = true := by rw [receiveDone, hn]
    exact ⟨.onReceive, hdone, ⟨rfl, rfl⟩, h.onReceive, work_onReceive_lt hn⟩

end UdpServer

/-- In a run whose sends all succeed, the replies go out in the order of their datagrams, each once
and one at a time, each with what fits the buffer of its own datagram and to that datagram's sender;
and once nothing more arrives, tasks and handlers bring every one of them to the socket. -/
theorem echoes_in_order (recvBuffer : List Byte) (es : List ServerEvent)
    (hes : (server.restrict fun _ e => e.sendError = none).Admits (.new recvBuffer) es) :
    let s := server.exec (.new recvBuffer) es
    let replies := (datagrams es).map reply
    s.Echoes replies ∧
      ∃ es', server.Admits s es' ∧ (∀ e ∈ es', e.sendError = none ∧ e.datagram = none) ∧
        (server.exec s es').replyQueue.handed = replies := by
  intro s replies
  have htracks : s.Tracks (datagrams es) := (UdpServer.tracks_new recvBuffer).exec hes
  refine ⟨htracks.echoes, ?_⟩
  obtain ⟨es', hes', hkind, hend, hquiet⟩ :=
    Machine.exists_run (M := server) (I := (UdpServer.Tracks · (datagrams es))) UdpServer.work
      (fun _ h hquiet => h.progress hquiet) s htracks
  exact ⟨es', hes', hkind, hend.echoes.all hquiet⟩

/-- Two clients. -/
def alice : Endpoint := ⟨0x0a000001, 5001⟩

def bob : Endpoint := ⟨0x0a000002, 5002⟩

/-- Bob's datagram arrives while the task with Alice's reply is still posted. -/
def twoClients : List ServerEvent :=
  [.arrive alice [1], .onReceive, .arrive bob [2], .onReceive, .task, .task, .onSend 0 none]

theorem echoes_two_clients :
    (server.restrict fun _ e => e.sendError = none).Admits (.new []) twoClients ∧
      (server.exec (.new []) twoClients).Echoes
        [⟨echo ++ [1], alice⟩, ⟨echo ++ [2], bob⟩] := by
  have hadmits : (server.restrict fun _ e => e.sendError = none).Admits (.new []) twoClients := by
    decide +kernel
  exact ⟨hadmits, (echoes_in_order [] twoClients hadmits).1⟩

/-- A datagram of 1025 bytes comes back without its last one. -/
theorem long_datagram_cut :
    let data : List Byte := List.replicate 1025 1
    let es : List ServerEvent := [.arrive alice data, .onReceive, .task]
    (server.restrict fun _ e => e.sendError = none).Admits (.new []) es ∧
      (server.exec (.new []) es).replyQueue.handed = [⟨echo ++ List.replicate 1024 1, alice⟩] ∧
      (server.exec (.new []) es).replyQueue.handed ≠ [⟨echo ++ data, alice⟩] := by
  decide +kernel

/-! ## Sends that fail -/

theorem UdpServer.step (s : UdpServer) (e : ServerEvent) (hguard : s.guard e) :
    s.replyQueue.Step e.sendError (s.next e).replyQueue := by
  cases e with
  | arrive | receiveError => exact .skip
  | onReceive =>
      change s.replyQueue.Step none s.onReceive.replyQueue
      unfold UdpServer.onReceive
      split
      · exact .post _
      · exact .skip
      · exact .skip
  | task => exact .run
  | onSend op ec => exact .complete ec hguard

theorem UdpClient.step (s : UdpClient) (e : ClientEvent) (hguard : s.guard e) :
    s.writeQueue.Step e.sendError (s.next e).writeQueue := by
  cases e with
  | send message => exact .post message
  | task => exact .run
  | onSend op ec => exact .complete ec hguard

/-- In both prototypes the queue is not empty exactly when one send is in flight, in every state of
a run, exactly when all sends that complete in the run succeed. -/
theorem queues_balanced_iff (recvBuffer : List Byte) (remoteEndpoint : Endpoint) :
    (∀ es, server.Admits (.new recvBuffer) es →
      ((∀ es', es' <+: es → (server.exec (.new recvBuffer) es').replyQueue.Balanced) ↔
        ∀ e ∈ es, e.sendError = none)) ∧
    (∀ es, client.Admits (.new remoteEndpoint) es →
      ((∀ es', es' <+: es → (client.exec (.new remoteEndpoint) es').writeQueue.Balanced) ↔
        ∀ e ∈ es, e.sendError = none)) := by
  constructor
  · intro es hes
    exact Outbox.balanced_iff UdpServer.step ⟨[], Outbox.orderly_empty⟩ hes
  · intro es hes
    exact Outbox.balanced_iff UdpClient.step ⟨[], Outbox.orderly_empty⟩ hes

/-- One message, sent. -/
def oneMessage : List ClientEvent := [.send [1], .task, .onSend 0 none]

theorem queues_balanced_runs :
    (server.Admits (.new []) twoClients ∧
      ∀ es', es' <+: twoClients → (server.exec (.new []) es').replyQueue.Balanced) ∧
    (client.Admits (.new bob) oneMessage ∧
      ∀ es', es' <+: oneMessage → (client.exec (.new bob) es').writeQueue.Balanced) := by
  have hserver : server.Admits (.new []) twoClients := by decide +kernel
  have hclient : client.Admits (.new bob) oneMessage := by decide +kernel
  obtain ⟨hiff, hiff'⟩ := queues_balanced_iff [] bob
  exact ⟨⟨hserver, (hiff twoClients hserver).mpr (by decide +kernel)⟩,
    hclient, (hiff' oneMessage hclient).mpr (by decide +kernel)⟩

/-- Two messages, the first of which is not sent. -/
def failedSend : List ClientEvent := [.send [1], .send [2], .task, .task, .onSend 0 (some ⟨1⟩)]

/-- After the error both messages are in the queue with nothing in flight; and whatever the client
goes on to do, no send is ever started again. -/
theorem failed_send_stalls :
    client.Admits (.new bob) failedSend ∧
      (client.exec (.new bob) failedSend).writeQueue.queue = [[1], [2]] ∧
      (client.exec (.new bob) failedSend).writeQueue.inFlight = [] ∧
      ¬ (client.exec (.new bob) failedSend).writeQueue.Balanced ∧
      ∀ es, client.Admits (client.exec (.new bob) failedSend) es →
        (client.exec (client.exec (.new bob) failedSend) es).writeQueue.handed = [[1]] := by
  have hstalled : (client.exec (.new bob) failedSend).writeQueue.Stalled :=
    ⟨by decide +kernel, by decide +kernel⟩
  refine ⟨by decide +kernel, by decide +kernel, hstalled.2, hstalled.not_balanced, ?_⟩
  intro es hes
  refine (Outbox.Stalled.exec UdpClient.step hstalled hes).2.trans ?_
  decide +kernel

end Unid.Spike
