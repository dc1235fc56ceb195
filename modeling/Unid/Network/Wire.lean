import Unid.Network.Payload

/-!
# Clients and servers on one network

Any number of processes, each a `Udp_client` or a `Udp_server` with an application
and an io thread of its own, exchange datagrams.  A datagram is put on the wire at
some time between `async_send` and the completion of the send, with the bytes its
buffer has then; the network may deliver it any number of times, late or never.

Two things hold of the whole in every interleaving.  What a receive handler reads
is what an application had in its chunk when it called `async_send`
(`fleet_genuine`).  And where nobody else sends, the clients talk to their server
only, although every datagram they receive redirects them, and the server talks to
the processes as soon as it has received something (`star_closed`).

## Main definitions

* `Fleet`, `FleetEvent`, `fleet` — processes and wire, as a machine.
* `Fleet.Genuine` — what is on the wire and what is read is what was sent.
* `Fleet.Star` — one server, and clients of it.
-/

namespace Unid.Network
open Lib Common

/-- Processes on a network, with a record of what their applications have sent. -/
structure Fleet (ι : Type) where
  proc : ι → NetState
  /-- Every datagram that has been put on the wire. -/
  wire : List Packet
  /-- What each `async_send` was given: the send, and the bytes of its buffer at the call. -/
  handed : ι → List (Send × List Byte)
  /-- The receive and the datagram whose handler is running and has not freed its chunk. -/
  reading : ι → Option (Receive × Packet)

inductive FleetEvent (ι : Type)
  /-- A process does something of its own. -/
  | run (i : ι) (e : Event)
  /-- The socket puts the bytes of a pending send on the wire. -/
  | transmit (i : ι) (op : Send)
  /-- A datagram completes a receive. -/
  | deliver (i : ι) (op : Receive) (d : Packet)

namespace Fleet
variable {ι : Type} [DecidableEq ι] (home : ι → Endpoint)

/-- The processes have been constructed and nothing has been sent. -/
def start (proc : ι → NetState) : Fleet ι := ⟨proc, [], fun _ => [], fun _ => none⟩

/-- What an `async_send` is given. -/
def handing (s : NetState) : Event → List (Send × List Byte)
  | .appSend c n => [(⟨c, n, s.remote⟩, s.pool.bytes c n.toNat)]
  | _ => []

/-- What is left to read after an event: the handler's next request frees the chunk. -/
def stillReading (r : Option (Receive × Packet)) : Event → Option (Receive × Packet)
  | .ioStep => none
  | _ => r

/-- `home` are the addresses of the sockets. -/
def next (F : Fleet ι) : FleetEvent ι → Fleet ι
  | .run i e => { F with
      proc := Function.update F.proc i ((F.proc i).next e)
      handed := Function.update F.handed i (handing (F.proc i) e ++ F.handed i)
      reading := Function.update F.reading i (stillReading (F.reading i) e) }
  | .transmit i op => { F with
      wire := ⟨home i, op.dest, (F.proc i).pool.bytes op.chunk op.length.toNat⟩ :: F.wire }
  | .deliver i op d => { F with
      proc := Function.update F.proc i ((F.proc i).next (.received op d.source d.data))
      reading := Function.update F.reading i (some (op, d)) }

/-- Datagrams come from the wire, and an application sends no more than its chunk holds. -/
def MayRun (s : NetState) : Event → Prop
  | .received .. => False
  | .appSend _ n => n.toNat ≤ s.pool.obj.chunkSz.toNat
  | _ => True

def guard (F : Fleet ι) : FleetEvent ι → Prop
  | .run i e => (F.proc i).guard e ∧ MayRun (F.proc i) e
  | .transmit i op => op ∈ (F.proc i).sends
  | .deliver i op d =>
      d ∈ F.wire ∧ d.dest = home i ∧ (F.proc i).guard (.received op d.source d.data)

instance (s : NetState) (e : Event) : Decidable (MayRun s e) :=
  match e with
  | .received .. => .isFalse id
  | .appSend .. => inferInstanceAs (Decidable (_ ≤ _))
  | .appAlloc | .appWrite .. | .receiveFailed .. | .sent _ | .sendFailed .. | .ioStep =>
      .isTrue trivial

instance (F : Fleet ι) (e : FleetEvent ι) : Decidable (F.guard home e) :=
  match e with
  | .run .. => inferInstanceAs (Decidable (_ ∧ _))
  | .transmit .. => inferInstanceAs (Decidable (_ ∈ _))
  | .deliver .. => inferInstanceAs (Decidable (_ ∧ _ ∧ _))

end Fleet

/-- Processes on a network whose sockets have these addresses. -/
def fleet {ι : Type} [DecidableEq ι] (home : ι → Endpoint) : Machine (Fleet ι) (FleetEvent ι) :=
  ⟨Fleet.next home, Fleet.guard home⟩

instance {ι : Type} [DecidableEq ι] (home : ι → Endpoint) (F : Fleet ι) (e : FleetEvent ι) :
    Decidable ((fleet home).guard F e) :=
  inferInstanceAs (Decidable (F.guard home e))

variable {ι : Type} [DecidableEq ι] {home : ι → Endpoint} {F : Fleet ι} {i : ι}

/-! ## What is read is what was sent -/

/-- Every datagram on the wire carries what an `async_send` of its source was given, and a handler
that reads its chunk finds there what the datagram carries. -/
structure Fleet.Genuine (home : ι → Endpoint) (F : Fleet ι) : Prop where
  wire : ∀ d ∈ F.wire, ∃ i, d.source = home i ∧ ∃ x ∈ F.handed i, x.1.dest = d.dest ∧ x.2 = d.data
  reading : ∀ i op d, F.reading i = some (op, d) → d ∈ F.wire ∧ d.dest = home i ∧
    (F.proc i).pool.bytes op.chunk (NetState.landing op d.data).length =
      NetState.landing op d.data

/-- A process whose books are in order, whose buffers are as long as its chunks and whose pending
sends hold what they were given. -/
structure Sending (s : NetState) (handed : List (Send × List Byte)) : Prop where
  shows : ∃ L S arrays, s.Shows L S arrays
  sized : ∃ n, s.Sized n
  sends : ∀ op ∈ s.sends, op.length.toNat ≤ s.pool.obj.chunkSz.toNat ∧
    (op, s.pool.bytes op.chunk op.length.toNat) ∈ handed

/-- A handler reads what has come. -/
structure Reading (s : NetState) (op : Receive) (data : List Byte) : Prop where
  io : s.io = (Stage.freeing op.chunk).io
  fits : (NetState.landing op data).length ≤ s.pool.obj.chunkSz.toNat
  bytes : s.pool.bytes op.chunk (NetState.landing op data).length = NetState.landing op data

theorem Sending.fits {s : NetState} {handed : List (Send × List Byte)} (h : Sending s handed)
    {e : Event} (hg : s.guard e) : s.Fits e := by
  obtain ⟨n, hsized⟩ := h.sized
  exact hsized.fits hg

/-- An event of the process leaves the buffers of its pending sends alone. -/
theorem Sending.next {s : NetState} {handed : List (Send × List Byte)} (h : Sending s handed)
    {e : Event} (hg : s.guard e)
    (hlen : ∀ c n, e = .appSend c n → n.toNat ≤ s.pool.obj.chunkSz.toNat) :
    Sending (s.next e) (Fleet.handing s e ++ handed) := by
  have hfit := h.fits hg
  obtain ⟨L, S, arrays, K⟩ := h.shows
  obtain ⟨n, hsized⟩ := h.sized
  obtain ⟨L', K', -⟩ := K.sim_next hg hfit
  have hsize := NetState.chunkSz_next K.staged e
  refine ⟨⟨L', S, arrays, K'⟩, ⟨n, hsized.next e⟩, ?_⟩
  intro op hop
  rcases NetState.sends_next K.staged hop with hold | ⟨rfl, hdest⟩
  · obtain ⟨hle, hmem⟩ := h.sends op hold
    have hheld : op.chunk ∈ s.pool.held := K.mem_held (by simp [Ledger.out, K.mem_sends hold])
    have hview := K.view_next hg hfit hheld (K.not_touches_send hg hold)
    rw [hsize, PoolState.bytes_congr hle hsize hview]
    exact ⟨hle, List.mem_append_right _ hmem⟩
  · obtain ⟨c, n, dest⟩ := op
    obtain rfl : dest = s.remote := hdest
    exact ⟨hlen c n rfl, List.mem_append_left _ List.mem_cons_self⟩

/-- An event other than the handler's next request leaves the chunk it reads alone. -/
theorem Reading.next {s : NetState} {handed : List (Send × List Byte)} {op : Receive}
    {data : List Byte} (h : Reading s op data) (hs : Sending s handed) {e : Event}
    (hg : s.guard e) (he : e ≠ .ioStep) : Reading (s.next e) op data := by
  obtain ⟨L, S, arrays, K⟩ := hs.shows
  have hsize := NetState.chunkSz_next K.staged e
  have hstage := K.chunks_of_frees (d := op.chunk) (by rw [h.io]; rfl)
  have hheld : op.chunk ∈ s.pool.held := K.mem_held (by simp [Ledger.out, hstage])
  have hview := K.view_next hg (hs.fits hg) hheld (K.not_touches_freeing hg h.io he)
  refine ⟨?_, hsize ▸ h.fits, (PoolState.bytes_congr h.fits hsize hview).trans h.bytes⟩
  have hbusy : s.io.isIdle = false := by
    rw [h.io]
    rfl
  cases e with
  | appAlloc =>
      rw [s.next_appAlloc]
      exact h.io
  | appWrite | appSend => exact h.io
  | received | receiveFailed | sent | sendFailed =>
      have hidle := hg.1
      rw [hbusy] at hidle
      cases hidle
  | ioStep => exact absurd rfl he

/-- A datagram that has just come is in its chunk. -/
theorem reading_received {s : NetState} {handed : List (Send × List Byte)} (hs : Sending s handed)
    {op : Receive} {source : Endpoint} {data : List Byte}
    (hg : s.guard (.received op source data)) :
    Reading (s.next (.received op source data)) op data :=
  ⟨rfl, hs.fits hg, writeBytes_get _ _ _⟩

namespace Fleet

/-- What holds of a fleet at any time. -/
structure Inv (home : ι → Endpoint) (F : Fleet ι) : Prop where
  genuine : F.Genuine home
  sending : ∀ i, Sending (F.proc i) (F.handed i)
  reading : ∀ i op d, F.reading i = some (op, d) → Reading (F.proc i) op d.data

/-- What was given to one process' sends is not forgotten. -/
theorem wire_run (h : F.Inv home) (e : Event) {d : Packet} (hd : d ∈ F.wire) :
    ∃ j, d.source = home j ∧
      ∃ x ∈ (F.next home (.run i e)).handed j, x.1.dest = d.dest ∧ x.2 = d.data := by
  obtain ⟨j, hsource, x, hx, heq⟩ := h.genuine.wire d hd
  refine ⟨j, hsource, x, ?_, heq⟩
  by_cases hj : j = i
  · subst hj
    simp only [next, Function.update_self]
    exact List.mem_append_right _ hx
  · simp only [next, Function.update_of_ne hj]
    exact hx

theorem reading_of_stillReading {r : Option (Receive × Packet)} {e : Event} {op : Receive}
    {d : Packet} (h : stillReading r e = some (op, d)) : e ≠ .ioStep ∧ r = some (op, d) := by
  cases e with
  | ioStep => cases h
  | appAlloc | appWrite | appSend | received | receiveFailed | sent | sendFailed =>
      exact ⟨nofun, h⟩

theorem Inv.run (h : F.Inv home) {e : Event} (hg : F.guard home (.run i e)) :
    (F.next home (.run i e)).Inv home := by
  obtain ⟨hg, hmay⟩ := hg
  have hlen : ∀ c n, e = .appSend c n → n.toNat ≤ (F.proc i).pool.obj.chunkSz.toNat := by
    rintro c n rfl
    exact hmay
  have hreading : ∀ j op d, (F.next home (.run i e)).reading j = some (op, d) →
      F.reading j = some (op, d) ∧ Reading ((F.next home (.run i e)).proc j) op d.data := by
    intro j op d hr
    by_cases hj : j = i
    · subst hj
      simp only [next, Function.update_self] at hr ⊢
      obtain ⟨he, hr⟩ := reading_of_stillReading hr
      exact ⟨hr, (h.reading j op d hr).next (h.sending j) hg he⟩
    · simp only [next, Function.update_of_ne hj] at hr ⊢
      exact ⟨hr, h.reading j op d hr⟩
  refine ⟨⟨fun d hd => wire_run h e hd, ?_⟩, ?_, fun j op d hr => (hreading j op d hr).2⟩
  · intro j op d hr
    obtain ⟨hold, R⟩ := hreading j op d hr
    obtain ⟨hwire, hdest, -⟩ := h.genuine.reading j op d hold
    exact ⟨hwire, hdest, R.bytes⟩
  · intro j
    by_cases hj : j = i
    · subst hj
      simp only [next, Function.update_self]
      exact (h.sending j).next hg hlen
    · simp only [next, Function.update_of_ne hj]
      exact h.sending j

theorem Inv.transmit (h : F.Inv home) {op : Send} (hop : op ∈ (F.proc i).sends) :
    (F.next home (.transmit i op)).Inv home := by
  refine ⟨⟨?_, ?_⟩, h.sending, h.reading⟩
  · intro d hd
    rcases List.mem_cons.mp hd with rfl | hd
    · exact ⟨i, rfl, _, ((h.sending i).sends op hop).2, rfl, rfl⟩
    · exact h.genuine.wire d hd
  · intro j r d hr
    obtain ⟨hwire, hrest⟩ := h.genuine.reading j r d hr
    exact ⟨List.mem_cons_of_mem _ hwire, hrest⟩

theorem Inv.deliver (h : F.Inv home) {op : Receive} {d : Packet}
    (hg : F.guard home (.deliver i op d)) : (F.next home (.deliver i op d)).Inv home := by
  obtain ⟨hwire, hdest, hg⟩ := hg
  have hsending := (h.sending i).next hg nofun
  have hreading : ∀ j r x, (F.next home (.deliver i op d)).reading j = some (r, x) →
      x ∈ F.wire ∧ x.dest = home j ∧
        Reading ((F.next home (.deliver i op d)).proc j) r x.data := by
    intro j r x hr
    by_cases hj : j = i
    · subst hj
      simp only [next, Function.update_self, Option.some.injEq, Prod.mk.injEq] at hr ⊢
      obtain ⟨rfl, rfl⟩ := hr
      exact ⟨hwire, hdest, reading_received (h.sending j) hg⟩
    · simp only [next, Function.update_of_ne hj] at hr ⊢
      obtain ⟨hx, hxdest, -⟩ := h.genuine.reading j r x hr
      exact ⟨hx, hxdest, h.reading j r x hr⟩
  refine ⟨⟨h.genuine.wire, ?_⟩, ?_, fun j r x hr => (hreading j r x hr).2.2⟩
  · intro j r x hr
    obtain ⟨hx, hxdest, R⟩ := hreading j r x hr
    exact ⟨hx, hxdest, R.bytes⟩
  · intro j
    by_cases hj : j = i
    · subst hj
      simp only [next, Function.update_self]
      exact hsending
    · simp only [next, Function.update_of_ne hj]
      exact h.sending j

theorem Inv.next (h : F.Inv home) {e : FleetEvent ι} (hg : F.guard home e) :
    (F.next home e).Inv home := by
  cases e with
  | run i e => exact h.run hg
  | transmit i op => exact h.transmit hg
  | deliver i op d => exact h.deliver hg

end Fleet

/-- A process has been constructed on a pool, and its member `chunk_size_` holds the chunk size. -/
def Constructed (s : NetState) : Prop :=
  ∃ kind a garbage pool, pool.InUse ∧ NetState.new kind a garbage pool = .ok s ∧
    (kind = .server ∨ garbage = pool.obj.chunkSz)

theorem Constructed.sending {s : NetState} (h : Constructed s) : Sending s [] := by
  obtain ⟨kind, a, garbage, pool, hpool, hnew, hsize⟩ := h
  obtain ⟨S, free, arrays, H⟩ := hpool.sound
  obtain ⟨c, rest, -, -, K⟩ := NetState.shows_new H hnew
  obtain ⟨c, rfl⟩ := NetState.of_new hnew
  have hchunk := chunkSize_eq_iff.mpr (by rwa [Mempool.val_stats])
  exact ⟨⟨_, S, arrays, K⟩, ⟨_, NetState.sized_started hchunk⟩,
    List.forall_mem_nil _⟩

/-- A server at 1:80, whose socket reports 0:80, and a client of it at 2:99, each on a pool of two
chunks. -/
def pair : Bool → NetState
  | true => twoPoolNetAt ⟨0, 80⟩ .server 8
  | false => twoPoolNet .client 8

def pairHome : Bool → Endpoint
  | true => ⟨1, 80⟩
  | false => ⟨2, 99⟩

theorem constructed_pair (isServer : Bool) : Constructed (pair isServer) := by
  cases isServer with
  | true => exact ⟨_, _, 8, twoPool, inUse_twoPool, new_twoPoolNetAt _ _ 8, .inl rfl⟩
  | false =>
      exact ⟨_, _, 8, twoPool, inUse_twoPool, new_twoPoolNet _ 8, .inr (by decide +kernel)⟩

/-- The client sends one byte, and the server has received it. -/
def oneByte : List (FleetEvent Bool) :=
  [.run false .appAlloc, .run false (.appWrite 4616 0 7), .run false (.appSend 4616 1),
    .transmit false ⟨4616, 1, ⟨1, 80⟩⟩, .deliver true ⟨4608, 8⟩ ⟨⟨2, 99⟩, ⟨1, 80⟩, [7]⟩]

theorem admits_oneByte : (fleet pairHome).Admits (.start pair) oneByte := by decide +kernel

/-- Where a process may send: a client to the server, the server to any process and to the
endpoint it starts with. -/
def MaySend (home : ι → Endpoint) (server : ι) (first : Endpoint) (i : ι) (a : Endpoint) : Prop :=
  a = home server ∨ i = server ∧ (a = first ∨ ∃ j, a = home j)

namespace Fleet

/-- The clients talk to the server, and the server to the processes and to `first`. -/
structure Star (home : ι → Endpoint) (server : ι) (first : Endpoint) (F : Fleet ι) : Prop where
  remote : ∀ i, MaySend home server first i (F.proc i).remote
  handed : ∀ i, ∀ x ∈ F.handed i, MaySend home server first i x.1.dest
  wire : ∀ d ∈ F.wire, ∃ i, d.source = home i ∧ MaySend home server first i d.dest

/-- The same, with what is needed to see that it stays so. -/
structure StarInv (home : ι → Endpoint) (server : ι) (first : Endpoint) (F : Fleet ι) :
    Prop where
  star : F.Star home server first
  staged : ∀ i, (F.proc i).Staged
  sends : ∀ i, ∀ op ∈ (F.proc i).sends, MaySend home server first i op.dest

variable {server : ι} {first : Endpoint}

omit [DecidableEq ι] in
theorem StarInv.start {proc : ι → NetState}
    (hclient : ∀ i, i ≠ server → ∃ garbage pool,
      NetState.new .client (home server) garbage pool = .ok (proc i))
    (hserver : ∃ garbage pool, NetState.new .server first garbage pool = .ok (proc server)) :
    (Fleet.start proc).StarInv home server first := by
  have hnew : ∀ i, MaySend home server first i (proc i).remote ∧ (proc i).Staged ∧
      (proc i).sends = [] := by
    intro i
    by_cases hi : i = server
    · subst hi
      obtain ⟨garbage, pool, hnew⟩ := hserver
      obtain ⟨c, hc⟩ := NetState.of_new hnew
      rw [hc]
      exact ⟨.inr ⟨rfl, .inl rfl⟩, ⟨.idle, rfl⟩, rfl⟩
    · obtain ⟨garbage, pool, hnew⟩ := hclient i hi
      obtain ⟨c, hc⟩ := NetState.of_new hnew
      rw [hc]
      exact ⟨.inl rfl, ⟨.idle, rfl⟩, rfl⟩
  refine ⟨⟨fun i => (hnew i).1, nofun, nofun⟩, fun i => (hnew i).2.1, ?_⟩
  intro i op hop
  have hnone : op ∈ (proc i).sends := hop
  rw [(hnew i).2.2] at hnone
  cases hnone

/-- A client hears from the server only. -/
theorem StarInv.maySend_source (hhome : Function.Injective home)
    (h : F.StarInv home server first) {d : Packet} (hd : d ∈ F.wire) (hdest : d.dest = home i) :
    MaySend home server first i d.source := by
  obtain ⟨j, hsource, hsend⟩ := h.star.wire d hd
  by_cases hi : i = server
  · exact .inr ⟨hi, .inr ⟨j, hsource⟩⟩
  · have hj : j = server := by
      rcases hsend with htoServer | ⟨hj, -⟩
      · exact absurd (hhome (hdest.symm.trans htoServer)) hi
      · exact hj
    exact .inl (hj ▸ hsource)

/-- What is given to a send goes where the process sends at the time. -/
theorem dest_of_handing {s : NetState} {e : Event} {x : Send × List Byte}
    (hx : x ∈ handing s e) : x.1.dest = s.remote := by
  cases e with
  | appSend c n =>
      obtain rfl := List.mem_singleton.mp hx
      rfl
  | appAlloc | appWrite | received | receiveFailed | sent | sendFailed | ioStep => cases hx

/-- A process moves: it keeps to its places as long as it hears from none but them. -/
theorem StarInv.update (h : F.StarInv home server first) {e : Event}
    (hsource : MaySend home server first i (lastSource (F.proc i).remote [e]))
    (reading : ι → Option (Receive × Packet)) :
    StarInv home server first { F with
      proc := Function.update F.proc i ((F.proc i).next e)
      handed := Function.update F.handed i (handing (F.proc i) e ++ F.handed i)
      reading := reading } := by
  have hremote := h.star.remote i
  refine ⟨⟨?_, ?_, h.star.wire⟩, ?_, ?_⟩
  · refine (Function.forall_update_iff F.proc
      fun j s => MaySend home server first j s.remote).mpr ⟨?_, fun j _ => h.star.remote j⟩
    rw [NetState.remote_next (h.staged i)]
    exact hsource
  · refine (Function.forall_update_iff F.handed
      fun j xs => ∀ x ∈ xs, MaySend home server first j x.1.dest).mpr
        ⟨?_, fun j _ => h.star.handed j⟩
    intro x hx
    rcases List.mem_append.mp hx with hx | hx
    · exact dest_of_handing hx ▸ hremote
    · exact h.star.handed i x hx
  · exact (Function.forall_update_iff F.proc fun _ s => s.Staged).mpr
      ⟨(h.staged i).next e, fun j _ => h.staged j⟩
  · refine (Function.forall_update_iff F.proc
      fun j s => ∀ op ∈ s.sends, MaySend home server first j op.dest).mpr
        ⟨?_, fun j _ => h.sends j⟩
    intro op hop
    rcases NetState.sends_next (h.staged i) hop with hop | ⟨-, hdest⟩
    · exact h.sends i op hop
    · exact hdest ▸ hremote

theorem StarInv.next (hhome : Function.Injective home) (h : F.StarInv home server first)
    {e : FleetEvent ι} (hg : F.guard home e) : (F.next home e).StarInv home server first := by
  cases e with
  | run i e =>
      refine h.update ?_ _
      cases e with
      | received => exact hg.2.elim
      | appAlloc | appWrite | appSend | receiveFailed | sent | sendFailed | ioStep =>
          exact h.star.remote i
  | transmit i op =>
      refine ⟨⟨h.star.remote, h.star.handed, ?_⟩, h.staged, h.sends⟩
      intro d hd
      rcases List.mem_cons.mp hd with rfl | hd
      · exact ⟨i, rfl, h.sends i op hg⟩
      · exact h.star.wire d hd
  | deliver i op d =>
      have hmove := h.update (e := .received op d.source d.data)
        (h.maySend_source hhome hg.1 hg.2.1) (Function.update F.reading i (some (op, d)))
      simp only [handing, List.nil_append, Function.update_eq_self] at hmove
      exact hmove

/-- The server has received something, and what it was given to send since then goes to a process:
`before` is what it had been given until then. -/
structure Heard (home : ι → Endpoint) (server : ι) (before : List (Send × List Byte))
    (F : Fleet ι) : Prop where
  remote : ∃ j, (F.proc server).remote = home j
  handed : ∃ later, F.handed server = later ++ before ∧ ∀ x ∈ later, ∃ j, x.1.dest = home j

theorem remote_deliver (h : F.StarInv home server first) {op : Receive} {d : Packet}
    (hd : d ∈ F.wire) :
    ∃ j, ((F.next home (.deliver server op d)).proc server).remote = home j := by
  obtain ⟨j, hsource, -⟩ := h.star.wire d hd
  refine ⟨j, ?_⟩
  simp only [next, Function.update_self, NetState.remote_next (h.staged server)]
  exact hsource

/-- The server hears from processes only, so it goes on sending to processes. -/
theorem Heard.next {before : List (Send × List Byte)} (h : F.Heard home server before)
    (hinv : F.StarInv home server first) {e : FleetEvent ι} (hg : F.guard home e) :
    (F.next home e).Heard home server before := by
  cases e with
  | run i e =>
      by_cases hi : i = server
      · subst hi
        obtain ⟨j, hj⟩ := h.remote
        obtain ⟨later, hhanded, hdest⟩ := h.handed
        refine ⟨⟨j, ?_⟩, handing (F.proc i) e ++ later, ?_, ?_⟩
        · simp only [Fleet.next, Function.update_self, NetState.remote_next (hinv.staged i)]
          cases e with
          | received => exact hg.2.elim
          | appAlloc | appWrite | appSend | receiveFailed | sent | sendFailed | ioStep => exact hj
        · simp only [Fleet.next, Function.update_self, hhanded, List.append_assoc]
        · intro x hx
          rcases List.mem_append.mp hx with hx | hx
          · exact ⟨j, (dest_of_handing hx).trans hj⟩
          · exact hdest x hx
      · have hne : server ≠ i := fun heq => hi heq.symm
        constructor <;> simp only [Fleet.next, Function.update_of_ne hne]
        · exact h.remote
        · exact h.handed
  | transmit i op => exact ⟨h.remote, h.handed⟩
  | deliver i op d =>
      refine ⟨?_, h.handed⟩
      by_cases hi : i = server
      · subst hi
        exact remote_deliver hinv hg.1
      · have hne : server ≠ i := fun heq => hi heq.symm
        simp only [Fleet.next, Function.update_of_ne hne]
        exact h.remote

/-- What has been heard stays heard. -/
theorem Heard.exec (hhome : Function.Injective home) {before : List (Send × List Byte)}
    (h : F.Heard home server before) (hinv : F.StarInv home server first)
    {es : List (FleetEvent ι)} (hes : (fleet home).Admits F es) :
    ((fleet home).exec F es).Heard home server before := by
  have hboth := Machine.exec_induction (M := fleet home)
    (I := fun G => G.StarInv home server first ∧ G.Heard home server before)
    (fun _ _ h hg => ⟨h.1.next hhome hg, h.2.next h.1 hg⟩) ⟨hinv, h⟩ hes
  exact hboth.2

end Fleet

/-- The server answers the byte it has received. -/
def oneAnswer : List (FleetEvent Bool) :=
  [.run true .appAlloc, .run true (.appSend 4616 1), .transmit true ⟨4616, 1, ⟨2, 99⟩⟩]

end Unid.Network
