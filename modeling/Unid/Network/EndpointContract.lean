import Unid.Network.Custody

/-!
# What an endpoint guarantees

The promises of the two classes, as conditions on the steps of a run.  Chunks
are accounted for as long as no operation completes with an error
(`chunks_balanced`); one receive is pending as long as no receive completes with
an error and the application leaves the receive handler its chunk
(`receive_pending`).  Both need datagrams to stay inside their chunks, which
`buffers_contained_iff` settles for pools of good sizes: the server's constructor
sees to it, the client's assigns the chunk size to a local variable and leaves the
member as it was.
-/

namespace Unid.Network
open Lib Common

/-! ## Every chunk is accounted for -/

namespace NetState

/-- Between handlers the chunks out of the pool are those of the pending operations and
those of the application, and no chunk has ever been freed twice. -/
structure Balanced (s : NetState) : Prop where
  count : s.io.isIdle = true →
    (s.pool.obj.stats.val s.pool.heap).available.toNat +
        (s.receives.length + s.sends.length + s.app.length) =
      s.pool.obj.poolSz.toNat + s.pool.obj.extraSz.toNat
  owned : s.io.isIdle = true → s.pool.held.Perm
    (s.receives.map Receive.chunk ++ s.sends.map Send.chunk ++ s.app)
  once : s.twice = []

/-- No operation completes with an error, and datagrams stay inside their chunks. -/
def Clean (s : NetState) : Event → Prop
  | .receiveFailed .. | .sendFailed .. => False
  | e => s.Fits e

instance (s : NetState) (e : Event) : Decidable (s.Clean e) :=
  match e with
  | .receiveFailed .. | .sendFailed .. => .isFalse id
  | .received .. => inferInstanceAs (Decidable (_ ≤ _))
  | .appAlloc | .appWrite .. | .appSend .. | .sent _ | .ioStep => .isTrue trivial

theorem Clean.fits {s : NetState} {e : Event} (h : s.Clean e) : s.Fits e := by
  cases e <;> first | exact h | exact h.elim

end NetState

theorem Ledger.Step.failed_eq_zero {L L' : Ledger} {s : NetState} {e : Event} (hc : s.Clean e)
    (h : L.Step e L') (hL : L.failed = 0) : L'.failed = 0 := by
  cases h <;> first | exact hL | exact hc.elim

namespace NetState.Shows
variable {s : NetState} {L : Ledger} {S : Word} {arrays : List Arr}

theorem available (K : s.Shows L S arrays) :
    (s.pool.obj.stats.val s.pool.heap).available.toNat = L.free.length := by
  rw [Mempool.val_stats]
  exact K.sound.rep.poolAvailable_spec.1

theorem balanced (K : s.Shows L S arrays) (hL : L.failed = 0) : s.Balanced := by
  have howned : s.io.isIdle = true → s.pool.held.Perm
      (s.receives.map Receive.chunk ++ s.sends.map Send.chunk ++ s.app) := by
    intro hidle
    have hheld := K.held
    rw [Ledger.out, K.stage_idle hidle, hL, ← K.receives, ← K.sends, ← K.app] at hheld
    refine Multiset.coe_eq_coe.mp (hheld.trans ?_)
    simp [Stage.chunks]
  refine ⟨?_, howned, K.once⟩
  intro hidle
  have hlen := (howned hidle).length_eq
  simp only [List.length_append, List.length_map] at hlen
  rw [K.available, ← hlen]
  exact K.sound.rep.length_eq

end NetState.Shows

section Runs
variable {pool : PoolState} {kind : Kind} {a : Endpoint} {garbage : Word} {s : NetState}

/-- As long as no operation completes with an error and datagrams stay inside their chunks,
every chunk out of the pool is accounted for. -/
theorem chunks_balanced (hpool : pool.InUse) (hnew : NetState.new kind a garbage pool = .ok s)
    {es : List Event} (hes : (network.restrict NetState.Clean).Admits s es) :
    (network.exec s es).Balanced := by
  obtain ⟨L, S, arrays, K, hL⟩ := NetState.sim_run (I := fun L => L.failed = 0) hpool hnew
    (fun _ _ => NetState.Clean.fits) (fun _ _ => rfl)
    (fun _ _ _ _ _ _ _ hc hL hstep => hstep.failed_eq_zero hc hL) hes
  exact K.balanced hL

end Runs

/-- An endpoint on a pool of two chunks, whose first receive takes the chunk at 4608. -/
abbrev twoPoolNetAt (a : Endpoint) (kind : Kind) (garbage : Word) : NetState :=
  .started kind a garbage twoPool 4608

abbrev twoPoolNet (kind : Kind) (garbage : Word) : NetState := twoPoolNetAt ⟨1, 80⟩ kind garbage

theorem new_twoPoolNetAt (a : Endpoint) (kind : Kind) (garbage : Word) :
    NetState.new kind a garbage twoPool = .ok (twoPoolNetAt a kind garbage) := by
  have hval : (twoPool.next .stats).obj.alloc.val (twoPool.next .stats).heap = .ok 4608 := by
    decide +kernel
  rw [NetState.new_eq, hval]
  rfl

theorem new_twoPoolNet (kind : Kind) (garbage : Word) :
    NetState.new kind ⟨1, 80⟩ garbage twoPool = .ok (twoPoolNet kind garbage) :=
  new_twoPoolNetAt _ kind garbage

theorem chunks_balanced_run :
    let es : List Event := [.appAlloc, .received ⟨4608, 8⟩ ⟨2, 99⟩ [1, 2, 3], .ioStep,
      .appWrite 4616 0 7, .ioStep, .appSend 4616 1, .ioStep, .sent ⟨4616, 1, ⟨2, 99⟩⟩, .ioStep]
    (network.exec (twoPoolNet .server 0) es).Balanced := by
  refine chunks_balanced inUse_twoPool (new_twoPoolNet .server 0) ?_
  decide +kernel

/-- A send and a receive that complete with an error: nothing is pending, the application
holds nothing, and yet no chunk is available. -/
theorem errors_lose_chunks :
    let es : List Event := [.appAlloc, .appSend 4616 1, .sendFailed ⟨4616, 1, ⟨1, 80⟩⟩ ⟨111⟩,
      .receiveFailed ⟨4608, 8⟩ ⟨111⟩]
    let s := network.exec (twoPoolNet .server 0) es
    twoPool.InUse ∧ NetState.new .server ⟨1, 80⟩ 0 twoPool = .ok (twoPoolNet .server 0) ∧
      network.Admits (twoPoolNet .server 0) es ∧ s.receives = [] ∧ s.sends = [] ∧ s.app = [] ∧
      (s.pool.obj.stats.val s.pool.heap).available = 0 ∧ ¬ s.Balanced := by
  intro es s
  have hcount : s.io.isIdle = true ∧ s.receives = [] ∧ s.sends = [] ∧ s.app = [] ∧
      (s.pool.obj.stats.val s.pool.heap).available = 0 := by decide +kernel
  obtain ⟨hidle, hrec, hsend, happ, havail⟩ := hcount
  refine ⟨inUse_twoPool, new_twoPoolNet .server 0, by decide +kernel, hrec, hsend, happ, havail, ?_⟩
  intro hbal
  have hsum := hbal.count hidle
  rw [hrec, hsend, happ, havail] at hsum
  revert hsum
  decide +kernel

/-! ## One receive is pending -/

namespace NetState

/-- Between handlers one receive is pending, and the receive handler gets its chunk. -/
structure Armed (s : NetState) : Prop where
  pending : s.io.isIdle = true → s.receives.length = 1
  rearms : s.io.isRearming = true → ∃ c, s.pool.obj.alloc.val s.pool.heap = .ok c
  alive : s.io.isTerminated = false

/-- No receive completes with an error, the application takes no last chunk while the receive
handler is between its `free` and its `alloc`, and datagrams stay inside their chunks. -/
def KeepsArmed (s : NetState) : Event → Prop
  | .receiveFailed .. => False
  | .appAlloc => s.io.isRearming = true →
      2 ≤ (s.pool.obj.stats.val s.pool.heap).available.toNat
  | e => s.Fits e

instance (s : NetState) (e : Event) : Decidable (s.KeepsArmed e) :=
  match e with
  | .receiveFailed .. => .isFalse id
  | .appAlloc => inferInstanceAs (Decidable (_ → _))
  | .received .. => inferInstanceAs (Decidable (_ ≤ _))
  | .appWrite .. | .appSend .. | .sent _ | .sendFailed .. | .ioStep => .isTrue trivial

theorem KeepsArmed.fits {s : NetState} {e : Event} (h : s.KeepsArmed e) : s.Fits e := by
  cases e <;> first | exact h | exact h.elim | trivial

end NetState

/-- The receive that is pending, or on its way to be. -/
def Ledger.Armed (L : Ledger) : Prop :=
  match L.stage with
  | .idle | .closing _ => L.receives.card = 1
  | .freeing _ | .posting _ => L.receives = 0
  | .rearming => L.receives = 0 ∧ L.free ≠ []
  | .dead _ => False

namespace NetState.Shows
variable {s : NetState} {L L' : Ledger} {S : Word} {arrays : List Arr} {e : Event}

/-- While the handler is about to allocate, the application leaves it a chunk. -/
theorem free_ne_nil (K : s.Shows L S arrays) {c : Word} {rest : List Word}
    (hc : s.KeepsArmed .appAlloc) (hstage : L.stage = .rearming) (hfree : L.free = c :: rest) :
    rest ≠ [] := by
  have hrearming : s.io.isRearming = true := by
    rw [K.io, hstage]
    rfl
  have htwo := hc hrearming
  rw [K.available, hfree, List.length_cons] at htwo
  exact List.ne_nil_of_length_pos (by omega)

theorem armed_step (K : s.Shows L S arrays) (hc : s.KeepsArmed e) (hL : L.Armed)
    (h : L.Step e L') : L'.Armed := by
  cases h with
  | allocNone | write | send | sendFailed => exact hL
  | receiveFailed => exact hc.elim
  | alloc hfree =>
      unfold Ledger.Armed at hL ⊢
      cases hstage : L.stage with
      | rearming =>
          rw [hstage] at hL
          exact ⟨hL.1, K.free_ne_nil hc hstage hfree⟩
      | idle | freeing | posting | closing | dead =>
          rw [hstage] at hL
          exact hL
  | received hstage hrec =>
      simp only [Ledger.Armed, hstage, hrec, Multiset.card_add, Multiset.card_singleton] at hL ⊢
      exact Multiset.card_eq_zero.mp (by omega)
  | starve hstage hfree =>
      simp only [Ledger.Armed, hstage] at hL
      exact hL.2 hfree
  | free hstage =>
      simp only [Ledger.Armed, hstage] at hL
      exact ⟨hL, List.cons_ne_nil _ _⟩
  | rearm hstage hfree =>
      simp only [Ledger.Armed, hstage] at hL
      exact hL.1
  | post hstage =>
      simp only [Ledger.Armed, hstage] at hL
      simp [Ledger.Armed, hL]
  | sent hstage hsend | close hstage =>
      simp only [Ledger.Armed, hstage] at hL
      exact hL

theorem armed (K : s.Shows L S arrays) (hL : L.Armed) : s.Armed := by
  have hio := K.io
  refine ⟨?_, ?_, ?_⟩
  · intro hidle
    simp only [Ledger.Armed, K.stage_idle hidle, ← K.receives, Multiset.coe_card,
      List.length_map] at hL
    exact hL
  · intro hrearming
    have hstage := Stage.eq_rearming (hio ▸ hrearming)
    simp only [Ledger.Armed, hstage] at hL
    obtain ⟨c, rest, hfree⟩ := List.exists_cons_of_ne_nil hL.2
    have hsound : s.pool.Sound S (c :: rest) arrays := hfree ▸ K.sound
    exact ⟨c, hsound.rep.val_alloc_cons⟩
  · rw [hio]
    cases hstage : L.stage with
    | dead => simp [Ledger.Armed, hstage] at hL
    | idle | freeing | rearming | posting | closing => rfl

end NetState.Shows

/-- As long as no receive completes with an error, the application leaves the receive handler
its chunk and datagrams stay inside their chunks, one receive is pending. -/
theorem receive_pending {pool : PoolState} {kind : Kind} {a : Endpoint} {garbage : Word}
    {s : NetState} (hpool : pool.InUse) (hnew : NetState.new kind a garbage pool = .ok s)
    {es : List Event} (hes : (network.restrict NetState.KeepsArmed).Admits s es) :
    (network.exec s es).Armed := by
  obtain ⟨L, S, arrays, K, hL⟩ := NetState.sim_run (I := Ledger.Armed) hpool hnew
    (fun _ _ => NetState.KeepsArmed.fits) (fun c _ => Multiset.card_singleton c)
    (fun _ _ _ _ _ _ K hc hL hstep => K.armed_step hc hL hstep) hes
  exact K.armed hL

theorem receive_pending_run :
    let es : List Event := [.received ⟨4608, 8⟩ ⟨2, 99⟩ [1, 2, 3], .ioStep, .appAlloc, .ioStep,
      .appSend 4608 1, .ioStep, .sendFailed ⟨4608, 1, ⟨2, 99⟩⟩ ⟨111⟩]
    (network.exec (twoPoolNet .client 8) es).Armed := by
  refine receive_pending inUse_twoPool (new_twoPoolNet .client 8) ?_
  decide +kernel

/-- One receive that completes with an error, and no receive is pending any more; one
`alloc` of the application at the wrong moment, and the handler's throws. -/
theorem reception_stops :
    let failing : List Event := [.receiveFailed ⟨4608, 8⟩ ⟨111⟩]
    let starving : List Event := [.appAlloc, .received ⟨4608, 8⟩ ⟨2, 99⟩ [], .ioStep, .appAlloc,
      .ioStep]
    let s := network.exec (twoPoolNet .server 0) failing
    let t := network.exec (twoPoolNet .server 0) starving
    twoPool.InUse ∧ NetState.new .server ⟨1, 80⟩ 0 twoPool = .ok (twoPoolNet .server 0) ∧
      network.Admits (twoPoolNet .server 0) failing ∧
      network.Admits (twoPoolNet .server 0) starving ∧
      s.io.isIdle = true ∧ s.receives = [] ∧ ¬ s.Armed ∧
      t.io.isTerminated = true ∧ ¬ t.Armed := by
  intro failing starving s t
  have hs : s.io.isIdle = true ∧ s.receives = [] := by decide +kernel
  have ht : t.io.isTerminated = true := by decide +kernel
  refine ⟨inUse_twoPool, new_twoPoolNet .server 0, by decide +kernel, by decide +kernel, hs.1, hs.2,
    ?_, ht, ?_⟩
  · intro harmed
    have hone := harmed.pending hs.1
    rw [hs.2] at hone
    cases hone
  · intro harmed
    rw [harmed.alive] at ht
    cases ht

/-! ## Datagrams stay inside their chunks -/

namespace NetState

/-- Every receive ever posted has a buffer of `n` bytes. -/
def Posts (s : NetState) (n : Word) : Prop := ∀ r ∈ s.posted, r.length = n

/-- No datagram alters another chunk, the free list or the list of arrays. -/
def Spares (s : NetState) : Prop :=
  ∀ op source data, s.guard (.received op source data) →
    ∃ free arrays, s.pool.Partition free arrays ∧
      (s.next (.received op source data)).pool.Partition free arrays ∧
      ∀ c ∈ free ++ s.pool.held, c ≠ op.chunk → ∀ i < s.pool.stride.toNat,
        (s.next (.received op source data)).pool.heap.mem (c.toNat + i) =
          s.pool.heap.mem (c.toNat + i)

/-- Datagrams stay inside the chunks that were allocated for them. -/
structure Contained (s : NetState) (n : Word) : Prop where
  lengths : s.Posts n
  /-- There is room in a chunk for a whole buffer. -/
  room : n.toNat ≤ s.pool.stride.toNat
  /-- What a datagram changes lies in the buffer, at the start of a chunk that is out. -/
  inside : ∀ op source data, s.guard (.received op source data) → op.chunk ∈ s.pool.held ∧
    ∀ x, (s.next (.received op source data)).pool.heap.mem x ≠ s.pool.heap.mem x →
      op.chunk.toNat ≤ x ∧ x < op.chunk.toNat + n.toNat
  spares : s.Spares

/-- The member `chunk_size_`, the pool and the buffers agree on the size of a chunk. -/
structure Sized (s : NetState) (n : Word) : Prop where
  staged : s.Staged
  member : s.chunkSize = n
  pool : s.pool.obj.chunkSz = n
  receives : ∀ r ∈ s.receives, r.length = n
  posted : s.Posts n

variable {s : NetState} {n : Word}

theorem Sized.next (h : s.Sized n) (e : Event) : (s.next e).Sized n := by
  have hstaged := h.staged.next e
  have hrest : ∀ op, ∀ r ∈ s.receives.erase op, r.length = n :=
    fun op r hr => h.receives r (List.mem_of_mem_erase hr)
  cases e with
  | appAlloc =>
      rw [s.next_appAlloc]
      exact ⟨h.staged, h.member, (s.pool.chunkSz_next _).trans h.pool, h.receives, h.posted⟩
  | appWrite | appSend | sent | sendFailed =>
      exact ⟨hstaged, h.member, h.pool, h.receives, h.posted⟩
  | received op | receiveFailed op =>
      exact ⟨hstaged, h.member, h.pool, hrest op, h.posted⟩
  | ioStep =>
      obtain ⟨st, hst⟩ := h.staged
      change s.ioStep.Sized n
      obtain ⟨pool, twice, st', hstep, hpool⟩ | ⟨c, hstep⟩ := ioStep_cases hst <;> rw [hstep]
      · exact ⟨⟨st', rfl⟩, h.member, hpool.trans h.pool, h.receives, h.posted⟩
      · refine ⟨⟨.idle, rfl⟩, h.member, h.pool, ?_, ?_⟩
        · exact List.forall_mem_cons.mpr ⟨h.member, h.receives⟩
        · exact List.forall_mem_cons.mpr ⟨h.member, h.posted⟩

theorem length_landing_le (op : Receive) (data : List Byte) :
    (landing op data).length ≤ op.length.toNat := List.length_take_le _ _

theorem Sized.fits (h : s.Sized n) {e : Event} (hg : s.guard e) : s.Fits e := by
  cases e with
  | received op source data =>
      have hlen := length_landing_le op data
      rw [h.receives op hg.2, ← h.pool] at hlen
      exact hlen
  | appAlloc | appWrite | appSend | receiveFailed | sent | sendFailed | ioStep => trivial

/-- A datagram changes nothing outside its buffer. -/
theorem Sized.inside (h : s.Sized n) {op : Receive} {source : Endpoint} {data : List Byte}
    (hg : s.guard (.received op source data)) {x : ℕ}
    (hx : (s.next (.received op source data)).pool.heap.mem x ≠ s.pool.heap.mem x) :
    op.chunk.toNat ≤ x ∧ x < op.chunk.toNat + n.toNat := by
  by_contra hout
  refine hx (writeBytes_of_outside _ _ ?_)
  have hlen := length_landing_le op data
  rw [h.receives op hg.2] at hlen
  omega

theorem Shows.spares {L : Ledger} {S : Word} {arrays : List Arr} (K : s.Shows L S arrays)
    (h : s.Sized n) : s.Spares := by
  intro op source data hg
  have hheld := K.mem_receives hg.2
  have hfit : (landing op data).length ≤ S.toNat := (h.fits hg).trans K.sound.rep.fits
  obtain ⟨L', K', hstep⟩ := K.next_received hg (h.fits hg)
  cases hstep
  refine ⟨L.free, arrays, K.sound.partition, K'.sound.partition, ?_⟩
  intro c hc hne i hi
  rw [K.sound.stride_eq] at hi
  have hmem := K.sound.rep.parts.mem_iff.mp hc
  have hsep := K.sound.rep.layout.chunk_chunk hmem (K.sound.rep.held_mem hheld) hne
  exact writeBytes_of_outside _ _ (by omega)

theorem Shows.contained {L : Ledger} {S : Word} {arrays : List Arr} (K : s.Shows L S arrays)
    (h : s.Sized n) : s.Contained n := by
  refine ⟨h.posted, ?_, ?_, K.spares h⟩
  · rw [K.sound.stride_eq, ← h.pool]
    exact K.sound.rep.fits
  · intro op source data hg
    exact ⟨K.mem_receives hg.2, fun x hx => h.inside hg hx⟩

theorem sized_started {kind : Kind} {a : Endpoint} {garbage : Word} {pool : PoolState} {c : Word}
    (hsize : kind.chunkSize garbage pool = pool.obj.chunkSz) :
    (started kind a garbage pool c).Sized pool.obj.chunkSz := by
  refine ⟨⟨.idle, rfl⟩, hsize, ?_, by simp [started, hsize], by simp [started, hsize, Posts]⟩
  rw [started, PoolState.chunkSz_next, PoolState.chunkSz_next]

end NetState

section Sizes
variable {pool : PoolState} {kind : Kind} {a : Endpoint} {garbage : Word} {s : NetState}

theorem chunkSize_eq_iff :
    kind.chunkSize garbage pool = pool.obj.chunkSz ↔
      kind = .server ∨ garbage = (pool.obj.stats.val pool.heap).chunkSz := by
  cases kind <;> simp [Kind.chunkSize, Mempool.val_stats]

/-- The first receive has a buffer as long as the member says. -/
theorem chunkSize_of_posts (hnew : NetState.new kind a garbage pool = .ok s)
    (h : s.Posts pool.obj.chunkSz) : kind.chunkSize garbage pool = pool.obj.chunkSz := by
  obtain ⟨c, rfl⟩ := NetState.of_new hnew
  exact h ⟨c, _⟩ List.mem_cons_self

/-- A run from a constructor that has the chunk size right. -/
theorem sized_exec (hnew : NetState.new kind a garbage pool = .ok s)
    (hsize : kind.chunkSize garbage pool = pool.obj.chunkSz) {es : List Event}
    (hes : network.Admits s es) : (network.exec s es).Sized pool.obj.chunkSz := by
  obtain ⟨c, rfl⟩ := NetState.of_new hnew
  exact Machine.exec_induction (M := network) (I := fun t => t.Sized pool.obj.chunkSz)
    (fun _ e h _ => h.next e) (NetState.sized_started hsize) hes

theorem contained_exec (hpool : pool.InUse) (hnew : NetState.new kind a garbage pool = .ok s)
    (hsize : kind.chunkSize garbage pool = pool.obj.chunkSz) {es : List Event}
    (hes : network.Admits s es) : (network.exec s es).Contained pool.obj.chunkSz := by
  obtain ⟨S, free, arrays, H⟩ := hpool.sound
  obtain ⟨c, rest, -, -, K⟩ := NetState.shows_new H hnew
  obtain ⟨hsized, L, K'⟩ := Machine.exec_induction (M := network)
    (I := fun t => t.Sized pool.obj.chunkSz ∧ ∃ L, t.Shows L S arrays)
    (fun _ e ⟨h, _, K⟩ hg => ⟨h.next e, (K.sim_next hg (h.fits hg)).imp fun _ h => h.1⟩)
    ⟨sized_exec hnew hsize (network.admits_nil s), _, K⟩ hes
  exact K'.contained hsized

/-- Buffers are as long as the chunks exactly when the member `chunk_size_` holds the chunk size:
always in a server, in a client when the value it was left with happens to be that.  On a pool
whose chunks are what they should be, datagrams stay inside their chunks exactly then. -/
theorem buffers_contained_iff (hnew : NetState.new kind a garbage pool = .ok s) :
    ((∀ es, network.Admits s es →
        (network.exec s es).Posts (pool.obj.stats.val pool.heap).chunkSz) ↔
      kind = .server ∨ garbage = (pool.obj.stats.val pool.heap).chunkSz) ∧
    (pool.InUse →
      ((∀ es, network.Admits s es →
          (network.exec s es).Contained (pool.obj.stats.val pool.heap).chunkSz) ↔
        kind = .server ∨ garbage = (pool.obj.stats.val pool.heap).chunkSz)) := by
  simp only [← chunkSize_eq_iff]
  rw [Mempool.val_stats]
  refine ⟨⟨?_, ?_⟩, fun hpool => ⟨?_, ?_⟩⟩
  · intro h
    exact chunkSize_of_posts hnew (h [] trivial)
  · intro hsize es hes
    exact (sized_exec hnew hsize hes).posted
  · intro h
    exact chunkSize_of_posts hnew (h [] trivial).lengths
  · intro hsize es hes
    exact contained_exec hpool hnew hsize hes

end Sizes

theorem buffers_contained_server :
    let es : List Event := [.received ⟨4608, 8⟩ ⟨2, 99⟩ (List.replicate 16 255), .ioStep, .ioStep,
      .ioStep]
    (network.exec (twoPoolNet .server 64) es).Contained
      (twoPool.obj.stats.val twoPool.heap).chunkSz := by
  intro es
  have hiff := (buffers_contained_iff (new_twoPoolNet .server 64)).2 inUse_twoPool
  exact hiff.mpr (.inl rfl) es (by decide +kernel)

/-- A client whose member was left with 64 on a pool with chunks of 8 bytes: a datagram of 16
bytes overwrites the next chunk, which is free, with its link. -/
theorem client_buffer_spills :
    let s := twoPoolNet .client 64
    let e : Event := .received ⟨4608, 64⟩ ⟨2, 99⟩ (List.replicate 16 255)
    twoPool.InUse ∧ NetState.new .client ⟨1, 80⟩ 64 twoPool = .ok s ∧ s.guard e ∧
      s.posted = [⟨4608, 64⟩] ∧ (twoPool.obj.stats.val twoPool.heap).chunkSz = 8 ∧
      s.pool.IsFreeList [4616] ∧ ¬ (s.next e).pool.IsFreeList [4616] ∧ ¬ s.Contained 8 := by
  intro s e
  refine ⟨inUse_twoPool, new_twoPoolNet .client 64, by decide +kernel, rfl, by decide +kernel,
    ?_, ?_, ?_⟩
  · rw [PoolState.IsFreeList, Chain.cons_iff, Chain.nil_iff]
    decide +kernel
  · rw [PoolState.IsFreeList, Chain.cons_iff, Chain.nil_iff]
    decide +kernel
  · intro h
    have hlen := h.lengths ⟨4608, 64⟩ List.mem_cons_self
    revert hlen
    decide

end Unid.Network
