import Unid.Network.Endpoint
import Mathlib.Data.Multiset.AddSub
import Mathlib.Tactic.Abel

/-!
# Who has which chunk

Every chunk out of the pool is the buffer of a pending receive, the buffer of a
pending send, in the application's hands, in the hands of the handler that is
running, or the buffer of an operation that failed.  The last part is what the
code forgets: neither handler frees its chunk when the error code is set.

A `Ledger` keeps these books without pool, memory or programs, and
`Shows.sim_next` says that every step of the process in which no datagram is
written beyond its chunk is a step of the books.

## Main definitions

* `Stage` — where the io thread can be in a handler.
* `Ledger`, `Ledger.Step` — the books, and how chunks move in them.
* `NetState.Shows` — the process is as the books say.
-/

namespace Unid.Network
open Lib Common

/-! ## Where the io thread can be -/

/-- The points between the requests of the handlers. -/
inductive Stage
  | idle
  /-- The receive handler is about to free its chunk. -/
  | freeing (c : Word)
  /-- The receive handler is about to allocate the next chunk. -/
  | rearming
  /-- The receive handler is about to post a receive with this chunk. -/
  | posting (c : Word)
  /-- The send handler is about to free its chunk. -/
  | closing (c : Word)
  | dead (what : String)

namespace Stage

def io : Stage → Io
  | idle => .idle
  | freeing c => .after (onReceive c none)
  | rearming => .after asyncReceive
  | posting c => .running (do ask (.receiveFrom c); pure (.ok ()))
  | closing c => .after (onSend c none)
  | dead e => .terminated e

/-- The chunk in the handler's hands. -/
def chunks : Stage → List Word
  | freeing c | posting c | closing c => [c]
  | idle | rearming | dead _ => []

theorem eq_idle {st : Stage} (h : st.io.isIdle = true) : st = idle := by
  cases st <;> first | rfl | cases h

theorem eq_rearming {st : Stage} (h : st.io.isRearming = true) : st = rearming := by
  cases st <;> first | rfl | cases h

end Stage

/-- What `async_receive` does with the answer of `alloc`. -/
def rearm : Except String Word → N (Except String Unit)
  | .error e => pure (.error e)
  | .ok chunk => do
      ask (.receiveFrom chunk)
      pure (.ok ())

namespace NetState
variable {s : NetState}

theorem ioStep_freeing {c : Word} (h : s.io = (Stage.freeing c).io) :
    s.ioStep = { (handle (.free c) s).2 with io := Stage.rearming.io } := by
  simp only [ioStep, h]
  rfl

theorem ioStep_rearming (h : s.io = Stage.rearming.io) : s.ioStep =
    { s with
      pool := s.pool.next .alloc
      io := match s.pool.obj.alloc.val s.pool.heap with
        | .ok c => (Stage.posting c).io
        | .error e => (Stage.dead e).io } := by
  have hstep : s.ioStep = { s with
      pool := s.pool.next .alloc, io := .after (rearm (s.pool.obj.alloc.val s.pool.heap)) } := by
    simp only [ioStep, h]
    rfl
  rw [hstep]
  cases s.pool.obj.alloc.val s.pool.heap <;> rfl

theorem ioStep_posting {c : Word} (h : s.io = (Stage.posting c).io) :
    s.ioStep = { (handle (.receiveFrom c) s).2 with io := .idle } := by
  simp only [ioStep, h]
  rfl

theorem ioStep_closing {c : Word} (h : s.io = (Stage.closing c).io) :
    s.ioStep = { (handle (.free c) s).2 with io := .idle } := by
  simp only [ioStep, h]
  rfl

/-- A request of a handler changes the pool, or posts a receive with the buffer length that
the member `chunk_size_` holds. -/
theorem ioStep_cases {st : Stage} (h : s.io = st.io) :
    (∃ (pool : PoolState) (twice : List Word) (st' : Stage),
      s.ioStep = { s with pool := pool, twice := twice, io := st'.io } ∧
        pool.obj.chunkSz = s.pool.obj.chunkSz) ∨
      ∃ c, s.ioStep = { s with
        receives := ⟨c, s.chunkSize⟩ :: s.receives
        posted := ⟨c, s.chunkSize⟩ :: s.posted
        io := Stage.idle.io } := by
  cases st with
  | idle =>
      refine .inl ⟨s.pool, s.twice, .idle, ?_, rfl⟩
      simp only [ioStep, h, Stage.io]
      rw [← show s.io = .idle from h]
  | dead e =>
      refine .inl ⟨s.pool, s.twice, .dead e, ?_, rfl⟩
      simp only [ioStep, h, Stage.io]
      rw [← show s.io = .terminated e from h]
  | freeing c => exact .inl ⟨_, _, .rearming, ioStep_freeing h, s.pool.chunkSz_next _⟩
  | closing c => exact .inl ⟨_, _, .idle, ioStep_closing h, s.pool.chunkSz_next _⟩
  | posting c => exact .inr ⟨c, ioStep_posting h⟩
  | rearming =>
      have hstep := ioStep_rearming h
      cases hval : s.pool.obj.alloc.val s.pool.heap with
      | ok c =>
          rw [hval] at hstep
          exact .inl ⟨_, _, .posting c, hstep, s.pool.chunkSz_next _⟩
      | error e =>
          rw [hval] at hstep
          exact .inl ⟨_, _, .dead e, hstep, s.pool.chunkSz_next _⟩

end NetState

theorem NetState.next_appAlloc (s : NetState) : s.next .appAlloc = { s with
    pool := s.pool.next .alloc
    app := match s.pool.obj.alloc.val s.pool.heap with
      | .ok c => c :: s.app
      | .error _ => s.app } := by
  have hrun : (ask .alloc).run handle s =
      (s.pool.obj.alloc.val s.pool.heap, { s with pool := s.pool.next .alloc }) := rfl
  simp only [NetState.next, hrun]
  cases s.pool.obj.alloc.val s.pool.heap <;> rfl

/-- The io thread is at one of the stages. -/
def NetState.Staged (s : NetState) : Prop := ∃ st : Stage, s.io = st.io

theorem NetState.Staged.next {s : NetState} (h : s.Staged) (e : Event) : (s.next e).Staged := by
  cases e with
  | appAlloc =>
      rw [s.next_appAlloc]
      exact h
  | appWrite | appSend => exact h
  | received op => exact ⟨.freeing op.chunk, rfl⟩
  | receiveFailed | sendFailed => exact ⟨.idle, rfl⟩
  | sent op => exact ⟨.closing op.chunk, rfl⟩
  | ioStep =>
      obtain ⟨st, hst⟩ := h
      change s.ioStep.Staged
      obtain ⟨pool, twice, st', hstep, -⟩ | ⟨c, hstep⟩ := ioStep_cases hst <;> rw [hstep]
      · exact ⟨st', rfl⟩
      · exact ⟨.idle, rfl⟩

/-! ## The books -/

/-- Where every chunk of the pool is. -/
structure Ledger where
  stage : Stage
  free : List Word
  receives : Multiset Word
  sends : Multiset Word
  app : Multiset Word
  failed : Multiset Word

namespace Ledger

/-- The chunks out of the pool. -/
def out (L : Ledger) : Multiset Word :=
  L.receives + L.sends + L.app + L.failed + (L.stage.chunks : Multiset Word)

/-- How the chunks move. -/
inductive Step (L : Ledger) : Event → Ledger → Prop
  | allocNone (hfree : L.free = []) : Step L .appAlloc L
  | alloc {c rest} (hfree : L.free = c :: rest) :
      Step L .appAlloc { L with free := rest, app := {c} + L.app }
  | write {c i b} : Step L (.appWrite c i b) L
  | send {c n A} (happ : L.app = {c} + A) :
      Step L (.appSend c n) { L with app := A, sends := {c} + L.sends }
  | received {op a data R} (hstage : L.stage = .idle) (hrec : L.receives = {op.chunk} + R) :
      Step L (.received op a data) { L with stage := .freeing op.chunk, receives := R }
  | receiveFailed {op ec R} (hstage : L.stage = .idle) (hrec : L.receives = {op.chunk} + R) :
      Step L (.receiveFailed op ec) { L with receives := R, failed := {op.chunk} + L.failed }
  | sent {op R} (hstage : L.stage = .idle) (hsend : L.sends = {op.chunk} + R) :
      Step L (.sent op) { L with stage := .closing op.chunk, sends := R }
  | sendFailed {op ec R} (hstage : L.stage = .idle) (hsend : L.sends = {op.chunk} + R) :
      Step L (.sendFailed op ec) { L with sends := R, failed := {op.chunk} + L.failed }
  | free {c} (hstage : L.stage = .freeing c) :
      Step L .ioStep { L with stage := .rearming, free := c :: L.free }
  | starve {e} (hstage : L.stage = .rearming) (hfree : L.free = []) :
      Step L .ioStep { L with stage := .dead e }
  | rearm {c rest} (hstage : L.stage = .rearming) (hfree : L.free = c :: rest) :
      Step L .ioStep { L with stage := .posting c, free := rest }
  | post {c} (hstage : L.stage = .posting c) :
      Step L .ioStep { L with stage := .idle, receives := {c} + L.receives }
  | close {c} (hstage : L.stage = .closing c) :
      Step L .ioStep { L with stage := .idle, free := c :: L.free }

end Ledger

/-! ## The process keeps the books -/

/-- The process is as the books say: the pool lies on the heap with that free list, and the
chunks it has handed out are those the books account for. -/
structure NetState.Shows (s : NetState) (L : Ledger) (S : Word) (arrays : List Arr) : Prop where
  io : s.io = L.stage.io
  sound : s.pool.Sound S L.free arrays
  receives : ((s.receives.map Receive.chunk : List Word) : Multiset Word) = L.receives
  sends : ((s.sends.map Send.chunk : List Word) : Multiset Word) = L.sends
  app : (s.app : Multiset Word) = L.app
  failed : (s.failed : Multiset Word) = L.failed
  held : (s.pool.held : Multiset Word) = L.out
  once : s.twice = []

/-- Taking one operation out of a list of them. -/
theorem map_chunk_erase {β : Type} [DecidableEq β] {l : List β} {op : β} (h : op ∈ l)
    (f : β → Word) : ((l.map f : List Word) : Multiset Word) =
      {f op} + ((l.erase op).map f : List Word) := by
  have hperm := (List.perm_cons_erase h).map f
  rw [Multiset.coe_eq_coe.mpr hperm]
  rfl

namespace NetState.Shows
variable {s : NetState} {L : Ledger} {S : Word} {arrays : List Arr}

theorem stage_idle (K : s.Shows L S arrays) (h : s.io.isIdle = true) : L.stage = .idle :=
  Stage.eq_idle (K.io ▸ h)

theorem mem_held (K : s.Shows L S arrays) {c : Word} (hc : c ∈ L.out) : c ∈ s.pool.held := by
  rw [← K.held] at hc
  exact hc

theorem mem_receives (K : s.Shows L S arrays) {op : Receive} (h : op ∈ s.receives) :
    op.chunk ∈ s.pool.held := by
  refine K.mem_held ?_
  have hmem : op.chunk ∈ L.receives := by
    rw [← K.receives]
    exact List.mem_map_of_mem h
  simp [Ledger.out, hmem]

theorem mem_app (K : s.Shows L S arrays) {c : Word} (h : c ∈ s.app) : c ∈ s.pool.held := by
  refine K.mem_held ?_
  have hmem : c ∈ L.app := by
    rw [← K.app]
    exact h
  simp [Ledger.out, hmem]

/-! ### The application -/

theorem next_appAlloc (K : s.Shows L S arrays) :
    ∃ L', (s.next .appAlloc).Shows L' S arrays ∧ L.Step .appAlloc L' := by
  rw [s.next_appAlloc]
  cases hfree : L.free with
  | nil =>
      have hsound : s.pool.Sound S [] arrays := hfree ▸ K.sound
      rw [hsound.rep.val_alloc_nil, hsound.next_alloc_nil]
      exact ⟨L, K, .allocNone hfree⟩
  | cons c rest =>
      have hsound : s.pool.Sound S (c :: rest) arrays := hfree ▸ K.sound
      rw [hsound.rep.val_alloc_cons]
      refine ⟨_, ?_, .alloc hfree⟩
      refine ⟨K.io, hsound.alloc, K.receives, K.sends, ?_, K.failed, ?_, K.once⟩
      · exact congrArg ({c} + ·) K.app
      · have hheld : ((s.pool.next .alloc).held : Multiset Word) = {c} + L.out := by
          rw [hsound.next_alloc_cons, ← K.held]
          rfl
        rw [hheld]
        simp only [Ledger.out]
        abel

theorem next_appWrite (K : s.Shows L S arrays) {c : Word} {i : ℕ} {b : Byte}
    (hg : s.guard (.appWrite c i b)) : (s.next (.appWrite c i b)).Shows L S arrays := by
  obtain ⟨-, hc, hi⟩ := hg
  exact ⟨K.io, K.sound.write ⟨K.mem_app hc, hi⟩, K.receives, K.sends, K.app, K.failed, K.held,
    K.once⟩

theorem next_appSend (K : s.Shows L S arrays) {c n : Word} (hg : s.guard (.appSend c n)) :
    ∃ L', (s.next (.appSend c n)).Shows L' S arrays ∧ L.Step (.appSend c n) L' := by
  have happ : L.app = {c} + (s.app.erase c : List Word) := by
    rw [← K.app]
    simpa using map_chunk_erase hg.2 id
  refine ⟨_, ?_, .send happ⟩
  refine ⟨K.io, K.sound, K.receives, congrArg ({c} + ·) K.sends, rfl, K.failed, ?_, K.once⟩
  refine K.held.trans ?_
  simp only [Ledger.out, happ]
  abel

/-! ### Completions -/

/-- A datagram that stays inside its chunk is a write of the chunk's holder. -/
theorem next_received (K : s.Shows L S arrays) {op : Receive} {source : Endpoint}
    {data : List Byte} (hg : s.guard (.received op source data))
    (hfit : (landing op data).length ≤ s.pool.obj.chunkSz.toNat) :
    ∃ L', (s.next (.received op source data)).Shows L' S arrays ∧
      L.Step (.received op source data) L' := by
  have hstage := K.stage_idle hg.1
  have hrec := K.receives.symm.trans (map_chunk_erase hg.2 Receive.chunk)
  refine ⟨_, ?_, .received hstage hrec⟩
  refine ⟨rfl, K.sound.overwrite (K.mem_receives hg.2) ?_, rfl, K.sends, K.app, K.failed, ?_,
    K.once⟩
  · intro x
    by_cases hx : op.chunk.toNat ≤ x ∧ x < op.chunk.toNat + s.pool.obj.chunkSz.toNat
    · exact .inl hx
    · exact .inr (writeBytes_of_outside _ _ (by omega))
  · refine K.held.trans ?_
    simp only [Ledger.out, hrec, hstage, Stage.chunks, Multiset.coe_nil, Multiset.coe_singleton]
    abel

theorem next_receiveFailed (K : s.Shows L S arrays) {op : Receive} {ec : ErrorCode}
    (hg : s.guard (.receiveFailed op ec)) :
    ∃ L', (s.next (.receiveFailed op ec)).Shows L' S arrays ∧
      L.Step (.receiveFailed op ec) L' := by
  have hstage := K.stage_idle hg.1
  have hrec := K.receives.symm.trans (map_chunk_erase hg.2 Receive.chunk)
  refine ⟨_, ?_, .receiveFailed hstage hrec⟩
  refine ⟨?_, K.sound, rfl, K.sends, K.app, congrArg ({op.chunk} + ·) K.failed, ?_, K.once⟩
  · rw [hstage]
    rfl
  · refine K.held.trans ?_
    simp only [Ledger.out, hrec]
    abel

theorem next_sent (K : s.Shows L S arrays) {op : Send} (hg : s.guard (.sent op)) :
    ∃ L', (s.next (.sent op)).Shows L' S arrays ∧ L.Step (.sent op) L' := by
  have hstage := K.stage_idle hg.1
  have hsend := K.sends.symm.trans (map_chunk_erase hg.2 Send.chunk)
  refine ⟨_, ?_, .sent hstage hsend⟩
  refine ⟨rfl, K.sound, K.receives, rfl, K.app, K.failed, ?_, K.once⟩
  refine K.held.trans ?_
  simp only [Ledger.out, hsend, hstage, Stage.chunks, Multiset.coe_nil, Multiset.coe_singleton]
  abel

theorem next_sendFailed (K : s.Shows L S arrays) {op : Send} {ec : ErrorCode}
    (hg : s.guard (.sendFailed op ec)) :
    ∃ L', (s.next (.sendFailed op ec)).Shows L' S arrays ∧ L.Step (.sendFailed op ec) L' := by
  have hstage := K.stage_idle hg.1
  have hsend := K.sends.symm.trans (map_chunk_erase hg.2 Send.chunk)
  refine ⟨_, ?_, .sendFailed hstage hsend⟩
  refine ⟨?_, K.sound, K.receives, rfl, K.app, congrArg ({op.chunk} + ·) K.failed, ?_, K.once⟩
  · rw [hstage]
    rfl
  · refine K.held.trans ?_
    simp only [Ledger.out, hsend]
    abel

/-! ### The requests of a handler -/

/-- The chunk in the handler's hands goes back to the pool. -/
theorem handle_free (K : s.Shows L S arrays) {c : Word} (hc : L.stage.chunks = [c])
    (st : Stage) (hst : st.chunks = []) :
    { (handle (.free c) s).2 with io := st.io }.Shows
      { L with stage := st, free := c :: L.free } S arrays := by
  have hmem : c ∈ s.pool.held := K.mem_held (by simp [Ledger.out, hc])
  have hheld : (s.pool.held : Multiset Word) = {c} + (s.pool.held.erase c : List Word) := by
    simpa using map_chunk_erase hmem id
  refine ⟨rfl, K.sound.free_held hmem, K.receives, K.sends, K.app, K.failed, ?_, ?_⟩
  · have hout := hheld.symm.trans K.held
    rw [Ledger.out, hc, Multiset.coe_singleton, add_comm, add_left_inj] at hout
    simpa [handle, PoolState.next, Ledger.out, hst] using hout
  · simp only [handle, if_pos hmem]
    exact K.once

/-- `async_receive` asks for its chunk. -/
theorem ioStep_alloc (K : s.Shows L S arrays) (hstage : L.stage = .rearming) :
    ∃ L', s.ioStep.Shows L' S arrays ∧ L.Step .ioStep L' := by
  rw [ioStep_rearming (hstage ▸ K.io)]
  cases hfree : L.free with
  | nil =>
      have hsound : s.pool.Sound S [] arrays := hfree ▸ K.sound
      rw [hsound.rep.val_alloc_nil, hsound.next_alloc_nil]
      refine ⟨_, ?_, .starve (e := "Mempool couldn't allocate chunk") hstage hfree⟩
      refine ⟨rfl, K.sound, K.receives, K.sends, K.app, K.failed, ?_, K.once⟩
      simpa [Ledger.out, hstage, Stage.chunks] using K.held
  | cons c rest =>
      have hsound : s.pool.Sound S (c :: rest) arrays := hfree ▸ K.sound
      rw [hsound.rep.val_alloc_cons]
      refine ⟨_, ?_, .rearm hstage hfree⟩
      refine ⟨rfl, hsound.alloc, K.receives, K.sends, K.app, K.failed, ?_, K.once⟩
      have hheld : ((s.pool.next .alloc).held : Multiset Word) = {c} + L.out := by
        rw [hsound.next_alloc_cons, ← K.held]
        rfl
      rw [hheld]
      simp only [Ledger.out, hstage, Stage.chunks, Multiset.coe_nil, Multiset.coe_singleton]
      abel

theorem next_ioStep (K : s.Shows L S arrays) (hg : s.guard .ioStep) :
    ∃ L', (s.next .ioStep).Shows L' S arrays ∧ L.Step .ioStep L' := by
  have hrunning : L.stage.io.isRunning = true := K.io ▸ hg
  change ∃ L', s.ioStep.Shows L' S arrays ∧ _
  cases hstage : L.stage with
  | idle => simp [hstage, Stage.io, Io.isRunning] at hrunning
  | dead e => simp [hstage, Stage.io, Io.isRunning] at hrunning
  | rearming => exact K.ioStep_alloc hstage
  | freeing c =>
      rw [ioStep_freeing (hstage ▸ K.io)]
      exact ⟨_, K.handle_free (by rw [hstage]; rfl) .rearming rfl, .free hstage⟩
  | closing c =>
      rw [ioStep_closing (hstage ▸ K.io)]
      exact ⟨_, K.handle_free (by rw [hstage]; rfl) .idle rfl, .close hstage⟩
  | posting c =>
      rw [ioStep_posting (hstage ▸ K.io)]
      refine ⟨_, ?_, .post hstage⟩
      refine ⟨rfl, K.sound, congrArg ({c} + ·) K.receives, K.sends, K.app, K.failed, ?_, K.once⟩
      refine K.held.trans ?_
      simp only [Ledger.out, hstage, Stage.chunks, Multiset.coe_nil, Multiset.coe_singleton]
      abel

end NetState.Shows

/-! ## Every step, every run -/

/-- What a delivery writes stays inside its chunk. -/
def NetState.Fits (s : NetState) : Event → Prop
  | .received op _ data => (landing op data).length ≤ s.pool.obj.chunkSz.toNat
  | _ => True

instance (s : NetState) (e : Event) : Decidable (s.Fits e) :=
  match e with
  | .received .. => inferInstanceAs (Decidable (_ ≤ _))
  | .appAlloc | .appWrite .. | .appSend .. | .receiveFailed .. | .sent _ | .sendFailed ..
  | .ioStep => .isTrue trivial

namespace NetState.Shows
variable {s : NetState} {L : Ledger} {S : Word} {arrays : List Arr}

/-- Every step of the process is a step of the books. -/
theorem sim_next (K : s.Shows L S arrays) {e : Event} (hg : s.guard e) (hfit : s.Fits e) :
    ∃ L', (s.next e).Shows L' S arrays ∧ L.Step e L' := by
  cases e with
  | appAlloc => exact K.next_appAlloc
  | appWrite c i b => exact ⟨L, K.next_appWrite hg, .write⟩
  | appSend c n => exact K.next_appSend hg
  | received op source data => exact K.next_received hg hfit
  | receiveFailed op ec => exact K.next_receiveFailed hg
  | sent op => exact K.next_sent hg
  | sendFailed op ec => exact K.next_sendFailed hg
  | ioStep => exact K.next_ioStep hg

/-- What the steps of the books keep under a condition, the runs of the process that meet it
keep. -/
theorem sim_exec {C : NetState → Event → Prop} {I : Ledger → Prop}
    (hfits : ∀ s e, C s e → s.Fits e)
    (hstep : ∀ s L e L', s.Shows L S arrays → C s e → I L → L.Step e L' → I L')
    (K : s.Shows L S arrays) (hI : I L) {es : List Event}
    (hes : (network.restrict C).Admits s es) :
    ∃ L', (network.exec s es).Shows L' S arrays ∧ I L' := by
  refine Machine.exec_induction (M := network.restrict C)
    (I := fun t => ∃ L', t.Shows L' S arrays ∧ I L') ?_ ⟨L, K, hI⟩ hes
  rintro t e ⟨L₁, K₁, hI₁⟩ ⟨hg, hC⟩
  obtain ⟨L₂, K₂, hL₂⟩ := K₁.sim_next hg (hfits t e hC)
  exact ⟨L₂, K₂, hstep t L₁ e L₂ K₁ hC hI₁ hL₂⟩

end NetState.Shows

/-! ## The constructors -/

/-- The value of the member `chunk_size_` after the constructor. -/
def Kind.chunkSize (kind : Kind) (garbage : Word) (pool : PoolState) : Word :=
  match kind with
  | .client => garbage
  | .server => (pool.obj.stats.val pool.heap).chunkSz

namespace NetState

/-- The process when the first receive is pending. -/
def started (kind : Kind) (a : Endpoint) (garbage : Word) (pool : PoolState) (c : Word) :
    NetState :=
  { blank pool garbage with
    pool := (pool.next .stats).next .alloc
    chunkSize := kind.chunkSize garbage pool
    remote := a
    receives := [⟨c, kind.chunkSize garbage pool⟩]
    posted := [⟨c, kind.chunkSize garbage pool⟩] }

theorem new_eq (kind : Kind) (a : Endpoint) (garbage : Word) (pool : PoolState) :
    new kind a garbage pool =
      ((pool.next .stats).obj.alloc.val (pool.next .stats).heap).map
        (started kind a garbage pool) := by
  have hrun : (kind.new a).run handle (blank pool garbage) =
      (rearm ((pool.next .stats).obj.alloc.val (pool.next .stats).heap)).run handle
        { blank pool garbage with
          pool := (pool.next .stats).next .alloc
          chunkSize := kind.chunkSize garbage pool
          remote := a } := by
    cases kind <;> rfl
  rw [new, hrun]
  cases (pool.next .stats).obj.alloc.val (pool.next .stats).heap <;> rfl

theorem of_new {kind : Kind} {a : Endpoint} {garbage : Word} {pool : PoolState} {s : NetState}
    (h : new kind a garbage pool = .ok s) : ∃ c, s = started kind a garbage pool c := by
  rw [new_eq] at h
  cases hval : (pool.next .stats).obj.alloc.val (pool.next .stats).heap with
  | error e =>
      rw [hval] at h
      cases h
  | ok c =>
      rw [hval] at h
      exact ⟨c, (Except.ok.inj h).symm⟩

/-- A process that starts on a sound pool starts with its books in order. -/
theorem shows_new {kind : Kind} {a : Endpoint} {garbage : Word} {pool : PoolState} {s : NetState}
    {S : Word} {free : List Word} {arrays : List Arr} (H : pool.Sound S free arrays)
    (h : new kind a garbage pool = .ok s) :
    ∃ c rest, free = c :: rest ∧ s.receives = [⟨c, kind.chunkSize garbage pool⟩] ∧
      s.Shows ⟨.idle, rest, {c}, 0, pool.held, 0⟩ S arrays := by
  rw [new_eq, H.next_stats] at h
  cases free with
  | nil =>
      rw [H.rep.val_alloc_nil] at h
      cases h
  | cons c rest =>
      rw [H.rep.val_alloc_cons] at h
      obtain rfl := Except.ok.inj h
      refine ⟨c, rest, rfl, rfl, rfl, ?_, rfl, rfl, rfl, rfl, ?_, rfl⟩
      · simp only [started, H.next_stats]
        exact H.alloc
      · simp only [started, H.next_stats, H.next_alloc_cons, Ledger.out, Stage.chunks]
        simp [← Multiset.cons_coe, Multiset.singleton_add]

/-- What the steps of the books keep under a condition, from the constructor on. -/
theorem sim_run {kind : Kind} {a : Endpoint} {garbage : Word} {pool : PoolState} {s : NetState}
    {C : NetState → Event → Prop} {I : Ledger → Prop} (hpool : pool.InUse)
    (hnew : new kind a garbage pool = .ok s) (hfits : ∀ s e, C s e → s.Fits e)
    (hstart : ∀ c rest, I ⟨.idle, rest, {c}, 0, pool.held, 0⟩)
    (hstep : ∀ S arrays s L e L', s.Shows L S arrays → C s e → I L → L.Step e L' → I L')
    {es : List Event} (hes : (network.restrict C).Admits s es) :
    ∃ L S arrays, (network.exec s es).Shows L S arrays ∧ I L := by
  obtain ⟨S, free, arrays, H⟩ := hpool.sound
  obtain ⟨c, rest, -, -, K⟩ := shows_new H hnew
  obtain ⟨L, K', hL⟩ := K.sim_exec hfits (hstep S arrays) (hstart c rest) hes
  exact ⟨L, S, arrays, K', hL⟩

end NetState
end Unid.Network
