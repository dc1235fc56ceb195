import Unid.Common.PoolContract

/-!
# Two threads on one `Mempool`

The build does not define `LIBPOOL_THREAD_SAFE`, so `pool_alloc` and `pool_free`
take no lock.  The io thread and the application's thread run them on one pool,
load by load and store by store; the programs are those of `Mempool`, executed
one request at a time.

Nothing in the code keeps one thread from storing `free_chunk` while the other
has loaded it and not yet stored it (`race_two_holders`).  `race_safe` says that
this is all it takes: when no such store happens, every pop and every push is
what it would be alone.

## Main definitions

* `RaceState`, `Access`, `race` — the two threads, as a machine.
* `RaceState.Exclusive` — no store of `free_chunk` into the other's window.
* `PStage`, `Calm` — where a thread can be in a call, and what it then knows.
-/

namespace Unid.Common
open Lib

/-- The two threads. -/
inductive Tid
  | io
  | app
  deriving DecidableEq

def Tid.other : Tid → Tid
  | io => app
  | app => io

theorem Tid.forall_of {P : Tid → Prop} {t : Tid} (ht : P t) (ho : P t.other) (u : Tid) : P u := by
  cases t <;> cases u <;> assumption

/-- What is left of the call a thread is in. -/
inductive Call
  | idle
  | allocating (p : C (Except String Word))
  | freeing (chunk : Word) (p : C Unit)

namespace Call

def isIdle : Call → Bool
  | idle => true
  | _ => false

/-- The chunk that is on its way back to the pool. -/
def chunks : Call → List Word
  | freeing c _ => [c]
  | _ => []

/-- The address of the next store, when the next request is one. -/
def nextStore : Call → Option ℕ
  | allocating (.req (.store a _) _) => some a
  | freeing _ (.req (.store a _) _) => some a
  | _ => none

/-- The address of the next load, when the next request is one. -/
def nextLoad : Call → Option ℕ
  | allocating (.req (.load a) _) => some a
  | freeing _ (.req (.load a) _) => some a
  | _ => none

end Call

structure Thread where
  /-- The chunks that `alloc` has returned to the thread and it has not passed to `free`. -/
  held : List Word
  call : Call
  /-- Whether the call has loaded `free_chunk`. -/
  loaded : Bool

namespace Thread

/-- A thread whose `alloc` has this left to do. -/
def afterAlloc (th : Thread) : C (Except String Word) → Thread
  | .ret (.ok c) => { th with held := c :: th.held, call := .idle, loaded := false }
  | .ret (.error _) => { th with call := .idle, loaded := false }
  | .req e k => { th with call := .allocating (.req e k) }

/-- A thread whose `free` has this left to do. -/
def afterFree (th : Thread) (c : Word) : C Unit → Thread
  | .ret () => { th with call := .idle, loaded := false }
  | .req e k => { th with call := .freeing c (.req e k) }

/-- The chunks that are with the thread, or on their way back from it. -/
def out (th : Thread) : List Word := th.held ++ th.call.chunks

end Thread

structure RaceState where
  obj : Mempool
  heap : Heap
  thread : Tid → Thread

/-- What a thread may do next. -/
inductive Access
  | alloc (t : Tid)
  | free (t : Tid) (chunk : Word)
  /-- Write into a chunk it holds. -/
  | write (t : Tid) (chunk : Word) (i : ℕ) (b : Byte)
  /-- The next load or store of the call it is in. -/
  | step (t : Tid)

namespace RaceState

/-- The address of `pool->free_chunk`. -/
def headAddr (s : RaceState) : ℕ := s.obj.pool.toNat + offFreeChunk

def set (s : RaceState) (t : Tid) (th : Thread) : RaceState :=
  { s with thread := fun u => if u = t then th else s.thread u }

/-- A thread makes the next request of its call. -/
def step (s : RaceState) (t : Tid) : RaceState :=
  let th := { s.thread t with
    loaded := (s.thread t).loaded || (s.thread t).call.nextLoad == some s.headAddr }
  match th.call with
  | .idle => s
  | .allocating p =>
      match Prog.step Heap.handle p s.heap with
      | some (q, h) => { s with heap := h }.set t (th.afterAlloc q)
      | none => s
  | .freeing c p =>
      match Prog.step Heap.handle p s.heap with
      | some (q, h) => { s with heap := h }.set t (th.afterFree c q)
      | none => s

def next (s : RaceState) : Access → RaceState
  | .alloc t => s.set t ((s.thread t).afterAlloc s.obj.alloc)
  | .free t c =>
      s.set t ({ s.thread t with held := (s.thread t).held.erase c }.afterFree c (s.obj.free c))
  | .write _ c i b =>
      { s with heap := { s.heap with mem := writeByte s.heap.mem (c.toNat + i) b } }
  | .step t => s.step t

/-- A thread makes one call at a time and uses the chunks it holds. -/
def guard (s : RaceState) : Access → Prop
  | .alloc t => (s.thread t).call.isIdle = true
  | .free t c => (s.thread t).call.isIdle = true ∧ c ∈ (s.thread t).held
  | .write t c i _ => (s.thread t).call.isIdle = true ∧ c ∈ (s.thread t).held ∧
      i < s.obj.chunkSz.toNat
  | .step t => (s.thread t).call.isIdle = false

/-- No thread stores `free_chunk` while the other is in a call that has loaded it. -/
def Exclusive (s : RaceState) : Access → Prop
  | .step t => (s.thread t).call.nextStore = some s.headAddr →
      (s.thread t.other).loaded = false
  | _ => True

instance (s : RaceState) (e : Access) : Decidable (s.guard e) :=
  match e with
  | .alloc _ => inferInstanceAs (Decidable (_ = _))
  | .free .. => inferInstanceAs (Decidable (_ ∧ _))
  | .write .. => inferInstanceAs (Decidable (_ ∧ _ ∧ _))
  | .step _ => inferInstanceAs (Decidable (_ = _))

instance (s : RaceState) (e : Access) : Decidable (s.Exclusive e) :=
  match e with
  | .step _ => inferInstanceAs (Decidable (_ → _))
  | .alloc _ | .free .. | .write .. => .isTrue trivial

end RaceState

/-- Two threads on one `Mempool`. -/
def race : Machine RaceState Access := ⟨RaceState.next, RaceState.guard⟩

instance (s : RaceState) (e : Access) : Decidable (race.guard s e) :=
  inferInstanceAs (Decidable (s.guard e))

namespace RaceState

/-- The pool and what is out of it. -/
def pool (s : RaceState) : PoolState :=
  ⟨s.obj, s.heap, (s.thread .io).out ++ (s.thread .app).out⟩

/-- Two threads come to a pool with the chunks they hold. -/
def start (p : PoolState) (held : Tid → List Word) : RaceState :=
  ⟨p.obj, p.heap, fun t => ⟨held t, .idle, false⟩⟩

/-- No chunk is in two hands, and every chunk is in the free list, in a thread's hands or on
its way back from one. -/
structure Safe (s : RaceState) : Prop where
  alone : ((s.thread .io).held ++ (s.thread .app).held).Nodup
  kept : ∃ free arrays, s.pool.Partition free arrays

end RaceState

/-! ## Where a thread can be in a call -/

section Rest
variable (m : Mempool)

/-- What `Mempool::alloc` does with the result of `pool_alloc`. -/
def returnChunk (r : Word) : C (Except String Word) :=
  if r = NULL then pure (.error "Mempool couldn't allocate chunk") else pure (.ok r)

/-- What is left of `alloc` once it has the new head. -/
def allocPop (r v : Word) : C (Except String Word) := do
  C.store m.pool offFreeChunk v
  returnChunk r

/-- What is left of `alloc` once it has loaded `free_chunk` a third time. -/
def allocFollow (r q : Word) : C (Except String Word) := do
  allocPop m r (← C.load q 0)

/-- What is left of `alloc` once it has the chunk it will return. -/
def allocReread (r : Word) : C (Except String Word) := do
  allocFollow m r (← C.load m.pool offFreeChunk)

/-- What is left of `alloc` once it has found `free_chunk` not to be `NULL`. -/
def allocChoose : C (Except String Word) := do
  allocReread m (← C.load m.pool offFreeChunk)

/-- What is left of `free` once it has stored the link. -/
def freePush (c : Word) : C Unit := C.store m.pool offFreeChunk c

/-- What is left of `free` once it has loaded `free_chunk`. -/
def freeLink (c v : Word) : C Unit := do
  C.store c 0 v
  freePush m c

variable {m}

theorem Mempool.alloc_eq (hm : m.pool ≠ NULL) :
    m.alloc = (do
      if (← C.load m.pool offFreeChunk) = NULL then
        pure (.error "Mempool couldn't allocate chunk")
      else allocChoose m) := by
  simp only [Mempool.alloc, poolAlloc, if_neg hm]
  refine congrArg (Prog.req _) (funext fun x => ?_)
  by_cases hx : x = NULL
  · subst hx
    rfl
  · simp only [Prog.bind, hx, if_false]
    rfl

theorem Mempool.free_eq {c : Word} (hm : m.pool ≠ NULL) (hc : c ≠ NULL) :
    m.free c = (do freeLink m c (← C.load m.pool offFreeChunk)) := by
  simp only [Mempool.free, poolFree, hm, hc, or_self, if_false]
  rfl

end Rest

/-- The points between the loads and stores of the two calls, with what has been loaded. -/
inductive PStage
  | idle
  /-- `alloc` is about to test `free_chunk`. -/
  | testing
  /-- It is about to load the chunk it will return. -/
  | choosing
  /-- It is about to load `free_chunk` once more, to follow it. -/
  | rereading (r : Word)
  /-- It is about to load the link of `q`. -/
  | following (r q : Word)
  /-- It is about to store `v` into `free_chunk`. -/
  | popping (r v : Word)
  /-- `free` is about to load `free_chunk`. -/
  | reading (c : Word)
  /-- It is about to store `v` into the chunk. -/
  | linking (c v : Word)
  /-- It is about to store the chunk into `free_chunk`. -/
  | pushing (c : Word)

namespace PStage

def call (m : Mempool) : PStage → Call
  | idle => .idle
  | testing => .allocating m.alloc
  | choosing => .allocating (allocChoose m)
  | rereading r => .allocating (allocReread m r)
  | following r q => .allocating (allocFollow m r q)
  | popping r v => .allocating (allocPop m r v)
  | reading c => .freeing c (m.free c)
  | linking c v => .freeing c (freeLink m c v)
  | pushing c => .freeing c (freePush m c)

def loaded : PStage → Bool
  | idle | testing | reading _ => false
  | _ => true

/-- What a thread has loaded is still so. -/
def Knows (pool : Word) (mem : Mem) : PStage → Prop
  | choosing => readWord mem pool.toNat ≠ NULL
  | rereading r => r ≠ NULL ∧ readWord mem pool.toNat = r
  | following r q => r ≠ NULL ∧ readWord mem pool.toNat = r ∧ q = r
  | popping r v => r ≠ NULL ∧ readWord mem pool.toNat = r ∧ v = link mem r
  | linking _ v => v = readWord mem pool.toNat
  | pushing c => link mem c = readWord mem pool.toNat
  | idle | testing | reading _ => True

theorem knows_of_loaded {st : PStage} (h : st.loaded = false) (pool : Word) (mem : Mem) :
    st.Knows pool mem := by
  cases st <;> trivial

end PStage

/-! ## The invariant -/

theorem Rep.perm_held {m : Mempool} {h : Heap} {S : Word} {free held held' : List Word}
    {arrays : List Arr} (R : Rep m h S free held arrays) (hperm : held.Perm held') :
    Rep m h S free held' arrays :=
  { R with parts := (hperm.symm.append_left free).trans R.parts }

namespace RaceState
variable {s : RaceState} {t : Tid}

@[simp] theorem obj_set (s : RaceState) (t : Tid) (th : Thread) : (s.set t th).obj = s.obj := rfl
@[simp] theorem heap_set (s : RaceState) (t : Tid) (th : Thread) : (s.set t th).heap = s.heap := rfl
@[simp] theorem thread_set_self (s : RaceState) (t : Tid) (th : Thread) :
    (s.set t th).thread t = th := if_pos rfl
@[simp] theorem thread_set_other (s : RaceState) (t : Tid) (th : Thread) :
    (s.set t th).thread t.other = s.thread t.other := by
  cases t <;> rfl

/-- A request of `alloc`. -/
theorem step_allocating {e : CReq} {k : e.Ans → C (Except String Word)} {v : e.Ans} {h : Heap}
    (hcall : (s.thread t).call = .allocating (.req e k)) (hans : Heap.handle e s.heap = (v, h)) :
    s.step t = { s with heap := h }.set t
      ({ s.thread t with loaded := (s.thread t).loaded ||
          (s.thread t).call.nextLoad == some s.headAddr }.afterAlloc (k v)) := by
  simp only [step, hcall, Prog.step, hans]

/-- A request of `free`. -/
theorem step_freeing {c : Word} {e : CReq} {k : e.Ans → C Unit} {v : e.Ans} {h : Heap}
    (hcall : (s.thread t).call = .freeing c (.req e k)) (hans : Heap.handle e s.heap = (v, h)) :
    s.step t = { s with heap := h }.set t
      ({ s.thread t with loaded := (s.thread t).loaded ||
          (s.thread t).call.nextLoad == some s.headAddr }.afterFree c (k v)) := by
  simp only [step, hcall, Prog.step, hans]

theorem held_pool_perm (s : RaceState) (t : Tid) :
    s.pool.held.Perm ((s.thread t).out ++ (s.thread t.other).out) := by
  cases t with
  | io => exact .refl _
  | app => exact List.perm_append_comm

/-- The threads are at these stages, what each has loaded is still so, and the chunks out of
the pool are those with the threads. -/
structure Calm (s : RaceState) (st : Tid → PStage) (S : Word) (free : List Word)
    (arrays : List Arr) : Prop where
  call : ∀ t, (s.thread t).call = (st t).call s.obj
  loaded : ∀ t, (s.thread t).loaded = (st t).loaded
  knows : ∀ t, (st t).Knows s.obj.pool s.heap.mem
  sound : s.pool.Sound S free arrays

end RaceState

namespace RaceState.Calm
variable {s : RaceState} {st : Tid → PStage} {S : Word} {free free' : List Word}
  {arrays : List Arr} {t : Tid} {st' : PStage} {th : Thread} {h : Heap}

theorem rep (K : s.Calm st S free arrays) (t : Tid) :
    Rep s.obj s.heap S free ((s.thread t).out ++ (s.thread t.other).out) arrays :=
  K.sound.rep.perm_held (s.held_pool_perm t)

/-- One thread moves, and what the other has loaded is still so. -/
theorem update (K : s.Calm st S free arrays) (hcall : th.call = st'.call s.obj)
    (hloaded : th.loaded = st'.loaded) (hknows : st'.Knows s.obj.pool h.mem)
    (hother : (st t.other).Knows s.obj.pool h.mem)
    (hrep : Rep s.obj h S free' (th.out ++ (s.thread t.other).out) arrays) :
    ({ s with heap := h }.set t th).Calm (Function.update st t st') S free' arrays := by
  have hne : t.other ≠ t := by cases t <;> decide
  refine ⟨Tid.forall_of (t := t) ?_ ?_, Tid.forall_of (t := t) ?_ ?_,
    Tid.forall_of (t := t) ?_ ?_, ⟨K.sound.stride, ?_⟩⟩
  · simpa using hcall
  · simpa [Function.update_of_ne hne] using K.call t.other
  · simpa using hloaded
  · simpa [Function.update_of_ne hne] using K.loaded t.other
  · simpa using hknows
  · simpa [Function.update_of_ne hne] using hother
  · refine hrep.perm_held ?_
    have hperm := (({ s with heap := h }.set t th).held_pool_perm t).symm
    simpa using hperm

/-- A load moves a thread and changes nothing else. -/
theorem advance (K : s.Calm st S free arrays) (hcall : th.call = st'.call s.obj)
    (hloaded : th.loaded = st'.loaded) (hknows : st'.Knows s.obj.pool s.heap.mem)
    (hout : th.out = (s.thread t).out) :
    (s.set t th).Calm (Function.update st t st') S free arrays :=
  K.update hcall hloaded hknows (K.knows t.other) (hout ▸ K.rep t)

theorem pool_ne_null (K : s.Calm st S free arrays) : s.obj.pool ≠ NULL := K.sound.rep.pool_ne_null

theorem mem_chunks (K : s.Calm st S free arrays) {c : Word} (hc : c ∈ (s.thread t).out) :
    c ∈ chunksOf S arrays := (K.rep t).held_mem (List.mem_append_left _ hc)

/-- When a thread has found a chunk in `free_chunk`, that is the first of the free list. -/
theorem free_cons (K : s.Calm st S free arrays) {r : Word} (hr : r ≠ NULL)
    (hhead : readWord s.heap.mem s.obj.pool.toNat = r) : ∃ rest, free = r :: rest := by
  have hchain := K.sound.rep.chain
  cases free with
  | nil => exact absurd (hhead.symm.trans hchain) hr
  | cons c rest => exact ⟨rest, by rw [← hhead.symm.trans hchain.1]⟩

/-- What a thread writes into its own chunks is not what the other has loaded. -/
theorem knows_write (K : s.Calm st S free arrays) {written : List Word} {mem : Mem}
    (hsub : ∀ c ∈ written, c ∈ (s.thread t).out)
    (hmem : ∀ x, (∃ c ∈ written, c.toNat ≤ x ∧ x < c.toNat + S.toNat) ∨ mem x = s.heap.mem x) :
    (st t.other).Knows s.obj.pool mem := by
  have R := K.rep t
  have hsub' : ∀ c ∈ written, c ∈ (s.thread t).out ++ (s.thread t.other).out :=
    fun c hc => List.mem_append_left _ (hsub c hc)
  have hhead := R.head_write hsub' hmem
  have hknows := K.knows t.other
  have hcall := K.call t.other
  cases hst : st t.other with
  | idle | testing | reading => trivial
  | choosing | rereading | following | linking =>
      rw [hst] at hknows
      simp only [PStage.Knows, hhead]
      exact hknows
  | popping r v =>
      rw [hst] at hknows
      obtain ⟨hr, hheadr, hv⟩ := hknows
      obtain ⟨rest, rfl⟩ := K.free_cons hr hheadr
      have hnot : r ∉ written := fun hw =>
        (List.nodup_append.mp R.nodup).2.2 r List.mem_cons_self r (hsub' r hw) rfl
      have hlink := R.link_write hsub' hmem (R.free_mem List.mem_cons_self) hnot
      exact ⟨hr, hhead.trans hheadr, hv.trans hlink.symm⟩
  | pushing c =>
      rw [hst] at hknows hcall
      have hc : c ∈ (s.thread t.other).out := by
        rw [Thread.out, hcall]
        exact List.mem_append_right _ List.mem_cons_self
      have hnot : c ∉ written := fun hw =>
        (List.nodup_append.mp (List.nodup_append.mp R.nodup).2.1).2.2 c (hsub c hw) c hc rfl
      have hlink := R.link_write hsub' hmem (K.mem_chunks hc) hnot
      exact (hlink.trans hknows).trans hhead.symm

/-! ### Loads -/

theorem load_head (K : s.Calm st S free arrays) :
    Heap.handle (.load (s.obj.pool.toNat + offFreeChunk)) s.heap =
      (readWord s.heap.mem s.obj.pool.toNat, s.heap) :=
  congrArg (Prod.mk _) (K.sound.rep.load_pool (show offFreeChunk + 8 ≤ 24 by decide))

/-- A load of `alloc` takes the thread to the stage that what is left of the call says. -/
theorem step_load (K : s.Calm st S free arrays) {a : ℕ} {k : Word → C (Except String Word)}
    {v : Word} (hcall : (s.thread t).call = .allocating (.req (.load a) k))
    (hload : Heap.handle (.load a) s.heap = (v, s.heap))
    (hloaded : a = s.headAddr ∨ (st t).loaded = true)
    (hafter : ∀ th : Thread, th.loaded = true → (th.afterAlloc (k v)).call = st'.call s.obj ∧
      (th.afterAlloc (k v)).loaded = st'.loaded ∧ (th.afterAlloc (k v)).out = th.held)
    (hknows : st'.Knows s.obj.pool s.heap.mem) :
    (s.step t).Calm (Function.update st t st') S free arrays := by
  have hwin : ((s.thread t).loaded || (s.thread t).call.nextLoad == some s.headAddr) = true := by
    rw [K.loaded t, hcall]
    rcases hloaded with rfl | hloaded
    · simp [Call.nextLoad]
    · simp [hloaded]
  have hout : (s.thread t).out = (s.thread t).held := by
    rw [Thread.out, hcall]
    exact List.append_nil _
  rw [step_allocating hcall hload, hwin]
  obtain ⟨hc, hl, ho⟩ := hafter { s.thread t with loaded := true } rfl
  exact K.advance hc hl hknows (ho.trans hout.symm)

theorem step_testing (K : s.Calm st S free arrays) (hst : st t = .testing) :
    ∃ st', (s.step t).Calm (Function.update st t st') S free arrays := by
  have hcall : (s.thread t).call = .allocating (.req (.load (s.obj.pool.toNat + offFreeChunk))
      fun x => if x = NULL then pure (.error "Mempool couldn't allocate chunk")
        else allocChoose s.obj) := by
    rw [K.call t, hst, PStage.call, Mempool.alloc_eq K.pool_ne_null]
    rfl
  by_cases hnull : readWord s.heap.mem s.obj.pool.toNat = NULL
  · refine ⟨.idle, K.step_load hcall K.load_head (.inl rfl) ?_ trivial⟩
    rw [if_pos hnull]
    exact fun th hth => ⟨rfl, rfl, List.append_nil _⟩
  · refine ⟨.choosing, K.step_load hcall K.load_head (.inl rfl) ?_ hnull⟩
    rw [if_neg hnull]
    exact fun th hth => ⟨rfl, hth, List.append_nil _⟩

theorem step_choosing (K : s.Calm st S free arrays) (hst : st t = .choosing) :
    ∃ st', (s.step t).Calm (Function.update st t st') S free arrays := by
  have hcall : (s.thread t).call = .allocating (allocChoose s.obj) := by rw [K.call t, hst]; rfl
  have hknows : readWord s.heap.mem s.obj.pool.toNat ≠ NULL := by
    have hknows := K.knows t
    rw [hst] at hknows
    exact hknows
  exact ⟨.rereading _, K.step_load hcall K.load_head (.inl rfl)
    (fun th hth => ⟨rfl, hth, List.append_nil _⟩) ⟨hknows, rfl⟩⟩

theorem step_rereading (K : s.Calm st S free arrays) {r : Word} (hst : st t = .rereading r) :
    ∃ st', (s.step t).Calm (Function.update st t st') S free arrays := by
  have hcall : (s.thread t).call = .allocating (allocReread s.obj r) := by rw [K.call t, hst]; rfl
  have hknows := K.knows t
  rw [hst] at hknows
  exact ⟨.following r _, K.step_load hcall K.load_head (.inl rfl)
    (fun th hth => ⟨rfl, hth, List.append_nil _⟩) ⟨hknows.1, hknows.2, hknows.2⟩⟩

theorem step_following (K : s.Calm st S free arrays) {r q : Word}
    (hst : st t = .following r q) :
    ∃ st', (s.step t).Calm (Function.update st t st') S free arrays := by
  have hcall : (s.thread t).call = .allocating (allocFollow s.obj r q) := by
    rw [K.call t, hst]
    rfl
  have hknows := K.knows t
  rw [hst] at hknows
  obtain ⟨hr, hhead, rfl⟩ := hknows
  obtain ⟨rest, rfl⟩ := K.free_cons hr hhead
  have hload : Heap.handle (.load (q.toNat + 0)) s.heap = (link s.heap.mem q, s.heap) :=
    congrArg (Prod.mk _) (K.sound.rep.load_chunk (K.sound.rep.free_mem List.mem_cons_self))
  exact ⟨.popping q _, K.step_load hcall hload (.inr (by rw [hst]; rfl))
    (fun th hth => ⟨rfl, hth, List.append_nil _⟩) ⟨hr, hhead, rfl⟩⟩

theorem step_reading (K : s.Calm st S free arrays) {c : Word} (hst : st t = .reading c) :
    ∃ st', (s.step t).Calm (Function.update st t st') S free arrays := by
  have hcall' : (s.thread t).call = .freeing c (s.obj.free c) := by rw [K.call t, hst]; rfl
  have hout : (s.thread t).out = (s.thread t).held ++ [c] := by
    rw [Thread.out, hcall']
    rfl
  have hc : c ≠ NULL := (K.rep t).layout.chunk_ne_null (K.mem_chunks (t := t) (by simp [hout]))
  have hcall : (s.thread t).call = .freeing c (.req (.load (s.obj.pool.toNat + offFreeChunk))
      fun v => freeLink s.obj c v) := by
    rw [hcall', Mempool.free_eq K.pool_ne_null hc]
    rfl
  have hwin : ((s.thread t).loaded || (s.thread t).call.nextLoad == some s.headAddr) = true := by
    rw [hcall]
    simp [Call.nextLoad, headAddr]
  rw [step_freeing hcall K.load_head, hwin]
  exact ⟨.linking c _, K.advance rfl rfl rfl hout.symm⟩

/-! ### Stores -/

/-- The thread that stores `free_chunk` finds the other outside its window. -/
theorem knows_of_exclusive (K : s.Calm st S free arrays) (hx : s.Exclusive (.step t))
    (hstore : (s.thread t).call.nextStore = some s.headAddr) (mem : Mem) :
    (st t.other).Knows s.obj.pool mem :=
  PStage.knows_of_loaded ((K.loaded t.other).symm.trans (hx hstore)) _ _

theorem store_head (K : s.Calm st S free arrays) (v : Word) :
    Heap.handle (.store (s.obj.pool.toNat + offFreeChunk) v) s.heap =
      ((), s.heap.put s.obj.pool.toNat v) :=
  congrArg (Prod.mk _) (K.sound.rep.store_pool (show offFreeChunk + 8 ≤ 24 by decide) v)

theorem step_popping (K : s.Calm st S free arrays) {r v : Word} (hst : st t = .popping r v)
    (hx : s.Exclusive (.step t)) :
    ∃ st' free', (s.step t).Calm (Function.update st t st') S free' arrays := by
  have hcall : (s.thread t).call = .allocating (allocPop s.obj r v) := by rw [K.call t, hst]; rfl
  have hother := K.knows_of_exclusive hx (by rw [hcall]; rfl)
  have hknows := K.knows t
  rw [hst] at hknows
  obtain ⟨hr, hhead, rfl⟩ := hknows
  obtain ⟨rest, rfl⟩ := K.free_cons hr hhead
  have hpop := (K.rep t).rep_pop
  have hout : (s.thread t).out = (s.thread t).held ++ [] := by rw [Thread.out, hcall]; rfl
  rw [step_allocating hcall (K.store_head _), returnChunk, if_neg hr]
  refine ⟨.idle, rest, K.update rfl rfl trivial (hother _) ?_⟩
  rw [hout] at hpop
  exact hpop

theorem step_linking (K : s.Calm st S free arrays) {c v : Word} (hst : st t = .linking c v) :
    ∃ st', (s.step t).Calm (Function.update st t st') S free arrays := by
  have hcall : (s.thread t).call = .freeing c (freeLink s.obj c v) := by rw [K.call t, hst]; rfl
  have hloaded : (s.thread t).loaded = true := by rw [K.loaded t, hst]; rfl
  have hout : (s.thread t).out = (s.thread t).held ++ [c] := by rw [Thread.out, hcall]; rfl
  have hc : c ∈ (s.thread t).out := by simp [hout]
  have R := K.rep t
  have hv := K.knows t
  rw [hst] at hv
  have hstore : Heap.handle (.store (c.toNat + 0) v) s.heap = ((), s.heap.put c.toNat v) :=
    congrArg (Prod.mk _) (R.store_chunk (K.mem_chunks hc) v)
  have hmem := R.put_within c v
  have hsub : ∀ d ∈ [c], d ∈ (s.thread t).out := fun d hd => by
    rwa [List.mem_singleton.mp hd]
  have hhead := R.head_write (fun d hd => List.mem_append_left _ (hsub d hd)) hmem
  have hrep := R.rep_put_held (List.mem_append_left _ hc) v
  rw [hout] at hrep
  rw [step_freeing hcall hstore, hloaded, Bool.true_or]
  refine ⟨.pushing c, K.update rfl rfl ?_ (K.knows_write hsub hmem) hrep⟩
  exact (readWord_writeWord_self _ _ _).trans (hv.trans hhead.symm)

theorem step_pushing (K : s.Calm st S free arrays) {c : Word} (hst : st t = .pushing c)
    (hx : s.Exclusive (.step t)) :
    ∃ st' free', (s.step t).Calm (Function.update st t st') S free' arrays := by
  have hcall : (s.thread t).call = .freeing c (freePush s.obj c) := by rw [K.call t, hst]; rfl
  have hother := K.knows_of_exclusive hx (by rw [hcall]; rfl)
  have hout : (s.thread t).out = (s.thread t).held ++ [c] := by rw [Thread.out, hcall]; rfl
  have hlink := K.knows t
  rw [hst] at hlink
  have hpush := (K.rep t).rep_push (c := c) (by simp [hout]) hlink
  rw [step_freeing hcall (K.store_head c)]
  refine ⟨.idle, c :: free, K.update rfl rfl trivial (hother _) (hpush.perm_held ?_)⟩
  have hperm : ((s.thread t).out ++ (s.thread t.other).out).Perm
      (c :: ((s.thread t).held ++ (s.thread t.other).out)) := by
    rw [hout, List.append_assoc]
    exact List.perm_middle
  have herase := hperm.erase c
  rw [List.erase_cons_head] at herase
  simpa [Thread.afterFree, Thread.out, Call.chunks] using herase

theorem step (K : s.Calm st S free arrays) (hg : s.guard (.step t))
    (hx : s.Exclusive (.step t)) :
    ∃ st' free', (s.step t).Calm (Function.update st t st') S free' arrays := by
  have hload : (∃ st', (s.step t).Calm (Function.update st t st') S free arrays) →
      ∃ st' free', (s.step t).Calm (Function.update st t st') S free' arrays :=
    fun ⟨st', K'⟩ => ⟨st', free, K'⟩
  cases hst : st t with
  | idle =>
      have hcall := K.call t
      rw [hst] at hcall
      simp [RaceState.guard, hcall, PStage.call, Call.isIdle] at hg
  | testing => exact hload (K.step_testing hst)
  | choosing => exact hload (K.step_choosing hst)
  | rereading r => exact hload (K.step_rereading hst)
  | following r q => exact hload (K.step_following hst)
  | popping r v => exact K.step_popping hst hx
  | reading c => exact hload (K.step_reading hst)
  | linking c v => exact hload (K.step_linking hst)
  | pushing c => exact K.step_pushing hst hx

/-! ### Calls and writes -/

theorem stage_idle (K : s.Calm st S free arrays) (h : (s.thread t).call.isIdle = true) :
    st t = .idle := by
  rw [K.call t] at h
  cases hst : st t <;> first | rfl | (rw [hst] at h; cases h)

theorem out_idle (K : s.Calm st S free arrays) (h : (s.thread t).call.isIdle = true) :
    (s.thread t).out = (s.thread t).held := by
  rw [Thread.out, K.call t, K.stage_idle h]
  exact List.append_nil _

theorem next_alloc (K : s.Calm st S free arrays) (hg : s.guard (.alloc t)) :
    (s.next (.alloc t)).Calm (Function.update st t .testing) S free arrays := by
  have hloaded : (s.thread t).loaded = false := by rw [K.loaded t, K.stage_idle hg]; rfl
  have hafter : (s.thread t).afterAlloc s.obj.alloc =
      { s.thread t with call := .allocating s.obj.alloc } := by
    rw [Mempool.alloc_eq K.pool_ne_null]
    rfl
  simp only [next, hafter]
  exact K.advance rfl hloaded trivial ((K.out_idle hg).trans (List.append_nil _).symm).symm

theorem next_free (K : s.Calm st S free arrays) {c : Word} (hg : s.guard (.free t c)) :
    (s.next (.free t c)).Calm (Function.update st t (.reading c)) S free arrays := by
  have hloaded : (s.thread t).loaded = false := by rw [K.loaded t, K.stage_idle hg.1]; rfl
  have hmem : c ∈ (s.thread t).out := by
    rw [K.out_idle hg.1]
    exact hg.2
  have hafter : { s.thread t with held := (s.thread t).held.erase c }.afterFree c (s.obj.free c) =
      { s.thread t with
        held := (s.thread t).held.erase c
        call := .freeing c (s.obj.free c) } := by
    rw [Mempool.free_eq K.pool_ne_null ((K.rep t).layout.chunk_ne_null (K.mem_chunks hmem))]
    rfl
  simp only [next, hafter]
  refine K.update rfl hloaded trivial (K.knows t.other) ((K.rep t).perm_held ?_)
  refine List.Perm.append_right _ ?_
  rw [K.out_idle hg.1]
  exact (List.perm_cons_erase hg.2).trans (List.perm_append_singleton _ _).symm

theorem next_write (K : s.Calm st S free arrays) {c : Word} {i : ℕ} {b : Byte}
    (hg : s.guard (.write t c i b)) : (s.next (.write t c i b)).Calm st S free arrays := by
  obtain ⟨hidle, hc, hi⟩ := hg
  have hout : c ∈ (s.thread t).out := by
    rw [K.out_idle hidle]
    exact hc
  have hfits : s.obj.chunkSz.toNat ≤ S.toNat := K.sound.rep.fits
  have hmem : ∀ x, (∃ d ∈ [c], d.toNat ≤ x ∧ x < d.toNat + S.toNat) ∨
      writeByte s.heap.mem (c.toNat + i) b x = s.heap.mem x := by
    intro x
    by_cases hx : x = c.toNat + i
    · exact .inl ⟨c, List.mem_cons_self, by omega, by omega⟩
    · exact .inr (writeByte_of_ne _ _ hx)
  refine ⟨K.call, K.loaded, Tid.forall_of (t := t) ?_ ?_, ?_⟩
  · rw [K.stage_idle hidle]
    trivial
  · exact K.knows_write (fun d hd => by rwa [List.mem_singleton.mp hd]) hmem
  · refine K.sound.write ⟨?_, hi⟩
    exact (s.held_pool_perm t).mem_iff.mpr (List.mem_append_left _ hout)

/-- Every step outside the other's window keeps the invariant. -/
theorem next (K : s.Calm st S free arrays) {e : Access} (hg : s.guard e) (hx : s.Exclusive e) :
    ∃ st' free', (s.next e).Calm st' S free' arrays := by
  cases e with
  | alloc t => exact ⟨_, _, K.next_alloc hg⟩
  | free t c => exact ⟨_, _, K.next_free hg⟩
  | write t c i b => exact ⟨_, _, K.next_write hg⟩
  | step t =>
      obtain ⟨st', free', K'⟩ := K.step hg hx
      exact ⟨_, free', K'⟩

theorem safe (K : s.Calm st S free arrays) : s.Safe := by
  refine ⟨?_, free, arrays, K.sound.partition⟩
  have hnodup : ((s.thread .io).out ++ (s.thread .app).out).Nodup :=
    (List.nodup_append.mp K.sound.rep.nodup).2.1
  exact hnodup.sublist ((List.sublist_append_left _ _).append (List.sublist_append_left _ _))

end RaceState.Calm

/-! ## Every interleaving -/

theorem RaceState.calm_start {p : PoolState} {held : Tid → List Word} {S : Word}
    {free : List Word} {arrays : List Arr} (H : p.Sound S free arrays)
    (hheld : (held .io ++ held .app).Perm p.held) :
    (start p held).Calm (fun _ => .idle) S free arrays := by
  refine ⟨fun _ => rfl, fun _ => rfl, fun _ => trivial, ⟨H.stride, H.rep.perm_held ?_⟩⟩
  simpa [start, pool, Thread.out, Call.chunks] using hheld.symm

/-- When neither thread stores `free_chunk` while the other is in a call that has loaded it,
no chunk is in two hands and none is lost. -/
theorem race_safe {p : PoolState} {held : Tid → List Word} (hp : p.InUse)
    (hheld : (held .io ++ held .app).Perm p.held) {es : List Access}
    (hes : (race.restrict RaceState.Exclusive).Admits (.start p held) es) :
    (race.exec (.start p held) es).Safe := by
  obtain ⟨S, free, arrays, H⟩ := hp.sound
  obtain ⟨st, free', K⟩ := Machine.exec_induction (M := race.restrict RaceState.Exclusive)
    (I := fun s => ∃ st free, s.Calm st S free arrays)
    (fun _ _ ⟨_, _, K⟩ hg => K.next hg.1 hg.2) ⟨_, _, RaceState.calm_start H hheld⟩ hes
  exact K.safe

theorem race_safe_run :
    let es : List Access := [.alloc .io, .step .io, .alloc .app, .step .io, .step .io, .step .io,
      .step .io, .step .app, .step .app, .free .io 4608, .step .app, .step .app, .step .app,
      .write .app 4616 0 7, .step .io, .step .io, .step .io]
    (race.exec (.start twoPool fun _ => []) es).Safe := by
  refine race_safe inUse_twoPool (by decide) ?_
  decide +kernel

/-- Two `alloc`s whose loads come before both stores return the same chunk. Two `free`s whose
loads come before both stores of `free_chunk` put one chunk back: nobody holds the other, and
it is not in the free list. -/
theorem race_two_holders :
    let allocs : List Access := [.alloc .io, .alloc .app, .step .io, .step .io, .step .io,
      .step .io, .step .app, .step .app, .step .app, .step .app, .step .app, .step .io]
    let s := race.exec (.start twoPool fun _ => []) allocs
    let taken := mempool.exec twoPool [.alloc, .alloc]
    let held : Tid → List Word := fun | .io => [4608] | .app => [4616]
    let frees : List Access := [.free .io 4608, .free .app 4616, .step .io, .step .app, .step .app,
      .step .app, .step .io, .step .io]
    let u := race.exec (.start taken held) frees
    twoPool.InUse ∧ race.Admits (.start twoPool fun _ => []) allocs ∧
      (s.thread .io).held = [4608] ∧ (s.thread .app).held = [4608] ∧ ¬ s.Safe ∧
      taken.held = [4616, 4608] ∧ race.Admits (.start taken held) frees ∧
      u.pool.held = [] ∧ u.pool.IsFreeList [4608] ∧ ¬ u.Safe := by
  intro allocs s taken held frees u
  have hio : (s.thread .io).held = [4608] := by decide +kernel
  have happ : (s.thread .app).held = [4608] := by decide +kernel
  have hnone : u.pool.held = [] := by decide +kernel
  have hlist : u.pool.IsFreeList [4608] := by
    rw [PoolState.IsFreeList, Chain.cons_iff, Chain.nil_iff]
    decide +kernel
  refine ⟨inUse_twoPool, by decide +kernel, hio, happ, ?_, by decide +kernel, by decide +kernel,
    hnone, hlist, ?_⟩
  · intro hsafe
    have halone := hsafe.alone
    rw [hio, happ] at halone
    revert halone
    decide
  · rintro ⟨-, free, arrays, hpart⟩
    have hlen := hpart.parts.length_eq.trans hpart.count
    rw [hpart.isFreeList.unique hlist, hnone] at hlen
    revert hlen
    decide +kernel

end Unid.Common
