import Unid.Lib.Monitor
import Unid.Common.PoolRun

/-!
# The pool behind its lock

With `LIBPOOL_THREAD_SAFE`, which the build of this repository does not define,
`pool_expand`, `pool_alloc` and `pool_free` take a lock after they have checked
their arguments and release it before they return; in between they are what they
are without it.  When the lock is refused they return as if they had failed, which
`pool_free` cannot tell its caller.

The member `lock` of `Pool`, set by `pool_new` and never changed, only names the
mutex and is left out.

## Main definitions

* `Locked.poolAlloc`, `Locked.poolFree`, `Locked.poolExpand` — the functions of that build.
* `PoolCall`, `PoolAnswer`, `conduct` — what threads do with a pool.
* `hands` — the chunks that belong to a thread after what it has been told.
* `lockedPool` — threads on one pool.
-/

namespace Unid.Common
open Lib

/-! ## The functions -/

/-- `pool_alloc` with the lock held. -/
def allocBody (pool : Word) : C Word := do
  if (← C.load pool offFreeChunk) = NULL then pure NULL
  else do
    let result ← C.load pool offFreeChunk
    C.store pool offFreeChunk (← C.load (← C.load pool offFreeChunk) 0)
    pure result

/-- `pool_free` with the lock held. -/
def freeBody (pool ptr : Word) : C Unit := do
  C.store ptr 0 (← C.load pool offFreeChunk)
  C.store pool offFreeChunk ptr

/-- `pool_expand` with the lock held. -/
def expandBody (pool extraSz : Word) : C Bool := do
  let arrayStart ← poolExtAlloc sizeofArrayStart
  if arrayStart = NULL then pure false
  else do
    let extraArr ← poolExtAlloc (extraSz * (← C.load pool offChunkSz))
    if extraArr = NULL then do
      poolExtFree arrayStart
      pure false
    else do
      linkChunks (C.load pool offChunkSz) extraArr (extraSz - 1).toNat 0
      C.store (extraArr + (extraSz - 1) * (← C.load pool offChunkSz)) 0
        (← C.load pool offFreeChunk)
      C.store pool offFreeChunk extraArr
      C.store arrayStart offArr extraArr
      C.store arrayStart offNext (← C.load pool offArrayStarts)
      C.store pool offArrayStarts arrayStart
      pure true

/-- Without the lock the functions are their checks and the same code. -/
theorem poolAlloc_eq_body (pool : Word) :
    poolAlloc pool = if pool = NULL then pure NULL else allocBody pool := rfl

theorem poolFree_eq_body (pool ptr : Word) :
    poolFree pool ptr = if pool = NULL ∨ ptr = NULL then pure () else freeBody pool ptr := rfl

theorem poolExpand_eq_body (pool extraSz : Word) : poolExpand pool extraSz =
    if pool = NULL ∨ extraSz = 0 then pure false else expandBody pool extraSz := rfl

namespace Locked

def poolAlloc (pool : Word) : Prog (lockSig CSig) Word :=
  if pool = NULL then pure NULL else .guarded NULL (allocBody pool)

def poolFree (pool ptr : Word) : Prog (lockSig CSig) Unit :=
  if pool = NULL ∨ ptr = NULL then pure () else .guarded () (freeBody pool ptr)

def poolExpand (pool extraSz : Word) : Prog (lockSig CSig) Bool :=
  if pool = NULL ∨ extraSz = 0 then pure false else .guarded false (expandBody pool extraSz)

end Locked

/-! ## Threads on a pool -/

/-- A call, or a byte written into a chunk. -/
inductive PoolCall
  | alloc
  | free (ptr : Word)
  | expand (extraSz : Word)
  | write (chunk : Word) (i : ℕ) (b : Byte)
  deriving DecidableEq

inductive PoolAnswer
  | chunk (c : Word)
  | done
  | expanded (ok : Bool)
  deriving DecidableEq

/-- Store a byte, wherever it goes. -/
def Heap.poke (x : ℕ) (b : Byte) (h : Heap) : Heap := { h with mem := writeByte h.mem x b }

def conduct (pool : Word) : PoolCall → Conduct CSig Heap PoolAnswer
  | .alloc =>
      if pool = NULL then .own (.chunk NULL) id
      else .locked (.chunk NULL) (.chunk <$> allocBody pool)
  | .free ptr =>
      if pool = NULL ∨ ptr = NULL then .own .done id
      else .locked .done ((fun _ => .done) <$> freeBody pool ptr)
  | .expand extraSz =>
      if pool = NULL ∨ extraSz = 0 then .own (.expanded false) id
      else .locked (.expanded false) (.expanded <$> expandBody pool extraSz)
  | .write chunk i b => .own .done (Heap.poke (chunk.toNat + i) b)

/-- The code of the calls is that of the functions. -/
theorem code_conduct (pool : Word) (c : PoolCall) : (conduct pool c).code =
    match c with
    | .alloc => .chunk <$> Locked.poolAlloc pool
    | .free ptr => (fun _ => .done) <$> Locked.poolFree pool ptr
    | .expand extraSz => .expanded <$> Locked.poolExpand pool extraSz
    | .write .. => pure .done := by
  cases c with
  | alloc =>
      simp only [conduct, Locked.poolAlloc]
      split
      · rfl
      · exact (Prog.map_guarded ..).symm
  | free ptr =>
      simp only [conduct, Locked.poolFree]
      split
      · rfl
      · exact (Prog.map_guarded ..).symm
  | expand extraSz =>
      simp only [conduct, Locked.poolExpand]
      split
      · rfl
      · exact (Prog.map_guarded ..).symm
  | write chunk i b => rfl

/-- What a call that has returned does to the chunks of its caller. -/
def handsAfter (H : Finset Word) : PoolCall × PoolAnswer → Finset Word
  | (.alloc, .chunk c) => if c = NULL then H else insert c H
  | (.free ptr, _) => H.erase ptr
  | _ => H

/-- The chunks of a thread that came with `H` and has made these calls. -/
def hands (H : Finset Word) (turns : List (PoolCall × PoolAnswer)) : Finset Word :=
  turns.foldl handsAfter H

/-- What a thread with these chunks may do: free one of them or `NULL`, write within the first
`chunk_sz` bytes of one of them, and expand by an array whose byte count is a `size_t`. -/
def May (chunkSz : Word) (H : Finset Word) : PoolCall → Prop
  | .alloc => True
  | .free ptr => ptr = NULL ∨ ptr ∈ H
  | .expand extraSz => extraSz.toNat * roundUp8 chunkSz.toNat < 2 ^ 64
  | .write chunk i _ => chunk ∈ H ∧ i < chunkSz.toNat

instance (chunkSz : Word) (H : Finset Word) : (c : PoolCall) → Decidable (May chunkSz H c)
  | .alloc => .isTrue trivial
  | .free _ => inferInstanceAs (Decidable (_ ∨ _))
  | .expand _ => inferInstanceAs (Decidable (_ < _))
  | .write .. => inferInstanceAs (Decidable (_ ∧ _))

/-- Threads on one pool, each with the chunks it came with. -/
def lockedPool {T : Type} (pool chunkSz : Word) (start : T → Finset Word) :
    Monitor CSig Heap T PoolCall PoolAnswer where
  handle := Heap.handle
  conduct := conduct pool
  may t turns c := May chunkSz (hands (start t) turns) c

instance {T : Type} (pool chunkSz : Word) (start : T → Finset Word) (t : T)
    (turns : List (PoolCall × PoolAnswer)) (c : PoolCall) :
    Decidable ((lockedPool pool chunkSz start).may t turns c) :=
  inferInstanceAs (Decidable (May chunkSz (hands (start t) turns) c))

/-- Threads that come to a pool in use, and what has become of them and of the pool. -/
abbrev PoolThreads (T : Type) :=
  ThreadsState (lockSig CSig) (MonitorState Heap T PoolCall PoolAnswer) T PoolCall PoolAnswer

section Threads
variable {T : Type}

/-- The chunks that a thread does not give back in this call. -/
def keeping (H : Finset Word) : PoolCall → Finset Word
  | .free ptr => H.erase ptr
  | _ => H

/-- The chunks that a thread has, and is not giving back. -/
def kept (start : T → Finset Word) (S : PoolThreads T) (t : T) : Finset Word :=
  match S.running t with
  | some (c, _) => keeping (hands (start t) (seen (S.shared.history t))) c
  | none => hands (start t) (seen (S.shared.history t))

/-- Each thread comes with some of the chunks that are out, and no two with the same. -/
structure Shares (p : PoolState) (start : T → Finset Word) : Prop where
  held : ∀ t, ∀ d ∈ start t, d ∈ p.held
  alone : ∀ t u, t ≠ u → Disjoint (start t) (start u)

variable [DecidableEq T]

/-- Threads on the pool of a `Mempool`.  The pool is one of the build without the lock, whose `Pool`
has 24 bytes.  `pool_new` of the other build makes it larger by the member `lock`, which comes
last, and allocates a mutex; what is done with the lock held touches neither. -/
def onPool (p : PoolState) (start : T → Finset Word) : Machine (PoolThreads T)
    (ThreadsEvent T PoolCall) :=
  (lockedPool p.obj.pool p.obj.chunkSz start).threads.machine

instance (p : PoolState) (start : T → Finset Word) (S : PoolThreads T)
    (e : ThreadsEvent T PoolCall) : Decidable ((onPool p start).guard S e) :=
  inferInstanceAs (Decidable ((lockedPool _ _ start).threads.machine.guard S e))

def PoolThreads.start (p : PoolState) : PoolThreads T := Threads.start (.start p.heap)

end Threads

end Unid.Common
