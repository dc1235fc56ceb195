import Unid.Common.CHeap

/-!
# The pool allocator of `libpool.c`

A statement-by-statement embedding of `pool_new`, `pool_expand`,
`pool_destroy`, `pool_alloc`, `pool_free` and `pool_available`, as built by this
repository: with alignment, without `LIBPOOL_THREAD_SAFE`.  The structures
`Pool` and `ArrayStart` live in memory and their members are read where the
source reads them, so a member named three times is loaded three times.  The
Valgrind requests and the log messages have no effect on the program and are
left out.

A `while` loop over links is a recursion on fuel.  The fuel is the size of the
address space: a walk over distinct addresses ends within it, and a walk that
does not is reported by `spin`.
-/

namespace Unid.Common
open Lib

/-! ## Layout of `Pool` and `ArrayStart` on a 64-bit target -/

/-- `offsetof(Pool, free_chunk)`. -/
abbrev offFreeChunk : ℕ := 0
/-- `offsetof(Pool, array_starts)`. -/
abbrev offArrayStarts : ℕ := 8
/-- `offsetof(Pool, chunk_sz)`. -/
abbrev offChunkSz : ℕ := 16
/-- `offsetof(ArrayStart, next)`. -/
abbrev offNext : ℕ := 0
/-- `offsetof(ArrayStart, arr)`. -/
abbrev offArr : ℕ := 8

def sizeofPtr : Word := 8
def sizeofPool : Word := 24
def sizeofArrayStart : Word := 16

/-- The macro `ALIGN2BOUNDARY`. -/
def align2Boundary (size boundary : Word) : Word := (size + boundary - 1) &&& ~~~(boundary - 1)

/-- `pool_assert_ext_funcs`: the build initialises both pointers, to `malloc` and
`free`, and no code resets them. -/
def poolAssertExtFuncs : Bool := true

/-- Enough for any walk over distinct addresses. -/
def walkFuel : ℕ := 2 ^ 64

/-! ## `pool_new` and `pool_expand` -/

/-- The loop that links `n + 1` consecutive chunks, from chunk `i` on.  `sz` is how
the loop obtains the chunk size, once for the address and once for the link. -/
def linkChunks (sz : C Word) (arr : Word) : ℕ → Word → C Unit
  | 0, _ => pure ()
  | n + 1, i => do
      let s₁ ← sz
      let s₂ ← sz
      C.store (arr + i * s₁) 0 (arr + (i + 1) * s₂)
      linkChunks sz arr n (i + 1)

def poolNew (poolSz chunkSz₀ : Word) : C Word :=
  if poolSz = 0 then pure NULL
  else
    let chunkSz := align2Boundary chunkSz₀ sizeofPtr
    if !poolAssertExtFuncs then pure NULL
    else do
      let pool ← poolExtAlloc sizeofPool
      if pool = NULL then pure NULL
      else do
        C.store pool offArrayStarts (← poolExtAlloc sizeofArrayStart)
        if (← C.load pool offArrayStarts) = NULL then do
          poolExtFree pool
          pure NULL
        else do
          let arr ← poolExtAlloc (poolSz * chunkSz)
          if arr = NULL then do
            poolExtFree (← C.load pool offArrayStarts)
            poolExtFree pool
            pure NULL
          else do
            linkChunks (pure chunkSz) arr (poolSz - 1).toNat 0
            C.store (arr + (poolSz - 1) * chunkSz) 0 NULL
            C.store pool offFreeChunk arr
            C.store (← C.load pool offArrayStarts) offNext NULL
            C.store (← C.load pool offArrayStarts) offArr arr
            C.store pool offChunkSz chunkSz
            pure pool

def poolExpand (pool extraSz : Word) : C Bool :=
  if pool = NULL ∨ extraSz = 0 then pure false
  else do
    let arrayStart ← poolExtAlloc sizeofArrayStart
    if arrayStart = NULL then pure false
    else do
      let extraArr ← poolExtAlloc (extraSz * (← C.load pool offChunkSz))
      if extraArr = NULL then do
        poolExtFree arrayStart
        pure false
      else do
        linkChunks (C.load pool offChunkSz) extraArr (extraSz - 1).toNat 0
        C.store (extraArr + (extraSz - 1) * (← C.load pool offChunkSz)) 0
          (← C.load pool offFreeChunk)
        C.store pool offFreeChunk extraArr
        C.store arrayStart offArr extraArr
        C.store arrayStart offNext (← C.load pool offArrayStarts)
        C.store pool offArrayStarts arrayStart
        pure true

/-! ## `pool_destroy` -/

/-- The loop of `pool_destroy` over the `ArrayStart` list. -/
def destroyArrays : ℕ → Word → C Unit
  | 0, _ => spin
  | fuel + 1, arrayStart =>
      if arrayStart = NULL then pure ()
      else do
        let next ← C.load arrayStart offNext
        poolExtFree (← C.load arrayStart offArr)
        poolExtFree arrayStart
        destroyArrays fuel next

def poolDestroy (pool : Word) : C Unit :=
  if pool = NULL then pure ()
  else do
    destroyArrays walkFuel (← C.load pool offArrayStarts)
    poolExtFree pool

/-! ## `pool_alloc`, `pool_free` and `pool_available` -/

def poolAlloc (pool : Word) : C Word :=
  if pool = NULL then pure NULL
  else do
    if (← C.load pool offFreeChunk) = NULL then pure NULL
    else do
      let result ← C.load pool offFreeChunk
      C.store pool offFreeChunk (← C.load (← C.load pool offFreeChunk) 0)
      pure result

def poolFree (pool ptr : Word) : C Unit :=
  if pool = NULL ∨ ptr = NULL then pure ()
  else do
    C.store ptr 0 (← C.load pool offFreeChunk)
    C.store pool offFreeChunk ptr

/-- The loop of `pool_available`, with the count so far. -/
def countFree : ℕ → Word → Word → C Word
  | 0, _, available => do
      spin
      pure available
  | fuel + 1, freeChunk, available =>
      if freeChunk = NULL then pure available
      else do
        let next ← C.load freeChunk 0
        countFree fuel next (available + 1)

def poolAvailable (pool : Word) : C Word :=
  if pool = NULL then pure 0
  else do countFree walkFuel (← C.load pool offFreeChunk) 0

end Unid.Common
