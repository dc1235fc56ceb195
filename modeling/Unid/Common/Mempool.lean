import Unid.Common.Libpool

/-!
# The class `Mempool`

The C++ wrapper of `mempool.hpp` and `mempool.cpp` over the C pool.  A method
that may throw returns `Except`, with the text of the `std::runtime_error`;
`expand` also returns the object it leaves behind.  The logger is left out.
-/

namespace Unid.Common
open Lib

/-- The data members of a `Mempool`. -/
structure Mempool where
  chunkSz : Word
  poolSz : Word
  extraSz : Word
  pool : Word
  deriving DecidableEq

/-- `Mempool_stats`. -/
structure MempoolStats where
  chunkSz : Word
  poolSz : Word
  extraSz : Word
  available : Word
  deriving DecidableEq

namespace Mempool

/-- The constructor. -/
def new (poolSz chunkSz : Word) : C (Except String Mempool) := do
  let pool ← poolNew poolSz chunkSz
  if pool = NULL then pure (.error "Failed to initialize libpool")
  else pure (.ok { chunkSz, poolSz, extraSz := 0, pool })

/-- The destructor. -/
def destroy (m : Mempool) : C Unit := poolDestroy m.pool

def alloc (m : Mempool) : C (Except String Word) := do
  let chunk ← poolAlloc m.pool
  if chunk = NULL then pure (.error "Mempool couldn't allocate chunk")
  else pure (.ok chunk)

def free (m : Mempool) (ptr : Word) : C Unit := poolFree m.pool ptr

def expand (m : Mempool) (extraSz : Word) : C (Except String Bool × Mempool) := do
  let status ← poolExpand m.pool extraSz
  if !status then do
    poolDestroy m.pool
    pure (.error "Failed to expand mempool", m)
  else pure (.ok status, { m with extraSz := m.extraSz + extraSz })

def stats (m : Mempool) : C MempoolStats := do
  let available ← poolAvailable m.pool
  pure ⟨m.chunkSz, m.poolSz, m.extraSz, available⟩

end Mempool
end Unid.Common
