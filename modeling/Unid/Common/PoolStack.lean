import Unid.Common.PoolContract

/-!
# A `Mempool` is a stack of addresses

To its callers a `Mempool` shows nothing of the heap, of the links that it keeps
in the free chunks, or of its list of arrays.  What they see is a stack: `alloc`
takes the top, `free` puts a chunk on top, and `expand` puts a whole array on
top, with its first chunk uppermost.  Where that array lies is the allocator's
choice; everything else that the class ever answers is the stack's answer.

## Main definitions

* `PoolState.outcomes` — what the calls of a run return.
* `Shelf`, `Shelf.outcomes` — the stack, and what it would return.
* `PoolState.supplied` — the calls of a run, with the arrays that the allocator gave them.
-/

namespace Unid.Common
open Lib

namespace PoolState

/-- What the callers of a run see. -/
def outcomes (s : PoolState) : List Op → List Outcome
  | [] => []
  | op :: ops => s.outcome op :: (s.next op).outcomes ops

/-- The array that the allocator gives to an `expand`. -/
def array (s : PoolState) : Op → Word
  | .expand extraSz => (grantedArr s.obj.pool extraSz s.heap).arr
  | _ => NULL

def supplied (s : PoolState) : List Op → List (Op × Word)
  | [] => []
  | op :: ops => (op, s.array op) :: (s.next op).supplied ops

end PoolState

/-! ## The stack -/

/-- The free chunks, the next one first, and the sizes that `stats` reports. -/
structure Shelf where
  stack : List Word
  chunkSz : Word
  poolSz : Word
  extraSz : Word

namespace Shelf

/-- The chunks of an array, in ascending order. -/
def row (arr count chunkSz : Word) : List Word :=
  (List.range count.toNat).map (chunkAt arr (align2Boundary chunkSz sizeofPtr))

def new (poolSz chunkSz arr : Word) : Shelf := ⟨row arr poolSz chunkSz, chunkSz, poolSz, 0⟩

def next (q : Shelf) : Op × Word → Shelf
  | (.alloc, _) => { q with stack := q.stack.tail }
  | (.free ptr, _) => if ptr = NULL then q else { q with stack := ptr :: q.stack }
  | (.expand extraSz, arr) =>
      { q with stack := row arr extraSz q.chunkSz ++ q.stack, extraSz := q.extraSz + extraSz }
  | (.stats, _) | (.write .., _) => q

def outcome (q : Shelf) : Op → Outcome
  | .alloc =>
      match q.stack with
      | [] => .chunk (.error "Mempool couldn't allocate chunk")
      | c :: _ => .chunk (.ok c)
  | .free _ | .write .. => .done
  | .expand _ => .expanded (.ok true)
  | .stats => .stats ⟨q.chunkSz, q.poolSz, q.extraSz, BitVec.ofNat 64 q.stack.length⟩

def outcomes (q : Shelf) : List (Op × Word) → List Outcome
  | [] => []
  | call :: calls => q.outcome call.1 :: (q.next call).outcomes calls

end Shelf

/-! ## One call -/

/-- The stack that a pool with this free list is. -/
def PoolState.shelf (s : PoolState) (free : List Word) : Shelf :=
  ⟨free, s.obj.chunkSz, s.obj.poolSz, s.obj.extraSz⟩

namespace PoolState.Sound
variable {s : PoolState} {S : Word} {free : List Word} {arrays : List Arr}

/-- The distance of the chunks is the rounded chunk size. -/
theorem stride_eq_align (H : s.Sound S free arrays) :
    S = align2Boundary s.obj.chunkSz sizeofPtr := by
  have hlt : roundUp8 s.obj.chunkSz.toNat < 2 ^ 64 := H.stride ▸ S.isLt
  exact BitVec.eq_of_toNat_eq (H.stride.trans (toNat_align_of_lt hlt).symm)

theorem outcome_eq (H : s.Sound S free arrays) {op : Op} (hx : SoundExpand s op) :
    s.outcome op = (s.shelf free).outcome op := by
  cases op with
  | alloc =>
      cases free with
      | nil => exact congrArg Outcome.chunk H.rep.val_alloc_nil
      | cons c free => exact congrArg Outcome.chunk H.rep.val_alloc_cons
  | free ptr => rfl
  | expand extraSz =>
      have hrun := s.obj.run_expand extraSz s.heap
      rw [if_pos ⟨H.rep.pool_ne_null, hx.1, hx.2.1⟩] at hrun
      exact congrArg (fun r => Outcome.expanded r.1.1) hrun
  | stats =>
      have hcount := H.rep.poolAvailable_spec.1
      have havail : (poolAvailable s.obj.pool).val s.heap = BitVec.ofNat 64 free.length := by
        rw [← hcount, BitVec.ofNat_toNat, BitVec.setWidth_eq]
      simp only [outcome, Shelf.outcome, shelf, Mempool.val_stats, havail]
  | write c i b => rfl

theorem shelf_next (H : s.Sound S free arrays) {op : Op} (hg : s.guard op)
    (hx : SoundExpand s op) : ∃ free' arrays', (s.next op).Sound S free' arrays' ∧
      (s.next op).shelf free' = (s.shelf free).next (op, s.array op) := by
  cases op with
  | alloc =>
      cases free with
      | nil =>
          rw [H.next_alloc_nil]
          exact ⟨[], arrays, H, rfl⟩
      | cons c free =>
          refine ⟨free, arrays, H.alloc, ?_⟩
          rw [H.next_alloc_cons]
          rfl
  | free ptr =>
      by_cases hnull : ptr = NULL
      · subst hnull
        have hheld : NULL ∉ s.held := fun h =>
          H.rep.layout.chunk_ne_null (H.rep.held_mem h) rfl
        have hnext : s.next (.free NULL) = s := by
          simp only [next, Mempool.free, Rep.poolFree_null, List.erase_of_not_mem hheld]
        rw [hnext]
        refine ⟨free, arrays, H, ?_⟩
        rw [Shelf.next, if_pos rfl]
      · refine ⟨ptr :: free, arrays, H.free_held (hg.resolve_left hnull), ?_⟩
        rw [Shelf.next, if_neg hnull]
        rfl
  | expand extraSz =>
      rw [H.next_expand hx]
      obtain ⟨hsz, hgrant, hfit⟩ := hx
      refine ⟨_, _, ⟨H.stride, (H.rep.rep_poolExpand hsz hgrant (H.stride ▸ hfit)).1⟩, ?_⟩
      rw [H.stride_eq_align]
      rfl
  | stats =>
      rw [H.next_stats]
      exact ⟨free, arrays, H, rfl⟩
  | write c i b => exact ⟨free, arrays, H.write hg, rfl⟩

/-! ## Runs -/

theorem outcomes_eq (H : s.Sound S free arrays) {ops : List Op}
    (hops : (mempool.restrict SoundExpand).Admits s ops) :
    s.outcomes ops = (s.shelf free).outcomes (s.supplied ops) := by
  induction ops generalizing s free arrays with
  | nil => rfl
  | cons op ops ih =>
      obtain ⟨⟨hg, hx⟩, hrest⟩ := hops
      obtain ⟨free', arrays', H', hnext⟩ := H.shelf_next hg hx
      simp only [outcomes, supplied, Shelf.outcomes]
      rw [H.outcome_eq hx, ih H' hrest, hnext]

end PoolState.Sound

section Runs
variable {poolSz chunkSz : Word} {mem : Mem} {answers : ℕ → Word} {s : PoolState} {ops : List Op}

/-- Whatever is called, in whatever order: the pool answers as the stack does. -/
theorem mempool_lifo (hnew : PoolState.new poolSz chunkSz (.initial mem answers) = .ok s)
    (G : GoodSizes poolSz chunkSz) (hops : (mempool.restrict SoundExpand).Admits s ops) :
    s.outcomes ops =
      (Shelf.new poolSz chunkSz (newArr poolSz chunkSz (.initial mem answers)).arr).outcomes
        (s.supplied ops) := by
  obtain ⟨hsz, hgrant, rfl⟩ := PoolState.of_new hnew
  exact PoolState.Sound.outcomes_eq ⟨G.toNat_stride hsz, G.rep_new hsz hgrant⟩ hops

theorem mempool_lifo_run :
    let s₀ : PoolState := ⟨⟨5, 2, 0, 4096⟩, (poolNew 2 5).state (.initial (fun _ => 0) spaced), []⟩
    let ops := [.alloc, .alloc, .alloc, .free 4608, .expand 2, .stats, .alloc, .free 4616, .alloc]
    s₀.outcomes ops = [.chunk (.ok 4608), .chunk (.ok 4616),
      .chunk (.error "Mempool couldn't allocate chunk"), .done, .expanded (.ok true),
      .stats ⟨5, 2, 2, 3⟩, .chunk (.ok 5120), .done, .chunk (.ok 4616)] := by
  intro s₀ ops
  have hnew : PoolState.new 2 5 (.initial (fun _ => 0) spaced) = .ok s₀ :=
    PoolState.new_of_granted (by decide) (by decide +kernel)
  exact (mempool_lifo hnew (by decide) (by decide +kernel)).trans (by decide +kernel)

end Runs

end Unid.Common
