import Unid.Common.PoolContract

/-!
# Where a `Mempool` breaks its promises

Three promises a reader takes from the interface do not hold of the class.

`expand` destroys the pool before it throws, and the object keeps the dangling
pointer.  The C function underneath keeps its own promise (see
`Rep.poolExpand_refused`), so it is the wrapper alone that harms the object:
`expand_unharmed_iff` says that no throwing call leaves the object as it was, and
`lifetime_tidy` that without a throwing `expand` a whole life of the object
releases every block once and touches none after its release.

The sizes are computed in wrapping arithmetic and never checked.
`sizes_sound_iff` says for which arguments the stored chunk size and the arrays
are what they should be.
-/

namespace Unid.Common
open Lib

/-! ## Calls that only load and store -/

theorem blocks_linkChunks {sz : C Word} (hsz : ∀ h, (sz.state h).blocks = h.blocks) (arr : Word)
    (n : ℕ) (i : Word) (h : Heap) : ((linkChunks sz arr n i).state h).blocks = h.blocks := by
  induction n generalizing i h with
  | zero => rfl
  | succ n ih => simp only [linkChunks, Prog.state_bind, ih, C.blocks_store, hsz]

theorem blocks_build (pool arr poolSz S : Word) (h : Heap) :
    ((build pool arr poolSz S).state h).blocks = h.blocks := by
  simp only [build, Prog.state_bind, Prog.monad_pure_eq, Prog.state_ret, C.blocks_store,
    C.blocks_load]
  exact blocks_linkChunks (fun _ => rfl) ..

/-- The chunk size is stored last, so nothing the loop wrote can spoil it. -/
theorem stride_build (pool arr poolSz S : Word) (h : Heap) :
    readWord ((build pool arr poolSz S).state h).mem (pool.toNat + offChunkSz) = S := by
  simp only [build, Prog.state_bind, Prog.monad_pure_eq, Prog.state_ret, C.mem_store,
    readWord_writeWord_self]

theorem blocks_attach (pool arrayStart extraArr extraSz : Word) (h : Heap) :
    ((attach pool arrayStart extraArr extraSz).state h).blocks = h.blocks := by
  simp only [attach, Prog.state_bind, Prog.monad_pure_eq, Prog.state_ret, C.blocks_store,
    C.blocks_load]
  exact blocks_linkChunks (C.blocks_load pool offChunkSz) ..

theorem blocks_poolAlloc (pool : Word) (h : Heap) :
    ((poolAlloc pool).state h).blocks = h.blocks := by
  unfold poolAlloc
  split
  · rfl
  · simp only [Prog.state_bind, Prog.state_ite]
    split <;> simp

theorem blocks_poolFree (pool ptr : Word) (h : Heap) :
    ((poolFree pool ptr).state h).blocks = h.blocks := by
  unfold poolFree
  split <;> simp

theorem blocks_countFree (fuel : ℕ) (head available : Word) (h : Heap) :
    ((countFree fuel head available).state h).blocks = h.blocks := by
  induction fuel generalizing head available h with
  | zero => rfl
  | succ fuel ih =>
      unfold countFree
      split
      · rfl
      · simp only [Prog.state_bind, ih, C.blocks_load]

theorem blocks_poolAvailable (pool : Word) (h : Heap) :
    ((poolAvailable pool).state h).blocks = h.blocks := by
  unfold poolAvailable
  split
  · rfl
  · simp only [Prog.state_bind, blocks_countFree, C.blocks_load]

/-! ## A throwing `expand` -/

namespace PoolState

/-- The outcomes of a run, each with the faults committed by then. -/
def trace (s : PoolState) : List Op → List (Outcome × List Fault)
  | [] => []
  | op :: ops => (s.outcome op, (s.next op).heap.faults) :: (s.next op).trace ops

def Throws (s : PoolState) (extraSz : Word) : Prop :=
  ∃ e, ((s.obj.expand extraSz).val s.heap).1 = .error e

/-- The second state is the first, and goes on like the first when `pool_ext_alloc` gives
both the same answers. -/
structure Unharmed (s s' : PoolState) : Prop where
  obj : s'.obj = s.obj
  mem : s'.heap.mem = s.heap.mem
  live : s'.heap.blocks.live.Perm s.heap.blocks.live
  held : s'.held = s.held
  faults : s'.heap.faults = s.heap.faults
  later : ∀ ops, s'.trace ops =
    trace { s with heap := s.heap.withAnswers s'.heap.answers } ops

/-- The `Pool` structure has not been released. -/
def Alive (s : PoolState) : Prop := poolBlock s.obj.pool ∈ s.heap.blocks.live

theorem Alive.ne_null {s : PoolState} (halive : s.Alive) : s.obj.pool ≠ NULL := by
  intro hnull
  exact (s.heap.blocks.placed _ halive).ne_null (by simp [poolBlock, hnull, NULL])

/-- `expand` throws exactly when its size is zero or one of its allocations fails. -/
theorem throws_iff {s : PoolState} (halive : s.Alive) (extraSz : Word) :
    s.Throws extraSz ↔ ¬ (extraSz ≠ 0 ∧ ExpandGranted s.obj.pool extraSz s.heap) := by
  have hval : ((s.obj.expand extraSz).val s.heap).1 = _ :=
    congrArg (fun r => r.1.1) (s.obj.run_expand extraSz s.heap)
  rw [Throws, hval]
  by_cases hgrant : extraSz ≠ 0 ∧ ExpandGranted s.obj.pool extraSz s.heap
  · rw [if_pos ⟨halive.ne_null, hgrant⟩]
    exact iff_of_false (by simp) (not_not_intro hgrant)
  · rw [if_neg fun h => hgrant h.2]
    exact iff_of_true ⟨_, rfl⟩ hgrant

/-- A throwing `expand` has released the `Pool` structure. -/
theorem not_alive_of_throws {s : PoolState} (halive : s.Alive) {extraSz : Word}
    (hthrow : s.Throws extraSz) :
    poolBlock s.obj.pool ∉ (s.next (.expand extraSz)).heap.blocks.live := by
  have hnull := halive.ne_null
  have hno := (throws_iff halive extraSz).mp hthrow
  have hstate : (s.obj.expand extraSz).state s.heap = _ :=
    congrArg Prod.snd (s.obj.run_expand extraSz s.heap)
  rw [if_neg (fun h => hno h.2)] at hstate
  intro hmem
  simp only [next, hstate, poolDestroy, if_neg hnull, Prog.state_bind, state_poolExtFree] at hmem
  exact Heap.base_ne_of_extFree hnull hmem rfl

end PoolState

/-- Every `expand` succeeds; every other step is unrestricted. -/
def NoThrow (s : PoolState) : Op → Prop
  | .expand extraSz => extraSz ≠ 0 ∧ ExpandGranted s.obj.pool extraSz s.heap
  | _ => True

instance (s : PoolState) : (op : Op) → Decidable (NoThrow s op)
  | .alloc => .isTrue trivial
  | .free _ => .isTrue trivial
  | .expand _ => inferInstanceAs (Decidable (_ ∧ _))
  | .stats => .isTrue trivial
  | .write .. => .isTrue trivial

instance (s : PoolState) (op : Op) : Decidable ((mempool.restrict NoThrow).guard s op) :=
  inferInstanceAs (Decidable (s.guard op ∧ NoThrow s op))

namespace PoolState
variable {poolSz chunkSz : Word} {h : Heap} {s : PoolState}

/-- What `pool_new` has put on the heap, whatever the sizes. -/
theorem blocks_new (hnew : PoolState.new poolSz chunkSz h = .ok s) :
    let S := align2Boundary chunkSz sizeofPtr
    s.Alive ∧ s.stride = S ∧
      s.heap.blocks.obtained.head? =
        some ⟨(newArr poolSz chunkSz h).arr.toNat, (poolSz * S).toNat⟩ := by
  obtain ⟨hsz, hgrant, rfl⟩ := of_new hnew
  obtain ⟨h₃, hrun, hlive, hhead, -⟩ := run_poolNew_granted hsz hgrant
  have hstate : (poolNew poolSz chunkSz).state h = (build (newPool h)
      (newArr poolSz chunkSz h).arr poolSz (align2Boundary chunkSz sizeofPtr)).state h₃ :=
    congrArg Prod.snd hrun
  refine ⟨?_, ?_, ?_⟩
  · simp [Alive, hstate, blocks_build, hlive]
  · rw [stride, hstate, stride_build]
  · rw [hstate, blocks_build, hhead]

/-- What a successful `expand` has put on the heap, whatever the sizes. -/
theorem blocks_expand (halive : s.Alive) {extraSz : Word} (hsz : extraSz ≠ 0)
    (hgrant : ExpandGranted s.obj.pool extraSz s.heap) :
    (s.next (.expand extraSz)).Alive ∧
      ∃ base, (s.next (.expand extraSz)).heap.blocks.obtained.head? =
        some ⟨base, (extraSz * s.stride).toNat⟩ := by
  have hrun := s.obj.run_expand extraSz s.heap
  rw [if_pos ⟨halive.ne_null, hsz, hgrant⟩] at hrun
  have hval : ((s.obj.expand extraSz).val s.heap).2 = _ := congrArg (fun r => r.1.2) hrun
  have hstate : (s.obj.expand extraSz).state s.heap = _ := congrArg Prod.snd hrun
  have hexpand := state_poolExpand halive hsz
  simp only [if_neg hgrant.1, if_neg hgrant.2] at hexpand
  simp only [Alive, next, hval, hstate, hexpand, blocks_attach]
  refine ⟨Heap.mem_live_extAlloc (Heap.mem_live_extAlloc halive _) _,
    (grantedArr s.obj.pool extraSz s.heap).arr.toNat, ?_⟩
  rw [Heap.obtained_extAlloc hgrant.2]
  rfl

theorem alive_next (halive : s.Alive) {op : Op} (hop : NoThrow s op) : (s.next op).Alive := by
  cases op with
  | alloc =>
      have hblocks : (s.obj.alloc.state s.heap).blocks = s.heap.blocks := by
        rw [Mempool.state_alloc, blocks_poolAlloc]
      simp only [next]
      split <;> simpa only [Alive, hblocks] using halive
  | free ptr => simpa only [Alive, next, Mempool.free, blocks_poolFree] using halive
  | expand extraSz => exact (blocks_expand halive hop.1 hop.2).1
  | stats => simpa only [Alive, next, Mempool.state_stats, blocks_poolAvailable] using halive
  | write c i b => exact halive

end PoolState

/-- A call of `expand` leaves the object unharmed, should it throw, exactly when it does not:
no throwing call keeps the promise, and what throws is a size of zero or a failed
allocation. -/
theorem expand_unharmed_iff {poolSz chunkSz : Word} {h : Heap} {s₀ : PoolState} {ops : List Op}
    (hnew : PoolState.new poolSz chunkSz h = .ok s₀)
    (hops : (mempool.restrict NoThrow).Admits s₀ ops) (extraSz : Word) :
    let s := mempool.exec s₀ ops
    (s.Throws extraSz → s.Unharmed (s.next (.expand extraSz))) ↔
      extraSz ≠ 0 ∧ ExpandGranted s.obj.pool extraSz s.heap := by
  intro s
  have halive : s.Alive := Machine.exec_induction (M := mempool.restrict NoThrow)
    (fun t op ht hg => PoolState.alive_next ht hg.2) (PoolState.blocks_new hnew).1 hops
  constructor
  · intro hsafe
    by_contra hno
    have hthrow := (PoolState.throws_iff halive extraSz).mpr hno
    exact PoolState.not_alive_of_throws halive hthrow
      ((hsafe hthrow).live.mem_iff.mpr halive)
  · intro hgrant hthrow
    exact absurd hgrant ((PoolState.throws_iff halive extraSz).mp hthrow)

/-- A `Mempool(1, 8)` on blocks 256 bytes apart. -/
def onePool : PoolState :=
  ⟨⟨8, 1, 0, 4096⟩, (poolNew 1 8).state (.initial (fun _ => 0) spaced), []⟩

theorem new_onePool : PoolState.new 1 8 (.initial (fun _ => 0) spaced) = .ok onePool :=
  PoolState.new_of_granted (by decide) (by decide +kernel)

theorem expand_unharmed_onePool :
    let s := mempool.exec onePool [.alloc]
    s.Throws 2 → s.Unharmed (s.next (.expand 2)) :=
  (expand_unharmed_iff new_onePool (by decide +kernel) 2).mpr (by decide +kernel)

/-- `expand(0)` throws, has released the pool, and the next `alloc` reads released memory. -/
theorem expand_zero_harms :
    PoolState.new 1 8 (.initial (fun _ => 0) spaced) = .ok onePool ∧ onePool.Throws 0 ∧
      ¬ onePool.Unharmed (onePool.next (.expand 0)) ∧
      ((onePool.next (.expand 0)).next .alloc).heap.faults.head? = some (.store 4096) := by
  refine ⟨new_onePool, ⟨_, rfl⟩, ?_, by decide +kernel⟩
  intro hsame
  have hlen : (onePool.next (.expand 0)).heap.blocks.live.length =
      onePool.heap.blocks.live.length := hsame.live.length_eq
  revert hlen
  decide +kernel

/-! ## Whole lives -/

/-- The heap after the constructor, the calls and, when the constructor has not thrown, the
destructor. -/
def lifetime (poolSz chunkSz : Word) (ops : List Op) (h : Heap) : Heap :=
  match PoolState.new poolSz chunkSz h with
  | .ok s => (mempool.exec s ops).obj.destroy.state (mempool.exec s ops).heap
  | .error _ => (Mempool.new poolSz chunkSz).state h

/-- Every block obtained has been released once, and no access or release went to a block
that was not live. -/
structure Heap.Tidy (h : Heap) : Prop where
  released : h.blocks.released.Perm h.blocks.obtained
  clean : h.faults = []

theorem Heap.tidy_of_live_nil {h : Heap} (hlive : h.blocks.live = []) (hclean : h.faults = []) :
    h.Tidy := by
  refine ⟨?_, hclean⟩
  simpa [hlive] using h.blocks.ledger

/-- A life in which no `expand` throws and no byte count overflows releases every block once
and touches none after its release. A constructor that throws has released what it had. -/
theorem lifetime_tidy {poolSz chunkSz : Word} {mem : Mem} {answers : ℕ → Word} {ops : List Op}
    (hrun : ∀ s, PoolState.new poolSz chunkSz (.initial mem answers) = .ok s →
      GoodSizes poolSz chunkSz ∧ (mempool.restrict SoundExpand).Admits s ops) :
    (lifetime poolSz chunkSz ops (.initial mem answers)).Tidy := by
  by_cases hgrant : poolSz ≠ 0 ∧ NewGranted poolSz chunkSz (.initial mem answers)
  · have hnew := PoolState.new_of_granted hgrant.1 hgrant.2
    obtain ⟨G, hops⟩ := hrun _ hnew
    obtain ⟨S, free₀, arrays₀, H₀⟩ := PoolState.sound_new hnew G
    obtain ⟨free, arrays, H, -⟩ := H₀.sim_exec hops
    obtain ⟨-, hlive, hclean⟩ := H.rep.poolDestroy_spec
    simp only [lifetime, hnew]
    exact Heap.tidy_of_live_nil hlive hclean
  · obtain ⟨-, hlive, hclean⟩ := poolNew_refused hgrant
    have hnew : PoolState.new poolSz chunkSz (.initial mem answers) =
        .error "Failed to initialize libpool" := by
      simp only [PoolState.new, Mempool.val_new, if_neg hgrant]
    simp only [lifetime, hnew, Mempool.state_new]
    exact Heap.tidy_of_live_nil hlive.eq_nil hclean

theorem lifetime_tidy_run :
    (lifetime 1 8 [.alloc, .expand 3, .alloc, .free 4608, .stats]
      (.initial (fun _ => 0) spaced)).Tidy :=
  lifetime_tidy fun s hs => by
    obtain rfl : onePool = s := Except.ok.inj (new_onePool.symm.trans hs)
    exact ⟨by decide, by decide +kernel⟩

/-- A throwing `expand` followed by the destructor releases the pool twice. -/
theorem lifetime_double_free :
    (lifetime 1 8 [.expand 0] (.initial (fun _ => 0) spaced)).faults.head? = some (.free 4096) ∧
      ¬ (lifetime 1 8 [.expand 0] (.initial (fun _ => 0) spaced)).Tidy := by
  have hfree : (lifetime 1 8 [.expand 0] (.initial (fun _ => 0) spaced)).faults.head? =
      some (.free 4096) := by decide +kernel
  refine ⟨hfree, ?_⟩
  intro htidy
  rw [htidy.clean] at hfree
  cases hfree

/-! ## Sizes -/

/-- The block obtained last has room for `n` chunks of `S` bytes, in exact arithmetic. -/
def NewestHolds (h : Heap) (n S : ℕ) : Prop :=
  ∃ b, h.blocks.obtained.head? = some b ∧ ∀ i < n, i * S + S ≤ b.size

/-- When the constructor does not throw, the stored chunk size is a multiple of the pointer
size and holds a chunk and a link, and the chunks lie in their array; when `expand` then does
not throw, so do the chunks it adds. No store of a link falls outside a block. -/
def SizesSound (poolSz chunkSz extraSz : Word) (h : Heap) : Prop :=
  ∀ s, PoolState.new poolSz chunkSz h = .ok s →
    (s.stride.toNat % 8 = 0 ∧ chunkSz.toNat ≤ s.stride.toNat ∧ 8 ≤ s.stride.toNat) ∧
    (NewestHolds s.heap poolSz.toNat s.stride.toNat ∧ s.heap.faults = []) ∧
    (¬ s.Throws extraSz →
      NewestHolds (s.next (.expand extraSz)).heap extraSz.toNat s.stride.toNat ∧
        (s.next (.expand extraSz)).heap.faults = [])

/-- A wrapping product that holds its chunks has not wrapped. -/
theorem newestHolds_iff {h : Heap} {base : ℕ} {n S : Word}
    (hhead : h.blocks.obtained.head? = some ⟨base, (n * S).toNat⟩) (hn : n ≠ 0) :
    NewestHolds h n.toNat S.toNat ↔ n.toNat * S.toNat < 2 ^ 64 := by
  obtain ⟨k, hk, -⟩ := pred_word hn
  have hprod : (n * S).toNat = n.toNat * S.toNat % 2 ^ 64 := BitVec.toNat_mul ..
  have hlast : k * S.toNat + S.toNat = n.toNat * S.toNat := by rw [hk, add_mul, one_mul]
  constructor
  · rintro ⟨b, hb, hholds⟩
    obtain rfl : b = ⟨base, (n * S).toNat⟩ := Option.some.inj (hb.symm.trans hhead)
    have hle := hholds k (by omega)
    simp only [hprod, hlast] at hle
    omega
  · intro hlt
    refine ⟨_, hhead, ?_⟩
    intro i hi
    have hle : (i + 1) * S.toNat ≤ n.toNat * S.toNat := Nat.mul_le_mul_right _ hi
    rw [add_mul, one_mul] at hle
    simp only [hprod, Nat.mod_eq_of_lt hlt]
    exact hle

/-- The rounded size holds a chunk and a link exactly when the chunk size is not zero and
the rounding does not wrap. -/
theorem align_sound_iff {chunkSz S : Word} (hS : S = align2Boundary chunkSz sizeofPtr) :
    (S.toNat % 8 = 0 ∧ chunkSz.toNat ≤ S.toNat ∧ 8 ≤ S.toNat) ↔
      0 < chunkSz.toNat ∧ roundUp8 chunkSz.toNat < 2 ^ 64 := by
  have hlt := chunkSz.isLt
  have hval := toNat_align2Boundary chunkSz
  rw [← hS] at hval
  unfold roundUp8
  omega

/-- The sizes are sound exactly when `chunk_sz` is not zero and no byte count, taken as an
integer, reaches `2^64`. -/
theorem sizes_sound_iff (poolSz chunkSz extraSz : Word) (mem : Mem) (answers : ℕ → Word) :
    SizesSound poolSz chunkSz extraSz (.initial mem answers) ↔
      ∀ s, PoolState.new poolSz chunkSz (.initial mem answers) = .ok s →
        0 < chunkSz.toNat ∧ poolSz.toNat * roundUp8 chunkSz.toNat < 2 ^ 64 ∧
        (extraSz ≠ 0 → ExpandGranted s.obj.pool extraSz s.heap →
          extraSz.toNat * roundUp8 chunkSz.toNat < 2 ^ 64) := by
  refine forall_congr' fun s => forall_congr' fun hnew => ?_
  obtain ⟨halive, hstride, hhead⟩ := PoolState.blocks_new hnew
  have hsz : poolSz ≠ 0 := (PoolState.of_new hnew).1
  rw [← hstride] at hhead
  constructor
  · rintro ⟨hS, ⟨hholds, -⟩, hexpand⟩
    obtain ⟨hpos, hround⟩ := (align_sound_iff hstride).mp hS
    have halign : s.stride.toNat = roundUp8 chunkSz.toNat := hstride ▸ toNat_align_of_lt hround
    refine ⟨hpos, ?_, ?_⟩
    · rw [← halign]
      exact (newestHolds_iff hhead hsz).mp hholds
    · intro hextra hgrant
      have hthrow : ¬ s.Throws extraSz := fun ht =>
        (PoolState.throws_iff halive extraSz).mp ht ⟨hextra, hgrant⟩
      obtain ⟨-, base, hhead'⟩ := PoolState.blocks_expand halive hextra hgrant
      rw [← halign]
      exact (newestHolds_iff hhead' hextra).mp (hexpand hthrow).1
  · rintro ⟨hpos, hfit, hextra⟩
    have G : GoodSizes poolSz chunkSz := ⟨hpos, hfit⟩
    have halign : s.stride.toNat = roundUp8 chunkSz.toNat := hstride ▸ G.toNat_stride hsz
    obtain ⟨S, free, arrays, H⟩ := PoolState.sound_new hnew G
    refine ⟨(align_sound_iff hstride).mpr ⟨hpos, ?_⟩, ⟨?_, H.rep.clean⟩, ?_⟩
    · rw [← halign]
      exact s.stride.isLt
    · exact (newestHolds_iff hhead hsz).mpr (by rw [halign]; exact hfit)
    · intro hthrow
      obtain ⟨hnz, hgrant⟩ := not_not.mp (mt (PoolState.throws_iff halive extraSz).mpr hthrow)
      have hfit' := hextra hnz hgrant
      have hsize : s.obj.chunkSz = chunkSz := by rw [(PoolState.of_new hnew).2.2]
      obtain ⟨-, base, hhead'⟩ := PoolState.blocks_expand halive hnz hgrant
      obtain ⟨free', arrays', H', -⟩ := H.sim_expand ⟨hnz, hgrant, hsize ▸ hfit'⟩
      exact ⟨(newestHolds_iff hhead' hnz).mpr (by rw [halign]; exact hfit'), H'.rep.clean⟩

/-- With `chunk_sz` zero the stored chunk size is zero, and the one link is stored outside
the empty array. -/
theorem sizes_unsound_zero : ¬ SizesSound 1 0 1 (.initial (fun _ => 0) spaced) := by
  intro hsound
  have hgrant : NewGranted 1 0 (.initial (fun _ => 0) spaced) := by decide +kernel
  have hlink := (hsound _ (PoolState.new_of_granted (by decide) hgrant)).1.2.2
  revert hlink
  decide +kernel

end Unid.Common
