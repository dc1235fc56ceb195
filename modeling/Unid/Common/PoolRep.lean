import Unid.Common.PoolLayout
import Unid.Lib.Chain

/-!
# What a pool in memory represents

`Rep m h free held arrays` ties a `Mempool` object and a heap to the lists a
reader has in mind: the free chunks in the order of the free list, the chunks in
callers' hands, and the chunk arrays in the order of `array_starts`.  The free
list is read from the chunks themselves, so `Rep` has to say that the words
stored in free chunks are links, and nothing about the words in held ones.

The specifications of `pool_alloc`, `pool_free` and `pool_available` follow, and
that of a write by the holder of a chunk.
-/

namespace Unid.Common
open Lib

/-- The link stored in a free chunk, or the `next` member of a node. -/
def link (mem : Mem) (p : Word) : Word := readWord mem p.toNat

/-- A heap on which a pool lies as `free`, `held` and `arrays` say, with chunks `S`
bytes apart. -/
structure Rep (m : Mempool) (h : Heap) (S : Word) (free held : List Word) (arrays : List Arr) :
    Prop where
  layout : Layout m.pool S arrays h.blocks
  /-- The stored chunk size. -/
  stride : readWord h.mem (m.pool.toNat + 16) = S
  /-- The free list. -/
  chain : Chain (link h.mem) NULL (readWord h.mem m.pool.toNat) free
  /-- The list of arrays. -/
  nodes : Chain (link h.mem) NULL (readWord h.mem (m.pool.toNat + 8))
    (arrays.map Arr.node)
  arrs : ∀ a ∈ arrays, readWord h.mem (a.node.toNat + 8) = a.arr
  /-- Free and held chunks are the chunks of the arrays, each once. -/
  parts : (free ++ held).Perm (chunksOf S arrays)
  /-- The object's own counts. -/
  counts : m.poolSz.toNat + m.extraSz.toNat = (arrays.map Arr.count).sum
  fits : m.chunkSz.toNat ≤ S.toNat
  clean : h.faults = []

namespace Rep
variable {m : Mempool} {h h' : Heap} {S : Word} {free held : List Word} {arrays : List Arr}

theorem free_mem (R : Rep m h S free held arrays) {c : Word} (hc : c ∈ free) :
    c ∈ chunksOf S arrays := R.parts.mem_iff.mp (List.mem_append_left _ hc)

theorem held_mem (R : Rep m h S free held arrays) {c : Word} (hc : c ∈ held) :
    c ∈ chunksOf S arrays := R.parts.mem_iff.mp (List.mem_append_right _ hc)

theorem nodup (R : Rep m h S free held arrays) : (free ++ held).Nodup :=
  R.parts.nodup_iff.mpr R.layout.nodup_chunksOf

theorem pool_ne_null (R : Rep m h S free held arrays) : m.pool ≠ NULL := by
  intro hnull
  exact (h.blocks.placed _ R.layout.pool_mem).ne_null (by simp [poolBlock, hnull, NULL])

/-- How many chunks the pool has, free or held. -/
theorem length_eq (R : Rep m h S free held arrays) :
    free.length + held.length = m.poolSz.toNat + m.extraSz.toNat := by
  rw [R.counts, ← length_chunksOf S, ← R.parts.length_eq, List.length_append]

theorem length_lt (R : Rep m h S free held arrays) : free.length + held.length < 2 ^ 64 := by
  rw [← List.length_append, R.parts.length_eq]
  exact R.layout.length_chunksOf_lt

/-- Memory may change in the chunks and in `pool->free_chunk`; what remains to be said
then is what the free list is and who holds what. -/
theorem update {free' held' : List Word} (R : Rep m h S free held arrays)
    (hblocks : h'.blocks = h.blocks) (hfaults : h'.faults = h.faults)
    (hmem : ∀ x, (m.pool.toNat ≤ x ∧ x < m.pool.toNat + 8) ∨
      (∃ c ∈ chunksOf S arrays, c.toNat ≤ x ∧ x < c.toNat + S.toNat) ∨ h'.mem x = h.mem x)
    (hchain : Chain (link h'.mem) NULL (readWord h'.mem m.pool.toNat) free')
    (hparts : (free' ++ held').Perm (free ++ held)) : Rep m h' S free' held' arrays := by
  have L := R.layout
  have hpool : ∀ x, m.pool.toNat + 8 ≤ x → x < m.pool.toNat + 24 → h'.mem x = h.mem x := by
    intro x hlo hhi
    rcases hmem x with hx | ⟨c, hc, hx⟩ | hx
    · omega
    · have := L.pool_chunk hc
      omega
    · exact hx
  have hnode : ∀ a ∈ arrays, ∀ x, a.node.toNat ≤ x → x < a.node.toNat + 16 →
      h'.mem x = h.mem x := by
    intro a ha x hlo hhi
    rcases hmem x with hx | ⟨c, hc, hx⟩ | hx
    · have := (L.pool_node ha).2
      simp only [poolBlock, Arr.nodeBlock] at this
      omega
    · have := L.node_chunk ha hc
      omega
    · exact hx
  refine ⟨hblocks ▸ L, ?_, hchain, ?_, ?_, hparts.trans R.parts, R.counts, R.fits,
    hfaults.trans R.clean⟩
  · rw [← R.stride]
    exact readWord_congr fun x hlo hhi => hpool x (by omega) (by omega)
  · have hstarts : readWord h'.mem (m.pool.toNat + 8) =
        readWord h.mem (m.pool.toNat + 8) :=
      readWord_congr fun x hlo hhi => hpool x (by omega) (by omega)
    rw [hstarts]
    refine R.nodes.congr ?_
    intro n hn
    obtain ⟨a, ha, rfl⟩ := List.mem_map.mp hn
    exact readWord_congr fun x hlo hhi => hnode a ha x hlo (by omega)
  · intro a ha
    rw [← R.arrs a ha]
    exact readWord_congr fun x hlo hhi => hnode a ha x (by omega) (by omega)

/-! ## Accesses -/

theorem load_pool (R : Rep m h S free held arrays) {off : ℕ} (hoff : off + 8 ≤ 24) :
    (C.load m.pool off).state h = h := C.state_load (R.layout.covers_pool hoff)

theorem store_pool (R : Rep m h S free held arrays) {off : ℕ} (hoff : off + 8 ≤ 24) (v : Word) :
    (C.store m.pool off v).state h = h.put (m.pool.toNat + off) v :=
  C.state_store v (R.layout.covers_pool hoff)

theorem load_chunk (R : Rep m h S free held arrays) {c : Word} (hc : c ∈ chunksOf S arrays) :
    (C.load c 0).state h = h := C.state_load (R.layout.covers_chunk hc)

theorem store_chunk (R : Rep m h S free held arrays) {c : Word} (hc : c ∈ chunksOf S arrays)
    (v : Word) : (C.store c 0 v).state h = h.put c.toNat v :=
  C.state_store v (R.layout.covers_chunk hc)

/-! ## `pool_alloc` -/

/-- With nothing free, `pool_alloc` returns `NULL` and leaves the heap alone. -/
theorem poolAlloc_nil (R : Rep m h S [] held arrays) :
    (poolAlloc m.pool).val h = NULL ∧ (poolAlloc m.pool).state h = h := by
  have hhead : readWord h.mem m.pool.toNat = NULL := R.chain
  simp [poolAlloc, R.pool_ne_null, R.load_pool, hhead]

/-- `pool_alloc` pops the head of the free list. -/
theorem poolAlloc_cons {c : Word} (R : Rep m h S (c :: free) held arrays) :
    (poolAlloc m.pool).val h = c ∧
      (poolAlloc m.pool).state h = h.put m.pool.toNat (link h.mem c) := by
  obtain ⟨hhead, hne, -⟩ := R.chain
  have hc := R.free_mem (List.mem_cons_self (a := c) (l := free))
  simp [poolAlloc, R.pool_ne_null, R.load_pool, hhead, hne, R.load_chunk hc, R.store_pool, link]

/-- Storing the link of the head into `free_chunk` takes the head off the free list. -/
theorem rep_pop {c : Word} (R : Rep m h S (c :: free) held arrays) :
    Rep m (h.put m.pool.toNat (link h.mem c)) S free (c :: held) arrays := by
  refine R.update rfl rfl ?_ ?_ List.perm_middle
  · intro x
    by_cases hx : m.pool.toNat ≤ x ∧ x < m.pool.toNat + 8
    · exact .inl hx
    · exact .inr (.inr (writeWord_of_disjoint _ _ (by omega)))
  · simp only [Heap.mem_put, readWord_writeWord_self]
    refine R.chain.2.2.congr ?_
    intro d hd
    have := R.layout.pool_chunk (R.free_mem (List.mem_cons_of_mem c hd))
    have hS := R.layout.link_le
    exact readWord_writeWord_of_disjoint _ _ (by omega)

/-- The chunk popped goes to the caller. -/
theorem rep_poolAlloc {c : Word} (R : Rep m h S (c :: free) held arrays) :
    Rep m ((poolAlloc m.pool).state h) S free (c :: held) arrays := by
  rw [R.poolAlloc_cons.2]
  exact R.rep_pop

/-! ## Writes into held chunks -/

section Write
variable {mem : Mem} {written : List Word}

/-- A write into held chunks leaves the head of the free list alone. -/
theorem head_write (R : Rep m h S free held arrays) (hsub : ∀ c ∈ written, c ∈ held)
    (hmem : ∀ x, (∃ c ∈ written, c.toNat ≤ x ∧ x < c.toNat + S.toNat) ∨ mem x = h.mem x) :
    readWord mem m.pool.toNat = readWord h.mem m.pool.toNat := by
  refine readWord_congr ?_
  intro x hlo hhi
  rcases hmem x with ⟨c, hc, hx⟩ | hx
  · have := R.layout.pool_chunk (R.held_mem (hsub c hc))
    omega
  · exact hx

/-- A write into held chunks leaves the links of the others alone. -/
theorem link_write (R : Rep m h S free held arrays) (hsub : ∀ c ∈ written, c ∈ held)
    (hmem : ∀ x, (∃ c ∈ written, c.toNat ≤ x ∧ x < c.toNat + S.toNat) ∨ mem x = h.mem x)
    {d : Word} (hd : d ∈ chunksOf S arrays) (hnot : d ∉ written) :
    link mem d = link h.mem d := by
  have hS := R.layout.link_le
  refine readWord_congr ?_
  intro x hlo hhi
  rcases hmem x with ⟨c, hc, hx⟩ | hx
  · have hne : d ≠ c := fun heq => hnot (heq ▸ hc)
    have := R.layout.chunk_chunk hd (R.held_mem (hsub c hc)) hne
    omega
  · exact hx

/-- Holders may write anywhere in their own chunks. -/
theorem rep_write (R : Rep m h S free held arrays)
    (hmem : ∀ x, (∃ c ∈ held, c.toNat ≤ x ∧ x < c.toNat + S.toNat) ∨ mem x = h.mem x) :
    Rep m { h with mem := mem } S free held arrays := by
  refine R.update rfl rfl ?_ ?_ (List.Perm.refl _)
  · intro x
    rcases hmem x with ⟨c, hc, hx⟩ | hx
    · exact .inr (.inl ⟨c, R.held_mem hc, hx⟩)
    · exact .inr (.inr hx)
  · change Chain (link mem) NULL (readWord mem m.pool.toNat) free
    rw [R.head_write (fun _ hc => hc) hmem]
    refine R.chain.congr ?_
    intro d hd
    refine R.link_write (fun _ hc => hc) hmem (R.free_mem hd) ?_
    intro hheld
    exact (List.nodup_append.mp R.nodup).2.2 d hd d hheld rfl

/-- The link of a chunk lies inside the chunk. -/
theorem put_within (R : Rep m h S free held arrays) (c v : Word) (x : ℕ) :
    (∃ d ∈ [c], d.toNat ≤ x ∧ x < d.toNat + S.toNat) ∨ (h.put c.toNat v).mem x = h.mem x := by
  have hS := R.layout.link_le
  by_cases hx : c.toNat ≤ x ∧ x < c.toNat + 8
  · exact .inl ⟨c, List.mem_cons_self, hx.1, by omega⟩
  · exact .inr (writeWord_of_disjoint _ _ (by omega))

/-- Storing a link into a held chunk is such a write. -/
theorem rep_put_held (R : Rep m h S free held arrays) {c : Word} (hc : c ∈ held) (v : Word) :
    Rep m (h.put c.toNat v) S free held arrays := by
  refine R.rep_write ?_
  intro x
  refine (R.put_within c v x).imp_left ?_
  rintro ⟨d, hd, hx⟩
  obtain rfl := List.mem_singleton.mp hd
  exact ⟨d, hc, hx⟩

end Write

/-! ## `pool_free` -/

theorem poolFree_null (m : Mempool) (h : Heap) : (poolFree m.pool NULL).state h = h := by
  simp [poolFree]

theorem poolFree_chunk (R : Rep m h S free held arrays) {c : Word} (hc : c ∈ held) :
    (poolFree m.pool c).state h =
      (h.put c.toNat (readWord h.mem m.pool.toNat)).put m.pool.toNat c := by
  have hmem := R.held_mem hc
  have hne := R.layout.chunk_ne_null hmem
  have hput : (C.store m.pool offFreeChunk c).state
      (h.put c.toNat (readWord h.mem m.pool.toNat)) =
      (h.put c.toNat (readWord h.mem m.pool.toNat)).put (m.pool.toNat + offFreeChunk) c :=
    C.state_store c (R.layout.covers_pool (by simp))
  simp only [poolFree, R.pool_ne_null, hne, or_self, if_false, Prog.state_bind, C.val_load]
  simpa [R.load_pool, R.store_chunk hmem] using hput

/-- Storing a held chunk whose link is the head into `free_chunk` puts it on the free list. -/
theorem rep_push (R : Rep m h S free held arrays) {c : Word} (hc : c ∈ held)
    (hlink : link h.mem c = readWord h.mem m.pool.toNat) :
    Rep m (h.put m.pool.toNat c) S (c :: free) (held.erase c) arrays := by
  have L := R.layout
  have hmem := R.held_mem hc
  have hS := L.link_le
  have hkeep : ∀ d ∈ chunksOf S arrays, link (writeWord h.mem m.pool.toNat c) d = link h.mem d := by
    intro d hd
    have := L.pool_chunk hd
    exact readWord_writeWord_of_disjoint _ _ (by omega)
  refine R.update rfl rfl ?_ ?_ ?_
  · intro x
    by_cases hx : m.pool.toNat ≤ x ∧ x < m.pool.toNat + 8
    · exact .inl hx
    · exact .inr (.inr (writeWord_of_disjoint _ _ (by omega)))
  · simp only [Heap.mem_put, readWord_writeWord_self]
    refine R.chain.push (L.chunk_ne_null hmem) ?_ (fun d hd => hkeep d (R.free_mem hd))
    rw [hkeep c hmem, hlink]
  · calc (c :: free ++ held.erase c).Perm (free ++ c :: held.erase c) := List.perm_middle.symm
      _ |>.Perm (free ++ held) := (List.perm_cons_erase hc).symm.append_left _

/-- A held chunk goes back to the front of the free list. -/
theorem rep_poolFree (R : Rep m h S free held arrays) {c : Word} (hc : c ∈ held) :
    Rep m ((poolFree m.pool c).state h) S (c :: free) (held.erase c) arrays := by
  rw [R.poolFree_chunk hc]
  refine (R.rep_put_held hc _).rep_push hc ?_
  have hpc := R.layout.pool_chunk (R.held_mem hc)
  have hS := R.layout.link_le
  simp only [Heap.mem_put, link, readWord_writeWord_self]
  exact (readWord_writeWord_of_disjoint _ _ (by omega)).symm

/-! ## `pool_available` -/

theorem countFree_spec (R : Rep m h S free held arrays) {head : Word} {l : List Word}
    (hl : Chain (link h.mem) NULL head l) (hsub : ∀ c ∈ l, c ∈ chunksOf S arrays)
    (fuel : ℕ) (hfuel : l.length < fuel) (available : Word) :
    (countFree fuel head available).val h = available + BitVec.ofNat 64 l.length ∧
      (countFree fuel head available).state h = h := by
  induction l generalizing head fuel available with
  | nil =>
      obtain ⟨fuel, rfl⟩ : ∃ f, fuel = f + 1 := ⟨fuel - 1, by simp at hfuel; omega⟩
      obtain rfl : head = NULL := hl
      simp [countFree]
  | cons c l ih =>
      obtain ⟨fuel, rfl⟩ : ∃ f, fuel = f + 1 := ⟨fuel - 1, by simp at hfuel; omega⟩
      obtain ⟨rfl, hne, htail⟩ := hl
      have hrec := ih htail (fun d hd => hsub d (List.mem_cons_of_mem _ hd))
        fuel (by simpa using hfuel) (available + 1)
      have hstate : (C.load head 0).state h = h := R.load_chunk (hsub head (by simp))
      have hcount : available + 1 + BitVec.ofNat 64 l.length =
          available + BitVec.ofNat 64 (head :: l).length := by
        rw [List.length_cons, BitVec.add_assoc, Nat.add_comm, BitVec.ofNat_add]
        rfl
      rw [hcount] at hrec
      simpa [countFree, hne, hstate, link] using hrec

/-- The walk ends, counts the free list and changes nothing. -/
theorem poolAvailable_spec (R : Rep m h S free held arrays) :
    ((poolAvailable m.pool).val h).toNat = free.length ∧ (poolAvailable m.pool).state h = h := by
  have hlen : free.length < 2 ^ 64 := by
    have := R.length_lt
    omega
  have hspec := R.countFree_spec R.chain (fun c hc => R.free_mem hc) walkFuel hlen 0
  have hval : (poolAvailable m.pool).val h = BitVec.ofNat 64 free.length := by
    simpa [poolAvailable, R.pool_ne_null, R.load_pool] using hspec.1
  have hstate : (poolAvailable m.pool).state h = h := by
    simpa [poolAvailable, R.pool_ne_null, R.load_pool] using hspec.2
  refine ⟨?_, hstate⟩
  rw [hval, BitVec.toNat_ofNat, Nat.mod_eq_of_lt hlen]

end Rep
end Unid.Common
