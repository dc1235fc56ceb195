import Unid.Lib.Bytes

/-!
# Serialization of a block of unids

`Unid_block` of `unidserial.cpp`.  `serialize` lays the members out by chained
copies, each starting where the last ended; `deserialize` reads them at the
`*_offset` constants.  Both assume a little-endian host and swap the bytes of
every member.  `unid_block_wire` says that the two agree with each other and with
network order.

## Main definitions

* `UnidBlock`, `UnidBlock.serialize`, `UnidBlock.deserialize`.
* `UnidBlock.fields` — the members in network order.
-/

namespace Unid.Spike
open Lib

structure UnidBlock where
  ip : BitVec 32
  port : BitVec 16
  seq : BitVec 32
  node : BitVec 32
  firstUnid : BitVec 64
  blockSize : BitVec 32
  deriving DecidableEq

namespace UnidBlock

/-! ## The code -/

@[simp] def ipOffset : ℕ := 0
@[simp] def portOffset : ℕ := 4
@[simp] def seqOffset : ℕ := portOffset + 2
@[simp] def nodeOffset : ℕ := seqOffset + 4
@[simp] def firstUnidOffset : ℕ := nodeOffset + 4
@[simp] def blockSizeOffset : ℕ := firstUnidOffset + 8
def bufSize : ℕ := blockSizeOffset + 4

/-- `serialize`; `result` is the uninitialised array, and nothing is returned when a copy runs
past its end. -/
def serialize (b : UnidBlock) (result : Vector Byte bufSize) : Option (Vector Byte bufSize) := do
  let ipNo := byteswap (n := 4) b.ip
  let portNo := byteswap (n := 2) b.port
  let seqNo := byteswap (n := 4) b.seq
  let nodeNo := byteswap (n := 4) b.node
  let firstUnidNo := byteswap (n := 8) b.firstUnid
  let blockSizeNo := byteswap (n := 4) b.blockSize
  let (result, it) ← copyTo result 0 (hostBytes ipNo).toList
  let (result, it) ← copyTo result it (hostBytes portNo).toList
  let (result, it) ← copyTo result it (hostBytes seqNo).toList
  let (result, it) ← copyTo result it (hostBytes nodeNo).toList
  let (result, it) ← copyTo result it (hostBytes firstUnidNo).toList
  let (result, _) ← copyTo result it (hostBytes blockSizeNo).toList
  pure result

/-- `deserialize`: the block afterwards, or the exception; nothing when a `memcpy` runs past the
end of the buffer. -/
def deserialize (b : UnidBlock) (buf : Vector Byte bufSize) :
    Option (Except String UnidBlock) :=
  if buf.size ≠ bufSize then
    some (.error "deserialize() buf_size incorrect for struct Unid_block")
  else do
    let b := { b with ip := ← memcpyFrom 4 buf ipOffset }
    let b := { b with port := ← memcpyFrom 2 buf portOffset }
    let b := { b with seq := ← memcpyFrom 4 buf seqOffset }
    let b := { b with node := ← memcpyFrom 4 buf nodeOffset }
    let b := { b with firstUnid := ← memcpyFrom 8 buf firstUnidOffset }
    let b := { b with blockSize := ← memcpyFrom 4 buf blockSizeOffset }
    let b := { b with ip := byteswap (n := 4) b.ip }
    let b := { b with port := byteswap (n := 2) b.port }
    let b := { b with seq := byteswap (n := 4) b.seq }
    let b := { b with node := byteswap (n := 4) b.node }
    let b := { b with firstUnid := byteswap (n := 8) b.firstUnid }
    let b := { b with blockSize := byteswap (n := 4) b.blockSize }
    pure (.ok b)

/-! ## What goes over the wire -/

/-- The members, each with its offset and its bytes in network order. -/
def fields (b : UnidBlock) : List (ℕ × List Byte) :=
  [(ipOffset, (networkBytes (n := 4) b.ip).toList),
    (portOffset, (networkBytes (n := 2) b.port).toList),
    (seqOffset, (networkBytes (n := 4) b.seq).toList),
    (nodeOffset, (networkBytes (n := 4) b.node).toList),
    (firstUnidOffset, (networkBytes (n := 8) b.firstUnid).toList),
    (blockSizeOffset, (networkBytes (n := 4) b.blockSize).toList)]

/-- The buffer is the members in network order, each at its offset, side by side. -/
structure Encodes (b : UnidBlock) (buf : Vector Byte bufSize) : Prop where
  bytes : buf.toList = (b.fields.map Prod.snd).flatten
  offsets : ∀ f ∈ b.fields, (buf.toList.drop f.1).take f.2.length = f.2
  adjacent : b.fields.IsChain fun f g => f.1 + f.2.length = g.1

theorem serialize_bytes (b : UnidBlock) (result : Vector Byte bufSize) :
    ∃ buf, b.serialize result = some buf ∧ buf.toList = (b.fields.map Prod.snd).flatten := by
  obtain ⟨r₁, h₁, F₁⟩ := (Filled.zero result).copyTo (networkBytes (n := 4) b.ip).toList
    (by simp; decide)
  obtain ⟨r₂, h₂, F₂⟩ := F₁.copyTo (networkBytes (n := 2) b.port).toList (by simp; decide)
  obtain ⟨r₃, h₃, F₃⟩ := F₂.copyTo (networkBytes (n := 4) b.seq).toList (by simp; decide)
  obtain ⟨r₄, h₄, F₄⟩ := F₃.copyTo (networkBytes (n := 4) b.node).toList (by simp; decide)
  obtain ⟨r₅, h₅, F₅⟩ := F₄.copyTo (networkBytes (n := 8) b.firstUnid).toList (by simp; decide)
  obtain ⟨r₆, h₆, F₆⟩ := F₅.copyTo (networkBytes (n := 4) b.blockSize).toList (by simp; decide)
  refine ⟨r₆, ?_, ?_⟩
  · simp only [serialize, hostBytes_byteswap_eq, h₁, h₂, h₃, h₄, h₅, h₆, Option.bind_eq_bind,
      Option.bind_some, Option.pure_def]
  · simp only [Vector.length_toList] at F₆
    rw [F₆.eq_toList]
    simp [fields]

/-- The offsets are those of the members laid side by side. -/
theorem adjacent_fields (b : UnidBlock) :
    b.fields.IsChain fun f g => f.1 + f.2.length = g.1 := by
  simp [fields]

theorem Encodes.of_bytes {b : UnidBlock} {buf : Vector Byte bufSize}
    (h : buf.toList = (b.fields.map Prod.snd).flatten) : b.Encodes buf := by
  have hfirst : ∀ f ∈ b.fields.head?, f.1 = ([] : List Byte).length := by
    rintro f ⟨⟩
    rfl
  refine ⟨h, ?_, b.adjacent_fields⟩
  intro f hf
  rw [h]
  exact slice_of_adjacent hfirst b.adjacent_fields hf

/-- Two buffers that encode one block are the same. -/
theorem Encodes.unique {b : UnidBlock} {buf buf' : Vector Byte bufSize} (E : b.Encodes buf)
    (E' : b.Encodes buf') : buf = buf' :=
  Vector.toList_inj.mp (E.bytes.trans E'.bytes.symm)

/-- Every buffer encodes a block. -/
theorem exists_encodes (buf : Vector Byte bufSize) : ∃ b : UnidBlock, b.Encodes buf := by
  have hlen : buf.toList.length = 4 + (2 + (4 + (4 + (8 + (4 + 0))))) := buf.length_toList
  obtain ⟨ip, r₁, h₁, hr₁⟩ := exists_networkBytes_append hlen
  obtain ⟨port, r₂, h₂, hr₂⟩ := exists_networkBytes_append hr₁
  obtain ⟨seq, r₃, h₃, hr₃⟩ := exists_networkBytes_append hr₂
  obtain ⟨node, r₄, h₄, hr₄⟩ := exists_networkBytes_append hr₃
  obtain ⟨firstUnid, r₅, h₅, hr₅⟩ := exists_networkBytes_append hr₄
  obtain ⟨blockSize, r₆, h₆, hr₆⟩ := exists_networkBytes_append hr₅
  refine ⟨⟨ip, port, seq, node, firstUnid, blockSize⟩, .of_bytes ?_⟩
  rw [h₁, h₂, h₃, h₄, h₅, h₆, List.eq_nil_of_length_eq_zero hr₆]
  rfl

theorem Encodes.deserialize {b : UnidBlock} {buf : Vector Byte bufSize} (E : b.Encodes buf)
    (prior : UnidBlock) : prior.deserialize buf = some (.ok b) := by
  have hslices := E.offsets
  simp only [fields, List.forall_mem_cons, Vector.length_toList] at hslices
  obtain ⟨h₁, h₂, h₃, h₄, h₅, h₆, -⟩ := hslices
  have hip := memcpyFrom_eq (by decide) h₁
  have hport := memcpyFrom_eq (by decide) h₂
  have hseq := memcpyFrom_eq (by decide) h₃
  have hnode := memcpyFrom_eq (by decide) h₄
  have hfirst := memcpyFrom_eq (by decide) h₅
  have hsize := memcpyFrom_eq (by decide) h₆
  rw [UnidBlock.deserialize, if_neg (by simp [Vector.size])]
  simp only [hip, hport, hseq, hnode, hfirst, hsize, ofHostBytes_networkBytes, byteswap_byteswap,
    Option.bind_eq_bind, Option.bind_some, Option.pure_def]

/-- `serialize` writes network order at the offsets, whatever the array held before, and
`deserialize` restores the block, whatever the block was before; and every buffer comes back
from the block `deserialize` makes of it. -/
theorem unid_block_wire :
    (∀ (b : UnidBlock) (result : Vector Byte bufSize), ∃ buf, b.serialize result = some buf ∧
      b.Encodes buf ∧ ∀ prior : UnidBlock, prior.deserialize buf = some (.ok b)) ∧
    ∀ (buf : Vector Byte bufSize) (prior : UnidBlock), ∃ b, prior.deserialize buf = some (.ok b) ∧
      ∀ result, b.serialize result = some buf := by
  constructor
  · intro b result
    obtain ⟨buf, hbuf, hbytes⟩ := serialize_bytes b result
    have E := Encodes.of_bytes hbytes
    exact ⟨buf, hbuf, E, E.deserialize⟩
  · intro buf prior
    obtain ⟨b, E⟩ := exists_encodes buf
    refine ⟨b, E.deserialize prior, ?_⟩
    intro result
    obtain ⟨buf', hbuf', hbytes⟩ := serialize_bytes b result
    rw [hbuf', E.unique (.of_bytes hbytes)]

-- The port and the sequence number of `main`'s block.
example : (networkBytes (n := 2) 44444).toList ++ (networkBytes (n := 4) 1234).toList =
    [0xad, 0x9c, 0x00, 0x00, 0x04, 0xd2] := by decide

end UnidBlock
end Unid.Spike
