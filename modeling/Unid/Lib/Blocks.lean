import Unid.Lib.ByteMem
import Mathlib.Data.List.Perm.Basic
import Mathlib.Data.List.Pairwise

/-!
# Tables of allocated blocks

A `BlockTable` records what an allocator has handed out and taken back.  Its
fields keep the facts every client relies on: live blocks are pointer-aligned,
lie in the 64-bit address space, never overlap, and every block ever handed out
is either live or was taken back, once.  A table that breaks one of these cannot
be built; `insert` asks for the proof that the new block is fresh.

## Main definitions

* `Block`, `Block.Apart`, `Block.Has` — address ranges.
* `BlockTable`, `BlockTable.insert`, `BlockTable.remove` — the live blocks.
* `BlockTable.Covers` — an access lies inside one live block.
-/

namespace Unid.Lib

/-- The addresses `base`, …, `base + size - 1`. -/
structure Block where
  base : ℕ
  size : ℕ
  deriving DecidableEq, Repr

namespace Block

/-- Two blocks start differently and do not overlap. -/
def Apart (b c : Block) : Prop :=
  b.base ≠ c.base ∧ (b.base + b.size ≤ c.base ∨ c.base + c.size ≤ b.base)

instance (b c : Block) : Decidable (b.Apart c) := inferInstanceAs (Decidable (_ ∧ _))

theorem Apart.symm {b c : Block} (h : b.Apart c) : c.Apart b := ⟨h.1.symm, h.2.symm⟩

instance : Std.Symm Apart := ⟨fun _ _ => Apart.symm⟩

/-- The block contains the `n` bytes at `a`. -/
def Has (b : Block) (a n : ℕ) : Prop := b.base ≤ a ∧ a + n ≤ b.base + b.size

instance (b : Block) (a n : ℕ) : Decidable (b.Has a n) := inferInstanceAs (Decidable (_ ∧ _))

/-- Bytes inside two blocks that are apart do not meet. -/
theorem Apart.disjoint {b c : Block} (h : b.Apart c) {a n a' n' : ℕ} (hb : b.Has a n)
    (hc : c.Has a' n') : a + n ≤ a' ∨ a' + n' ≤ a := by
  obtain ⟨hb₁, hb₂⟩ := hb
  obtain ⟨hc₁, hc₂⟩ := hc
  rcases h.2 with h | h <;> omega

/-- A non-null, pointer-aligned block inside the address space. -/
structure Placed (b : Block) : Prop where
  ne_null : b.base ≠ 0
  aligned : b.base % 8 = 0
  fits : b.base + b.size ≤ 2 ^ 64

instance (b : Block) : Decidable b.Placed :=
  decidable_of_iff (b.base ≠ 0 ∧ b.base % 8 = 0 ∧ b.base + b.size ≤ 2 ^ 64)
    ⟨fun h => ⟨h.1, h.2.1, h.2.2⟩, fun h => ⟨h.1, h.2, h.3⟩⟩

end Block

/-- The blocks an allocator has handed out, split into live and released ones. -/
structure BlockTable where
  live : List Block
  obtained : List Block
  released : List Block
  placed : ∀ b ∈ live, b.Placed
  apart : live.Pairwise Block.Apart
  ledger : (released ++ live).Perm obtained

namespace BlockTable

/-- Nothing has been handed out. -/
def empty : BlockTable := ⟨[], [], [], by simp, by simp, by simp⟩

/-- A block that could be handed out next. -/
def Fresh (t : BlockTable) (b : Block) : Prop := b.Placed ∧ ∀ c ∈ t.live, b.Apart c

instance (t : BlockTable) (b : Block) : Decidable (t.Fresh b) :=
  inferInstanceAs (Decidable (_ ∧ _))

/-- Hand out a fresh block. -/
def insert (t : BlockTable) (b : Block) (h : t.Fresh b) : BlockTable where
  live := b :: t.live
  obtained := b :: t.obtained
  released := t.released
  placed := by
    intro c hc
    rcases List.mem_cons.mp hc with rfl | hc
    · exact h.1
    · exact t.placed c hc
  apart := List.pairwise_cons.mpr ⟨h.2, t.apart⟩
  ledger := List.perm_middle.trans (t.ledger.cons b)

/-- Take a live block back. -/
def remove (t : BlockTable) (b : Block) (h : b ∈ t.live) : BlockTable where
  live := t.live.erase b
  obtained := t.obtained
  released := b :: t.released
  placed := fun c hc => t.placed c (List.mem_of_mem_erase hc)
  apart := t.apart.sublist List.erase_sublist
  ledger := by
    calc b :: t.released ++ t.live.erase b
        _ |>.Perm (t.released ++ b :: t.live.erase b) := List.perm_middle.symm
        _ |>.Perm (t.released ++ t.live) := (List.perm_cons_erase h).symm.append_left _
        _ |>.Perm t.obtained := t.ledger

/-- The live block that starts at `a`. -/
def at? (t : BlockTable) (a : ℕ) : Option Block := t.live.find? fun b => b.base = a

theorem nodup (t : BlockTable) : t.live.Nodup :=
  List.Pairwise.imp (fun hbc heq => hbc.1 (congrArg Block.base heq)) t.apart

/-- Live blocks start differently, so a live block is found at its base. -/
theorem at?_of_mem {t : BlockTable} {b : Block} (hb : b ∈ t.live) : t.at? b.base = some b := by
  cases hc : t.at? b.base with
  | none => simpa using List.find?_eq_none.mp hc b hb
  | some c =>
      have hbase : c.base = b.base := by simpa using List.find?_some hc
      by_cases hcb : c = b
      · rw [hcb]
      · have := t.apart.forall (List.mem_of_find?_eq_some hc) hb hcb
        exact absurd hbase this.1

/-- An access to `n` bytes at `a` stays inside one live block. -/
def Covers (t : BlockTable) (a n : ℕ) : Prop := ∃ b ∈ t.live, b.Has a n

instance (t : BlockTable) (a n : ℕ) : Decidable (t.Covers a n) :=
  inferInstanceAs (Decidable (∃ b ∈ t.live, b.Has a n))

end BlockTable
end Unid.Lib
