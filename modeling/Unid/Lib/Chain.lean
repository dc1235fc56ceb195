import Mathlib.Data.List.Nodup
import Mathlib.Data.List.Perm.Basic

/-!
# Null-terminated chains through a link function

`Chain next null head l` says that following `next` from `head` visits exactly
the nodes of `l`, in order, and then meets `null`.  The link function stands for
whatever memory holds at a node.  A chain is determined by its head, and a
finite chain cannot visit a node twice; both follow from the links being a
function, and neither is an assumption on the memory.
-/

namespace Unid.Lib
variable {α : Type} {next next' : α → α} {null head : α} {l : List α}

/-- The nodes met by following `next` from `head` until `null`. -/
def Chain (next : α → α) (null : α) : α → List α → Prop
  | head, [] => head = null
  | head, c :: l => head = c ∧ c ≠ null ∧ Chain next null (next c) l

namespace Chain

@[simp] theorem nil_iff : Chain next null head [] ↔ head = null := Iff.rfl

@[simp] theorem cons_iff {c : α} : Chain next null head (c :: l) ↔
    head = c ∧ c ≠ null ∧ Chain next null (next c) l := Iff.rfl

theorem ne_null (h : Chain next null head l) : ∀ c ∈ l, c ≠ null := by
  induction l generalizing head with
  | nil => simp
  | cons c l ih =>
      intro d hd
      rcases List.mem_cons.mp hd with rfl | hd
      · exact h.2.1
      · exact ih h.2.2 d hd

/-- A chain survives any change of links outside its nodes. -/
theorem congr (h : Chain next null head l) (heq : ∀ c ∈ l, next' c = next c) :
    Chain next' null head l := by
  induction l generalizing head with
  | nil => exact h
  | cons c l ih =>
      refine ⟨h.1, h.2.1, ?_⟩
      rw [heq c (by simp)]
      exact ih h.2.2 fun d hd => heq d (by simp [hd])

/-- The head determines the chain. -/
theorem unique {l' : List α} (h : Chain next null head l) (h' : Chain next null head l') :
    l = l' := by
  induction l generalizing head l' with
  | nil =>
      cases l' with
      | nil => rfl
      | cons c l' => exact absurd (h'.1.symm.trans h) h'.2.1
  | cons c l ih =>
      cases l' with
      | nil => exact absurd (h.1.symm.trans h') h.2.1
      | cons d l' =>
          obtain rfl : c = d := h.1.symm.trans h'.1
          rw [ih h.2.2 h'.2.2]

/-- The rest of a chain, from any node on. -/
theorem suffix {k : List α} {c : α} (h : Chain next null head (k ++ c :: l)) :
    Chain next null c (c :: l) := by
  induction k generalizing head with
  | nil =>
      obtain ⟨rfl, hne, hl⟩ := h
      exact ⟨rfl, hne, hl⟩
  | cons d k ih => exact ih h.2.2

/-- A finite chain is acyclic: it meets no node twice. -/
theorem nodup (h : Chain next null head l) : l.Nodup := by
  induction l generalizing head with
  | nil => exact List.nodup_nil
  | cons c l ih =>
      refine List.nodup_cons.mpr ⟨?_, ih h.2.2⟩
      intro hc
      -- a second visit to `c` would continue exactly as the first one does
      obtain ⟨k, l', rfl⟩ := List.append_of_mem hc
      have heq := unique (suffix (k := []) h) (suffix (k := c :: k) h)
      have hlen := congrArg List.length heq
      simp at hlen
      omega

/-- A new node linked to the old head goes in front. -/
theorem push {c : α} (h : Chain next null head l) (hc : c ≠ null) (hlink : next' c = head)
    (heq : ∀ d ∈ l, next' d = next d) : Chain next' null c (c :: l) := by
  refine ⟨rfl, hc, ?_⟩
  rw [hlink]
  exact h.congr heq

/-- A run of nodes linked in order, whose last link is the old head, goes in front. -/
theorem prepend {f : ℕ → α} {n : ℕ} (h : Chain next null head l)
    (hne : ∀ i ≤ n, f i ≠ null) (hlink : ∀ i < n, next' (f i) = f (i + 1))
    (hlast : next' (f n) = head) (heq : ∀ d ∈ l, next' d = next d) :
    Chain next' null (f 0) ((List.range (n + 1)).map f ++ l) := by
  induction n generalizing f with
  | zero => simpa using push h (hne 0 (Nat.le_refl 0)) hlast heq
  | succ n ih =>
      have htail := ih (f := fun i => f (i + 1)) (fun i hi => hne (i + 1) (by omega))
        (fun i hi => hlink (i + 1) (by omega)) hlast
      rw [List.range_succ_eq_map, List.map_cons, List.map_map, List.cons_append]
      refine ⟨rfl, hne 0 (by omega), ?_⟩
      rw [hlink 0 (by omega)]
      exact htail

end Chain
end Unid.Lib
