import Mathlib.Data.Finset.Basic

/-!
# Arenas

An arena is what a memory pool is for, without addresses or links: a set of free
places, a set of held ones, and what the holders see in theirs.  Taking hands out
any free place, giving returns a held one, growing adds new free places, and only
the holder of a place changes what is in it.

The two theorems at the end are about every path of steps: a place is held from
its taking to its giving, and what its holder reads there is what the holder put
there last.

## Main definitions

* `Arena`, `Arena.Act`, `Arena.Step`, `Arena.Path` — arenas and how they change.
* `Arena.lastPut` — the value last put at a place and offset.
-/

namespace Unid.Lib

/-- Free and held places, and the contents of the held ones. -/
structure Arena (α β : Type) where
  free : Finset α
  held : Finset α
  disjoint : Disjoint free held
  data : α → ℕ → β

namespace Arena
variable {α β : Type} [DecidableEq α]

/-- What the users of an arena do. -/
inductive Act (α β : Type)
  | take
  | give (c : α)
  | grow
  | look
  | put (c : α) (i : ℕ) (b : β)

/-- The holders in `A` that are still holders in `A'` see the same contents. -/
def Keeps (A A' : Arena α β) : Prop := ∀ d ∈ A.held, d ∈ A'.held → A'.data d = A.data d

/-- Nothing but the contents of free places has changed. -/
def Same (A A' : Arena α β) : Prop := A'.free = A.free ∧ A'.held = A.held ∧ A.Keeps A'

/-- What each act may do. A take is refused only when nothing is free; giving what is
not held changes nothing. -/
def Step (A A' : Arena α β) : Act α β → Prop
  | .take => (A.free = ∅ ∧ A.Same A') ∨
      ∃ c ∈ A.free, A'.free = A.free.erase c ∧ A'.held = insert c A.held ∧ A.Keeps A'
  | .give c => (c ∉ A.held ∧ A.Same A') ∨
      (c ∈ A.held ∧ A'.free = insert c A.free ∧ A'.held = A.held.erase c ∧ A.Keeps A')
  | .grow => A.free ⊆ A'.free ∧ A'.held = A.held ∧ A.Keeps A'
  | .look => A.Same A'
  | .put c i b => c ∈ A.held ∧ A'.free = A.free ∧ A'.held = A.held ∧ A'.data c i = b ∧
      ∀ d ∈ A.held, ∀ j, ¬ (d = c ∧ j = i) → A'.data d j = A.data d j

/-- A sequence of steps. -/
def Path : Arena α β → List (Act α β) → Arena α β → Prop
  | A, [], B => A = B
  | A, a :: acts, B => ∃ A', A.Step A' a ∧ A'.Path acts B

/-- The value last put at offset `i` of `c`, starting from `b`. -/
def lastPut (c : α) (i : ℕ) (b : β) (acts : List (Act α β)) : β :=
  acts.foldl (fun b a => match a with
    | .put c' i' b' => if c' = c ∧ i' = i then b' else b
    | _ => b) b

/-- A place stays held until it is given back. -/
theorem Step.held {A A' : Arena α β} {a : Act α β} {c : α} (h : A.Step A' a) (hc : c ∈ A.held)
    (ha : ∀ d, a = .give d → d ≠ c) : c ∈ A'.held := by
  cases a with
  | take =>
      rcases h with ⟨-, -, hheld, -⟩ | ⟨d, -, -, hheld, -⟩
      · rw [hheld]
        exact hc
      · rw [hheld]
        exact Finset.mem_insert_of_mem hc
  | give d =>
      rcases h with ⟨-, -, hheld, -⟩ | ⟨-, -, hheld, -⟩
      · rw [hheld]
        exact hc
      · rw [hheld]
        exact Finset.mem_erase.mpr ⟨(ha d rfl).symm, hc⟩
  | grow => exact h.2.1 ▸ hc
  | look => exact h.2.1 ▸ hc
  | put d i b => exact h.2.2.1 ▸ hc

/-- A step changes a held place only where its holder puts something. -/
theorem Step.data {A A' : Arena α β} {a : Act α β} {c : α} (h : A.Step A' a) (hc : c ∈ A.held)
    (ha : ∀ d, a = .give d → d ≠ c) (i : ℕ) : A'.data c i = lastPut c i (A.data c i) [a] := by
  have hc' := h.held hc ha
  cases a with
  | take =>
      rcases h with ⟨-, -, -, hkeep⟩ | ⟨d, -, -, -, hkeep⟩
      · exact congrFun (hkeep c hc hc') i
      · exact congrFun (hkeep c hc hc') i
  | give d =>
      rcases h with ⟨-, -, -, hkeep⟩ | ⟨-, -, -, hkeep⟩
      · exact congrFun (hkeep c hc hc') i
      · exact congrFun (hkeep c hc hc') i
  | grow => exact congrFun (h.2.2 c hc hc') i
  | look => exact congrFun (h.2.2 c hc hc') i
  | put d j b =>
      obtain ⟨-, -, -, hput, hrest⟩ := h
      by_cases hcd : d = c ∧ j = i
      · obtain ⟨rfl, rfl⟩ := hcd
        simp [lastPut, hput]
      · have hne : ¬ (c = d ∧ i = j) := fun h => hcd ⟨h.1.symm, h.2.symm⟩
        simp [lastPut, hcd, hrest c hc i hne]

/-- From its taking to its giving a place is held, and reads as it was last put. -/
theorem Path.held_data {A B : Arena α β} {acts : List (Act α β)} {c : α} (h : A.Path acts B)
    (hc : c ∈ A.held) (hgive : Act.give c ∉ acts) (i : ℕ) :
    c ∈ B.held ∧ B.data c i = lastPut c i (A.data c i) acts := by
  induction acts generalizing A with
  | nil =>
      obtain rfl : A = B := h
      exact ⟨hc, rfl⟩
  | cons a acts ih =>
      obtain ⟨A', hstep, hpath⟩ := h
      have ha : ∀ d, a = .give d → d ≠ c := by
        rintro d rfl rfl
        exact hgive List.mem_cons_self
      have hrest := ih hpath (hstep.held hc ha) fun hmem => hgive (List.mem_cons_of_mem a hmem)
      rw [hstep.data hc ha i] at hrest
      exact hrest

end Arena
end Unid.Lib
