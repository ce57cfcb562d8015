import WordStack.Word

/-
  The cells of the variables. A cell is never given up, and its index never changes, so two
  variables never share one. `get?_allocate` and `get?_set?`: what is read from a cell is what
  was last put there.
-/
namespace WordStack

structure Cells where
  contents : Array Value

namespace Cells

def empty : Cells := ⟨#[]⟩

def size (c : Cells) : Nat := c.contents.size

/-- Adds a cell; its index is the number of cells before it. -/
def allocate (c : Cells) (initial : Value) : Nat × Cells := (c.size, ⟨c.contents.push initial⟩)

def get? (c : Cells) (index : Nat) : Option Value := c.contents[index]?

/-- Replaces what an existing cell holds. -/
def set? (c : Cells) (index : Nat) (v : Value) : Option Cells :=
  if index < c.size then some ⟨c.contents.setIfInBounds index v⟩ else none

theorem get?_allocate (c : Cells) (v : Value) :
    (c.allocate v).2.get? (c.allocate v).1 = some v := by
  simp [allocate, get?, size]

theorem get?_set? {c d : Cells} {i : Nat} {v : Value} (h : c.set? i v = some d) (j : Nat) :
    d.get? j = if i = j then some v else c.get? j := by
  unfold set? at h
  split at h
  · next hi =>
    obtain rfl := Option.some.inj h
    simp only [get?, size] at hi ⊢
    grind
  · cases h

end Cells
end WordStack
