import Mathlib.Data.List.Induction
import WordStack.Source.Location

/-
  Places and offsets. The place that is reached by reading the first characters of a text is told
  by the newlines among them and by how many stand after the last one (`start_after`). It moves on
  with every character (`precedes_advance`), so in one text no two offsets have the same place
  (`ofOffset_precedes`, `ofOffset_injective`).
-/
namespace WordStack.Location

/-- The place of the character at this offset of a text: one more than the newlines before it, and
one more than the characters since the last of them. -/
def ofOffset (path : String) (cs : List Char) (i : Nat) : Location :=
  ⟨path, 1 + (cs.take i).count '\n', 1 + ((cs.take i).reverse.takeWhile (· ≠ '\n')).length⟩

/-- The first place stands on an earlier line, or further to the left on the same one. -/
def Precedes (l k : Location) : Prop := l.line < k.line ∨ l.line = k.line ∧ l.column < k.column

theorem advance_path (l : Location) (c : Char) : (l.advance c).path = l.path := by
  unfold advance
  split <;> rfl

theorem line_le_advance (l : Location) (c : Char) : l.line ≤ (l.advance c).line := by
  unfold advance
  split
  · exact Nat.le_succ _
  · exact Nat.le_refl _

/-- The place at the end of a text. -/
theorem start_after (path : String) (cs : List Char) :
    (start path).after cs =
      ⟨path, 1 + cs.count '\n', 1 + (cs.reverse.takeWhile (· ≠ '\n')).length⟩ := by
  induction cs using List.reverseRecOn with
  | nil => rfl
  | append_singleton cs c ih =>
    rw [after_append, ih, List.reverse_append, List.count_append]
    by_cases hc : c = '\n'
    · subst hc
      simp [after, advance]
      omega
    · simp [after, advance, hc]
      omega

theorem ofOffset_eq (path : String) (cs : List Char) (i : Nat) :
    ofOffset path cs i = (start path).after (cs.take i) := (start_after path _).symm

/-- The place after some characters of a text is that of the offset after them. -/
theorem ofOffset_length (path : String) (xs ys : List Char) :
    ofOffset path (xs ++ ys) xs.length = (start path).after xs := by
  rw [ofOffset_eq, List.take_left]

theorem Precedes.trans {l k j : Location} (h₁ : l.Precedes k) (h₂ : k.Precedes j) :
    l.Precedes j := by
  unfold Precedes at *
  omega

theorem Precedes.ne {l k : Location} (h : l.Precedes k) : l ≠ k := by
  rintro rfl
  unfold Precedes at h
  omega

theorem precedes_advance (l : Location) (c : Char) : l.Precedes (l.advance c) := by
  unfold advance
  split
  · exact .inl (Nat.lt_succ_self _)
  · exact .inr ⟨rfl, Nat.lt_succ_self _⟩

theorem precedes_after (l : Location) (c : Char) (cs : List Char) :
    l.Precedes (l.after (c :: cs)) := by
  induction cs generalizing l c with
  | nil => exact precedes_advance l c
  | cons d cs ih => exact (precedes_advance l c).trans (ih _ d)

/-- A character further on stands at a later place. -/
theorem ofOffset_precedes (path : String) {cs : List Char} {i j : Nat} (hij : i < j)
    (hj : j ≤ cs.length) : (ofOffset path cs i).Precedes (ofOffset path cs j) := by
  have hsplit : cs.take j = cs.take i ++ (cs.drop i).take (j - i) := by
    rw [← List.take_add, Nat.add_sub_cancel' (Nat.le_of_lt hij)]
  have hlength : ((cs.drop i).take (j - i)).length ≠ 0 := by
    rw [List.length_take, List.length_drop]
    omega
  obtain ⟨c, ds, hbetween⟩ :=
    List.exists_cons_of_ne_nil (fun h => hlength (congrArg List.length h))
  rw [ofOffset_eq, ofOffset_eq, hsplit, after_append, hbetween]
  exact precedes_after _ c ds

theorem ofOffset_injective (path : String) {cs : List Char} {i j : Nat} (hi : i ≤ cs.length)
    (hj : j ≤ cs.length) (h : ofOffset path cs i = ofOffset path cs j) : i = j := by
  rcases Nat.lt_trichotomy i j with hij | hij | hij
  · exact absurd h (ofOffset_precedes path hij hj).ne
  · exact hij
  · exact absurd h.symm (ofOffset_precedes path hij hi).ne

end WordStack.Location
