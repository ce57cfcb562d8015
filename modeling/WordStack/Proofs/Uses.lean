import Mathlib.Logic.Relation
import WordStack.Word

/-
  Which words a word holds. A word uses the words in its body, or the one that its value is; they
  are parts of it, so every chain of uses ends (`Word.uses_induction`).
  `Word.Within p` says that `p` holds of a word and of every word it leads to.
-/
namespace WordStack

/-- The values that a definition holds. -/
def Definition.values : Definition → List Value
  | .constant v => [v]
  | .compiled body => body
  | .builtIn _ | .host _ | .variable _ => []

/-- The second word stands in the body of the first, or is its value. -/
def Word.Uses (w v : Word) : Prop := .word v ∈ w.definition.values

namespace Word

theorem uses_of_compiled {w v : Word} {body : List Value} (hbody : w.definition = .compiled body)
    (hv : .word v ∈ body) : w.Uses v := by
  unfold Uses
  rw [hbody]
  exact hv

theorem sizeOf_lt_of_uses {w v : Word} (h : w.Uses v) : sizeOf v < sizeOf w := by
  obtain ⟨serial, name, isImmediate, location, description, signature, definition⟩ := w
  have hmem : Value.word v ∈ definition.values := h
  cases definition with
  | builtIn | host | «variable» => cases hmem
  | constant x =>
    obtain rfl := List.mem_singleton.mp hmem
    simp +arith
  | compiled body =>
    have hlt := List.sizeOf_lt_of_mem (show Value.word v ∈ body from hmem)
    simp +arith at hlt ⊢
    omega

/-- What holds of a word as soon as it holds of the words it uses holds of every word. -/
theorem uses_induction {p : Word → Prop} (h : ∀ w, (∀ v, w.Uses v → p v) → p w) (w : Word) :
    p w :=
  h w fun v _ => uses_induction h v
termination_by sizeOf w
decreasing_by exact sizeOf_lt_of_uses ‹_›

/-- The second word can be reached from the first by uses. -/
abbrev LeadsTo : Word → Word → Prop := Relation.ReflTransGen Uses

/-- `p` holds of the word and of every word it leads to. -/
def Within (p : Word → Prop) (w : Word) : Prop := ∀ v, w.LeadsTo v → p v

variable {p q : Word → Prop} {w v : Word}

theorem Within.self (h : w.Within p) : p w := h w .refl

theorem Within.of_uses (h : w.Within p) (hu : w.Uses v) : v.Within p :=
  fun u hv => h u (.head hu hv)

theorem within_iff : w.Within p ↔ p w ∧ ∀ v, w.Uses v → v.Within p := by
  refine ⟨fun h => ⟨h.self, fun v hu => h.of_uses hu⟩, fun h u hu => ?_⟩
  rcases Relation.ReflTransGen.cases_head hu with rfl | ⟨v, hv, hvu⟩
  · exact h.1
  · exact h.2 v hv u hvu

theorem Within.mono (h : w.Within p) (hpq : ∀ v, p v → q v) : w.Within q :=
  fun v hv => hpq v (h v hv)

end Word

/-- `p` holds of every word that the value leads to. -/
def Value.Within (p : Word → Prop) (v : Value) : Prop := ∀ w, v = .word w → w.Within p

namespace Value

variable {p q : Word → Prop}

theorem within_number (x : Float) : (Value.number x).Within p := fun _ h => nomatch h

theorem within_text (s : String) : (Value.text s).Within p := fun _ h => nomatch h

theorem within_cell (i : Nat) : (Value.cell i).Within p := fun _ h => nomatch h

theorem within_word {w : Word} : (Value.word w).Within p ↔ w.Within p :=
  ⟨fun h => h w rfl, fun h v hv => by cases hv; exact h⟩

theorem Within.mono {v : Value} (h : v.Within p) (hpq : ∀ w, p w → q w) : v.Within q :=
  fun w hw => (h w hw).mono hpq

end Value

/-- What holds of a value as soon as it holds of the values in its word holds of every value. -/
theorem Value.induction {p : Value → Prop} (hother : ∀ v, (∀ w, v ≠ .word w) → p v)
    (hword : ∀ w, (∀ v ∈ w.definition.values, p v) → p (.word w)) (v : Value) : p v := by
  have hwords : ∀ w, p (.word w) := by
    intro w
    induction w using Word.uses_induction with
    | h w ih =>
      refine hword w fun v hv => ?_
      cases v with
      | word u => exact ih u hv
      | number | text | cell => exact hother _ nofun
  cases v with
  | word w => exact hwords w
  | number | text | cell => exact hother _ nofun

/-- The words in a list of values are used by the word that holds them. -/
theorem Word.within_iff_values {p : Word → Prop} {w : Word} :
    w.Within p ↔ p w ∧ ∀ x ∈ w.definition.values, x.Within p := by
  rw [within_iff]
  refine and_congr_right fun _ => ⟨fun h x hx v hv => h v (by subst hv; exact hx), fun h v hu => ?_⟩
  exact Value.within_word.mp (h _ hu)

/-! ## The words that a word leads to, in a list -/

mutual

def Value.words : Value → List Word
  | .word w => w.words
  | .number _ | .text _ | .cell _ => []
termination_by structural v => v

def Definition.words : Definition → List Word
  | .constant v => v.words
  | .compiled body => Value.wordsAll body
  | .builtIn _ | .host _ | .variable _ => []
termination_by structural d => d

/-- The word and every word it leads to. -/
def Word.words : Word → List Word
  | ⟨serial, name, isImmediate, location, description, signature, definition⟩ =>
    ⟨serial, name, isImmediate, location, description, signature, definition⟩ :: definition.words
termination_by structural w => w

def Value.wordsAll : List Value → List Word
  | [] => []
  | v :: vs => v.words ++ Value.wordsAll vs
termination_by structural vs => vs

end

theorem Value.wordsAll_eq_flatMap (vs : List Value) : Value.wordsAll vs = vs.flatMap Value.words := by
  induction vs with
  | nil => rfl
  | cons v vs ih => rw [Value.wordsAll, ih, List.flatMap_cons]

theorem Definition.words_eq_flatMap (d : Definition) : d.words = d.values.flatMap Value.words := by
  cases d with
  | builtIn | host | «variable» => rfl
  | constant v => exact (List.append_nil _).symm
  | compiled body => exact Value.wordsAll_eq_flatMap body

theorem Word.words_eq (w : Word) : w.words = w :: w.definition.words := by cases w; rfl

theorem Word.within_iff_words {p : Word → Prop} {w : Word} : w.Within p ↔ ∀ v ∈ w.words, p v := by
  induction w using Word.uses_induction with
  | h w ih =>
    rw [within_iff, words_eq, List.forall_mem_cons, Definition.words_eq_flatMap]
    refine and_congr_right fun _ => ⟨fun h v hv => ?_, fun h v hu => (ih v hu).mpr fun u hw => ?_⟩
    · obtain ⟨x, hx, hv⟩ := List.mem_flatMap.mp hv
      cases x with
      | word u => exact (ih u hx).mp (h u hx) v hv
      | number | text | cell => cases hv
    · exact h u (List.mem_flatMap.mpr ⟨.word v, hu, hw⟩)

instance (p : Word → Prop) [DecidablePred p] (w : Word) : Decidable (w.Within p) :=
  decidable_of_iff _ Word.within_iff_words.symm

end WordStack
