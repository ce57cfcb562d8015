import Mathlib.Data.List.Forall2
import WordStack.Proofs.Relocation

/-
  Words but for their serial numbers. Nothing that a word does depends on its number, nor on the
  numbers of the words in it: machines that made the same words in another order differ in the
  numbers only. `Dictionary.unnumbered` keeps everything else that a dictionary holds.
-/
namespace WordStack

mutual

/-- The value with the serial numbers of the words in it taken away. -/
def Value.unnumbered : Value → Value
  | .number x => .number x
  | .text s => .text s
  | .cell i => .cell i
  | .word w => .word w.unnumbered
termination_by structural v => v

def Definition.unnumbered : Definition → Definition
  | .builtIn b => .builtIn b
  | .host body => .host body
  | .variable cell => .variable cell
  | .constant v => .constant v.unnumbered
  | .compiled body => .compiled (Value.unnumberedAll body)
termination_by structural d => d

def Word.unnumbered : Word → Word
  | ⟨_, name, isImmediate, location, description, signature, definition⟩ =>
    ⟨0, name, isImmediate, location, description, signature, definition.unnumbered⟩
termination_by structural w => w

def Value.unnumberedAll : List Value → List Value
  | [] => []
  | v :: vs => v.unnumbered :: Value.unnumberedAll vs
termination_by structural vs => vs

end

def Dictionary.unnumbered (d : Dictionary) : Dictionary := d.map Word.unnumbered

/-! ## Words -/

theorem Value.unnumberedAll_eq_map (vs : List Value) :
    Value.unnumberedAll vs = vs.map Value.unnumbered := by
  induction vs with
  | nil => rfl
  | cons v vs ih => rw [Value.unnumberedAll, ih, List.map_cons]

theorem Definition.unnumbered_compiled (body : List Value) :
    (compiled body).unnumbered = .compiled (body.map Value.unnumbered) :=
  congrArg compiled (Value.unnumberedAll_eq_map body)

theorem Definition.unnumbered_eq_builtIn {d : Definition} {b : BuiltIn} :
    d.unnumbered = .builtIn b ↔ d = .builtIn b := by
  cases d with
  | builtIn => exact Iff.rfl
  | host | «variable» | constant | compiled => exact ⟨nofun, nofun⟩

theorem Word.unnumbered_name (w : Word) : w.unnumbered.name = w.name := by cases w; rfl

theorem Word.unnumbered_isImmediate (w : Word) : w.unnumbered.isImmediate = w.isImmediate := by
  cases w; rfl

theorem Word.unnumbered_definition (w : Word) :
    w.unnumbered.definition = w.definition.unnumbered := by cases w; rfl

section

variable {v w : Word} (h : v.unnumbered = w.unnumbered)

include h

theorem Word.isImmediate_of_unnumbered : v.isImmediate = w.isImmediate := by
  rw [← v.unnumbered_isImmediate, h, w.unnumbered_isImmediate]

theorem Word.name_of_unnumbered : v.name = w.name := by
  rw [← v.unnumbered_name, h, w.unnumbered_name]

theorem Word.builtIn_of_unnumbered {b : BuiltIn} (hv : v.definition = .builtIn b) :
    w.definition = .builtIn b := by
  rw [← Definition.unnumbered_eq_builtIn, ← w.unnumbered_definition, ← h, v.unnumbered_definition,
    hv]
  rfl

end

theorem Value.forall₂_unnumbered {vs ws : List Value} :
    List.Forall₂ (fun v w => v.unnumbered = w.unnumbered) vs ws ↔
      vs.map Value.unnumbered = ws.map Value.unnumbered :=
  forall₂_iff_map Value.unnumbered

/-! ## Dictionaries -/

namespace Dictionary

variable {d e : Dictionary}

theorem get?_of_unnumbered (h : d.unnumbered = e.unnumbered) (name : String) :
    Option.Rel (fun v w => v.unnumbered = w.unnumbered) (d.get? name) (e.get? name) :=
  get?_of_map h name

theorem unnumbered_insert (d : Dictionary) (w : Word) :
    (d.insert w).unnumbered = d.unnumbered.insert w.unnumbered :=
  insert_map w.unnumbered_name d

end Dictionary

/-- What adding a word does to a dictionary does not depend on the numbers of the words. -/
theorem Machine.withWord_unnumbered {m n : Machine} {d e : Definition}
    (h : m.dictionary.unnumbered = n.dictionary.unnumbered) (hde : d.unnumbered = e.unnumbered)
    (heading : Heading) :
    (m.withWord heading d).2.dictionary.unnumbered =
      (n.withWord heading e).2.dictionary.unnumbered := by
  unfold withWord
  dsimp only
  rw [Dictionary.unnumbered_insert, Dictionary.unnumbered_insert, h]
  refine congrArg n.dictionary.unnumbered.insert ?_
  unfold Word.unnumbered
  rw [hde]

end WordStack
