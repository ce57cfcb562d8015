import WordStack.Proofs.Alterations
import WordStack.Proofs.Termination

/-
  Who can touch the compiler. Texts make no immediate word, so the immediate words of the
  dictionary are among those it had to begin with, and no reference leads to one of them: a
  reference comes from the compile buffer, where only words that are not immediate are collected.
  So whatever a word that is not immediate leads to is ordinary, and executing it works on the
  data stack, in the cells and on the output only.
-/
namespace WordStack

open Machine

/-- A reference to the word lies on a stack, in a cell or in a word that the machine holds. -/
inductive Machine.Refers (m : Machine) (w : Word) : Prop
  | data (h : .word w ∈ m.data)
  | buffer (h : .word w ∈ m.buffer)
  | cell {i : Nat} (h : m.cells.get? i = some (.word w))
  | held {u : Word} (hu : m.Holds u) (h : u.Uses w)

namespace Machine

variable {made : List Word} {m : Machine} {w : Word}

/-- What a held word uses can lie anywhere. -/
theorem Sound.values_within_of_holds (h : m.Sound made) (hw : m.Holds w) :
    ∀ x ∈ w.definition.values, x.Within (Word.Portable made) := by
  induction hw with
  | entry he => exact (h.dictionary _ he).2
  | data hv =>
    have hwithin := Value.within_word.mp (h.data _ hv)
    exact (Word.within_iff_values.mp hwithin).2
  | buffer hv =>
    have hwithin := Value.within_word.mp (h.buffer _ hv)
    exact (Word.within_iff_values.mp hwithin).2
  | cell hv =>
    have hwithin := Value.within_word.mp (h.cells _ _ hv)
    exact (Word.within_iff_values.mp hwithin).2
  | used _ hu ih =>
    have hwithin := Value.within_word.mp (ih _ hu)
    exact (Word.within_iff_values.mp hwithin).2

/-- A held word that is not immediate can lie anywhere. -/
theorem Sound.within_of_not_immediate (h : m.Sound made) (hw : m.Holds w)
    (himm : w.isImmediate = false) : w.Within (Word.Portable made) := by
  have hsound := (h.within_of_holds hw).self
  exact Word.within_iff_values.mpr ⟨⟨hsound, himm⟩, h.values_within_of_holds hw⟩

theorem Sound.not_immediate_of_refers (h : m.Sound made) (hw : m.Refers w) :
    w.isImmediate = false := by
  have hwithin : w.Within (Word.Portable made) := by
    cases hw with
    | data hv => exact Value.within_word.mp (h.data _ hv)
    | buffer hv => exact Value.within_word.mp (h.buffer _ hv)
    | cell hv => exact Value.within_word.mp (h.cells _ _ hv)
    | held hu hv => exact Value.within_word.mp (h.values_within_of_holds hu _ hv)
  exact hwithin.self.notImmediate

/-- The immediate words of the dictionary were there to begin with. -/
def ImmediatesOriginal (m : Machine) : Prop :=
  ∀ e ∈ m.dictionary.entries, e.2.isImmediate = true → e ∈ fresh.dictionary.entries

theorem ImmediatesOriginal.altered {n : Machine} (h : m.ImmediatesOriginal) (ha : Alters m n) :
    n.ImmediatesOriginal := by
  cases ha with
  | active vs =>
    unfold withActive
    cases m.mode with
    | interpreting => exact h
    | compiling => exact h
  | @defined heading himm d =>
    intro e he hei
    rcases Dictionary.mem_insertEntry he with rfl | he
    · have hheading : heading.isImmediate = true := hei
      rw [himm] at hheading
      cases hheading
    · exact h e he hei
  | read | allocated | stored | written | opened => exact h

theorem immediatesOriginal_of_scripted (h : Scripted m) : m.ImmediatesOriginal := by
  have hstep : ∀ {m n : Machine}, m.ImmediatesOriginal → Scripts m n → n.ImmediatesOriginal := by
    intro m n hm hs
    cases hs with
    | altered ha => exact hm.altered ha
    | closed | moved | noted | collected | called => exact hm
  exact Scripted.induction (P := ImmediatesOriginal) (fun _ he _ => he) hstep (fun _ hm => hm)
    (fun hm => hm) h

/-- The machines differ in the data stack, in what the cells hold, in the output and in the
reports at most. -/
structure SameButWork (m n : Machine) : Prop where
  frame : n = { m with
    data := n.data, cells := n.cells, output := n.output, events := n.events }
  size : n.cells.size = m.cells.size

theorem execute_same (h : m.Sound made) (hmode : m.mode = .interpreting)
    (hw : w.Within (Word.Portable made)) (depth : Nat) (l : Location) :
    Ends (SameButWork m) (execute (.nested depth) l w m) := by
  have hworks : Ends (Works (Word.Portable made) m) (execute (.nested depth) l w m) :=
    execute_works (fun v hv => hv.isOrdinary) hmode h.data h.cells hw l
  have hcalls := (execute_left depth l w m).calls
  generalize execute (.nested depth) l w m = x at hworks hcalls
  have hsame : ∀ {n}, n.calls = m.calls → Works (Word.Portable made) m n → SameButWork m n := by
    intro n hn hwork
    refine ⟨hwork.frame.trans ?_, hwork.size⟩
    rw [hn]
  cases hworks with
  | ok hwork => exact .ok (hsame hcalls hwork)
  | failed hwork => exact .failed (hsame hcalls hwork)

/-- Wherever texts lead, every reference is to a word that is not immediate, and every immediate
word of the dictionary is a built-in word that was there to begin with. While interpreting, a word
that is not immediate comes to an end, with success or an error, and changes the data stack, what
the cells hold, the output and the reports at most. -/
theorem compiler_untouched (h : Scripted m) :
    (∀ w, m.Refers w → w.isImmediate = false) ∧
    (∀ e ∈ m.dictionary.entries, e.2.isImmediate = true →
      e ∈ fresh.dictionary.entries ∧ ∃ b, e.2.definition = .builtIn b) ∧
    (m.mode = .interpreting → ∀ w, m.Holds w → w.isImmediate = false → ∀ depth l,
      Ends (SameButWork m) (execute (.nested depth) l w m)) := by
  obtain ⟨made, hsound⟩ := h.sound
  refine ⟨fun w hw => hsound.not_immediate_of_refers hw, fun e he himm => ⟨?_, ?_⟩, ?_⟩
  · exact immediatesOriginal_of_scripted h e he himm
  · obtain ⟨b, hb, -⟩ := (hsound.dictionary e he).1.builtIn_of_isImmediate himm
    exact ⟨b, hb⟩
  · intro hmode w hw himm depth l
    exact execute_same hsound hmode (hsound.within_of_not_immediate hw himm) depth l

/-- A word that takes the name of one that closes definitions is an ordinary word. -/
theorem compiler_untouched_redefined : ∃ m w,
    m = left (run (.nested 0) "s" ": SQ DUP * ; : END SQ ;" .fresh) ∧
    m.dictionary.get? "END" = some w ∧ (∀ v, w.Uses v → v.isImmediate = false) ∧
    ∀ l, Ends (SameButWork m) (execute (.nested 0) l w m) := by
  generalize hm : left (run (.nested 0) "s" ": SQ DUP * ; : END SQ ;" .fresh) = m
  have hscripted : Scripted m := hm ▸ .run .fresh 0 "s" ": SQ DUP * ; : END SQ ;"
  obtain ⟨hmode, hsome⟩ : m.mode = .interpreting ∧
      (m.dictionary.get? "END").any (fun w => !w.isImmediate) = true := by
    subst hm
    decide +kernel
  cases hw : m.dictionary.get? "END" with
  | none =>
    rw [hw] at hsome
    cases hsome
  | some w =>
    rw [hw] at hsome
    have himm : w.isImmediate = false := by simpa using hsome
    have hholds : m.Holds w := .entry (Dictionary.mem_of_get? hw)
    obtain ⟨hrefers, -, hexecute⟩ := compiler_untouched hscripted
    refine ⟨m, w, rfl, hw, fun v hv => hrefers v (.held hholds hv), fun l => ?_⟩
    exact hexecute hmode w hholds himm 0 l

end Machine
end WordStack
