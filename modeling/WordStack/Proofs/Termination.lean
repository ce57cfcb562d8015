import Mathlib.Logic.Relation
import WordStack.Proofs.Scripted

/-
  Every script comes to an end. The loop over the words of a text is bounded by the text, so what
  could go on for ever is a word that leads back to itself. There is none: a word that a machine
  holds, wherever it holds it, uses only words made before it.
-/
namespace WordStack

/-- The word can be reached from what the machine holds: the dictionary, the data stack, the
compile buffer, a cell, or another such word. -/
inductive Machine.Holds (m : Machine) : Word → Prop
  | entry {key : String} {w : Word} : (key, w) ∈ m.dictionary.entries → m.Holds w
  | data {w : Word} : .word w ∈ m.data → m.Holds w
  | buffer {w : Word} : .word w ∈ m.buffer → m.Holds w
  | cell {i : Nat} {w : Word} : m.cells.get? i = some (.word w) → m.Holds w
  | used {w v : Word} : m.Holds w → w.Uses v → m.Holds v

namespace Machine

variable {made : List Word} {m : Machine} {w v : Word}

theorem Sound.within_of_holds (h : m.Sound made) (hw : m.Holds w) : w.Within (Word.Sound made) := by
  have hportable : ∀ u : Word, u.Portable made → u.Sound made := fun u hu => hu.toSound
  induction hw with
  | entry he =>
    obtain ⟨hsound, hvalues⟩ := h.dictionary _ he
    exact Word.within_iff_values.mpr ⟨hsound, fun v hv => (hvalues v hv).mono hportable⟩
  | data hv => exact (Value.within_word.mp (h.data _ hv)).mono hportable
  | buffer hv => exact (Value.within_word.mp (h.buffer _ hv)).mono hportable
  | cell hv => exact (Value.within_word.mp (h.cells _ _ hv)).mono hportable
  | used _ hu ih => exact ih.of_uses hu

/-- Along a chain of uses the words get older. -/
theorem Sound.serial_lt (h : m.Sound made) (hw : m.Holds w) (hv : Relation.TransGen Word.Uses w v) :
    v.serial < w.serial := by
  induction hv with
  | single hu => exact (h.within_of_holds hw).self.earlier _ hu
  | @tail u v hwu hu ih =>
    have hsound := h.within_of_holds hw u hwu.to_reflTransGen
    exact (hsound.earlier _ hu).trans ih

/-- The serial number tells the words of a machine apart, those held and those in the making. -/
theorem Sound.eq_of_serial_eq (h : m.Sound made) (hw : m.Holds w) (hv : m.Holds v)
    (heq : w.serial = v.serial) : w = v := by
  have hw := (h.within_of_holds hw).self.recorded
  have hv := (h.within_of_holds hv).self.recorded
  rw [heq, hv] at hw
  exact (Option.some.inj hw).symm

/-- However texts were run before, running another comes to an end, with success or an error: any
bound that exceeds the length of the text makes it the same run, and none is used up. Every
chain of uses from a word that the machine holds leads to words made before it. -/
theorem scripts_terminate (h : Scripted m) :
    (∀ depth path text, ∃ n, (run (.nested depth) path text m = .ok () n ∨
        ∃ e, run (.nested depth) path text m = .error (.failed e) n) ∧
      ∀ k > text.toList.length,
        withReader (.ofText path text) (runWords (.nested depth) k) m =
          run (.nested depth) path text m) ∧
    (∀ w v, m.Holds w → Relation.TransGen Word.Uses w v → v.serial < w.serial) ∧
    ∀ w v, m.Holds w → m.Holds v → w.serial = v.serial → w = v := by
  obtain ⟨made, hsound⟩ := h.sound
  refine ⟨fun depth path text => ?_, fun w v hw hv => hsound.serial_lt hw hv,
    fun w v hw hv => hsound.eq_of_serial_eq hw hv⟩
  have hends := sound_run depth hsound path text
  have hbound : ∀ k > text.toList.length,
      withReader (.ofText path text) (runWords (.nested depth) k) m =
        run (.nested depth) path text m :=
    fun k hk => congrFun (run_eq_of_length_lt path text hk).symm m
  generalize run (.nested depth) path text m = x at hends hbound
  cases hends with
  | @ok _ n _ => exact ⟨n, .inl rfl, hbound⟩
  | @failed e n _ => exact ⟨n, .inr ⟨e, rfl⟩, hbound⟩

/-- A word that is redefined in terms of itself uses the word that had its name before. -/
theorem scripts_terminate_redefined :
    Scripted (left (run (.nested 0) "a" ": SQ DUP * ; : SQ SQ SQ ;" .fresh)) ∧
    (∃ n, run (.nested 0) "b" "3 SQ"
        (left (run (.nested 0) "a" ": SQ DUP * ; : SQ SQ SQ ;" .fresh)) = .ok () n ∨
      ∃ e, run (.nested 0) "b" "3 SQ"
        (left (run (.nested 0) "a" ": SQ DUP * ; : SQ SQ SQ ;" .fresh)) = .error (.failed e) n) ∧
    ∀ w v, (left (run (.nested 0) "a" ": SQ DUP * ; : SQ SQ SQ ;" .fresh)).Holds w →
      Relation.TransGen Word.Uses w v → v.serial < w.serial := by
  have hm : Scripted (left (run (.nested 0) "a" ": SQ DUP * ; : SQ SQ SQ ;" .fresh)) :=
    .run .fresh 0 "a" ": SQ DUP * ; : SQ SQ SQ ;"
  obtain ⟨hruns, hserial, -⟩ := scripts_terminate hm
  obtain ⟨n, hn, -⟩ := hruns 0 "b" "3 SQ"
  exact ⟨hm, ⟨n, hn⟩, hserial⟩

end Machine
end WordStack
