import WordStack.Proofs.Compiling
import WordStack.Proofs.ImmediateWords

/-
  A definition is bound when it is made. An executed word looks nothing up: it holds the words it
  uses. So what it does depends on the data stack, the cells and the output only, and whatever
  was defined or redefined in between makes no difference. The one word that looks at the
  dictionary is the one that lists it.
-/
namespace WordStack

open Machine

/-- Neither does the word list the dictionary, nor is it immediate or a host word. -/
structure Word.IsClosed (w : Word) : Prop extends w.IsOrdinary where
  notListing : w.definition ≠ .builtIn .printWords

/-- The machines have the same work before them, and have written the same from these outputs
on. -/
structure SameWork (a b : String) (m n : Machine) : Prop where
  mode : m.mode = .interpreting ∧ n.mode = .interpreting
  data : m.data = n.data
  cells : m.cells = n.cells
  sink : m.outputFails = n.outputFails
  output : ∃ s, m.output = a ++ s ∧ n.output = b ++ s

namespace SameWork

variable {a b : String} {m n : Machine}

theorem active (h : SameWork a b m n) : m.active = n.active := by
  rw [active_of_interpreting h.mode.1, active_of_interpreting h.mode.2, h.data]

theorem withActive (h : SameWork a b m n) (vs : List Value) :
    SameWork a b (m.withActive vs) (n.withActive vs) := by
  rw [withActive_of_interpreting h.mode.1, withActive_of_interpreting h.mode.2]
  exact ⟨h.mode, rfl, h.cells, h.sink, h.output⟩

theorem withContext (h : SameWork a b m n) (cs ds : List Call) (es fs : List Event) :
    SameWork a b { m with calls := cs, events := es } { n with calls := ds, events := fs } :=
  ⟨h.mode, h.data, h.cells, h.sink, h.output⟩

end SameWork

namespace Likeness

/-- Machines with the same work before them, in whatever surroundings. -/
def detached : Likeness (String × String) where
  machines i m n := SameWork i.1 i.2 m n
  values := Eq
  texts := Eq
  places _ _ := True
  words v w := v = w ∧ v.Within Word.IsClosed
  halts := SameCause
  excused := unexcused

theorem ordinary_detached : detached.Ordinary where
  fail _ c := .failed rfl
  shape h := h ▸ .refl _
  number _ := rfl
  cell _ := rfl
  active h := by
    rw [h.active]
    exact List.forall₂_eq_eq_eq (α := Value) ▸ rfl
  withActive {i m n vs ws} h hvs := by
    obtain rfl : vs = ws := List.forall₂_eq_eq_eq ▸ hvs
    exact h.withActive vs
  readCell h _ :=
    agree_readCell h h.cells.symm (fun _ => .error (.failed rfl) h) fun _ _ => rfl
  writeCell {i m n v w} h c hv := by
    obtain rfl : v = w := hv
    exact agree_writeCell h.cells.symm (fun _ => .error (.failed rfl) h)
      fun _ _ => ⟨h.mode, h.data, rfl, h.sink, h.output⟩
  write {i m n s t} h hs := by
    obtain rfl : s = t := hs
    obtain ⟨r, hm, hn⟩ := h.output
    refine agree_write h h.sink.symm (.failed rfl)
      ⟨h.mode, h.data, h.cells, h.sink, r ++ s, ?_, ?_⟩
    · show m.output ++ s = _
      rw [hm, String.append_assoc]
    · show n.output ++ s = _
      rw [hn, String.append_assoc]
  line h := congrArg (fun v : Value => v.render ++ "\n") h
  stackLine h := by
    show BuiltIn.stackLine _ = BuiltIn.stackLine _
    unfold BuiltIn.stackLine
    rw [h.active]

theorem executable_detached (host : Host) : detached.Executable host where
  toOrdinary := ordinary_detached
  word {v w} h := by
    obtain ⟨rfl, hv⟩ := h
    obtain ⟨⟨-, hordinary⟩, hlisting⟩ := hv.self
    exact ⟨rfl, ordinary_detached.definitions hordinary (fun hprint => absurd hprint hlisting)
      (fun _ _ => rfl) fun u hu => ⟨rfl, hv.of_uses hu⟩⟩
  here _ := trivial
  call {i m n l k} h _ name := by
    refine ⟨i, h.withContext _ _ _ _, fun m n h => ?_⟩
    exact h.withContext m.calls.tail n.calls.tail m.events n.events

end Likeness

namespace Machine

variable {S m n : Machine} {w : Word}

theorem execute_detached (hw : w.Within Word.IsClosed) {a b : String} (h : SameWork a b m n)
    (host : Host) (l k : Location) :
    SameOutcome (SameWork a b) (execute host l w m) (execute host k w n) := by
  have hagree := (Likeness.executable_detached host).execute (i := (a, b)) ⟨rfl, hw⟩ h
    (l := l) (k := k) trivial
  generalize execute host l w m = x at hagree
  generalize execute host k w n = y at hagree
  cases hagree with
  | ok _ left => exact .ok left
  | error halt left =>
    obtain ⟨hcause⟩ := halt
    exact .failed hcause left
  | excused excuse => exact excuse.elim

theorem Sound.closed_of_holds {made : List Word} (h : m.Sound made) (hw : m.Holds w)
    (himm : w.isImmediate = false)
    (hlisting : w.Within fun v => v.definition ≠ .builtIn .printWords) :
    w.Within Word.IsClosed := by
  intro v hv
  have hportable := h.within_of_not_immediate hw himm v hv
  exact ⟨hportable.isOrdinary, hlisting v hv⟩

/-- A word that a machine holds does the same on any two machines that have the same before them
on the data stack, in the cells and at the output, whatever has become of its own name and of the
names of the words it uses: both succeed, or both fail for the same cause, and they leave the same
data stack and cells and write the same. -/
theorem bound_early (h : Scripted S) (hw : S.Holds w) (himm : w.isImmediate = false)
    (hlisting : w.Within fun v => v.definition ≠ .builtIn .printWords)
    (hm : m.mode = .interpreting) (hn : n.mode = .interpreting) (hdata : m.data = n.data)
    (hcells : m.cells = n.cells) (hsink : m.outputFails = n.outputFails) (host host' : Host)
    (l k : Location) :
    SameOutcome (fun m' n' => m'.data = n'.data ∧ m'.cells = n'.cells ∧
        ∃ s, m'.output = m.output ++ s ∧ n'.output = n.output ++ s)
      (execute host l w m) (execute host' k w n) := by
  obtain ⟨made, hsound⟩ := h.sound
  have hclosed := hsound.closed_of_holds hw himm hlisting
  have hhostless : w.Within fun v => ∀ body, v.definition ≠ .host body := by
    intro v hv body hbody
    have hordinary := (hclosed v hv).definition
    rw [hbody] at hordinary
    exact hordinary
  have hsame : SameWork m.output n.output m n :=
    ⟨⟨hm, hn⟩, hdata, hcells, hsink, "", by rw [String.append_empty], by rw [String.append_empty]⟩
  have hexecute := execute_detached hclosed hsame host l k
  rw [execute_of_hostless host' host hhostless]
  generalize execute host l w m = x at hexecute
  generalize execute host k w n = y at hexecute
  cases hexecute with
  | ok left => exact .ok ⟨left.data, left.cells, left.output⟩
  | failed cause left => exact .failed cause ⟨left.data, left.cells, left.output⟩

/-- A definition without a body leaves the work before a machine as it is. -/
theorem same_after_definition {made : List Word} (h : m.Sound made) (hmode : m.mode = .interpreting)
    (hopen : m.dictionary.Stands ":" .startDefinition)
    (hclose : m.dictionary.Stands ";" .endDefinition) (name : String) (hname : IsWord name.toList)
    (path : String) :
    SameWork m.output m.output m (left (run (.nested 0) path (": " ++ name ++ " " ++ "" ++ " ;") m)) := by
  have hbody : Body m.dictionary name "".toList [] := .nil
  obtain ⟨l, k, es, hrun⟩ :=
    run_definition hmode (h.empty hmode) (h.pending_of_interpreting hmode) hopen hclose hname hbody
      0 path
  rw [hrun]
  exact ⟨⟨hmode, hmode⟩, rfl, rfl, rfl, "", by rw [String.append_empty], (String.append_empty).symm⟩

/-- A square stays a square, whether its own name or the name of a word in it is taken over. -/
theorem bound_early_redefined : ∃ S w m n,
    S = left (run (.nested 0) "s" ": SQ DUP * ;" (left (run (.nested 0) "d" "DEPTH" .fresh))) ∧
    S.dictionary.get? "SQ" = some w ∧ S.data.length = 1 ∧
    m = left (run (.nested 0) "t" ": DUP  ;" S) ∧ n = left (run (.nested 0) "u" ": SQ  ;" S) ∧
    ∀ l k, SameOutcome (fun m' n' => m'.data = n'.data ∧ m'.cells = n'.cells ∧
        ∃ s, m'.output = m.output ++ s ∧ n'.output = n.output ++ s)
      (execute (.nested 0) l w m) (execute (.nested 0) k w n) := by
  generalize hS : left (run (.nested 0) "s" ": SQ DUP * ;"
    (left (run (.nested 0) "d" "DEPTH" .fresh))) = S
  have hscripted : Scripted S :=
    hS ▸ .run (.run .fresh 0 "d" "DEPTH") 0 "s" ": SQ DUP * ;"
  obtain ⟨made, hsound⟩ := hscripted.sound
  obtain ⟨hmode, hopen, hclose, hdata, hfound⟩ : S.mode = .interpreting ∧
      S.dictionary.Stands ":" .startDefinition ∧ S.dictionary.Stands ";" .endDefinition ∧
      S.data.length = 1 ∧ (S.dictionary.get? "SQ").any (fun w => decide (w.isImmediate = false ∧
        w.Within fun v => v.definition ≠ .builtIn .printWords)) = true := by
    subst hS
    decide +kernel
  have hm := same_after_definition hsound hmode hopen hclose "DUP"
    (.of_all (by decide) (by decide)) "t"
  have hn := same_after_definition hsound hmode hopen hclose "SQ"
    (.of_all (by decide) (by decide)) "u"
  cases hw : S.dictionary.get? "SQ" with
  | none =>
    rw [hw] at hfound
    cases hfound
  | some w =>
    rw [hw] at hfound
    obtain ⟨himm, hlisting⟩ := of_decide_eq_true hfound
    exact ⟨S, w, _, _, rfl, hw, hdata, rfl, rfl, bound_early hscripted
      (.entry (Dictionary.mem_of_get? hw)) himm hlisting hm.mode.2 hn.mode.2
      (hm.data.symm.trans hn.data) (hm.cells.symm.trans hn.cells) (hm.sink.symm.trans hn.sink)
      (.nested 0) (.nested 0)⟩

end Machine
end WordStack
