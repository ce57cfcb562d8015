import WordStack.Proofs.Uniform

/-
  What surrounds a run. However host words nest runs, execute words, read on and swallow errors,
  a run that ends leaves the calls and all readers as it found them, and a word that ends leaves
  the calls as it found them and has read on in the innermost text at most.
  The readers of the suspended runs are never looked at: with other readers in their place a run
  does the same. Both are one relation between two machines (`Resumes`), which is `Uniform`.
-/
namespace WordStack

open Machine

/-- The calls in progress, the reader in use and the readers below it, on two machines that read
from the same one. -/
structure Context where
  calls : List Call
  first : Option Reader
  below : List Reader
  below' : List Reader

/-- The machines are in this context, but for what has been read; they differ in the readers
below the first at most. -/
structure Resumes (c : Context) (m n : Machine) : Prop where
  calls : m.calls = c.calls
  same : n = { m with readers := n.readers }
  readers : (c.first = none ∧ m.readers = [] ∧ n.readers = []) ∨
    ∃ r s, c.first = some r ∧ r.Advances s ∧ m.readers = s :: c.below ∧ n.readers = s :: c.below'

theorem uniform_resumes : Uniform Resumes where
  same h := h.same
  change {c m n m'} h hc := by
    refine ⟨hc.calls_eq.trans h.calls, rfl, ?_⟩
    rw [hc.readers_eq]
    exact h.readers
  first h := by
    rcases h.readers with ⟨-, hm, hn⟩ | ⟨r, s, -, -, hm, hn⟩
    · exact .inl ⟨hm, hn⟩
    · exact .inr ⟨s, _, _, hm, hn⟩
  read {c m n s t rs rs'} h hm hn hst := by
    rcases h.readers with ⟨-, hm', -⟩ | ⟨r, s', hr, hrs, hm', hn'⟩
    · rw [hm] at hm'; cases hm'
    · rw [hm] at hm'
      rw [hn] at hn'
      cases hm'
      cases hn'
      refine ⟨h.calls, by rw [h.same], .inr ⟨r, t, hr, hrs.trans hst, rfl, rfl⟩⟩
  call {c m n} h call := by
    refine ⟨{ c with calls := call :: c.calls }, ⟨?_, ?_, h.readers⟩,
      fun m n h => ⟨?_, ?_, h.readers⟩⟩
    · exact congrArg (call :: ·) h.calls
    · exact congrArg (enterCall call) h.same
    · exact congrArg List.tail h.calls
    · exact congrArg leaveCall h.same
  reader {c m n} h r := by
    refine ⟨⟨c.calls, some r, m.readers, n.readers⟩, ⟨h.calls, ?_, ?_⟩,
      fun m' n' h' => ⟨h'.calls, ?_, ?_⟩⟩
    · rw [h.same]; rfl
    · exact .inr ⟨r, r, rfl, .refl r, rfl, rfl⟩
    · rw [h'.same]; rfl
    · rcases h'.readers with ⟨hr, -⟩ | ⟨r', s, -, -, hm', hn'⟩
      · cases hr
      · have hm : (dropReader m').readers = m.readers := congrArg List.tail hm'
        have hn : (dropReader n').readers = n.readers := congrArg List.tail hn'
        rw [hm, hn]
        exact h.readers

namespace Machine

/-- The machine that an act leaves. -/
def left {α : Type} : EStateM.Result Halt Machine α → Machine
  | .ok _ m => m
  | .error _ m => m

def succeeds {α : Type} : EStateM.Result Halt Machine α → Bool
  | .ok _ _ => true
  | .error _ _ => false

theorem eq_ok_left {x : EStateM.Result Halt Machine Unit} (h : succeeds x = true) :
    x = .ok () (left x) := by
  cases x with
  | ok _ m => rfl
  | error halt m => cases h

/-- Why an act stopped, if it did. -/
def halted? {α : Type} : EStateM.Result Halt Machine α → Option Halt
  | .ok _ _ => none
  | .error halt _ => some halt

theorem eq_error_left {α : Type} {x : EStateM.Result Halt Machine α} {halt : Halt}
    (h : halted? x = some halt) : x = .error halt (left x) := by
  cases x with
  | ok _ m => cases h
  | error k m =>
    obtain rfl := Option.some.inj h
    rfl

/-- A result with other readers on the machine. -/
def withReaders {α : Type} (rs : List Reader) :
    EStateM.Result Halt Machine α → EStateM.Result Halt Machine α
  | .ok a m => .ok a { m with readers := rs }
  | .error halt m => .error halt { m with readers := rs }

/-- The context of a machine, and of the same machine with other readers below the first. -/
def contextWith (m : Machine) (below' : List Reader) : Context :=
  ⟨m.calls, m.readers.head?, m.readers.tail, below'⟩

theorem resumes_self (m : Machine) : Resumes (m.contextWith m.readers.tail) m m := by
  refine ⟨rfl, rfl, ?_⟩
  unfold contextWith
  cases m.readers with
  | nil => exact .inl ⟨rfl, rfl, rfl⟩
  | cons r rs => exact .inr ⟨r, r, rfl, .refl r, rfl, rfl⟩

theorem left_resumes {c : Context} {α : Type} {x y : EStateM.Result Halt Machine α}
    (h : (Likeness.equal Resumes Likeness.unexcused).Agree c Eq x y) :
    Resumes c (left x) (left y) := by
  cases h with
  | ok _ left => exact left
  | error _ left => exact left
  | excused excuse => exact excuse.elim

/-- The text of a run is read the same whatever readers stand below it. -/
theorem runWords_resumes (depth k : Nat) (r : Reader) (m : Machine) (rs : List Reader) :
    (Likeness.equal Resumes Likeness.unexcused).Agree ⟨m.calls, some r, m.readers, rs⟩ Eq
      (runWords (.nested depth) k (pushReader r m))
      (runWords (.nested depth) k (pushReader r { m with readers := rs })) :=
  uniform_resumes.runWords (uniform_resumes.nested depth) k
    ⟨rfl, rfl, .inr ⟨r, r, rfl, .refl r, rfl, rfl⟩⟩

theorem run_left (depth : Nat) (path text : String) (m : Machine) :
    (left (run (.nested depth) path text m)).calls = m.calls ∧
      (left (run (.nested depth) path text m)).readers = m.readers := by
  have h := left_resumes (runWords_resumes depth ((Reader.ofText path text).rest.length + 1)
    (.ofText path text) m m.readers)
  unfold run withReader between
  generalize runWords _ _ _ = x at h ⊢
  rcases h.readers with ⟨hr, -⟩ | ⟨-, s, -, -, hs, -⟩
  · cases hr
  · cases x <;> exact ⟨h.calls, congrArg List.tail hs⟩

theorem run_with_readers (depth : Nat) (path text : String) (m : Machine) (rs : List Reader) :
    run (.nested depth) path text { m with readers := rs } =
      withReaders rs (run (.nested depth) path text m) := by
  have h := runWords_resumes depth ((Reader.ofText path text).rest.length + 1)
    (.ofText path text) m rs
  have hleft := left_resumes h
  unfold run withReader between
  generalize runWords _ _ (pushReader _ m) = x at h hleft ⊢
  generalize runWords _ _ (pushReader _ { m with readers := rs }) = y at h hleft ⊢
  have hdrop : dropReader (left y) = { dropReader (left x) with readers := rs } := by
    rcases hleft.readers with ⟨hr, -⟩ | ⟨-, s, -, -, -, hs⟩
    · cases hr
    · have hbelow : (dropReader (left y)).readers = rs := congrArg List.tail hs
      rw [← hbelow, hleft.same]
      rfl
  cases h with
  | ok answer _ => subst answer; exact congrArg (EStateM.Result.ok _) hdrop
  | error halt _ => cases halt; exact congrArg (EStateM.Result.error _) hdrop
  | excused excuse => exact excuse.elim

theorem execute_left (depth : Nat) (l : Location) (w : Word) (m : Machine) :
    Resumes (m.contextWith m.readers.tail) (left (execute (.nested depth) l w m))
      (left (execute (.nested depth) l w m)) :=
  left_resumes ((uniform_resumes.running (uniform_resumes.nested depth)).execute rfl
    (resumes_self m) rfl)

/-- A run gives back the calls and the readers it found, a word the calls and all readers but the
first, which it may have advanced; and a run does not depend on the readers it finds. -/
theorem context_restored (depth : Nat) (m : Machine) :
    (∀ path text, (left (run (.nested depth) path text m)).calls = m.calls ∧
      (left (run (.nested depth) path text m)).readers = m.readers) ∧
    (∀ l w, (left (execute (.nested depth) l w m)).calls = m.calls ∧
      (left (execute (.nested depth) l w m)).readers.length = m.readers.length ∧
      (left (execute (.nested depth) l w m)).readers.tail = m.readers.tail ∧
      Option.Rel Reader.Advances m.readers.head?
        (left (execute (.nested depth) l w m)).readers.head?) ∧
    (∀ path text rs, run (.nested depth) path text { m with readers := rs } =
      withReaders rs (run (.nested depth) path text m)) := by
  refine ⟨fun path text => run_left depth path text m, fun l w => ?_,
    fun path text rs => run_with_readers depth path text m rs⟩
  have h := execute_left depth l w m
  refine ⟨h.calls, ?_⟩
  generalize left (execute (.nested depth) l w m) = n at h ⊢
  unfold contextWith at h
  cases hm : m.readers with
  | nil =>
    rw [hm] at h
    rcases h.readers with ⟨-, hn, -⟩ | ⟨r, s, hr, -⟩
    · rw [hn]; exact ⟨rfl, rfl, .none⟩
    · cases hr
  | cons r rs =>
    rw [hm] at h
    rcases h.readers with ⟨hr, -⟩ | ⟨r', s, hr, hadv, hn, -⟩
    · cases hr
    · obtain rfl : r = r' := Option.some.inj hr
      rw [hn]; exact ⟨rfl, rfl, .some hadv⟩

end Machine
end WordStack
