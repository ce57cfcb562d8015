import WordStack.Proofs.CutRuns
import WordStack.Proofs.Places
import WordStack.Proofs.RelocatedRuns

/-
  A script can be cut into several runs between any two words. The run of the whole text does
  what the run of its second part does after the run of its first part; the places in the second
  part are moved by the extent of the first part, and nothing else differs (`run_cut`).
  To tell these places from those that the machine knew before, the second part is run once more
  under a path that is new to the machine.
-/
namespace WordStack

open Machine

/-- Where a place in a text comes to lie when this text is put before it. -/
def Location.movedBy (a : String) (l : Location) : Location :=
  ⟨l.path, l.line + a.toList.count '\n',
    if l.line = 1 then l.column + (a.toList.reverse.takeWhile (· ≠ '\n')).length else l.column⟩

/-- Moves the places in the text with this path, and no other. -/
def Location.onPath (q : String) (g : Location → Location) (l : Location) : Location :=
  if l.path = q then g l else l

/-- No place that the machine has recorded is in a text with this path, nor is that which stands
for an unknown place. -/
def Machine.Avoids (m : Machine) (q : String) : Prop :=
  ∀ l ∈ Location.unspecified :: m.places, l.path ≠ q

/-! ## Places -/

namespace Location

variable {path q : String}

/-- The start of a text moves to the end of the text that is put before it. -/
theorem movedBy_start (path a : String) : (start path).movedBy a = (start path).after a.toList := by
  rw [start_after]
  rfl

theorem movedBy_advance (a : String) {l : Location} (hl : 1 ≤ l.line) (c : Char) :
    (l.advance c).movedBy a = (l.movedBy a).advance c := by
  unfold movedBy advance
  by_cases hc : c = '\n'
  · simp [hc]
    omega
  · simp [hc]
    split <;> omega

theorem onPath_self {g : Location → Location} {l : Location} (h : l.path = q) :
    l.onPath q g = g l := if_pos h

theorem onPath_of_ne {g : Location → Location} {l : Location} (h : l.path ≠ q) :
    l.onPath q g = l := if_neg h

/-- What moves the places in one text along with the reading moves them so within all texts. -/
theorem moves_onPath {g : Location → Location} (hq : unspecified.path ≠ q)
    (hg : ∀ l c, 1 ≤ l.line → g (l.advance c) = (g l).advance c) :
    Moves (onPath q g) (fun l => l.path = q → 1 ≤ l.line) where
  unspecified := onPath_of_ne hq
  advance {l} hl c := by
    refine ⟨fun h => (hl (l.advance_path c ▸ h)).trans (l.line_le_advance c), ?_⟩
    by_cases h : l.path = q
    · rw [onPath_self h, onPath_self ((l.advance_path c).trans h), hg l c (hl h)]
    · rw [onPath_of_ne h, onPath_of_ne ((l.advance_path c).symm ▸ h)]

end Location

/-- A path that is longer than each of these is new. -/
theorem exists_path_not_mem (paths : List String) : ∃ q, q ∉ paths := by
  have hbound : ∃ n, ∀ path ∈ paths, path.length < n := by
    induction paths with
    | nil => exact ⟨0, fun _ h => absurd h List.not_mem_nil⟩
    | cons path paths ih =>
      obtain ⟨n, hn⟩ := ih
      refine ⟨path.length + n + 1, fun other h => ?_⟩
      rcases List.mem_cons.mp h with rfl | h
      · omega
      · have hlt := hn other h
        omega
  obtain ⟨n, hn⟩ := hbound
  refine ⟨String.ofList (List.replicate n 'x'), fun h => ?_⟩
  have hlt := hn _ h
  simp at hlt

namespace Machine

theorem exists_avoids (m : Machine) : ∃ q, m.Avoids q := by
  obtain ⟨q, hq⟩ := exists_path_not_mem ((Location.unspecified :: m.places).map Location.path)
  exact ⟨q, fun l hl h => hq (List.mem_map.mpr ⟨l, hl, h⟩)⟩

/-- The places in a machine that avoids a path are kept where only that path is moved. -/
theorem Avoids.relocate_onPath {m : Machine} {q : String} (h : m.Avoids q)
    (g : Location → Location) : m.relocate (Location.onPath q g) = m :=
  relocate_of_fixed fun l hl => Location.onPath_of_ne (h l (List.mem_cons_of_mem _ hl))

/-- A text that is read from another place does the same, and what it leaves lies at the place
where it was read. -/
theorem withReader_onPath {m : Machine} {q : String} (h : m.Avoids q) {g : Location → Location}
    (hg : ∀ l c, 1 ≤ l.line → g (l.advance c) = (g l).advance c) (text : String) :
    withReader ⟨text.toList, g (.start q)⟩ (readOn .absent) m =
      relocated (Location.onPath q g) (run .absent q text m) := by
  have hmoves := Location.moves_onPath (h _ List.mem_cons_self) hg
  have hreaders : ∀ r ∈ m.readers, r.location.path = q → 1 ≤ r.location.line := by
    intro r hr hpath
    refine absurd hpath (h _ (List.mem_cons_of_mem _ ?_))
    simp only [places, List.mem_append, List.mem_map]
    exact .inl (.inr ⟨r, hr, rfl⟩)
  have hmoved := withReader_relocated (r := .ofText q text) hmoves hreaders fun _ => Nat.le_refl 1
  have hstart : (Reader.ofText q text).relocate (Location.onPath q g) =
      ⟨text.toList, g (.start q)⟩ := congrArg (Reader.mk _) (Location.onPath_self rfl)
  rw [hstart, h.relocate_onPath] at hmoved
  rw [hmoved]
  exact congrArg (relocated _) (congrFun (run_eq 0 q text).symm m)

/-- Where a text is cut after or before a blank and its first part runs well, the run of the whole
text agrees with the run of the second part after the first, with the same outcome and the same
machine, but for their places: what is told apart by a path that is new to the machine is at its
place in the second part in one, and moved by the extent of the first part in the other. -/
theorem run_cut {a b : String} (hcut : Reader.Cut a.toList b.toList) {path : String}
    {m m₁ : Machine} (hok : run .absent path a m = .ok () m₁) :
    (∃ q, m₁.Avoids q) ∧
    (∀ q, m₁.Avoids q →
      run .absent path b m₁ =
        relocated (Location.onPath q fun l => ⟨path, l.line, l.column⟩) (run .absent q b m₁) ∧
      run .absent path (a ++ b) m =
        relocated (Location.onPath q fun l => Location.movedBy a ⟨path, l.line, l.column⟩)
          (run .absent q b m₁)) ∧
    relocated (fun _ => .unspecified) (run .absent path (a ++ b) m) =
      relocated (fun _ => .unspecified) (run .absent path b m₁) := by
  have hrun : ∀ q, m₁.Avoids q →
      run .absent path b m₁ =
        relocated (Location.onPath q fun l => ⟨path, l.line, l.column⟩) (run .absent q b m₁) ∧
      run .absent path (a ++ b) m =
        relocated (Location.onPath q fun l => Location.movedBy a ⟨path, l.line, l.column⟩)
          (run .absent q b m₁) := by
    intro q hq
    constructor
    · rw [← withReader_onPath hq]
      · exact congrFun (run_eq 0 path b) m₁
      · intro l c _
        unfold Location.advance
        split <;> rfl
    · rw [← withReader_onPath hq]
      · rw [show run .absent path (a ++ b) m = _ from run_append hcut hok]
        have hstart := Location.movedBy_start path a
        unfold Location.start at hstart ⊢
        rw [hstart]
        rfl
      · intro l c hl
        have hmoved := Location.movedBy_advance a (l := ⟨path, l.line, l.column⟩) hl c
        rw [← hmoved]
        unfold Location.advance
        split <;> rfl
  obtain ⟨q, hq⟩ := exists_avoids m₁
  refine ⟨⟨q, hq⟩, hrun, ?_⟩
  obtain ⟨hb, hab⟩ := hrun q hq
  rw [hb, hab, relocated_relocated, relocated_relocated]
  rfl

/-- A definition can be cut in the middle. -/
theorem run_cut_definition :
    Reader.Cut ": SQ DUP".toList " * ; 3 SQ".toList ∧
    run .absent "s" ": SQ DUP" .fresh = .ok () (left (run .absent "s" ": SQ DUP" .fresh)) ∧
    relocated (fun _ => .unspecified) (run .absent "s" (": SQ DUP" ++ " * ; 3 SQ") .fresh) =
      relocated (fun _ => .unspecified)
        (run .absent "s" " * ; 3 SQ" (left (run .absent "s" ": SQ DUP" .fresh))) := by
  have hcut : Reader.Cut ": SQ DUP".toList " * ; 3 SQ".toList := .inr ⟨' ', by decide, rfl⟩
  have hok : run .absent "s" ": SQ DUP" .fresh =
      .ok () (left (run .absent "s" ": SQ DUP" .fresh)) := eq_ok_left (by decide +kernel)
  exact ⟨hcut, hok, (run_cut hcut hok).2.2⟩

end Machine
end WordStack
