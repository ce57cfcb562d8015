import WordStack.Proofs.Provenance
import WordStack.Proofs.Termination
import WordStack.Proofs.Uppercase

/-
  The cells of variables over a whole history. Every reference to a cell that a machine holds,
  wherever it holds it, is to one of its cells (`Machine.Stocked`): a reference is only made by
  adding the cell, and no cell is given up. So the cells are numbered by the definitions of
  variables in the history, and a cell holds what was last stored in it (`Ledger`).
  `Ledger.builtIn` is one built-in word, `Ledger.execute` a word and `Ledger.runs` whole runs.
-/
namespace WordStack

open Machine

/-- The cell that a variable stands for. -/
def Definition.cell? : Definition → Option Nat
  | .variable i => some i
  | .builtIn _ | .host _ | .constant _ | .compiled _ => none

/-- Every cell that the definition of the word refers to is one of the first `k`. -/
structure Word.CellsBelow (k : Nat) (w : Word) : Prop where
  «variable» : ∀ i, w.definition = .variable i → i < k
  value : ∀ i, .cell i ∈ w.definition.values → i < k

/-- Every cell that the value refers to, itself or through words, is one of the first `k`. -/
structure Value.CellsBelow (k : Nat) (v : Value) : Prop where
  cell : ∀ i, v = .cell i → i < k
  words : v.Within (Word.CellsBelow k)

/-- A reference to the cell can be reached from what the machine holds. -/
inductive Machine.RefersToCell (m : Machine) (i : Nat) : Prop
  | data (h : .cell i ∈ m.data)
  | buffer (h : .cell i ∈ m.buffer)
  | content {j : Nat} (h : m.cells.get? j = some (.cell i))
  | «variable» {w : Word} (hw : m.Holds w) (h : w.definition = .variable i)
  | value {w : Word} (hw : m.Holds w) (h : .cell i ∈ w.definition.values)

/-- All that the machine holds refers to its own cells only. -/
structure Machine.Stocked (m : Machine) : Prop where
  data : ∀ v ∈ m.data, v.CellsBelow m.cells.size
  buffer : ∀ v ∈ m.buffer, v.CellsBelow m.cells.size
  cells : ∀ i v, m.cells.get? i = some v → v.CellsBelow m.cells.size
  dictionary : ∀ e ∈ m.dictionary.entries, e.2.Within (Word.CellsBelow m.cells.size)

namespace Execution

def succeeds (x : Execution) : Bool := Machine.succeeds x.result

/-- The execution defined a variable. -/
def makesCell (x : Execution) : Bool := x.builtIn = .defineVariable && x.succeeds

/-- The cell of the variable that then has the name which the execution read. -/
def newVariable? (x : Execution) : Option Nat :=
  match nextWordRequired x.before with
  | .ok t _ => (x.after.dictionary.get? t.text).bind (·.definition.cell?)
  | .error _ _ => none

/-- What the execution stored, after the cell that it stored it in. -/
def stored? (x : Execution) : Option (Nat × Value) :=
  match x.builtIn, x.before.active with
  | .store, .cell i :: v :: _ => if x.succeeds then some (i, v) else none
  | _, _ => none

end Execution

/-- What was last stored in a cell, which is the number 0 if nothing was. -/
def lastStored (es : List Execution) (i : Nat) : Value :=
  ((es.filterMap Execution.stored?).reverse.lookup i).getD (.number (Number.ofCount 0))

/-- What the cells of a machine are by its history. -/
structure Ledger (es : List Execution) (m : Machine) : Prop where
  stocked : m.Stocked
  made : (es.filter Execution.makesCell).map Execution.newVariable? =
    (List.range m.cells.size).map some
  contents : ∀ i, lastStored es i = (m.cells.get? i).getD (.number (Number.ofCount 0))
  past : ∀ before x after, es = before ++ x :: after → x.before.Stocked ∧
    ∀ i, lastStored before i = (x.before.cells.get? i).getD (.number (Number.ofCount 0))

variable {k k' : Nat} {v : Value} {w : Word} {m : Machine} {es : List Execution}

/-! ## References -/

theorem Word.CellsBelow.mono (h : w.CellsBelow k) (hk : k ≤ k') : w.CellsBelow k' :=
  ⟨fun i hi => (h.variable i hi).trans_le hk, fun i hi => (h.value i hi).trans_le hk⟩

namespace Value.CellsBelow

theorem mono (h : v.CellsBelow k) (hk : k ≤ k') : v.CellsBelow k' :=
  ⟨fun i hi => (h.cell i hi).trans_le hk, h.words.mono fun _ hw => hw.mono hk⟩

theorem number (x : Float) : (Value.number x).CellsBelow k := ⟨nofun, within_number x⟩

theorem text (s : String) : (Value.text s).CellsBelow k := ⟨nofun, within_text s⟩

theorem ofCell {i : Nat} (h : i < k) : (Value.cell i).CellsBelow k :=
  ⟨fun j hj => by cases hj; exact h, within_cell i⟩

theorem ofWord (h : w.Within (Word.CellsBelow k)) : (Value.word w).CellsBelow k :=
  ⟨nofun, within_word.mpr h⟩

theorem ofValue (h : w.Within (Word.CellsBelow k)) (hv : v ∈ w.definition.values) :
    v.CellsBelow k :=
  ⟨fun i hi => h.self.value i (hi ▸ hv), (Word.within_iff_values.mp h).2 v hv⟩

end Value.CellsBelow

/-- A word whose values and whose variable refer to the first cells only. -/
theorem Word.within_cellsBelow (hvariable : ∀ i, w.definition = .variable i → i < k)
    (hvalues : ∀ v ∈ w.definition.values, v.CellsBelow k) : w.Within (Word.CellsBelow k) :=
  Word.within_iff_values.mpr ⟨⟨hvariable, fun i hi => (hvalues _ hi).cell i rfl⟩,
    fun v hv => (hvalues v hv).words⟩

namespace Machine.Stocked

theorem values (h : m.Stocked) : m.HoldsOnly (Value.CellsBelow m.cells.size) :=
  ⟨h.data, h.buffer, h.cells, fun e he _ hv => .ofValue (h.dictionary e he) hv⟩

theorem of_values (h : m.HoldsOnly (Value.CellsBelow m.cells.size))
    (hvariable : ∀ e ∈ m.dictionary.entries, ∀ i, e.2.definition = .variable i →
      i < m.cells.size) : m.Stocked :=
  ⟨h.data, h.buffer, h.cells, fun e he => Word.within_cellsBelow (hvariable e he)
    (h.dictionary e he)⟩

theorem variable_lt (h : m.Stocked) {e : String × Word} (he : e ∈ m.dictionary.entries) {i : Nat}
    (hi : e.2.definition = .variable i) : i < m.cells.size :=
  (h.dictionary e he).self.variable i hi

theorem push (h : m.Stocked) (hv : v.CellsBelow m.cells.size) :
    (m.withActive (v :: m.active)).Stocked := by
  refine of_values ?_ fun e he i hi => ?_
  · rw [withActive_cells]
    exact h.values.push hv
  · rw [(withActive_words m _).1] at he
    rw [withActive_cells]
    exact h.variable_lt he hi

/-- What does not hold values can be anything. -/
theorem withContext (h : m.Stocked) (mode : Mode) (pending : Option Pending)
    (readers : List Reader) (location : Option Location) (calls : List Call)
    (events : List Event) (output : String) (outputFails : Bool) (replies : List Reply) :
    Stocked
      { m with mode, pending, readers, location, calls, events, output, outputFails, replies } :=
  ⟨h.data, h.buffer, h.cells, h.dictionary⟩

end Machine.Stocked

/-! ## What the cells hold -/

/-- What a built-in word does to the cells: a successful `STORE` sets one, a successful `VAR` adds
one, and nothing else changes them. -/
inductive CellStep (m : Machine) (x : Execution) : Prop
  | stored {i : Nat} {v : Value} {vs : List Value} {cells : Cells} (hb : x.builtIn = .store)
    (hactive : m.active = .cell i :: v :: vs) (hcells : m.cells.set? i v = some cells)
    (h : x.result = .ok () { m.withActive vs with cells })
  | made {t : Token} {rs : List Reader} (hb : x.builtIn = .defineVariable)
    (ht : nextWordRequired m = .ok t { m with readers := rs })
    (h : x.result = .ok () ({ m with
      readers := rs
      cells := (m.cells.allocate (.number (Number.ofCount 0))).2 }.withWord
        (variableHeading t) (.variable m.cells.size)).2)
  | kept (hcells : x.after.cells = m.cells)
    (hb : x.succeeds = true → x.builtIn ≠ .store ∧ x.builtIn ≠ .defineVariable)

theorem cellStep (b : BuiltIn) (m : Machine) : CellStep m ⟨b, m⟩ := by
  have ho := BuiltIn.outcome b m
  generalize hx : b.run m = x at ho
  have hresult : (Execution.mk b m).result = x := hx
  have hkept : (left x).cells = m.cells →
      (Machine.succeeds x = true → b ≠ .store ∧ b ≠ .defineVariable) → CellStep m ⟨b, m⟩ :=
    fun hc hb => .kept ((congrArg (fun y => (left y).cells) hresult).trans hc)
      fun hs => hb ((congrArg Machine.succeeds hresult).symm.trans hs)
  cases ho with
  | stored hm hc => exact .stored rfl hm hc hresult
  | «variable» ht => exact .made rfl ht hresult
  | underflow | nameless | notOpen | unterminatedBlock | unterminated => exact hkept rfl nofun
  | mismatch | storedNowhere | fetchedNowhere => exact hkept (withActive_cells _ _) nofun
  | rearranged hr =>
    obtain ⟨hs, -, hv⟩ := BuiltIn.not_cells_of_rearranged hr
    exact hkept (withActive_cells _ _) fun _ => ⟨hs, hv⟩
  | fetched => exact hkept (withActive_cells _ _) fun _ => ⟨nofun, nofun⟩
  | constant | text => exact hkept (withActive_cells _ _) fun _ => ⟨nofun, nofun⟩
  | opened | blockComment | closed => exact hkept rfl fun _ => ⟨nofun, nofun⟩
  | comment hb =>
    refine hkept rfl fun _ => ?_
    rcases hb with ⟨rfl, -⟩ | ⟨rfl, -⟩ <;> exact ⟨nofun, nofun⟩
  | wrote hw =>
    obtain ⟨vs, -, rfl⟩ := BuiltIn.machine_of_writing hw
    refine hkept ?_ fun _ => ?_
    · rw [write_apply]
      split <;> exact withActive_cells _ _
    · constructor <;> rintro rfl <;> cases hw

/-- Cells are only added. -/
theorem size_le_builtIn (b : BuiltIn) (m : Machine) :
    m.cells.size ≤ (left (b.run m)).cells.size := by
  show m.cells.size ≤ (Execution.mk b m).after.cells.size
  have hstep := cellStep b m
  generalize Execution.mk b m = x at hstep
  cases hstep with
  | stored _ _ hc h =>
    have hafter := congrArg (fun y => (left y).cells.size) h
    exact Nat.le_of_eq ((Cells.size_set? hc).symm.trans hafter.symm)
  | made _ _ h =>
    have hafter := congrArg (fun y => (left y).cells.size) h
    exact Nat.le_of_succ_le (Nat.le_of_eq ((Array.size_push _).symm.trans hafter.symm))
  | kept hcells => rw [hcells]

/-- A built-in word defines a variable only for a cell that it has added. -/
theorem variable_builtIn (b : BuiltIn) (m : Machine) {e : String × Word}
    (he : e ∈ (left (b.run m)).dictionary.entries) {i : Nat} (hi : e.2.definition = .variable i) :
    e ∈ m.dictionary.entries ∨ i < (left (b.run m)).cells.size := by
  have ho := BuiltIn.outcome b m
  generalize b.run m = x at ho he ⊢
  cases ho with
  | underflow | nameless | opened | comment | unterminated | blockComment | unterminatedBlock
  | notOpen => exact .inl he
  | mismatch | rearranged | stored | storedNowhere | fetched | fetchedNowhere =>
    exact .inl ((withActive_words _ _).1 ▸ he)
  | @text s rs => exact .inl ((withActive_words { m with readers := rs } _).1 ▸ he)
  | wrote hw =>
    obtain ⟨vs, -, rfl⟩ := BuiltIn.machine_of_writing hw
    rw [write_apply] at he
    split at he <;> exact .inl ((withActive_words m vs).1 ▸ he)
  | «variable» =>
    rcases Dictionary.mem_insertEntry he with rfl | he
    · cases hi
      exact .inr (Nat.lt_of_lt_of_eq (Nat.lt_succ_self _) (Array.size_push _).symm)
    · exact .inl he
  | @constant t rs v vs =>
    rcases Dictionary.mem_insertEntry he with rfl | he
    · cases hi
    · exact .inl ((withActive_words { m with readers := rs } vs).1 ▸ he)
  | closed =>
    rcases Dictionary.mem_insertEntry he with rfl | he
    · cases hi
    · exact .inl he

/-- A built-in word does not make up a reference. -/
theorem Machine.Stocked.builtIn (h : m.Stocked) (b : BuiltIn) : (left (b.run m)).Stocked := by
  have hsize := size_le_builtIn b m
  have hvalues := h.values.mono fun v hv => hv.mono hsize
  refine of_values (hvalues.builtIn .number (fun s _ => .text s) b) fun e he i hi => ?_
  rcases variable_builtIn b m he hi with he | hlt
  · exact (h.variable_lt he hi).trans_le hsize
  · exact hlt

theorem lastStored_append_of_none {x : Execution} (h : x.stored? = none) (i : Nat) :
    lastStored (es ++ [x]) i = lastStored es i := by
  unfold lastStored
  rw [List.filterMap_append, List.filterMap_cons_none h, List.filterMap_nil, List.append_nil]

theorem lastStored_append_of_some {x : Execution} {i : Nat} (h : x.stored? = some (i, v))
    (j : Nat) : lastStored (es ++ [x]) j = if i = j then v else lastStored es j := by
  unfold lastStored
  rw [List.filterMap_append, List.filterMap_cons_some h, List.filterMap_nil, List.reverse_append]
  by_cases hij : i = j
  · subst hij
    simp
  · have hne : (j == i) = false := by simpa using fun h : j = i => hij h.symm
    simp [List.lookup_cons, hne, hij]

/-- A cell that is not there yet reads as it will when it is added. -/
theorem Cells.getD_allocate (c : Cells) (v : Value) (i : Nat) :
    ((c.allocate v).2.get? i).getD v = (c.get? i).getD v := by
  have hpush : (c.allocate v).2.get? i = (c.contents.push v)[i]? := rfl
  rw [hpush, Array.getElem?_push]
  split
  · next hi =>
    have hnone : c.get? i = none := Array.getElem?_eq_none (Nat.le_of_eq hi.symm)
    rw [hnone]
    rfl
  · rfl

namespace Execution

variable {x : Execution}

theorem stored?_of_not_store (h : x.succeeds = true → x.builtIn ≠ .store) : x.stored? = none := by
  unfold stored?
  split
  · next hb _ =>
    rw [if_neg]
    exact fun hs => h hs hb
  · rfl

theorem makesCell_of_not_variable (h : x.succeeds = true → x.builtIn ≠ .defineVariable) :
    x.makesCell = false := by
  unfold makesCell
  rw [Bool.and_eq_false_iff]
  cases hs : x.succeeds with
  | true => exact .inl (by simpa using h hs)
  | false => exact .inr rfl

theorem filter_append_of_not (h : x.makesCell = false) (es : List Execution) :
    (es ++ [x]).filter makesCell = es.filter makesCell := by
  rw [List.filter_append, List.filter_cons_of_neg (by simp [h]), List.filter_nil, List.append_nil]

theorem stored?_of_stored {i : Nat} {vs : List Value} (hb : x.builtIn = .store)
    (hactive : x.before.active = .cell i :: v :: vs) (hs : x.succeeds = true) :
    x.stored? = some (i, v) := by
  unfold stored?
  rw [hb, hactive]
  exact if_pos hs

theorem makesCell_of_made (hb : x.builtIn = .defineVariable) (hs : x.succeeds = true) :
    x.makesCell = true := by
  unfold makesCell
  rw [hs, hb]
  rfl

/-- The name of the variable then stands for the cell. -/
theorem newVariable?_of_made {t : Token} {n k : Machine} {i : Nat}
    (ht : nextWordRequired x.before = .ok t n)
    (h : x.after = (k.withWord (variableHeading t) (.variable i)).2) :
    x.newVariable? = some i := by
  have hfound : x.after.dictionary.get? t.text =
      some (k.withWord (variableHeading t) (.variable i)).1 := by
    rw [h]
    exact Dictionary.get?_insert_self (Text.uppercase_uppercase t.text).symm
  unfold newVariable?
  rw [ht]
  dsimp only
  rw [hfound]
  rfl

end Execution

/-! ## The ledger -/

namespace Ledger

/-- What is not on a stack, in a cell or in the dictionary can be anything. -/
theorem congr {n : Machine} (h : Ledger es m) (hn : n.Stocked) (hcells : n.cells = m.cells) :
    Ledger es n :=
  ⟨hn, hcells ▸ h.made, hcells ▸ h.contents, h.past⟩

theorem past_append {x : Execution} (h : Ledger es x.before) :
    ∀ before y after, es ++ [x] = before ++ y :: after → y.before.Stocked ∧
      ∀ i, lastStored before i = (y.before.cells.get? i).getD (.number (Number.ofCount 0)) := by
  intro before y after heq
  rcases List.eq_nil_or_concat after with rfl | ⟨after, z, rfl⟩
  · obtain ⟨rfl, hy⟩ := List.append_inj' heq rfl
    obtain rfl := (List.cons.inj hy).1
    exact ⟨h.stocked, h.contents⟩
  · rw [List.concat_eq_append, ← List.cons_append, ← List.append_assoc] at heq
    exact h.past before y after (List.append_inj' heq rfl).1

/-- A built-in word is entered in the ledger. -/
theorem builtIn (h : Ledger es m) (b : BuiltIn) : Ledger (es ++ [⟨b, m⟩]) (left (b.run m)) := by
  have hstocked : (Execution.mk b m).after.Stocked := h.stocked.builtIn b
  have hpast := past_append (x := ⟨b, m⟩) h
  show Ledger (es ++ [⟨b, m⟩]) (Execution.mk b m).after
  have hstep := cellStep b m
  generalize hx : Execution.mk b m = x at hstocked hpast hstep
  obtain rfl : x.before = m := by rw [← hx]
  cases hstep with
  | @stored i v vs cells hb hactive hc hresult =>
    have hafter : x.after.cells = cells := congrArg (fun y => (left y).cells) hresult
    have hs := Execution.stored?_of_stored hb hactive (congrArg Machine.succeeds hresult)
    have hnot := Execution.makesCell_of_not_variable (x := x) fun _ => by rw [hb]; nofun
    refine ⟨hstocked, ?_, fun j => ?_, hpast⟩
    · rw [Execution.filter_append_of_not hnot, hafter, Cells.size_set? hc]
      exact h.made
    · rw [lastStored_append_of_some hs, hafter, Cells.get?_set? hc]
      split
      · rfl
      · exact h.contents j
  | @made t rs hb ht hresult =>
    have hafter := congrArg left hresult
    have hcells : x.after.cells = (x.before.cells.allocate (.number (Number.ofCount 0))).2 :=
      congrArg Machine.cells hafter
    have hsize : x.after.cells.size = x.before.cells.size + 1 := by
      rw [hcells]
      exact Array.size_push _
    have hmakes := Execution.makesCell_of_made hb (congrArg Machine.succeeds hresult)
    have hnot := Execution.stored?_of_not_store (x := x) fun _ => by rw [hb]; nofun
    refine ⟨hstocked, ?_, fun j => ?_, hpast⟩
    · rw [List.filter_append, List.filter_cons_of_pos hmakes, List.filter_nil, List.map_append,
        h.made, hsize, List.range_succ, List.map_append]
      exact congrArg (_ ++ [·]) (Execution.newVariable?_of_made ht hafter)
    · rw [lastStored_append_of_none hnot, hcells, h.contents j]
      exact (Cells.getD_allocate x.before.cells _ j).symm
  | kept hcells hb =>
    refine ⟨hstocked, ?_, fun j => ?_, hpast⟩
    · have hnot := Execution.makesCell_of_not_variable fun hs => (hb hs).2
      rw [Execution.filter_append_of_not hnot, hcells]
      exact h.made
    · rw [lastStored_append_of_none (Execution.stored?_of_not_store fun hs => (hb hs).1), hcells]
      exact h.contents j

theorem push (h : Ledger es m) (hv : v.CellsBelow m.cells.size) :
    Ledger es (m.withActive (v :: m.active)) :=
  h.congr (h.stocked.push hv) (withActive_cells m _)

/-- A word that refers to cells of the machine is entered in the ledger with all it executes. -/
theorem execute (h : Ledger es m) (hw : w.Within (Word.CellsBelow m.cells.size)) (l : Location) :
    Ledger (es ++ wordExecutions l w m) (left (execute .absent l w m)) := by
  have hQ : OutlastsCalls (fun es n => Ledger es n ∧ m.cells.size ≤ n.cells.size)
      (Word.Within (Word.CellsBelow m.cells.size)) := by
    refine ⟨fun c h => ⟨h.1.congr (h.1.stocked.withContext _ _ _ _ _ _ _ _ _) rfl, h.2⟩,
      fun h => ⟨h.1.congr (h.1.stocked.withContext _ _ _ _ _ _ _ _ _) rfl, h.2⟩,
      fun _ _ h => ⟨h.1.builtIn _, h.2.trans (size_le_builtIn _ _)⟩,
      fun hw hi h => ⟨h.1.push (.ofCell ((hw.self.variable _ hi).trans_le h.2)), ?_⟩,
      fun hw hv h => ⟨h.1.push ((Value.CellsBelow.ofValue hw hv).mono h.2), ?_⟩⟩
    · rw [withActive_cells]
      exact h.2
    · rw [withActive_cells]
      exact h.2
  exact (hQ.execute (fun v hv u hu => hw u (hv.trans hu)) ⟨h, Nat.le_refl _⟩ l).1

theorem runs : OutlastsRuns Ledger where
  aside _ _ _ _ _ _ _ h := h.congr (h.stocked.withContext _ _ _ _ _ _ _ _ _) rfl
  number x h := h.push (.number x)
  collect hw h := by
    refine h.congr ⟨h.stocked.data, ?_, h.stocked.cells, h.stocked.dictionary⟩ rfl
    exact List.forall_mem_cons.mpr ⟨.ofWord (h.stocked.dictionary _ hw), h.stocked.buffer⟩
  execute l hw h := h.execute (h.stocked.dictionary _ hw) l

end Ledger

theorem stocked_fresh : fresh.Stocked := by
  have hnone : ∀ e ∈ fresh.dictionary.entries, e.2.definition.cell? = none := by decide +kernel
  refine .of_values (.fresh _) fun e he i hi => ?_
  have hcell := hnone e he
  rw [hi] at hcell
  cases hcell

theorem ledger_fresh : Ledger [] fresh where
  stocked := stocked_fresh
  made := rfl
  contents _ := rfl
  past before x after h := by simp at h

theorem Recorded.ledger (h : Recorded es m) : Ledger es m := Ledger.runs.recorded ledger_fresh h

/-! ## Main result -/

theorem Machine.Stocked.within_of_holds (h : m.Stocked) (hw : m.Holds w) :
    w.Within (Word.CellsBelow m.cells.size) := by
  induction hw with
  | entry he => exact h.dictionary _ he
  | data hv => exact Value.within_word.mp (h.data _ hv).words
  | buffer hv => exact Value.within_word.mp (h.buffer _ hv).words
  | cell hv => exact Value.within_word.mp (h.cells _ _ hv).words
  | used _ hu ih => exact ih.of_uses hu

theorem Machine.Stocked.lt_of_refers {i : Nat} (h : m.Stocked) (hi : m.RefersToCell i) :
    i < m.cells.size := by
  cases hi with
  | data hv => exact (h.data _ hv).cell i rfl
  | buffer hv => exact (h.buffer _ hv).cell i rfl
  | content hv => exact (h.cells _ _ hv).cell i rfl
  | «variable» hw hv => exact (h.within_of_holds hw).self.variable i hv
  | value hw hv => exact (h.within_of_holds hw).self.value i hv

theorem Machine.Stocked.lt_of_active {i : Nat} {vs : List Value} (h : m.Stocked)
    (hactive : m.active = .cell i :: vs) : i < m.cells.size :=
  (h.values.active (.cell i) (hactive ▸ List.mem_cons_self)).cell i rfl

theorem Machine.Stocked.fetch {i : Nat} {vs : List Value} (h : m.Stocked)
    (hactive : m.active = .cell i :: vs) : Machine.succeeds (BuiltIn.run .fetch m) = true := by
  have hget : m.cells.get? i = some _ := Array.getElem?_eq_getElem (h.lt_of_active hactive)
  rw [BuiltIn.fetch_of_some hactive hget]
  rfl

theorem Machine.Stocked.store {i : Nat} {v : Value} {vs : List Value} (h : m.Stocked)
    (hactive : m.active = .cell i :: v :: vs) :
    Machine.succeeds (BuiltIn.run .store m) = true := by
  have hset : m.cells.set? i v = some _ := if_pos (h.lt_of_active hactive)
  rw [BuiltIn.store_of_some hactive hset]
  rfl

/-- A successful `FETCH` finds a reference on the stack and pushes what the cell holds. -/
theorem BuiltIn.fetch_succeeds (h : Machine.succeeds (run .fetch m) = true) :
    ∃ i v vs, m.active = .cell i :: vs ∧ m.cells.get? i = some v ∧
      run .fetch m = .ok () (m.withActive (v :: vs)) := by
  have ho := outcome .fetch m
  generalize run .fetch m = x at ho h
  cases ho with
  | @fetched i v vs hm hc => exact ⟨i, v, vs, hm, hc, rfl⟩
  | rearranged hr => exact absurd rfl (not_cells_of_rearranged hr).2.1
  | wrote hw => cases hw
  | comment hb => rcases hb with ⟨hb, -⟩ | ⟨hb, -⟩ <;> cases hb
  | underflow | mismatch | fetchedNowhere | nameless | unterminated => cases h

/-- Over a history of texts run one after another, successful or not:
every reference to a cell, wherever the machine holds it, is to one of its cells, at the end and at
every execution of a built-in word, so `STORE` and `FETCH` on a reference to a cell never miss it;
the cells are those of the successful executions of `VAR`, which defined variables for the cells
0, 1, 2 and so on; and a successful `FETCH` replaces a reference by what was last stored in that
cell before, by the number 0 if nothing was. -/
theorem cells_hold_last_store (h : Recorded es m) :
    (∀ i, m.RefersToCell i → i < m.cells.size) ∧
    (∀ x ∈ es, (∀ i, x.before.RefersToCell i → i < x.before.cells.size) ∧
      ∀ i vs, x.before.active = .cell i :: vs → (x.builtIn = .fetch → x.succeeds = true) ∧
        (x.builtIn = .store → vs ≠ [] → x.succeeds = true)) ∧
    (es.filter Execution.makesCell).length = m.cells.size ∧
    (es.filter Execution.makesCell).map Execution.newVariable? =
      (List.range m.cells.size).map some ∧
    ∀ before x after, es = before ++ x :: after → x.builtIn = .fetch → x.succeeds = true →
      ∃ i vs, x.before.active = .cell i :: vs ∧
        x.result = .ok () (x.before.withActive (lastStored before i :: vs)) := by
  have hledger := h.ledger
  refine ⟨fun i hi => hledger.stocked.lt_of_refers hi, fun x hx => ?_, ?_, hledger.made, ?_⟩
  · obtain ⟨before, after, heq⟩ := List.append_of_mem hx
    obtain ⟨hstocked, -⟩ := hledger.past before x after heq
    refine ⟨fun i hi => hstocked.lt_of_refers hi, fun i vs hactive => ?_⟩
    obtain ⟨b, n⟩ := x
    constructor
    · rintro rfl
      exact hstocked.fetch hactive
    · rintro rfl hne
      obtain ⟨v, vs, rfl⟩ := List.exists_cons_of_ne_nil hne
      exact hstocked.store hactive
  · have hlength := congrArg List.length hledger.made
    rwa [List.length_map, List.length_map, List.length_range] at hlength
  · intro before x after heq hb hs
    obtain ⟨-, hcontents⟩ := hledger.past before x after heq
    obtain ⟨b, n⟩ := x
    obtain rfl : b = .fetch := hb
    obtain ⟨i, v, vs, hactive, hc, hrun⟩ := BuiltIn.fetch_succeeds hs
    have hlast : lastStored before i = v := by
      have hc : (Execution.mk .fetch n).before.cells.get? i = some v := hc
      rw [hcontents i, hc]
      rfl
    exact ⟨i, vs, hactive, hlast ▸ hrun⟩

/-- A constant keeps a variable whose name is reused. -/
theorem cells_hold_last_store_reused :
    ∃ (es : List Execution) (m : Machine), Recorded es m ∧
      es.map (fun x => (x.builtIn, x.succeeds)) = [(.defineVariable, true), (.defineConstant, true),
        (.store, true), (.defineVariable, true), (.store, true), (.fetch, true)] ∧
      (∀ i, m.RefersToCell i → i < m.cells.size) ∧
      (es.filter Execution.makesCell).length = m.cells.size ∧
      ∀ before x after, es = before ++ x :: after → x.builtIn = .fetch → x.succeeds = true →
        ∃ i vs, x.before.active = .cell i :: vs ∧
          x.result = .ok () (x.before.withActive (lastStored before i :: vs)) := by
  have hrecorded := Recorded.fresh.run 0 "s" "VAR X X CONST C 1 C ! VAR X 2 X ! C @"
  have hexecuted : ([] ++ runExecutions "s" "VAR X X CONST C 1 C ! VAR X 2 X ! C @" fresh).map
      (fun x : Execution => (x.builtIn, x.succeeds)) = [(.defineVariable, true),
        (.defineConstant, true), (.store, true), (.defineVariable, true), (.store, true),
        (.fetch, true)] := by
    decide +kernel
  obtain ⟨hrefers, -, hcount, -, hfetch⟩ := cells_hold_last_store hrecorded
  exact ⟨_, _, hrecorded, hexecuted, hrefers, hcount, hfetch⟩

end WordStack
