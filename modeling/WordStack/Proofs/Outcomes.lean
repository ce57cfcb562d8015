import WordStack.Proofs.Context

/-
  What each built-in word comes to. `Outcome` lists it case by case, once for the words that differ
  in an operand or a delimiter only: what has to lie on the active stack, the cells, the text or
  the compiler, the error or the success, and the machine that is left. `outcome`: nothing else can
  happen. What the words keep and when they fail is read off this list.
-/
namespace WordStack

open Machine

namespace BuiltIn

/-- The values that the word asks the active stack for. -/
def operands : BuiltIn → Nat
  | .dup | .drop | .sqrt | .defineConstant | .fetch | .print => 1
  | .swap | .over | .add | .subtract | .multiply | .divide | .store => 2
  | .rot => 3
  | .clear | .depth | .defineVariable | .textLiteral | .blockComment | .parenComment
  | .lineComment | .startDefinition | .endDefinition | .printStack | .printWords => 0

/-- What the word does with two numbers, the left operand first. -/
def operation? : BuiltIn → Option (Float → Float → Float)
  | .add => some (· + ·)
  | .subtract => some (· - ·)
  | .multiply => some (· * ·)
  | .divide => some (· / ·)
  | _ => none

/-- What becomes of the active stack where a word changes nothing else. -/
def rearranged? : BuiltIn → List Value → Option (List Value)
  | .dup, v :: vs => some (v :: v :: vs)
  | .drop, _ :: vs => some vs
  | .swap, w :: v :: vs => some (v :: w :: vs)
  | .over, w :: v :: vs => some (v :: w :: v :: vs)
  | .rot, w :: v :: u :: vs => some (u :: w :: v :: vs)
  | .clear, _ => some []
  | .depth, vs => some (.number (Number.ofCount vs.length) :: vs)
  | .sqrt, .number x :: vs => some (.number x.sqrt :: vs)
  | b, .number y :: .number x :: vs => b.operation?.map fun f => .number (f x y) :: vs
  | _, _ => none

/-- The text that a word writes, and the machine that it is written on. -/
def writing? (m : Machine) : BuiltIn → Option (String × Machine)
  | .print => m.active.head?.map fun v => (v.render ++ "\n", m.withActive m.active.tail)
  | .printStack => some (stackLine m, m)
  | .printWords => some (m.dictionary.listing, m)
  | _ => none

/-- The character that ends the raw text which a word reads. -/
def delimiter? : BuiltIn → Option Char
  | .textLiteral => some '"'
  | .parenComment => some ')'
  | .lineComment => some '\n'
  | _ => none

/-- The words that read the name of a new word. -/
def readsName (b : BuiltIn) : Bool :=
  b = .defineVariable || b = .defineConstant || b = .startDefinition

/-- A word that has taken these values does not take the next one, as it is of another type. -/
inductive Refuses : BuiltIn → List Value → Wanted → Value → Prop
  | right {b : BuiltIn} {v : Value} (hb : b.operation?.isSome) (hv : ∀ x, v ≠ .number x) :
    Refuses b [] .number v
  | left {b : BuiltIn} {y : Float} {v : Value} (hb : b.operation?.isSome)
    (hv : ∀ x, v ≠ .number x) : Refuses b [.number y] .number v
  | root {v : Value} (hv : ∀ x, v ≠ .number x) : Refuses .sqrt [] .number v
  | reference {b : BuiltIn} {v : Value} (hb : b = .store ∨ b = .fetch) (hv : ∀ i, v ≠ .cell i) :
    Refuses b [] .variable v

/-- What a built-in word can come to on a machine. -/
inductive Outcome (m : Machine) : BuiltIn → EStateM.Result Halt Machine Unit → Prop
  | underflow {b : BuiltIn} (h : m.active.length < b.operands) :
    Outcome m b (fail .stackUnderflow m)
  | mismatch {b : BuiltIn} {vs : List Value} {wanted : Wanted} {v : Value} (taken : List Value)
    (hdepth : b.operands ≤ m.active.length) (h : m.active = taken ++ v :: vs)
    (hv : b.Refuses taken wanted v) :
    Outcome m b (fail (.typeMismatch wanted v.typeName) (m.withActive vs))
  | rearranged {b : BuiltIn} {vs : List Value} (h : b.rearranged? m.active = some vs) :
    Outcome m b (.ok () (m.withActive vs))
  | stored {i : Nat} {v : Value} {vs : List Value} {cells : Cells}
    (h : m.active = .cell i :: v :: vs) (hc : m.cells.set? i v = some cells) :
    Outcome m .store (.ok () { m.withActive vs with cells })
  | storedNowhere {i : Nat} {v : Value} {vs : List Value} (h : m.active = .cell i :: v :: vs)
    (hc : m.cells.set? i v = none) :
    Outcome m .store (fail (.typeMismatch .variable (renderCell i)) (m.withActive vs))
  | fetched {i : Nat} {v : Value} {vs : List Value} (h : m.active = .cell i :: vs)
    (hc : m.cells.get? i = some v) : Outcome m .fetch (.ok () (m.withActive (v :: vs)))
  | fetchedNowhere {i : Nat} {vs : List Value} (h : m.active = .cell i :: vs)
    (hc : m.cells.get? i = none) :
    Outcome m .fetch (fail (.typeMismatch .variable (renderCell i)) (m.withActive vs))
  | wrote {b : BuiltIn} {s : String} {n : Machine} (h : b.writing? m = some (s, n)) :
    Outcome m b (write s n)
  | nameless {b : BuiltIn} {rs : List Reader} (hdepth : b.operands ≤ m.active.length)
    (hb : b.readsName)
    (h : nextWordRequired m = fail .unexpectedEnd { m with readers := rs }) :
    Outcome m b (fail .unexpectedEnd { m with readers := rs })
  | variable {t : Token} {rs : List Reader}
    (h : nextWordRequired m = .ok t { m with readers := rs }) :
    Outcome m .defineVariable (.ok () ({ m with
      readers := rs
      cells := (m.cells.allocate (.number (Number.ofCount 0))).2 }.withWord
        (variableHeading t) (.variable m.cells.size)).2)
  | constant {t : Token} {rs : List Reader} {v : Value} {vs : List Value}
    (hactive : m.active = v :: vs) (h : nextWordRequired m = .ok t { m with readers := rs }) :
    Outcome m .defineConstant
      (.ok () (({ m with readers := rs }.withActive vs).withWord (constantHeading t)
        (.constant v)).2)
  | opened {t : Token} {rs : List Reader}
    (h : nextWordRequired m = .ok t { m with readers := rs }) :
    Outcome m .startDefinition
      (.ok () { ({ m with readers := rs }.note (.startedCompiling t.location t.text)) with
        pending := some ⟨t.text, t.location⟩, mode := .compiling })
  | text {s : String} {rs : List Reader}
    (h : textUpTo '"' m = .ok s { m with readers := rs }) :
    Outcome m .textLiteral (.ok () ({ m with readers := rs }.withActive (.text s :: m.active)))
  | comment {b : BuiltIn} {d : Char} {s : String} {rs : List Reader}
    (hb : b = .parenComment ∧ d = ')' ∨ b = .lineComment ∧ d = '\n')
    (h : textUpTo d m = .ok s { m with readers := rs }) :
    Outcome m b (.ok () { m with readers := rs })
  | unterminated {b : BuiltIn} {d : Char} {e : Error} {rs : List Reader}
    (hb : b.delimiter? = some d)
    (h : textUpTo d m = .error (.failed e) { m with readers := rs }) :
    Outcome m b (.error (.failed e) { m with readers := rs })
  | blockComment {rs : List Reader}
    (h : skipWordsTo endsComment m = .ok () { m with readers := rs }) :
    Outcome m .blockComment (.ok () { m with readers := rs })
  | unterminatedBlock {rs : List Reader}
    (h : skipWordsTo endsComment m = fail .unexpectedEnd { m with readers := rs }) :
    Outcome m .blockComment (fail .unexpectedEnd { m with readers := rs })
  | closed {p : Pending} (h : m.pending = some p) :
    Outcome m .endDefinition
      (.ok () ({ m.note (.finishedCompiling m.buffer.length p.name) with
        pending := none, mode := .interpreting, buffer := [] }.withWord
          ⟨p.name, false, p.location, "User defined word.", ""⟩
          (.compiled m.buffer.reverse)).2)
  | notOpen (h : m.pending = none) : Outcome m .endDefinition (fail .notCompiling m)

variable {m : Machine}

/-- A word on a stack that is too short for it. -/
theorem run_of_short {b : BuiltIn} (h : m.active.length < b.operands) :
    b.run m = fail .stackUnderflow m := by
  cases b with
  | dup | drop | sqrt | fetch | print =>
    have hnil : m.active = [] := List.length_eq_zero_iff.mp (by simpa [operands] using h)
    simp [run, popNumber, popCell, bind_apply, discard_apply, pop_of_nil hnil, fail]
  | swap | «over» | add | subtract | multiply | divide | store | rot | defineConstant =>
    exact bind_error (require_of_short h) _
  | _ => simp [operands] at h

theorem exists_of_two_le {α : Type} {xs : List α} (h : 2 ≤ xs.length) :
    ∃ x y rest, xs = x :: y :: rest := by
  match xs, h with
  | x :: y :: rest, _ => exact ⟨x, y, rest, rfl⟩

theorem exists_of_three_le {α : Type} {xs : List α} (h : 3 ≤ xs.length) :
    ∃ x y z rest, xs = x :: y :: z :: rest := by
  match xs, h with
  | x :: y :: z :: rest, _ => exact ⟨x, y, z, rest, rfl⟩

theorem outcome_arithmetic {b : BuiltIn} {f : Float → Float → Float} (hb : b.operation? = some f)
    (hrun : b.run = arithmetic f) (hdepth : b.operands ≤ m.active.length)
    (htwo : b.operands = 2) : Outcome m b (b.run m) := by
  obtain ⟨y, x, vs, hactive⟩ := exists_of_two_le (htwo ▸ hdepth)
  have hstart : b.run m = (do
      let b ← popNumber
      let a ← popNumber
      push (.number (f a b))) m := by
    rw [hrun]
    exact bind_ok (require_of_deep (htwo ▸ hdepth)) _
  have hsome : b.operation?.isSome := by rw [hb]; rfl
  rw [hstart]
  cases y with
  | number y =>
    have hfirst : popNumber m = .ok y (m.withActive (x :: vs)) := bind_ok (pop_of_cons hactive) _
    rw [bind_ok hfirst]
    have hrest : (m.withActive (x :: vs)).active = x :: vs := active_withActive m _
    cases x with
    | number x =>
      have hsecond : popNumber (m.withActive (.number x :: vs)) =
          .ok x ((m.withActive (.number x :: vs)).withActive vs) := bind_ok (pop_of_cons hrest) _
      rw [bind_ok hsecond, push_apply, active_withActive, withActive_withActive,
        withActive_withActive]
      refine .rearranged ?_
      rw [hactive]
      cases b <;> cases hb <;> rfl
    | text | cell | word =>
      have hsecond : popNumber (m.withActive (_ :: vs)) = fail (.typeMismatch .number _)
          ((m.withActive (_ :: vs)).withActive vs) := bind_ok (pop_of_cons hrest) _
      rw [bind_error hsecond, withActive_withActive]
      exact .mismatch [.number y] hdepth hactive (.left hsome nofun)
  | text | cell | word =>
    have hfirst : popNumber m = fail (.typeMismatch .number _) (m.withActive (x :: vs)) :=
      bind_ok (pop_of_cons hactive) _
    rw [bind_error hfirst]
    exact .mismatch [] hdepth hactive (.right hsome nofun)

theorem outcome_sqrt (hdepth : operands .sqrt ≤ m.active.length) :
    Outcome m .sqrt (run .sqrt m) := by
  obtain ⟨v, vs, hactive⟩ := List.exists_cons_of_length_pos hdepth
  cases v with
  | number x =>
    have hpop : popNumber m = .ok x (m.withActive vs) := bind_ok (pop_of_cons hactive) _
    have hrun : run .sqrt m = .ok () (m.withActive (.number x.sqrt :: vs)) := by
      simp [run, bind_ok hpop, push_apply, active_withActive, withActive_withActive]
    rw [hrun]
    refine .rearranged ?_
    rw [hactive]
    rfl
  | text | cell | word =>
    have hpop : popNumber m = fail (.typeMismatch .number _) (m.withActive vs) :=
      bind_ok (pop_of_cons hactive) _
    have hrun : run .sqrt m = fail (.typeMismatch .number _) (m.withActive vs) := bind_error hpop _
    rw [hrun]
    exact .mismatch [] hdepth hactive (.root nofun)

theorem popCell_of_cell {i : Nat} {vs : List Value} (h : m.active = .cell i :: vs) :
    popCell m = .ok i (m.withActive vs) := bind_ok (pop_of_cons h) _

/-- Storing in a cell that the stack refers to, up to the cell itself. -/
theorem store_of_cell {i : Nat} {v : Value} {vs : List Value} (h : m.active = .cell i :: v :: vs) :
    run .store m = writeCell i v (m.withActive vs) := by
  have hdeep : 2 ≤ m.active.length := by simp [h]
  have hstart : run .store m = (do
      let cell ← popCell
      let v ← pop
      writeCell cell v) m := bind_ok (require_of_deep hdeep) _
  have hrest : (m.withActive (v :: vs)).active = v :: vs := active_withActive m _
  rw [hstart, bind_ok (popCell_of_cell h), bind_ok (pop_of_cons hrest), withActive_withActive]

theorem store_of_some {i : Nat} {v : Value} {vs : List Value} {cells : Cells}
    (h : m.active = .cell i :: v :: vs) (hc : m.cells.set? i v = some cells) :
    run .store m = .ok () { m.withActive vs with cells } := by
  rw [store_of_cell h, writeCell_of_some ((congrArg (·.set? i v) (withActive_cells m vs)).trans hc)]

theorem outcome_store (hdepth : operands .store ≤ m.active.length) :
    Outcome m .store (run .store m) := by
  obtain ⟨c, v, vs, hactive⟩ := exists_of_two_le hdepth
  cases c with
  | cell i =>
    cases hc : m.cells.set? i v with
    | none =>
      rw [store_of_cell hactive,
        writeCell_of_none ((congrArg (·.set? i v) (withActive_cells m vs)).trans hc)]
      exact .storedNowhere hactive hc
    | some cells =>
      rw [store_of_some hactive hc]
      exact .stored hactive hc
  | number | text | word =>
    have hstart : run .store m = (do
        let cell ← popCell
        let v ← pop
        writeCell cell v) m := bind_ok (require_of_deep hdepth) _
    have hcell : popCell m = fail (.typeMismatch .variable _) (m.withActive (v :: vs)) :=
      bind_ok (pop_of_cons hactive) _
    rw [hstart, bind_error hcell]
    exact .mismatch [] hdepth hactive (.reference (.inl rfl) nofun)

/-- Reading a cell that the stack refers to, up to the cell itself. -/
theorem fetch_of_cell {i : Nat} {vs : List Value} (h : m.active = .cell i :: vs) :
    run .fetch m = (do push (← readCell i) : Act Unit) (m.withActive vs) :=
  bind_ok (popCell_of_cell h) _

theorem fetch_of_some {i : Nat} {v : Value} {vs : List Value} (h : m.active = .cell i :: vs)
    (hc : m.cells.get? i = some v) : run .fetch m = .ok () (m.withActive (v :: vs)) := by
  rw [fetch_of_cell h,
    bind_ok (readCell_of_some ((congrArg (·.get? i) (withActive_cells m vs)).trans hc)),
    push_apply, active_withActive, withActive_withActive]

theorem outcome_fetch (hdepth : operands .fetch ≤ m.active.length) :
    Outcome m .fetch (run .fetch m) := by
  obtain ⟨c, vs, hactive⟩ := List.exists_cons_of_length_pos hdepth
  cases c with
  | cell i =>
    cases hc : m.cells.get? i with
    | none =>
      rw [fetch_of_cell hactive,
        bind_error (readCell_of_none ((congrArg (·.get? i) (withActive_cells m vs)).trans hc))]
      exact .fetchedNowhere hactive hc
    | some v =>
      rw [fetch_of_some hactive hc]
      exact .fetched hactive hc
  | number | text | word =>
    have hcell : popCell m = fail (.typeMismatch .variable _) (m.withActive vs) :=
      bind_ok (pop_of_cons hactive) _
    have hrun : run .fetch m = fail (.typeMismatch .variable _) (m.withActive vs) :=
      bind_error hcell _
    rw [hrun]
    exact .mismatch [] hdepth hactive (.reference (.inr rfl) nofun)

theorem outcome_defineVariable (m : Machine) :
    Outcome m .defineVariable (run .defineVariable m) := by
  rcases nextWordRequired_cases m with ⟨t, rs, h⟩ | ⟨rs, h⟩
  · have hrun := bind_ok h fun token => (do
      let cell ← newCell (.number (Number.ofCount 0))
      let description := "Access the cell for variable " ++ token.text ++ "."
      discard (addWord ⟨token.text, false, token.location, description, " -- variable"⟩
        (.variable cell)) : Act Unit)
    have hstart : run .defineVariable m = _ := hrun
    rw [hstart]
    exact .variable h
  · have hrun : run .defineVariable m = fail .unexpectedEnd { m with readers := rs } :=
      bind_error h _
    rw [hrun]
    exact .nameless (Nat.zero_le _) rfl h

theorem outcome_defineConstant (hdepth : operands .defineConstant ≤ m.active.length) :
    Outcome m .defineConstant (run .defineConstant m) := by
  obtain ⟨v, vs, hactive⟩ := List.exists_cons_of_length_pos hdepth
  have hstart : run .defineConstant m = (do
      let token ← nextWordRequired
      let v ← pop
      let description := "Push the value of constant " ++ token.text ++ "."
      discard (addWord ⟨token.text, false, token.location, description, " -- value"⟩
        (.constant v)) : Act Unit) m := bind_ok (require_of_deep hdepth) _
  rw [hstart]
  rcases nextWordRequired_cases m with ⟨t, rs, h⟩ | ⟨rs, h⟩
  · have hpop : pop { m with readers := rs } =
        .ok v ({ m with readers := rs }.withActive vs) := pop_of_cons hactive
    rw [bind_ok h, bind_ok hpop]
    exact .constant hactive h
  · rw [bind_error h]
    exact .nameless hdepth rfl h

theorem outcome_startDefinition (m : Machine) :
    Outcome m .startDefinition (run .startDefinition m) := by
  rcases nextWordRequired_cases m with ⟨t, rs, h⟩ | ⟨rs, h⟩
  · have hrun : run .startDefinition m =
        startCompiling t.text t.location { m with readers := rs } := bind_ok h _
    rw [hrun]
    exact .opened h
  · have hrun : run .startDefinition m = fail .unexpectedEnd { m with readers := rs } :=
      bind_error h _
    rw [hrun]
    exact .nameless (Nat.zero_le _) rfl h

theorem outcome_textLiteral (m : Machine) : Outcome m .textLiteral (run .textLiteral m) := by
  rcases textUpTo_cases '"' m with ⟨s, rs, h⟩ | ⟨e, rs, h⟩
  · have hrun : run .textLiteral m = push (.text s) { m with readers := rs } := bind_ok h _
    rw [hrun]
    exact .text h
  · have hrun : run .textLiteral m = .error (.failed e) { m with readers := rs } := bind_error h _
    rw [hrun]
    exact .unterminated rfl h

theorem outcome_comment {b : BuiltIn} {d : Char}
    (hb : b = .parenComment ∧ d = ')' ∨ b = .lineComment ∧ d = '\n')
    (hrun : b.run = discard (textUpTo d)) : Outcome m b (b.run m) := by
  rw [hrun, discard_apply]
  rcases textUpTo_cases d m with ⟨s, rs, h⟩ | ⟨e, rs, h⟩ <;> rw [h]
  · exact .comment hb h
  · refine .unterminated ?_ h
    rcases hb with ⟨rfl, rfl⟩ | ⟨rfl, rfl⟩ <;> rfl

theorem outcome_blockComment (m : Machine) : Outcome m .blockComment (run .blockComment m) := by
  have hrun : run .blockComment m = skipWordsTo endsComment m := rfl
  rw [hrun]
  rcases skipWordsTo_cases endsComment m with ⟨rs, h⟩ | ⟨rs, h⟩ <;> rw [h]
  · exact .blockComment h
  · exact .unterminatedBlock h

theorem outcome_endDefinition (m : Machine) : Outcome m .endDefinition (run .endDefinition m) := by
  have hrun : run .endDefinition m = discard stopCompiling m := rfl
  rw [hrun, discard_apply]
  cases h : m.pending with
  | none =>
    rw [stopCompiling_of_none h]
    exact .notOpen h
  | some p =>
    rw [stopCompiling_of_some h]
    exact .closed h

/-- Nothing else can come of a built-in word. -/
theorem outcome (b : BuiltIn) (m : Machine) : Outcome m b (b.run m) := by
  by_cases hdepth : m.active.length < b.operands
  · rw [run_of_short hdepth]
    exact .underflow hdepth
  rw [Nat.not_lt] at hdepth
  cases b with
  | dup =>
    obtain ⟨v, vs, hactive⟩ := List.exists_cons_of_length_pos hdepth
    have hrun : run .dup m = .ok () (m.withActive (v :: v :: vs)) := by
      simp [run, bind_apply, pop_of_cons hactive, push_apply, active_withActive,
        withActive_withActive]
    rw [hrun]
    exact .rearranged (by rw [hactive]; rfl)
  | drop =>
    obtain ⟨v, vs, hactive⟩ := List.exists_cons_of_length_pos hdepth
    have hrun : run .drop m = .ok () (m.withActive vs) := by
      simp [run, discard_apply, pop_of_cons hactive]
    rw [hrun]
    exact .rearranged (by rw [hactive]; rfl)
  | swap =>
    obtain ⟨w, v, vs, hactive⟩ := exists_of_two_le hdepth
    have hdepth : require 2 m = .ok () m := require_of_deep hdepth
    have hrun : run .swap m = .ok () (m.withActive (v :: w :: vs)) := by
      simp [run, bind_apply, hdepth, pop_apply, hactive, push_apply,
        active_withActive, withActive_withActive]
    rw [hrun]
    exact .rearranged (by rw [hactive]; rfl)
  | «over» =>
    obtain ⟨w, v, vs, hactive⟩ := exists_of_two_le hdepth
    have hdepth : require 2 m = .ok () m := require_of_deep hdepth
    have hrun : run .over m = .ok () (m.withActive (v :: w :: v :: vs)) := by
      simp [run, bind_apply, hdepth, pop_apply, hactive, push_apply,
        active_withActive, withActive_withActive]
    rw [hrun]
    exact .rearranged (by rw [hactive]; rfl)
  | rot =>
    obtain ⟨w, v, u, vs, hactive⟩ := exists_of_three_le hdepth
    have hdepth : require 3 m = .ok () m := require_of_deep hdepth
    have hrun : run .rot m = .ok () (m.withActive (u :: w :: v :: vs)) := by
      simp [run, bind_apply, hdepth, pop_apply, hactive, push_apply,
        active_withActive, withActive_withActive]
    rw [hrun]
    exact .rearranged (by rw [hactive]; rfl)
  | clear => exact .rearranged rfl
  | depth => exact .rearranged rfl
  | add | subtract | multiply | divide => exact outcome_arithmetic rfl rfl hdepth rfl
  | sqrt => exact outcome_sqrt hdepth
  | defineVariable => exact outcome_defineVariable m
  | defineConstant => exact outcome_defineConstant hdepth
  | store => exact outcome_store hdepth
  | fetch => exact outcome_fetch hdepth
  | textLiteral => exact outcome_textLiteral m
  | blockComment => exact outcome_blockComment m
  | parenComment => exact outcome_comment (.inl ⟨rfl, rfl⟩) rfl
  | lineComment => exact outcome_comment (.inr ⟨rfl, rfl⟩) rfl
  | startDefinition => exact outcome_startDefinition m
  | endDefinition => exact outcome_endDefinition m
  | print =>
    obtain ⟨v, vs, hactive⟩ := List.exists_cons_of_length_pos hdepth
    have hrun : run .print m = write (v.render ++ "\n") (m.withActive vs) :=
      bind_ok (pop_of_cons hactive) _
    rw [hrun]
    exact .wrote (by simp [writing?, hactive])
  | printStack => exact .wrote rfl
  | printWords => exact .wrote rfl

/-- A word that only rearranges the active stack adds numbers at most. -/
theorem mem_of_rearranged {b : BuiltIn} {vs ws : List Value} (h : b.rearranged? vs = some ws) :
    ∀ v ∈ ws, v ∈ vs ∨ ∃ x, v = .number x := by
  unfold rearranged? at h
  split at h
  case h_9 =>
    obtain ⟨f, -, rfl⟩ := Option.map_eq_some_iff.mp h
    grind
  all_goals grind

/-- The words that work on cells do more than rearrange the stack. -/
theorem not_cells_of_rearranged {b : BuiltIn} {vs ws : List Value}
    (h : b.rearranged? vs = some ws) : b ≠ .store ∧ b ≠ .fetch ∧ b ≠ .defineVariable := by
  unfold rearranged? at h
  split at h
  case h_9 =>
    obtain ⟨f, hf, -⟩ := Option.map_eq_some_iff.mp h
    refine ⟨?_, ?_, ?_⟩ <;> rintro rfl <;> cases hf
  case h_10 => cases h
  all_goals exact ⟨nofun, nofun, nofun⟩

/-! ## Failures -/

/-- The word is to write something, and the output fails. -/
def WriteFails (b : BuiltIn) (m : Machine) : Prop :=
  ∃ s n, b.writing? m = some (s, n) ∧ s ≠ "" ∧ m.outputFails = true

/-- Writing takes at most a value from the stack. -/
theorem machine_of_writing {b : BuiltIn} {s : String} {n : Machine}
    (h : b.writing? m = some (s, n)) : ∃ vs, (∀ v ∈ vs, v ∈ m.active) ∧ n = m.withActive vs := by
  cases b with
  | print =>
    obtain ⟨v, -, hv⟩ := Option.map_eq_some_iff.mp h
    exact ⟨_, fun _ => List.mem_of_mem_tail, (congrArg Prod.snd hv).symm⟩
  | printStack | printWords =>
    refine ⟨m.active, fun _ h => h, ?_⟩
    rw [withActive_active]
    exact (congrArg Prod.snd (Option.some.inj h)).symm
  | _ => cases h

theorem outputFails_of_writing {b : BuiltIn} {s : String} {n : Machine}
    (h : b.writing? m = some (s, n)) : n.outputFails = m.outputFails := by
  obtain ⟨vs, -, rfl⟩ := machine_of_writing h
  unfold withActive
  cases m.mode <;> rfl

/-- A word without its operand, its name or its cell fails at the place and in the calls that the
machine is at. -/
theorem halt_of_fail {c : Cause} {halt : Halt} {n k : Machine}
    (h : .error halt n = (fail c k : EStateM.Result Halt Machine Unit))
    (hplace : k.location = m.location) (hcalls : k.calls = m.calls) :
    halt = .failed ⟨m.location, c, some m.calls⟩ := by
  rw [← hplace, ← hcalls]
  exact (EStateM.Result.error.inj h).1

/-- A built-in word stays where it is called, whatever comes of it. -/
theorem run_place (b : BuiltIn) (m : Machine) :
    (left (b.run m)).location = m.location ∧ (left (b.run m)).calls = m.calls := by
  have ho := outcome b m
  generalize b.run m = x at ho
  cases ho with
  | mismatch | rearranged | stored | storedNowhere | fetched | fetchedNowhere =>
    exact withActive_place m _
  | constant | text => exact withActive_place { m with readers := _ } _
  | wrote hw =>
    obtain ⟨vs, -, rfl⟩ := machine_of_writing hw
    rw [write_apply]
    split <;> exact withActive_place m vs
  | underflow | nameless | «variable» | opened | comment | unterminated | blockComment
  | unterminatedBlock | closed | notOpen => exact ⟨rfl, rfl⟩

/-- A word that fails does so where its machine stands, unless it lacks a delimiter or an
output. -/
theorem run_failed {b : BuiltIn} {halt : Halt} {n : Machine} (h : b.run m = .error halt n) :
    (∃ c, halt = .failed ⟨m.location, c, some m.calls⟩) ∨
    (∃ d, b.delimiter? = some d ∧ textUpTo d m = .error halt n) ∨
    (b.WriteFails m ∧ halt = .failed (.ofIo "sink closed")) := by
  have ho := outcome b m
  rw [h] at ho
  generalize hx : EStateM.Result.error halt n = x at ho
  cases ho with
  | underflow | nameless | unterminatedBlock | notOpen =>
    exact .inl ⟨_, halt_of_fail hx rfl rfl⟩
  | mismatch | storedNowhere | fetchedNowhere =>
    obtain ⟨hplace, hcalls⟩ := withActive_place m _
    exact .inl ⟨_, halt_of_fail hx hplace hcalls⟩
  | @unterminated _ d e rs hb ht =>
    obtain ⟨rfl, rfl⟩ := EStateM.Result.error.inj hx
    exact .inr (.inl ⟨d, hb, ht⟩)
  | @wrote _ s k hw =>
    have hfails := outputFails_of_writing hw
    rw [write_apply] at hx
    split at hx
    · next hclosed =>
      obtain ⟨rfl, -⟩ := EStateM.Result.error.inj hx
      exact .inr (.inr ⟨⟨s, k, hw, hclosed.2, hfails ▸ hclosed.1⟩, rfl⟩)
    · cases hx
  | rearranged | stored | fetched | «variable» | constant | opened | text | comment
  | blockComment | closed => cases hx

/-- A word that writes does nothing else once it has its operand. -/
theorem run_of_writing {b : BuiltIn} {s : String} {n : Machine} (h : b.writing? m = some (s, n)) :
    b.run m = write s n := by
  cases b with
  | print =>
    obtain ⟨v, hv, hpair⟩ := Option.map_eq_some_iff.mp h
    obtain ⟨rfl, rfl⟩ := Prod.mk.inj hpair
    obtain ⟨vs, hactive⟩ := List.head?_eq_some_iff.mp hv
    rw [hactive]
    exact bind_ok (pop_of_cons hactive) _
  | printStack | printWords =>
    obtain ⟨rfl, rfl⟩ := Prod.mk.inj (Option.some.inj h)
    rfl
  | _ => cases h

theorem run_of_writeFails {b : BuiltIn} (h : b.WriteFails m) :
    ∃ n, b.run m = .error (.failed (.ofIo "sink closed")) n := by
  obtain ⟨s, n, hw, hs, hfails⟩ := h
  refine ⟨n, ?_⟩
  rw [run_of_writing hw, write_apply, if_pos ⟨(outputFails_of_writing hw).trans hfails, hs⟩]

end BuiltIn
end WordStack
