import WordStack.Proofs.Alterations

/-
  The history of a machine that has only run texts: every built-in word that was executed, in
  order, each with the machine that it was executed on. `wordExecutions` follows the execution of
  a word, `runExecutions` that of a text, up to where it ends or fails.
  `Recorded`: the machine with its history over any number of runs. What one built-in word, one
  value pushed and one word collected keep true of a machine with its history is true of every
  recorded machine (`OutlastsCalls.execute` for a word, `OutlastsRuns.recorded` for the runs).
-/
namespace WordStack

open Machine

/-- A built-in word that was executed, and the machine that it was executed on. -/
structure Execution where
  builtIn : BuiltIn
  before : Machine

namespace Execution

def result (x : Execution) : EStateM.Result Halt Machine Unit := x.builtIn.run x.before

def after (x : Execution) : Machine := left x.result

end Execution

namespace Machine

/-! ## What is executed -/

/-- What is executed after an act, which is nothing if the act stops. -/
def continued (x : EStateM.Result Halt Machine Unit) (rest : Machine → List Execution) :
    List Execution :=
  match x with
  | .ok _ m => rest m
  | .error _ _ => []

mutual

def wordExecutions (l : Location) : Word → Machine → List Execution
  | ⟨_, name, _, _, _, _, definition⟩, m => definitionExecutions definition (enterCall ⟨name, l⟩ m)
termination_by structural w => w

def definitionExecutions : Definition → Machine → List Execution
  | .builtIn b, m => [⟨b, m⟩]
  | .host _, _ | .variable _, _ | .constant _, _ => []
  | .compiled body, m => itemsExecutions (m.location.getD .unspecified) body m
termination_by structural d => d

def itemsExecutions (l : Location) : List Value → Machine → List Execution
  | [], _ => []
  | .word w :: rest, m =>
    wordExecutions l w m ++ continued (execute .absent l w m) (itemsExecutions l rest)
  | v :: rest, m => itemsExecutions l rest (m.withActive (v :: m.active))
termination_by structural vs => vs

end

/-- The built-in words that are executed for a word of a text. -/
def tokenExecutions (t : Token) (m : Machine) : List Execution :=
  match m.dictionary.get? (Text.uppercase t.text) with
  | some w =>
    if w.isImmediate ∨ m.mode = .interpreting then
      wordExecutions t.location w { m with location := some t.location }
    else []
  | none => []

def wordsExecutions : Nat → Machine → List Execution
  | 0, _ => []
  | k + 1, m =>
    match nextWord m with
    | .ok (some t) n => tokenExecutions t n ++ continued (runToken .absent t n) (wordsExecutions k)
    | _ => []

/-- The built-in words that are executed while a text is run. -/
def runExecutions (path text : String) (m : Machine) : List Execution :=
  let r := Reader.ofText path text
  wordsExecutions (r.rest.length + 1) (pushReader r m)

end Machine

/-- A machine that has only run texts, with all that was executed on it since it had only the
built-in words. -/
inductive Recorded : List Execution → Machine → Prop
  | fresh : Recorded [] .fresh
  | run {es : List Execution} {m : Machine} (h : Recorded es m) (depth : Nat) (path text : String) :
    Recorded (es ++ runExecutions path text m) (left (Machine.run (.nested depth) path text m))
  | setOutputFails {es : List Execution} {m : Machine} (h : Recorded es m) (fails : Bool) :
    Recorded es { m with outputFails := fails }
  | observe {es : List Execution} {m : Machine} (h : Recorded es m) :
    Recorded es (Session.beginStep m)

theorem Recorded.scripted {es : List Execution} {m : Machine} (h : Recorded es m) : Scripted m := by
  induction h with
  | fresh => exact .fresh
  | run _ depth path text ih => exact ih.run depth path text
  | setOutputFails _ fails ih => exact ih.setOutputFails fails
  | observe _ ih => exact ih.observe

/-- Every machine that has only run texts has a history. -/
theorem Scripted.recorded {m : Machine} (h : Scripted m) : ∃ es, Recorded es m := by
  induction h with
  | fresh => exact ⟨_, .fresh⟩
  | run _ depth path text ih =>
    obtain ⟨es, ih⟩ := ih
    exact ⟨_, ih.run depth path text⟩
  | setOutputFails _ fails ih =>
    obtain ⟨es, ih⟩ := ih
    exact ⟨es, ih.setOutputFails fails⟩
  | observe _ ih =>
    obtain ⟨es, ih⟩ := ih
    exact ⟨es, ih.observe⟩

/-! ## What outlasts the execution of a word -/

/-- What is true of a machine and its history outlasts the calls, the values and the built-in
words that come with words of `W`. -/
structure OutlastsCalls (Q : List Execution → Machine → Prop) (W : Word → Prop) : Prop where
  enter : ∀ {es m} c, Q es m → Q es (enterCall c m)
  leave : ∀ {es m}, Q es m → Q es (leaveCall m)
  builtIn : ∀ {es m w b}, W w → w.definition = .builtIn b → Q es m →
    Q (es ++ [⟨b, m⟩]) (left (b.run m))
  «variable» : ∀ {es m w i}, W w → w.definition = .variable i → Q es m →
    Q es (m.withActive (.cell i :: m.active))
  value : ∀ {es m w v}, W w → v ∈ w.definition.values → Q es m →
    Q es (m.withActive (v :: m.active))

variable {Q : List Execution → Machine → Prop} {W : Word → Prop} {es : List Execution} {m : Machine}

namespace Machine

theorem wordExecutions_eq (l : Location) (w : Word) (m : Machine) :
    wordExecutions l w m = definitionExecutions w.definition (enterCall ⟨w.name, l⟩ m) := by
  cases w
  rfl

theorem tokenExecutions_of_executed {t : Token} {w : Word}
    (hw : m.dictionary.get? (Text.uppercase t.text) = some w)
    (hexec : w.isImmediate = true ∨ m.mode = .interpreting) :
    tokenExecutions t m = wordExecutions t.location w { m with location := some t.location } := by
  unfold tokenExecutions
  rw [hw]
  exact if_pos hexec

theorem tokenExecutions_of_collected {t : Token} {w : Word}
    (hw : m.dictionary.get? (Text.uppercase t.text) = some w) (himm : w.isImmediate = false)
    (hmode : m.mode = .compiling) : tokenExecutions t m = [] := by
  unfold tokenExecutions
  rw [hw]
  exact if_neg (by simp [himm, hmode])

theorem tokenExecutions_of_none {t : Token}
    (hw : m.dictionary.get? (Text.uppercase t.text) = none) : tokenExecutions t m = [] := by
  unfold tokenExecutions
  rw [hw]

end Machine

/-- An act and what comes after it. -/
theorem outlasting_bind {x : Act Unit} {f : Act Unit} {ds : List Execution}
    {rest : Machine → List Execution} (h : Q (es ++ ds) (left (x m)))
    (hf : ∀ {es n}, Q es n → Q (es ++ rest n) (left (f n))) :
    Q (es ++ (ds ++ continued (x m) rest)) (left ((do x; f) m)) := by
  rw [bind_apply, ← List.append_assoc]
  generalize x m = rx at h
  cases rx with
  | ok _ n => exact hf h
  | error halt n =>
    unfold continued
    rw [List.append_nil]
    exact h

/-- A body keeps what its words and its values keep. -/
theorem outlasting_items {l : Location} {vs : List Value}
    (hvalues : ∀ v ∈ vs, ∀ {es m}, Q es m → Q es (m.withActive (v :: m.active)))
    (hwords : ∀ u, .word u ∈ vs → ∀ {es m}, Q es m →
      Q (es ++ wordExecutions l u m) (left (execute .absent l u m))) (h : Q es m) :
    Q (es ++ itemsExecutions l vs m) (left (executeItems .absent l vs m)) := by
  induction vs generalizing es m with
  | nil =>
    rw [itemsExecutions, List.append_nil]
    exact h
  | cons v vs ih =>
    have hrest : ∀ {es n}, Q es n →
        Q (es ++ itemsExecutions l vs n) (left (executeItems .absent l vs n)) :=
      fun h => ih (fun x hx => hvalues x (List.mem_cons_of_mem _ hx))
        (fun u hu => hwords u (List.mem_cons_of_mem _ hu)) h
    cases v with
    | word u => exact outlasting_bind (hwords u List.mem_cons_self h) hrest
    | number | text | cell => exact hrest (hvalues _ List.mem_cons_self h)

/-- Executing a word keeps what its parts keep. -/
theorem OutlastsCalls.execute (hQ : OutlastsCalls Q W) {w : Word} (hw : w.Within W) (h : Q es m)
    (l : Location) : Q (es ++ wordExecutions l w m) (left (execute .absent l w m)) := by
  induction w using Word.uses_induction generalizing es m l with
  | h w ih =>
    have hself := hw.self
    have hused : ∀ u, .word u ∈ w.definition.values → ∀ l {es m}, Q es m →
        Q (es ++ wordExecutions l u m) (left (execute .absent l u m)) :=
      fun u hu l es m h => ih u hu (hw.of_uses hu) h l
    have hbuiltIn : ∀ {es m b}, w.definition = .builtIn b → Q es m →
        Q (es ++ [⟨b, m⟩]) (left (b.run m)) := hQ.builtIn hself
    have hvariable : ∀ {es m i}, w.definition = .variable i → Q es m →
        Q es (m.withActive (.cell i :: m.active)) := hQ.variable hself
    have hvalue : ∀ {es m v}, v ∈ w.definition.values → Q es m →
        Q es (m.withActive (v :: m.active)) := hQ.value hself
    have hentered := hQ.enter ⟨w.name, l⟩ h
    rw [execute_eq, wordExecutions_eq]
    unfold duringCall
    rw [left_between]
    apply hQ.leave
    generalize enterCall ⟨w.name, l⟩ m = n at hentered
    generalize w.definition = d at hused hbuiltIn hvariable hvalue
    cases d with
    | builtIn b => exact hbuiltIn rfl hentered
    | host body =>
      rw [definitionExecutions, List.append_nil]
      exact hentered
    | «variable» i =>
      rw [definitionExecutions, List.append_nil]
      exact hvariable rfl hentered
    | constant v =>
      rw [definitionExecutions, List.append_nil]
      exact hvalue List.mem_cons_self hentered
    | compiled body =>
      exact outlasting_items (fun v hv _ _ h => hvalue hv h) (fun u hu _ _ h => hused u hu _ h)
        hentered

/-! ## What outlasts runs -/

/-- What is true of a machine and its history outlasts whatever a text can do. -/
structure OutlastsRuns (Q : List Execution → Machine → Prop) : Prop where
  aside : ∀ {es m} readers location calls events output outputFails replies, Q es m →
    Q es { m with readers, location, calls, events, output, outputFails, replies }
  number : ∀ {es m} x, Q es m → Q es (m.withActive (.number x :: m.active))
  collect : ∀ {es m w key}, (key, w) ∈ m.dictionary.entries → Q es m →
    Q es { m with buffer := .word w :: m.buffer }
  execute : ∀ {es m w key} l, (key, w) ∈ m.dictionary.entries → Q es m →
    Q (es ++ wordExecutions l w m) (left (execute .absent l w m))

namespace OutlastsRuns

theorem token (hQ : OutlastsRuns Q) (h : Q es m) (t : Token) :
    Q (es ++ tokenExecutions t m) (left (runToken .absent t m)) := by
  have hplaced : Q es { m with location := some t.location } := hQ.aside _ _ _ _ _ _ _ h
  have hnothing : ∀ {n}, Q es n → Q (es ++ []) n := fun h => by rwa [List.append_nil]
  have hout := runToken_outcome .absent t m
  generalize runToken .absent t m = x at hout
  cases hout with
  | executed hw hexec =>
    rw [tokenExecutions_of_executed hw hexec]
    exact hQ.execute t.location (Dictionary.mem_of_get? hw) hplaced
  | @collected w hw himm hmode =>
    rw [tokenExecutions_of_collected hw himm hmode]
    have hnoted :
        Q es ({ m with location := some t.location }.note (.compiledReference w.name)) :=
      hQ.aside _ _ _ _ _ _ _ hplaced
    exact hnothing (hQ.collect (Dictionary.mem_of_get? hw) hnoted)
  | @number x hw =>
    rw [tokenExecutions_of_none hw]
    exact hnothing (hQ.number x (hQ.aside _ _ _ _ _ _ _ hplaced))
  | unknown hw =>
    rw [tokenExecutions_of_none hw]
    exact hnothing hplaced

theorem words (hQ : OutlastsRuns Q) (h : Q es m) (k : Nat) :
    Q (es ++ wordsExecutions k m) (left (runWords .absent k m)) := by
  induction k generalizing es m with
  | zero =>
    rw [wordsExecutions, List.append_nil]
    exact h
  | succ k ih =>
    obtain ⟨t, rs, hnext⟩ := nextWord_ok m
    have hread : Q es { m with readers := rs } := hQ.aside _ _ _ _ _ _ _ h
    unfold wordsExecutions runWords
    rw [bind_ok hnext, hnext]
    cases t with
    | none =>
      rw [List.append_nil]
      exact hread
    | some t => exact outlasting_bind (hQ.token hread t) fun h => ih h

theorem run (hQ : OutlastsRuns Q) (h : Q es m) (path text : String) :
    Q (es ++ runExecutions path text m) (left (run .absent path text m)) := by
  unfold runExecutions Machine.run Machine.withReader
  rw [left_between]
  exact hQ.aside _ _ _ _ _ _ _ (hQ.words (hQ.aside _ _ _ _ _ _ _ h) _)

/-- What is true to begin with and outlasts whatever a text can do is true of every recorded
machine. -/
theorem recorded (hQ : OutlastsRuns Q) (hfresh : Q [] .fresh) (h : Recorded es m) : Q es m := by
  induction h with
  | fresh => exact hfresh
  | run h depth path text ih =>
    rw [run_of_scripted h.scripted (.nested depth) .absent]
    exact hQ.run ih path text
  | setOutputFails _ fails ih => exact hQ.aside _ _ _ _ _ _ _ ih
  | observe _ ih => exact hQ.aside _ _ _ _ _ _ _ ih

end OutlastsRuns
end WordStack
