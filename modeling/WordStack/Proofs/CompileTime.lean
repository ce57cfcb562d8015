import WordStack.Proofs.Bodies
import WordStack.Proofs.Scripted
import WordStack.Proofs.SerialNumbers

/-
  What compiling can see. While a definition is open, numbers and words that are not immediate are
  collected, and the immediate words work on the compile buffer, so nothing reads or writes what
  the words work on later: the data stack, what the cells hold and the output.
  `readDefinition` is the part of a run that goes up to the end of the first definition. One
  relation carries both halves of `compile_time_apart`: the machines are the same to the compiler,
  and the first still has the work it began with (`Apart`). A word of the text keeps it
  (`runToken_compiling`, and `runToken_closing` for one that closes the definition), and so does
  the part as a whole.
-/
namespace WordStack

open Machine

/-- The machines are the same to the compiler. They may differ in the data stack, in what the
cells hold, in the output and the reports and in the serial numbers of the words. -/
structure SameCompiler (m n : Machine) : Prop where
  buffer : m.buffer.map Value.unnumbered = n.buffer.map Value.unnumbered
  mode : m.mode = n.mode
  pending : m.pending = n.pending
  location : m.location = n.location
  dictionary : m.dictionary.unnumbered = n.dictionary.unnumbered
  size : m.cells.size = n.cells.size

/-- The second machine has the output and the data stack of the first, and its cells hold what
they held; it may have more cells. -/
structure SparesWork (m n : Machine) : Prop where
  output : n.output = m.output
  data : n.data = m.data
  cells : ∀ i < m.cells.size, n.cells.get? i = m.cells.get? i
  size_le : m.cells.size ≤ n.cells.size

theorem SparesWork.congr {m n n' : Machine} (h : SparesWork m n) (houtput : n'.output = n.output)
    (hdata : n'.data = n.data) (hcells : n'.cells = n.cells) : SparesWork m n' where
  output := houtput.trans h.output
  data := hdata.trans h.data
  cells := hcells ▸ h.cells
  size_le := hcells ▸ h.size_le

/-- Both acts succeed, or both fail with the same error, and what they leave is related by `R`. -/
inductive SameResult (R : Machine → Machine → Prop) :
    EStateM.Result Halt Machine Unit → EStateM.Result Halt Machine Unit → Prop
  | ok {m n : Machine} (left : R m n) : SameResult R (.ok () m) (.ok () n)
  | failed {e : Error} {m n : Machine} (left : R m n) :
    SameResult R (.error (.failed e) m) (.error (.failed e) n)

namespace SameResult

variable {R S : Machine → Machine → Prop} {x y : EStateM.Result Halt Machine Unit}

theorem mono (h : SameResult R x y) (hRS : ∀ m n, R m n → S m n) : SameResult S x y := by
  cases h with
  | ok left => exact .ok (hRS _ _ left)
  | failed left => exact .failed (hRS _ _ left)

theorem between {f f' g g' : Machine → Machine} {x y : Act Unit} {m n : Machine}
    (h : SameResult R (x (f m)) (y (g n))) (hleave : ∀ m n, R m n → S (f' m) (g' n)) :
    SameResult S (between f f' x m) (Machine.between g g' y n) := by
  unfold Machine.between
  generalize x (f m) = rx at h
  generalize y (g n) = ry at h
  cases h with
  | ok left => exact .ok (hleave _ _ left)
  | failed left => exact .failed (hleave _ _ left)

theorem ends {p : Machine → Prop} (h : SameResult R x y) (hp : ∀ m n, R m n → p m) : Ends p x := by
  cases h with
  | ok left => exact .ok (hp _ _ left)
  | failed left => exact .failed (hp _ _ left)

end SameResult

namespace Machine

/-- Reads words until one that closes a definition has been executed or the text ends, at most
this many. -/
def definitionWords (host : Host) : Nat → Act Unit
  | 0 => throw .exhausted
  | k + 1 => do
    match ← nextWord with
    | none => pure ()
    | some token =>
      let m ← get
      runToken host token
      if m.dictionary.Stands token.text .endDefinition then pure ()
      else definitionWords host k

/-- Reads words until one that closes a definition has been executed or the text ends. -/
def readDefinition (host : Host) : Act Unit := fun m => definitionWords host (m.unread + 1) m

/-- The part of a run that goes up to the end of the first definition. -/
def runDefinition (host : Host) (path text : String) : Act Unit :=
  withReader (.ofText path text) (readDefinition host)

variable {depth : Nat} {m₀ m n : Machine}

/-! ## A part of the run -/

/-- At the end of a text there is no further word. -/
theorem nextWord_again (h : nextWord m = .ok none n) : nextWord n = .ok none n := by
  cases hm : m.readers with
  | nil =>
    rw [nextWord_of_nil hm] at h
    obtain rfl : m = n := by injection h
    exact nextWord_of_nil hm
  | cons r rs =>
    rw [nextWord_of_cons hm] at h
    have hnone : r.nextWord.1 = none := by injection h
    have hn : { m with readers := r.nextWord.2 :: rs } = n := by injection h
    have hblank := r.nextWord_eq_none_iff.mp hnone
    rw [Reader.nextWord_of_blank hblank, Reader.skipBlanks_of_blank hblank] at hn
    subst hn
    rfl

theorem readOn_of_end (host : Host) (h : nextWord m = .ok none n) : readOn host m = .ok () n :=
  bind_ok h _

theorem definitionWords_of_none {rs : List Reader} (host : Host) (k : Nat)
    (hnext : nextWord m = .ok none { m with readers := rs }) :
    definitionWords host (k + 1) m = .ok () { m with readers := rs } :=
  bind_ok hnext _

theorem definitionWords_of_token {t : Token} {rs : List Reader} (host : Host) (k : Nat)
    (hnext : nextWord m = .ok (some t) { m with readers := rs }) :
    definitionWords host (k + 1) m = (do
      runToken host t
      if m.dictionary.Stands t.text .endDefinition then pure () else definitionWords host k)
        { m with readers := rs } :=
  bind_ok hnext _

/-- Reading up to the end of the first definition and then on is reading on. -/
theorem definitionWords_readOn {k : Nat} (hk : m.unread < k) :
    (do definitionWords (.nested depth) k; readOn (.nested depth)) m =
      readOn (.nested depth) m := by
  induction k generalizing m with
  | zero => exact absurd hk (Nat.not_lt_zero _)
  | succ k ih =>
    obtain ⟨t, rs, hnext⟩ := nextWord_ok m
    cases t with
    | none =>
      rw [bind_ok (definitionWords_of_none _ k hnext), readOn_of_end _ hnext,
        readOn_of_end _ (nextWord_again hnext)]
    | some t =>
      rw [bind_apply, definitionWords_of_token _ k hnext, readOn_apply _ m]
      unfold runWords
      rw [bind_ok hnext]
      dsimp only
      cases hrun : runToken (.nested depth) t { m with readers := rs } with
      | error halt n => rw [bind_error hrun, bind_error hrun]
      | ok _ n =>
        have hlt := unread_runToken_lt hnext hrun
        rw [bind_ok hrun, bind_ok hrun, runWords_eq_readOn hlt]
        by_cases hclose : m.dictionary.Stands t.text .endDefinition
        · rw [if_pos hclose]
          rfl
        · rw [if_neg hclose, ← bind_apply (definitionWords _ k) fun _ => readOn _]
          exact ih (by omega)

theorem runToken_immediate {t : Token} (host : Host) {v : Word} {b : BuiltIn}
    (hd : m.dictionary.get? t.text = some v) (himm : v.isImmediate = true)
    (hb : v.definition = .builtIn b) :
    runToken host t m =
      duringCall ⟨v.name, t.location⟩ b.run { m with location := some t.location } := by
  refine (runToken_executed host hd (.inl himm) m.readers m.location m.events).trans ?_
  rw [execute_eq, hb]
  rfl

theorem mode_of_stopCompiling (h : discard stopCompiling m = .ok () n) :
    n.mode = .interpreting := by
  rw [discard_apply] at h
  cases hp : m.pending with
  | none =>
    rw [stopCompiling_of_none hp] at h
    cases h
  | some p =>
    rw [stopCompiling_of_some hp] at h
    cases h
    rfl

theorem mode_of_runToken_closing {t : Token} {host : Host}
    (hend : m.dictionary.Stands t.text .endDefinition) (hrun : runToken host t m = .ok () n) :
    n.mode = .interpreting := by
  obtain ⟨v, hv, himm, hdefinition⟩ := hend
  rw [runToken_immediate host hv himm hdefinition] at hrun
  unfold duringCall between at hrun
  cases hstop : BuiltIn.endDefinition.run
      (enterCall ⟨v.name, t.location⟩ { m with location := some t.location }) with
  | error halt m' =>
    rw [hstop] at hrun
    cases hrun
  | ok _ m' =>
    rw [hstop] at hrun
    cases hrun
    exact mode_of_stopCompiling (n := m') hstop

/-- Unless it fails, the part up to the end of a definition leaves no definition open or nothing
to read. -/
theorem closed_or_end {k : Nat} {host : Host} (h : definitionWords host k m = .ok () n) :
    n.mode = .interpreting ∨ nextWord n = .ok none n := by
  induction k generalizing m with
  | zero => cases h
  | succ k ih =>
    obtain ⟨t, rs, hnext⟩ := nextWord_ok m
    cases t with
    | none =>
      rw [definitionWords_of_none _ k hnext] at h
      cases h
      exact .inr (nextWord_again hnext)
    | some t =>
      rw [definitionWords_of_token _ k hnext, bind_apply] at h
      cases hrun : runToken host t { m with readers := rs } with
      | error halt m' =>
        rw [hrun] at h
        cases h
      | ok _ m' =>
        rw [hrun] at h
        by_cases hend : m.dictionary.Stands t.text .endDefinition
        · rw [if_pos hend] at h
          cases h
          exact .inl (mode_of_runToken_closing (m := { m with readers := rs }) hend hrun)
        · rw [if_neg hend] at h
          exact ih h

/-- A run is its part up to the end of the first definition, and what is read on after it. -/
theorem run_eq_readDefinition (depth : Nat) (path text : String) :
    run (.nested depth) path text = withReader (.ofText path text) (do
      readDefinition (.nested depth)
      readOn (.nested depth)) := by
  rw [run_eq]
  refine congrArg (withReader (.ofText path text)) (funext fun m => ?_)
  exact (definitionWords_readOn (Nat.lt_succ_self _)).symm

/-- A part that leaves the definition open is the whole run. -/
theorem run_eq_runDefinition {path text : String}
    (hopen : (left (runDefinition (.nested depth) path text m)).mode = .compiling) :
    run (.nested depth) path text m = runDefinition (.nested depth) path text m := by
  rw [run_eq_readDefinition]
  unfold runDefinition withReader between at hopen ⊢
  cases hpart : readDefinition (.nested depth) (pushReader (.ofText path text) m) with
  | error halt n => rw [bind_error hpart]
  | ok _ n =>
    rw [hpart] at hopen
    have hmode : n.mode = .compiling := hopen
    rcases closed_or_end hpart with hclosed | hend
    · rw [hclosed] at hmode
      cases hmode
    · rw [bind_ok hpart, readOn_of_end _ hend]

end Machine

/-! ## What compiling keeps -/

/-- Every immediate word of the dictionary is a built-in word that reads on in the text. -/
def Machine.ImmediatesBuiltIn (m : Machine) : Prop :=
  ∀ e ∈ m.dictionary.entries, e.2.isImmediate = true →
    ∃ b : BuiltIn, e.2.definition = .builtIn b ∧ b.isImmediate = true

/-- The machines are the same to the compiler and read the same, and the first has spared what
there was to work on. -/
structure Apart (m₀ m n : Machine) : Prop where
  compiler : SameCompiler m n
  spared : SparesWork m₀ m
  calls : m.calls = n.calls
  readers : m.readers = n.readers
  immediates : m.ImmediatesBuiltIn

namespace Apart

variable {m₀ m n : Machine}

theorem withContext (h : Apart m₀ m n) {l k : Option Location} (hl : l = k) {cs ds : List Call}
    (hcs : cs = ds) {rs ss : List Reader} (hrs : rs = ss) (es fs : List Event) :
    Apart m₀ { m with location := l, calls := cs, readers := rs, events := es }
      { n with location := k, calls := ds, readers := ss, events := fs } :=
  ⟨⟨h.compiler.buffer, h.compiler.mode, h.compiler.pending, hl, h.compiler.dictionary,
    h.compiler.size⟩, h.spared.congr rfl rfl rfl, hcs, hrs, h.immediates⟩

theorem reading (h : Apart m₀ m n) (rs : List Reader) :
    Apart m₀ { m with readers := rs } { n with readers := rs } :=
  h.withContext h.compiler.location h.calls rfl m.events n.events

theorem noting (h : Apart m₀ m n) (e f : Event) : Apart m₀ (m.note e) (n.note f) :=
  h.withContext h.compiler.location h.calls h.readers _ _

theorem entering (h : Apart m₀ m n) (c : Call) : Apart m₀ (enterCall c m) (enterCall c n) :=
  h.withContext h.compiler.location (congrArg (c :: ·) h.calls) h.readers _ _

theorem leaving (h : Apart m₀ m n) : Apart m₀ (leaveCall m) (leaveCall n) :=
  h.withContext h.compiler.location (congrArg List.tail h.calls) h.readers m.events n.events

theorem withBuffer (h : Apart m₀ m n) {vs ws : List Value}
    (hvs : vs.map Value.unnumbered = ws.map Value.unnumbered) :
    Apart m₀ { m with buffer := vs } { n with buffer := ws } :=
  ⟨⟨hvs, h.compiler.mode, h.compiler.pending, h.compiler.location, h.compiler.dictionary,
    h.compiler.size⟩, h.spared.congr rfl rfl rfl, h.calls, h.readers, h.immediates⟩

theorem withPending (h : Apart m₀ m n) (p : Option Pending) (mode : Mode) :
    Apart m₀ { m with pending := p, mode := mode } { n with pending := p, mode := mode } :=
  ⟨⟨h.compiler.buffer, rfl, rfl, h.compiler.location, h.compiler.dictionary, h.compiler.size⟩,
    h.spared.congr rfl rfl rfl, h.calls, h.readers, h.immediates⟩

theorem withWord (h : Apart m₀ m n) {heading : Heading} (himm : heading.isImmediate = false)
    {d e : Definition} (hde : d.unnumbered = e.unnumbered) :
    Apart m₀ (m.withWord heading d).2 (n.withWord heading e).2 where
  compiler := ⟨h.compiler.buffer, h.compiler.mode, h.compiler.pending, h.compiler.location,
    withWord_unnumbered h.compiler.dictionary hde heading, h.compiler.size⟩
  spared := h.spared.congr rfl rfl rfl
  calls := h.calls
  readers := h.readers
  immediates e he hei := by
    rcases Dictionary.mem_insertEntry he with rfl | he
    · have hheading : heading.isImmediate = true := hei
      rw [himm] at hheading
      cases hheading
    · exact h.immediates e he hei

theorem allocate (h : Apart m₀ m n) (v w : Value) :
    Apart m₀ { m with cells := (m.cells.allocate v).2 }
      { n with cells := (n.cells.allocate w).2 } := by
  refine ⟨⟨h.compiler.buffer, h.compiler.mode, h.compiler.pending, h.compiler.location,
    h.compiler.dictionary, ?_⟩, ⟨h.spared.output, h.spared.data, fun i hi => ?_, ?_⟩, h.calls,
    h.readers, h.immediates⟩
  · show (m.cells.contents.push v).size = (n.cells.contents.push w).size
    rw [Array.size_push, Array.size_push]
    exact congrArg (· + 1) h.compiler.size
  · have hlt : i < m.cells.contents.size := Nat.lt_of_lt_of_le hi h.spared.size_le
    refine Eq.trans ?_ (h.spared.cells i hi)
    exact (Array.getElem?_push_lt hlt).trans (Array.getElem?_eq_getElem hlt).symm
  · show _ ≤ (m.cells.contents.push v).size
    rw [Array.size_push]
    exact Nat.le_succ_of_le h.spared.size_le

end Apart

namespace Likeness

/-- Machines that compile and are kept apart from what the words work on. A word is collected, or
it is a built-in word that reads on in the text and closes no definition. -/
def compiling : Likeness Machine where
  machines m₀ m n := m.mode = .compiling ∧ Apart m₀ m n
  values v w := v.unnumbered = w.unnumbered
  texts := Eq
  places := Eq
  words v w := v.unnumbered = w.unnumbered ∧ (v.isImmediate = true →
    ∃ b : BuiltIn, v.definition = .builtIn b ∧ b.isImmediate = true ∧ b ≠ .endDefinition)
  halts h k := ∃ e, h = .failed e ∧ k = .failed e
  excused := unexcused

variable {m₀ m n : Machine}

theorem stacking_compiling : compiling.Stacking where
  fail {m₀ m n} h c := by
    obtain ⟨-, h⟩ := h
    exact ⟨⟨m.location, c, some m.calls⟩, rfl, by rw [h.compiler.location, h.calls]⟩
  active {m₀ m n} h := by
    obtain ⟨hmode, h⟩ := h
    rw [active_of_compiling hmode, active_of_compiling (h.compiler.mode.symm.trans hmode)]
    exact Value.forall₂_unnumbered.mpr h.compiler.buffer
  withActive {m₀ m n vs ws} h hvs := by
    obtain ⟨hmode, h⟩ := h
    rw [withActive_of_compiling hmode, withActive_of_compiling (h.compiler.mode.symm.trans hmode)]
    exact ⟨hmode, h.withBuffer (Value.forall₂_unnumbered.mp hvs)⟩

theorem nextWord_compiling (h : compiling.machines m₀ m n) :
    compiling.Agree m₀ Eq (nextWord m) (nextWord n) := by
  obtain ⟨hmode, h⟩ := h
  cases hm : m.readers with
  | nil =>
    rw [nextWord_of_nil hm, nextWord_of_nil (h.readers ▸ hm)]
    exact .ok rfl ⟨hmode, h⟩
  | cons r rs =>
    rw [nextWord_of_cons hm, nextWord_of_cons (h.readers ▸ hm)]
    exact .ok rfl ⟨hmode, h.reading (r.nextWord.2 :: rs)⟩

theorem textUpTo_compiling (h : compiling.machines m₀ m n) (d : Char) :
    compiling.Agree m₀ Eq (textUpTo d m) (textUpTo d n) := by
  cases hm : m.readers with
  | nil =>
    rw [textUpTo_of_nil hm, textUpTo_of_nil (h.2.readers ▸ hm)]
    exact stacking_compiling.failed h _
  | cons r rs =>
    rw [textUpTo_of_cons hm, textUpTo_of_cons (h.2.readers ▸ hm)]
    rcases r.textUpTo d with ⟨e | text, s⟩
    · exact .error ⟨_, rfl, by rw [h.2.calls]⟩ ⟨h.1, h.2.reading (s :: rs)⟩
    · exact .ok rfl ⟨h.1, h.2.reading (s :: rs)⟩

theorem skipWordsTo_compiling (h : compiling.machines m₀ m n) (p : String → Bool) :
    compiling.Agree m₀ Eq (skipWordsTo p m) (skipWordsTo p n) := by
  cases hm : m.readers with
  | nil =>
    rw [skipWordsTo_of_nil hm, skipWordsTo_of_nil (h.2.readers ▸ hm)]
    exact stacking_compiling.failed h _
  | cons r rs =>
    rw [skipWordsTo_of_cons hm, skipWordsTo_of_cons (h.2.readers ▸ hm)]
    have hread : compiling.machines m₀ { m with readers := (r.skipWordsTo p).2 :: rs }
        { n with readers := (r.skipWordsTo p).2 :: rs } := ⟨h.1, h.2.reading _⟩
    split
    · exact .ok rfl hread
    · exact stacking_compiling.failed hread _

theorem collecting_compiling : compiling.Collecting where
  toStacking := stacking_compiling
  text h := congrArg Value.text h
  nextWordRequired h := by
    refine stacking_compiling.nextWordRequired ((nextWord_compiling h).mono fun t u htu => ?_)
    subst htu
    cases t with
    | none => exact .none
    | some t => exact .some ⟨rfl, rfl⟩
  textUpTo h d _ := textUpTo_compiling h d
  skipComment h := skipWordsTo_compiling h _
  newCell h x := .ok h.2.compiler.size ⟨h.1, h.2.allocate _ _⟩
  addVariable h htu c := by
    obtain rfl := Token.eq_of_same htu
    exact .ok trivial ⟨h.1, h.2.withWord rfl rfl⟩
  addConstant h htu hv := by
    obtain rfl := Token.eq_of_same htu
    exact .ok trivial ⟨h.1, h.2.withWord rfl (congrArg Definition.constant hv)⟩
  startCompiling {m₀ m n t u} h htu := by
    obtain rfl := Token.eq_of_same htu
    exact .ok rfl ⟨rfl, (h.2.noting _ _).withPending (some ⟨t.text, t.location⟩) .compiling⟩

/-! ## Words of the text -/

variable {t : Token}

theorem resolve_compiling (h : compiling.machines m₀ m n)
    (hend : ¬ m.dictionary.Stands t.text .endDefinition) :
    compiling.Agree m₀ compiling.Resolutions (resolve t.text m) (resolve t.text n) := by
  have hget := Dictionary.get?_of_unnumbered h.2.compiler.dictionary (Text.uppercase t.text)
  cases hm : m.dictionary.get? (Text.uppercase t.text) <;>
    cases hn : n.dictionary.get? (Text.uppercase t.text) <;> rw [hm, hn] at hget
  · cases hx : Number.parse? (Text.uppercase t.text) with
    | none =>
      rw [resolve_of_unknown hm hx, resolve_of_unknown hn hx]
      exact stacking_compiling.failed h _
    | some x =>
      rw [resolve_of_number hm hx, resolve_of_number hn hx]
      exact .ok (.number x) h
  · cases hget
  · cases hget
  · rename_i v w
    cases hget with
    | some hvw =>
      rw [resolve_of_word hm, resolve_of_word hn]
      refine .ok (.word (Word.isImmediate_of_unnumbered hvw) ⟨hvw, fun himm => ?_⟩) h
      obtain ⟨b, hb, hbimm⟩ := h.2.immediates _ (Dictionary.mem_of_get? hm) himm
      -- were it the word that closes definitions, the token would stand for that word
      refine ⟨b, hb, hbimm, fun hclose => hend ⟨v, ?_, ?_, ?_⟩⟩
      · rw [← hm, Dictionary.get?_uppercase]
      · rw [himm, ← hbimm, hclose]
      · rw [hb, hclose]

/-- An immediate word works on the compile buffer and on what is read. -/
theorem execute_compiling (host : Host) {v w : Word} (hvw : compiling.words v w)
    (himm : v.isImmediate = true) (h : compiling.machines m₀ m n) (l : Location) :
    compiling.Agree m₀ Eq (execute host l v m) (execute host l w n) := by
  obtain ⟨hvw, hbuiltIn⟩ := hvw
  obtain ⟨b, hb, hbimm, hend⟩ := hbuiltIn himm
  rw [execute_eq, execute_eq, Word.name_of_unnumbered hvw, hb, Word.builtIn_of_unnumbered hvw hb]
  have henter : compiling.machines m₀ (enterCall ⟨w.name, l⟩ m) (enterCall ⟨w.name, l⟩ n) :=
    ⟨h.1, h.2.entering _⟩
  exact agree_between (collecting_compiling.run hbimm hend henter) fun m n h =>
    ⟨h.1, h.2.leaving⟩

/-- A word of the text that does not close the definition is collected or works on the compile
buffer, and no other word is executed. -/
theorem runToken_compiling (host : Host) (h : compiling.machines m₀ m n)
    (hend : ¬ m.dictionary.Stands t.text .endDefinition) :
    compiling.Agree m₀ Eq (runToken host t m) (runToken host t n) := by
  unfold runToken
  rw [modify_bind, modify_bind]
  have hmoved : compiling.machines m₀ { m with location := some t.location }
      { n with location := some t.location } :=
    ⟨h.1, h.2.withContext rfl h.2.calls h.2.readers m.events n.events⟩
  refine (resolve_compiling hmoved hend).bind fun a b m n hab h => ?_
  cases hab with
  | number x =>
    show compiling.Agree m₀ Eq (push (.number x) (m.note _)) (push (.number x) (n.note _))
    exact stacking_compiling.push ⟨h.1, h.2.noting _ _⟩ rfl
  | @word v w himm hvw =>
    show compiling.Agree m₀ Eq
      ((if v.isImmediate ∨ m.mode = .interpreting then _ else _ : Act Unit) m)
      ((if w.isImmediate ∨ n.mode = .interpreting then _ else _ : Act Unit) n)
    rw [← himm, ← h.2.compiler.mode, h.1]
    cases hv : v.isImmediate with
    | true => exact execute_compiling host hvw hv h t.location
    | false =>
      -- this is where a word that could reach the data stack is collected and not executed
      have hbuffer : (Value.word v :: m.buffer).map Value.unnumbered =
          (Value.word w :: n.buffer).map Value.unnumbered :=
        congrArg₂ List.cons (congrArg Value.word hvw.1) h.2.compiler.buffer
      exact .ok rfl ⟨h.1, (h.2.noting _ _).withBuffer hbuffer⟩

end Likeness

namespace Machine

variable {depth : Nat} {m₀ m n : Machine} {t : Token}

theorem stands_of_unnumbered {d e : Dictionary} (h : d.unnumbered = e.unnumbered) {name : String}
    {b : BuiltIn} (hd : d.Stands name b) : e.Stands name b := by
  obtain ⟨v, hv, himm, hb⟩ := hd
  have hget := Dictionary.get?_of_unnumbered h name
  rw [hv] at hget
  generalize he : e.get? name = found at hget
  cases hget with
  | @some _ w hvw =>
    exact ⟨w, he, (Word.isImmediate_of_unnumbered hvw).symm.trans himm,
      Word.builtIn_of_unnumbered hvw hb⟩

theorem stopCompiling_apart (h : Apart m₀ m n) :
    SameResult (Apart m₀) (discard stopCompiling m) (discard stopCompiling n) := by
  rw [discard_apply, discard_apply]
  cases hp : m.pending with
  | none =>
    have herror : (⟨n.location, .notCompiling, some n.calls⟩ : Error) =
        ⟨m.location, .notCompiling, some m.calls⟩ := by
      rw [h.compiler.location, h.calls]
    rw [stopCompiling_of_none hp, stopCompiling_of_none (h.compiler.pending ▸ hp)]
    unfold fail
    dsimp only
    rw [herror]
    exact .failed h
  | some p =>
    rw [stopCompiling_of_some hp, stopCompiling_of_some (h.compiler.pending ▸ hp)]
    have hbody : (Definition.compiled m.buffer.reverse).unnumbered =
        (Definition.compiled n.buffer.reverse).unnumbered := by
      rw [Definition.unnumbered_compiled, Definition.unnumbered_compiled, List.map_reverse,
        List.map_reverse, h.compiler.buffer]
    have hnoted := h.noting (.finishedCompiling m.buffer.length p.name)
      (.finishedCompiling n.buffer.length p.name)
    have hempty : ([] : List Value).map Value.unnumbered = [].map Value.unnumbered := rfl
    exact .ok (((hnoted.withBuffer hempty).withPending none .interpreting).withWord rfl hbody)

/-- A word of the text that closes the definition makes a word of what has been collected. -/
theorem runToken_closing (host : Host) (h : Apart m₀ m n)
    (hend : m.dictionary.Stands t.text .endDefinition) :
    SameResult (Apart m₀) (runToken host t m) (runToken host t n) := by
  obtain ⟨v, hv, himm, hdefinition⟩ := hend
  have hget := Dictionary.get?_of_unnumbered h.compiler.dictionary t.text
  rw [hv] at hget
  generalize hn : n.dictionary.get? t.text = found at hget
  cases hget with
  | @some _ w hvw =>
    rw [runToken_immediate host hv himm hdefinition, runToken_immediate host hn
      ((Word.isImmediate_of_unnumbered hvw).symm.trans himm)
      (Word.builtIn_of_unnumbered hvw hdefinition), Word.name_of_unnumbered hvw]
    have hmoved := h.withContext (l := some t.location) rfl h.calls h.readers m.events n.events
    exact (stopCompiling_apart (hmoved.entering _)).between fun m n h => h.leaving

/-- Up to the end of the first definition, the machines are kept apart from what the words work
on, and they do the same. -/
theorem definitionWords_apart {k : Nat} (h : Likeness.compiling.machines m₀ m n)
    (hk : m.unread < k) : SameResult (Apart m₀) (definitionWords (.nested depth) k m)
      (definitionWords (.nested depth) k n) := by
  induction k generalizing m n with
  | zero => exact absurd hk (Nat.not_lt_zero _)
  | succ k ih =>
    obtain ⟨t, rs, hm⟩ := nextWord_ok m
    obtain ⟨u, ss, hn⟩ := nextWord_ok n
    have hread := Likeness.nextWord_compiling h
    rw [hm, hn] at hread
    cases hread with
    | ok htu h =>
    subst htu
    cases t with
    | none =>
      rw [definitionWords_of_none _ k hm, definitionWords_of_none _ k hn]
      exact .ok h.2
    | some t =>
      rw [definitionWords_of_token _ k hm, definitionWords_of_token _ k hn, bind_apply, bind_apply]
      by_cases hend : m.dictionary.Stands t.text .endDefinition
      · rw [if_pos hend, if_pos (stands_of_unnumbered h.2.compiler.dictionary hend)]
        have htoken := runToken_closing (.nested depth) h.2 hend
        generalize runToken _ t { m with readers := rs } = x at htoken
        generalize runToken _ t { n with readers := ss } = y at htoken
        cases htoken with
        | ok left => exact .ok left
        | failed left => exact .failed left
      · have hend' : ¬ n.dictionary.Stands t.text .endDefinition :=
          fun hn => hend (stands_of_unnumbered h.2.compiler.dictionary.symm hn)
        rw [if_neg hend, if_neg hend']
        have htoken := Likeness.runToken_compiling (.nested depth) h hend
        generalize runToken _ t { n with readers := ss } = y at htoken
        cases hrun : runToken (.nested depth) t { m with readers := rs } with
        | error halt m' =>
          rw [hrun] at htoken
          cases htoken with
          | error hhalt left =>
            obtain ⟨e, rfl, rfl⟩ := hhalt
            exact .failed left.2
          | excused excuse => exact excuse.elim
        | ok _ m' =>
          have hlt := unread_runToken_lt hm hrun
          rw [hrun] at htoken
          cases htoken with
          | ok _ left => exact ih left (by omega)

theorem readDefinition_apart (h : Likeness.compiling.machines m₀ m n) :
    SameResult (Apart m₀) (readDefinition (.nested depth) m)
      (readDefinition (.nested depth) n) := by
  have hunread : n.unread = m.unread := by
    unfold unread
    rw [h.2.readers]
  unfold readDefinition
  rw [hunread]
  exact definitionWords_apart h (Nat.lt_succ_self _)

/-- The part of a run up to the end of the first definition does the same on machines that are the
same to the compiler, and spares what there is to work on. -/
theorem runDefinition_apart (hm : Scripted m) (hn : Scripted n) (hmode : m.mode = .compiling)
    (h : SameCompiler m n) (depth : Nat) (path text : String) :
    SameResult (fun m' n' => SameCompiler m' n' ∧ SparesWork m m')
      (runDefinition (.nested depth) path text m) (runDefinition (.nested depth) path text n) := by
  obtain ⟨made, hsound⟩ := hm.sound
  obtain ⟨hmcalls, hmreaders⟩ := hm.atRest
  obtain ⟨hncalls, hnreaders⟩ := hn.atRest
  have hself : Apart m m n :=
    ⟨h, ⟨rfl, rfl, fun _ _ => rfl, Nat.le_refl _⟩, hmcalls.trans hncalls.symm,
      hmreaders.trans hnreaders.symm,
      fun e he himm => (hsound.dictionary e he).1.builtIn_of_isImmediate himm⟩
  have hstart : Likeness.compiling.machines m (pushReader (.ofText path text) m)
      (pushReader (.ofText path text) n) :=
    ⟨hmode, hself.withContext h.location hself.calls
      (congrArg (Reader.ofText path text :: ·) hself.readers) m.events n.events⟩
  refine (readDefinition_apart hstart).between fun m' n' h => ?_
  have hdrop := h.withContext h.compiler.location h.calls (congrArg List.tail h.readers)
    m'.events n'.events
  exact ⟨hdrop.compiler, hdrop.spared⟩

/-- While a definition is open, a run is its part up to the end of that definition and what is
read on after it; where the part ends in an error or with the text, it is the whole run. The part
comes to an end and leaves the output, the data stack and what the cells hold as they were. Nor
does it depend on them: machines that are the same to the compiler come to the same result, and
are the same to the compiler afterwards. -/
theorem compile_time_apart (h : Scripted m) (hmode : m.mode = .compiling) (depth : Nat)
    (path text : String) :
    run (.nested depth) path text m = withReader (.ofText path text) (do
      readDefinition (.nested depth)
      readOn (.nested depth)) m ∧
    ((left (runDefinition (.nested depth) path text m)).mode = .compiling →
      run (.nested depth) path text m = runDefinition (.nested depth) path text m) ∧
    Ends (SparesWork m) (runDefinition (.nested depth) path text m) ∧
    ∀ n, Scripted n → SameCompiler m n → SameResult SameCompiler
      (runDefinition (.nested depth) path text m) (runDefinition (.nested depth) path text n) := by
  have hsame : ∀ n, Scripted n → SameCompiler m n → _ := fun n hn hmn =>
    runDefinition_apart h hn hmode hmn depth path text
  refine ⟨congrFun (run_eq_readDefinition depth path text) m, run_eq_runDefinition, ?_,
    fun n hn hmn => ?_⟩
  · exact (hsame m h ⟨rfl, rfl, rfl, rfl, rfl, rfl⟩).ends fun _ _ h => h.2
  · exact (hsame n hn hmn).mono fun _ _ h => h.1

/-- Machines on which different words were executed before the same definition was opened. -/
theorem compile_time_apart_square : ∃ m n,
    m = left (run (.nested 0) "s" "DEPTH : SQ" .fresh) ∧
    n = left (run (.nested 0) "s" "WORDS : SQ" .fresh) ∧
    m.data.length = 1 ∧ n.data.length = 0 ∧ m.output ≠ n.output ∧
    Ends (SparesWork m) (runDefinition (.nested 0) "t" "VAR V \" x\" CONST C V C ; SQ" m) ∧
    SameResult SameCompiler (runDefinition (.nested 0) "t" "VAR V \" x\" CONST C V C ; SQ" m)
      (runDefinition (.nested 0) "t" "VAR V \" x\" CONST C V C ; SQ" n) := by
  have hmdictionary : (left (run (.nested 0) "s" "DEPTH : SQ" .fresh)).dictionary =
      fresh.dictionary := rfl
  have hndictionary : (left (run (.nested 0) "s" "WORDS : SQ" .fresh)).dictionary =
      fresh.dictionary := rfl
  have hmscripted : Scripted (left (run (.nested 0) "s" "DEPTH : SQ" .fresh)) :=
    .run .fresh 0 "s" "DEPTH : SQ"
  have hnscripted : Scripted (left (run (.nested 0) "s" "WORDS : SQ" .fresh)) :=
    .run .fresh 0 "s" "WORDS : SQ"
  generalize hm : left (run (.nested 0) "s" "DEPTH : SQ" .fresh) = m at *
  generalize hn : left (run (.nested 0) "s" "WORDS : SQ" .fresh) = n at *
  obtain ⟨hmode, hmode', hmbuffer, hnbuffer, hpending, hlocation, hsize, hmdata, hndata, houtput⟩ :
      m.mode = .compiling ∧ n.mode = .compiling ∧ m.buffer.length = 0 ∧ n.buffer.length = 0 ∧
        m.pending = n.pending ∧ m.location = n.location ∧ m.cells.size = n.cells.size ∧
        m.data.length = 1 ∧ n.data.length = 0 ∧ m.output ≠ n.output := by
    subst hm hn
    decide +kernel
  have hsame : SameCompiler m n := by
    refine ⟨?_, hmode.trans hmode'.symm, hpending, hlocation, ?_, hsize⟩
    · rw [List.eq_nil_of_length_eq_zero hmbuffer, List.eq_nil_of_length_eq_zero hnbuffer]
    · rw [hmdictionary, hndictionary]
  obtain ⟨-, -, hspared, hresult⟩ :=
    compile_time_apart hmscripted hmode 0 "t" "VAR V \" x\" CONST C V C ; SQ"
  exact ⟨m, n, rfl, rfl, hmdata, hndata, houtput, hspared, hresult n hnscripted hsame⟩

end Machine
end WordStack
