import WordStack.Proofs.LikeRuns

/-
  Two machines that differ in their readers at most and do the same, as long as they read the
  same. `Change` lists what an operation can change apart from the readers and the calls; a
  relation between machines is `Parallel` when it outlasts every change and every call.
  `ReadsAlike` is what is left to show of a parallel relation: that reading on keeps it. Then so
  does every word of a text (`Parallel.running`).
-/
namespace WordStack

open Machine

/-- What an operation can do to a machine, apart from its readers and its calls. -/
inductive Change (m : Machine) : Machine → Prop
  | active (vs : List Value) : Change m (m.withActive vs)
  | allocated (v : Value) : Change m { m with cells := (m.cells.allocate v).2 }
  | stored {i : Nat} {v : Value} {cells : Cells} (h : m.cells.set? i v = some cells) :
    Change m { m with cells }
  | written (s : String) : Change m { m with output := m.output ++ s }
  | word (h : Heading) (d : Definition) : Change m (m.withWord h d).2
  | opened (name : String) (l : Location) :
    Change m { m.note (.startedCompiling l name) with pending := some ⟨name, l⟩, mode := .compiling }
  | closed {p : Pending} (h : m.pending = some p) :
    Change m { m.note (.finishedCompiling m.buffer.length p.name) with
      pending := none, mode := .interpreting, buffer := [] }
  | moved (l : Location) : Change m { m with location := some l }
  | noted (e : Event) : Change m (m.note e)
  | collected (w : Word) (h : m.mode = .compiling) :
    Change m { m.note (.compiledReference w.name) with buffer := .word w :: m.buffer }
  | replied (r : Reply) : Change m { m with replies := r :: m.replies }

theorem Machine.withActive_readers (m : Machine) (vs : List Value) (rs : List Reader) :
    { m with readers := rs }.withActive vs = { m.withActive vs with readers := rs } := by
  unfold withActive
  cases m.mode <;> rfl

theorem Change.readers_eq {m m' : Machine} (h : Change m m') : m'.readers = m.readers := by
  cases h with
  | active vs => unfold withActive; cases m.mode <;> rfl
  | _ => rfl

theorem Change.calls_eq {m m' : Machine} (h : Change m m') : m'.calls = m.calls := by
  cases h with
  | active vs => unfold withActive; cases m.mode <;> rfl
  | _ => rfl

variable {ι α : Type} {R : ι → Machine → Machine → Prop} {i : ι} {m n : Machine}
  {excused : Halt → Prop}

/-- Machines are compared by `R`, everything else is to be equal. -/
def Likeness.equal (R : ι → Machine → Machine → Prop) (excused : Halt → Prop) : Likeness ι :=
  ⟨R, Eq, Eq, Eq, Eq, Eq, excused⟩

/-- `R` relates machines that differ in their readers at most, and outlasts what they do apart
from reading. -/
structure Parallel (R : ι → Machine → Machine → Prop) : Prop where
  same : ∀ {i m n}, R i m n → n = { m with readers := n.readers }
  change : ∀ {i m n m'}, R i m n → Change m m' → R i m' { m' with readers := n.readers }
  call : ∀ {i m n}, R i m n → ∀ c, ∃ j, R j (enterCall c m) (enterCall c n) ∧
    ∀ m n, R j m n → R i (leaveCall m) (leaveCall n)

/-- Reading on from related machines gives the same and keeps them related. -/
structure ReadsAlike (R : ι → Machine → Machine → Prop) (excused : Halt → Prop) : Prop where
  nextWordRequired : ∀ {i m n}, R i m n → (Likeness.equal R excused).Agree i Eq
    (nextWordRequired m) (nextWordRequired n)
  textUpTo : ∀ {i m n}, R i m n → ∀ d, (Likeness.equal R excused).Agree i Eq
    (textUpTo d m) (textUpTo d n)
  skipWordsTo : ∀ {i m n}, R i m n → ∀ p, (Likeness.equal R excused).Agree i Eq
    (skipWordsTo p m) (skipWordsTo p n)

namespace Parallel

open Likeness

/-- An act that makes a change which does not depend on the readers. -/
theorem step (hR : Parallel R) (h : R i m n) {x : Act α} {a : α} {m' : Machine} (hc : Change m m')
    (hx : ∀ rs, x { m with readers := rs } = .ok a { m' with readers := rs }) :
    (equal R excused).Agree i Eq (x m) (x n) := by
  have hm : x m = .ok a m' := (hx m.readers).trans (by rw [← hc.readers_eq])
  have hn := hx n.readers
  rw [← hR.same h] at hn
  rw [hm, hn]
  exact .ok rfl (hR.change h hc)

/-- An act that gives an answer which does not depend on the readers. -/
theorem answer (hR : Parallel R) (h : R i m n) {x : Act α} {a : α}
    (hx : ∀ rs, x { m with readers := rs } = .ok a { m with readers := rs }) :
    (equal R excused).Agree i Eq (x m) (x n) := by
  have hn := hx n.readers
  rw [← hR.same h] at hn
  rw [show x m = .ok a m from hx m.readers, hn]
  exact .ok rfl h

/-- An act that stops for a cause which does not depend on the readers. -/
theorem stop (hR : Parallel R) (h : R i m n) {x : Act α} {halt : Halt}
    (hx : ∀ rs, x { m with readers := rs } = .error halt { m with readers := rs }) :
    (equal R excused).Agree i Eq (x m) (x n) := by
  have hn := hx n.readers
  rw [← hR.same h] at hn
  rw [show x m = .error halt m from hx m.readers, hn]
  exact .error rfl h

theorem fail (hR : Parallel R) (h : R i m n) (c : Cause) :
    (equal R excused).Agree i (Eq (α := α)) (Machine.fail c m) (Machine.fail c n) := by
  have hstop : ∀ rs, Machine.fail (α := α) c { m with readers := rs } =
      .error (.failed ⟨m.location, c, some m.calls⟩) { m with readers := rs } := fun _ => rfl
  exact hR.stop h hstop

/-- An act that fails for a cause which does not depend on the readers. -/
theorem fails (hR : Parallel R) (h : R i m n) {x : Act α} {c : Cause}
    (hx : ∀ rs, x { m with readers := rs } = Machine.fail c { m with readers := rs }) :
    (equal R excused).Agree i Eq (x m) (x n) := by
  have hn := hx n.readers
  rw [← hR.same h] at hn
  rw [show x m = Machine.fail c m from hx m.readers, hn]
  exact hR.fail h c

theorem write (hR : Parallel R) (h : R i m n) (s : String) :
    (equal R excused).Agree i Eq (Machine.write s m) (Machine.write s n) := by
  by_cases hs : m.outputFails ∧ s ≠ ""
  · exact hR.stop h fun rs => by rw [write_apply, if_pos hs]
  · exact hR.step h (.written s) fun rs => by rw [write_apply, if_neg hs]

theorem ordinary (hR : Parallel R) : (equal R excused).Ordinary where
  fail h c := by rw [hR.same h]; rfl
  shape h := h ▸ .refl _
  number _ := rfl
  cell _ := rfl
  active {i m n} h := by
    rw [show n.active = m.active by rw [hR.same h]; rfl]
    exact List.forall₂_eq_eq_eq (α := Value) ▸ rfl
  withActive {i m n vs ws} h hvs := by
    obtain rfl : vs = ws := List.forall₂_eq_eq_eq ▸ hvs
    have hc := hR.change h (.active vs)
    rwa [← withActive_readers, ← hR.same h] at hc
  readCell {i m n} h c := by
    cases hc : m.cells.get? c with
    | none => exact hR.fails h fun rs => readCell_of_none hc
    | some v => exact hR.answer h fun rs => readCell_of_some hc
  writeCell {i m n v w} h c hv := by
    subst hv
    cases hc : m.cells.set? c v with
    | none => exact hR.fails h fun rs => writeCell_of_none hc
    | some cells => exact hR.step h (.stored hc) fun rs => writeCell_of_some hc
  write h hs := by subst hs; exact hR.write h _
  line h := congrArg (fun v : Value => v.render ++ "\n") h
  stackLine h := by rw [hR.same h]; rfl

theorem addWord (hR : Parallel R) (h : R i m n) (heading : Heading) (d : Definition) :
    (equal R excused).Agree i Eq (Machine.addWord heading d m) (Machine.addWord heading d n) :=
  hR.step (a := (m.withWord heading d).1) h (.word heading d) fun _ => rfl

theorem newCell (hR : Parallel R) (h : R i m n) (v : Value) :
    (equal R excused).Agree i Eq (Machine.newCell v m) (Machine.newCell v n) :=
  hR.step (a := (m.cells.allocate v).1) h (.allocated v) fun _ => rfl

theorem startCompiling (hR : Parallel R) (h : R i m n) (name : String) (l : Location) :
    (equal R excused).Agree i Eq (Machine.startCompiling name l m) (Machine.startCompiling name l n) :=
  hR.step (a := ()) h (.opened name l) fun _ => rfl

theorem stopCompiling (hR : Parallel R) (h : R i m n) :
    (equal R excused).Agree i Eq (Machine.stopCompiling m) (Machine.stopCompiling n) := by
  have hpending : n.pending = m.pending := by rw [hR.same h]
  cases hp : m.pending with
  | none =>
    rw [stopCompiling_of_none hp, stopCompiling_of_none (hpending.trans hp)]
    exact hR.fail h _
  | some p =>
    have hclosed := hR.change h (.closed hp)
    rw [stopCompiling_of_some hp, stopCompiling_of_some (hpending.trans hp),
      show n.buffer = m.buffer by rw [hR.same h]]
    rw [hR.same h]
    exact hR.addWord hclosed _ _

theorem resolve (hR : Parallel R) (h : R i m n) (token : String) :
    (equal R excused).Agree i Eq (Machine.resolve token m) (Machine.resolve token n) := by
  cases hw : m.dictionary.get? (Text.uppercase token) with
  | some w => exact hR.answer h fun rs => resolve_of_word hw
  | none =>
    cases hx : Number.parse? (Text.uppercase token) with
    | some x => exact hR.answer h fun rs => resolve_of_number hw hx
    | none => exact hR.fails h fun rs => resolve_of_unknown hw hx

/-- With what is read, the words that read on keep machines related. -/
theorem reading (hR : Parallel R) (hreads : ReadsAlike R excused) : (equal R excused).Reading where
  toOrdinary := hR.ordinary
  listing h := by rw [hR.same h]; rfl
  text h := congrArg Value.text h
  nextWordRequired h := (hreads.nextWordRequired h).mono fun t u htu => htu ▸ ⟨rfl, rfl⟩
  textUpTo h d _ := hreads.textUpTo h d
  skipComment h := hreads.skipWordsTo h _
  newCell h _ := hR.newCell h _
  addVariable h htu c := by
    obtain ⟨htext, hplace⟩ := htu
    unfold variableHeading
    rw [htext, hplace]
    exact (hR.addWord h _ _).mono fun _ _ _ => trivial
  addConstant h htu hv := by
    obtain ⟨htext, hplace⟩ := htu
    subst hv
    unfold constantHeading
    rw [htext, hplace]
    exact (hR.addWord h _ _).mono fun _ _ _ => trivial
  startCompiling h htu := by
    rw [htu.1, htu.2]
    exact hR.startCompiling h _ _
  stopCompiling h := (hR.stopCompiling h).mono fun _ _ _ => trivial

theorem items (vs : List Value) : List.Forall₂ (equal R excused).Items vs vs := by
  induction vs with
  | nil => exact .nil
  | cons v vs ih =>
    refine .cons ?_ ih
    cases v with
    | word w => exact .word rfl
    | number | text | cell => exact .literal nofun nofun rfl

/-- Host words whose actions keep machines related. -/
def Keeps (R : ι → Machine → Machine → Prop) (excused : Halt → Prop) (host : Host) : Prop :=
  ∀ body i m n, R i m n → (equal R excused).Agree i Eq (host body m) (host body n)

variable {host : Host}

theorem executable (hR : Parallel R) (hreads : ReadsAlike R excused) (hhost : Keeps R excused host) :
    (equal R excused).Executable host where
  toOrdinary := hR.ordinary
  word {v w} h := by
    obtain rfl : v = w := h
    refine ⟨rfl, ?_⟩
    cases v.definition with
    | builtIn b => exact .builtIn fun i m n h => (hR.reading hreads).run b h
    | host body => exact .host (hhost body)
    | «variable» c => exact .variable
    | constant v => exact .constant rfl
    | compiled body => exact .compiled (items body)
  here h := by rw [hR.same h]; rfl
  call {i m n l k} h hl name := by
    obtain rfl : l = k := hl
    exact hR.call h ⟨name, l⟩

theorem running (hR : Parallel R) (hreads : ReadsAlike R excused) (hhost : Keeps R excused host) :
    (equal R excused).Running host where
  toReading := hR.reading hreads
  word := (hR.executable hreads hhost).word
  here := (hR.executable hreads hhost).here
  call := (hR.executable hreads hhost).call
  mode h := by rw [hR.same h]
  moveTo {i m n l k} h hl := by
    obtain rfl : l = k := hl
    have hc := hR.change h (.moved l)
    rw [hR.same h]
    exact hc
  resolve {i m n t u} h htu := by
    obtain ⟨htext, -⟩ := htu
    rw [← htext]
    refine (hR.resolve h _).mono fun a b hab => ?_
    subst hab
    cases a with
    | word w => exact .word rfl rfl
    | number x => exact .number x
  noteNumber {i m n s t} h hst := by
    obtain rfl : s = t := hst
    have hc := hR.change h (.noted (.pushedNumber m.mode s))
    rw [hR.same h]
    exact hc
  collect {i m n v w} h hmode hw := by
    obtain rfl : v = w := hw
    have hc := hR.change h (.collected v hmode)
    rw [hR.same h]
    exact hc

end Parallel
end WordStack
