import Mathlib.Data.List.Forall2
import WordStack.Proofs.Operations
import WordStack.Proofs.Uses

/-
  Two machines side by side. A `Likeness` says which machines, values, texts, places, words and
  causes of a stop are taken as alike; `Agree`: two results are alike, so both acts succeed or
  both stop, and what they give and leave is alike. Where the first act stops for a cause that is
  excused, nothing is asked of the second: a likeness that excuses every cause is a simulation of
  the acts that succeed.
  `Stacking` lists what a likeness has to respect so that pushing and popping keep it, `Ordinary`
  what it takes that the words that do not read on in the text keep it (`Ordinary.run`),
  `Executable` what it takes beyond that executing alike words keeps it (`Executable.execute`). An
  invariant of one machine is a likeness of the machine with itself.
  The index of a likeness says what the machines were before the call or the run in progress,
  so that they can be compared again after it.
-/
namespace WordStack

open Machine

/-- What is taken as alike when two machines are compared. -/
structure Likeness (ι : Type) where
  machines : ι → Machine → Machine → Prop
  values : Value → Value → Prop
  texts : String → String → Prop
  places : Location → Location → Prop
  words : Word → Word → Prop
  halts : Halt → Halt → Prop
  excused : Halt → Prop

namespace Likeness

/-- No stop is excused. -/
def unexcused : Halt → Prop := fun _ => False

variable {ι α β γ δ : Type} {K : Likeness ι} {i : ι} {m n : Machine}

/-- Two results are alike, with answers related by `S`. -/
inductive Agree (K : Likeness ι) (i : ι) (S : α → β → Prop) :
    EStateM.Result Halt Machine α → EStateM.Result Halt Machine β → Prop
  | ok {a : α} {b : β} {m n : Machine} (answer : S a b) (left : K.machines i m n) :
    Agree K i S (.ok a m) (.ok b n)
  | error {h k : Halt} {m n : Machine} (halt : K.halts h k) (left : K.machines i m n) :
    Agree K i S (.error h m) (.error k n)
  | excused {h : Halt} {m : Machine} {y : EStateM.Result Halt Machine β} (excuse : K.excused h) :
    Agree K i S (.error h m) y

namespace Agree

variable {S : α → β → Prop} {T : γ → δ → Prop}

theorem bind {x : Act α} {y : Act β} {f : α → Act γ} {g : β → Act δ}
    (h : K.Agree i S (x m) (y n))
    (hf : ∀ a b m n, S a b → K.machines i m n → K.Agree i T (f a m) (g b n)) :
    K.Agree i T ((x >>= f) m) ((y >>= g) n) := by
  rw [bind_apply, bind_apply]
  generalize x m = rx at h
  generalize y n = ry at h
  cases h with
  | ok answer left => exact hf _ _ _ _ answer left
  | error halt left => exact .error halt left
  | excused excuse => exact .excused excuse

theorem mono {T : α → β → Prop} {x : EStateM.Result Halt Machine α}
    {y : EStateM.Result Halt Machine β} (h : K.Agree i S x y) (hST : ∀ a b, S a b → T a b) :
    K.Agree i T x y := by
  cases h with
  | ok answer left => exact .ok (hST _ _ answer) left
  | error halt left => exact .error halt left
  | excused excuse => exact .excused excuse

theorem discard {x : Act α} {y : Act β} (h : K.Agree i S (x m) (y n)) :
    K.Agree i Eq (discard x m) (discard y n) := by
  rw [discard_apply, discard_apply]
  generalize x m = rx at h
  generalize y n = ry at h
  cases h with
  | ok _ left => exact .ok rfl left
  | error halt left => exact .error halt left
  | excused excuse => exact .excused excuse

end Agree

/-! ## Machines with the same cells and the same sink -/

theorem agree_readCell {c : Nat} (h : K.machines i m n) (hcells : n.cells = m.cells)
    (hfail : ∀ c, K.Agree i K.values (fail c m) (fail c n))
    (hv : ∀ v, m.cells.get? c = some v → K.values v v) :
    K.Agree i K.values (readCell c m) (readCell c n) := by
  cases hc : m.cells.get? c with
  | none =>
    rw [readCell_of_none hc, readCell_of_none (hcells ▸ hc)]
    exact hfail _
  | some v =>
    rw [readCell_of_some hc, readCell_of_some (hcells ▸ hc)]
    exact .ok (hv v hc) h

theorem agree_writeCell {c : Nat} {v : Value} (hcells : n.cells = m.cells)
    (hfail : ∀ c, K.Agree i Eq (fail (α := Unit) c m) (fail c n))
    (hset : ∀ cells, m.cells.set? c v = some cells →
      K.machines i { m with cells } { n with cells }) :
    K.Agree i Eq (writeCell c v m) (writeCell c v n) := by
  cases hc : m.cells.set? c v with
  | none =>
    rw [writeCell_of_none hc, writeCell_of_none (hcells ▸ hc)]
    exact hfail _
  | some cells =>
    rw [writeCell_of_some hc, writeCell_of_some (hcells ▸ hc)]
    exact .ok rfl (hset cells hc)

theorem agree_write {s : String} (h : K.machines i m n) (hsink : n.outputFails = m.outputFails)
    (hclosed : K.halts (.failed (.ofIo "sink closed")) (.failed (.ofIo "sink closed")))
    (hwritten : K.machines i { m with output := m.output ++ s }
      { n with output := n.output ++ s }) :
    K.Agree i Eq (write s m) (write s n) := by
  rw [write_apply, write_apply]
  by_cases hs : m.outputFails ∧ s ≠ ""
  · rw [if_pos hs, if_pos (hsink ▸ hs)]
    exact .error hclosed h
  · rw [if_neg hs, if_neg (hsink ▸ hs)]
    exact .ok rfl hwritten

/-- Values that an operation cannot tell apart by their type. -/
inductive SameShape : Value → Value → Prop
  | number (x : Float) : SameShape (.number x) (.number x)
  | text (s t : String) : SameShape (.text s) (.text t)
  | cell (i : Nat) : SameShape (.cell i) (.cell i)
  | word (v w : Word) : SameShape (.word v) (.word w)

theorem SameShape.refl (v : Value) : SameShape v v := by
  cases v <;> constructor

/-- What it takes to take alike values from the active stack and to put them there. -/
structure Stacking (K : Likeness ι) : Prop where
  fail : ∀ {i m n}, K.machines i m n → ∀ c,
    K.halts (.failed ⟨m.location, c, some m.calls⟩) (.failed ⟨n.location, c, some n.calls⟩)
  active : ∀ {i m n}, K.machines i m n → List.Forall₂ K.values m.active n.active
  withActive : ∀ {i m n vs ws}, K.machines i m n → List.Forall₂ K.values vs ws →
    K.machines i (m.withActive vs) (n.withActive ws)

namespace Stacking

variable {S : α → β → Prop} {v w : Value}

theorem failed (hK : K.Stacking) (h : K.machines i m n) (c : Cause) :
    K.Agree i S (Machine.fail c m) (Machine.fail c n) :=
  .error (hK.fail h c) h

theorem push (hK : K.Stacking) (h : K.machines i m n) (hv : K.values v w) :
    K.Agree i Eq (Machine.push v m) (Machine.push w n) := by
  rw [push_apply, push_apply]
  exact .ok rfl (hK.withActive h (.cons hv (hK.active h)))

theorem pop (hK : K.Stacking) (h : K.machines i m n) :
    K.Agree i K.values (Machine.pop m) (Machine.pop n) := by
  have hact := hK.active h
  rcases hm : m.active with _ | ⟨v, vs⟩ <;> rcases hn : n.active with _ | ⟨w, ws⟩ <;>
    rw [hm, hn] at hact
  · rw [pop_of_nil hm, pop_of_nil hn]
    exact hK.failed h _
  · cases hact
  · cases hact
  · rw [pop_of_cons hm, pop_of_cons hn]
    rcases hact with _ | ⟨hv, hvs⟩
    exact .ok hv (hK.withActive h hvs)

theorem require (hK : K.Stacking) (h : K.machines i m n) (k : Nat) :
    K.Agree i Eq (Machine.require k m) (Machine.require k n) := by
  have hlen := (hK.active h).length_eq
  rw [require_apply, require_apply, hlen]
  by_cases hk : n.active.length < k
  · rw [if_pos hk, if_pos hk]
    exact hK.failed h _
  · rw [if_neg hk, if_neg hk]
    exact .ok rfl h

end Stacking

/-- What the words that do not read on in the text can see, and what they change. -/
structure Ordinary (K : Likeness ι) : Prop extends Stacking K where
  shape : ∀ {v w}, K.values v w → SameShape v w
  number (x : Float) : K.values (.number x) (.number x)
  cell (c : Nat) : K.values (.cell c) (.cell c)
  readCell : ∀ {i m n}, K.machines i m n → ∀ c, K.Agree i K.values (readCell c m) (readCell c n)
  writeCell : ∀ {i m n v w}, K.machines i m n → ∀ c, K.values v w →
    K.Agree i Eq (writeCell c v m) (writeCell c w n)
  write : ∀ {i m n s t}, K.machines i m n → K.texts s t → K.Agree i Eq (write s m) (write t n)
  line : ∀ {v w}, K.values v w → K.texts (v.render ++ "\n") (w.render ++ "\n")
  stackLine : ∀ {i m n}, K.machines i m n → K.texts (BuiltIn.stackLine m) (BuiltIn.stackLine n)

namespace Ordinary

variable {S : α → β → Prop} {v w : Value}

theorem popNumber (hK : K.Ordinary) (h : K.machines i m n) :
    K.Agree i Eq (Machine.popNumber m) (Machine.popNumber n) := by
  refine (hK.pop h).bind fun v w m n hv h => ?_
  cases hK.shape hv with
  | number x => exact .ok rfl h
  | text | cell | word => exact hK.failed h _

theorem popCell (hK : K.Ordinary) (h : K.machines i m n) :
    K.Agree i Eq (Machine.popCell m) (Machine.popCell n) := by
  refine (hK.pop h).bind fun v w m n hv h => ?_
  cases hK.shape hv with
  | cell x => exact .ok rfl h
  | number | text | word => exact hK.failed h _

theorem arithmetic (hK : K.Ordinary) (h : K.machines i m n) (f : Float → Float → Float) :
    K.Agree i Eq (BuiltIn.arithmetic f m) (BuiltIn.arithmetic f n) := by
  refine (hK.require h 2).bind fun _ _ m n _ h => ?_
  refine (hK.popNumber h).bind fun b _ m n hb h => ?_
  refine (hK.popNumber h).bind fun a _ m n ha h => ?_
  subst hb ha
  exact hK.push h (hK.number _)

/-- The words that do not read on in the text keep machines alike. The listing of the
dictionary is asked for only where it is printed. -/
theorem run (hK : K.Ordinary) {b : BuiltIn} (hb : b.isImmediate = false) (h : K.machines i m n)
    (hlist : b = .printWords → K.texts m.dictionary.listing n.dictionary.listing) :
    K.Agree i Eq (b.run m) (b.run n) := by
  cases b with
  | dup =>
    refine (hK.pop h).bind fun v w m n hv h => ?_
    exact (hK.push h hv).bind fun _ _ m n _ h => hK.push h hv
  | drop => exact (hK.pop h).discard
  | swap =>
    refine (hK.require h 2).bind fun _ _ m n _ h => ?_
    refine (hK.pop h).bind fun _ _ m n hb h => ?_
    refine (hK.pop h).bind fun _ _ m n ha h => ?_
    exact (hK.push h hb).bind fun _ _ m n _ h => hK.push h ha
  | «over» =>
    refine (hK.require h 2).bind fun _ _ m n _ h => ?_
    refine (hK.pop h).bind fun _ _ m n hb h => ?_
    refine (hK.pop h).bind fun _ _ m n ha h => ?_
    refine (hK.push h ha).bind fun _ _ m n _ h => ?_
    exact (hK.push h hb).bind fun _ _ m n _ h => hK.push h ha
  | rot =>
    refine (hK.require h 3).bind fun _ _ m n _ h => ?_
    refine (hK.pop h).bind fun _ _ m n hc h => ?_
    refine (hK.pop h).bind fun _ _ m n hb h => ?_
    refine (hK.pop h).bind fun _ _ m n ha h => ?_
    refine (hK.push h hb).bind fun _ _ m n _ h => ?_
    exact (hK.push h hc).bind fun _ _ m n _ h => hK.push h ha
  | clear => exact .ok rfl (hK.withActive h .nil)
  | depth =>
    show K.Agree i Eq (Machine.push (.number (Number.ofCount m.active.length)) m)
      (Machine.push (.number (Number.ofCount n.active.length)) n)
    rw [(hK.active h).length_eq]
    exact hK.push h (hK.number _)
  | add | subtract | multiply | divide => exact hK.arithmetic h _
  | sqrt =>
    refine (hK.popNumber h).bind fun a _ m n ha h => ?_
    subst ha
    exact hK.push h (hK.number _)
  | store =>
    refine (hK.require h 2).bind fun _ _ m n _ h => ?_
    refine (hK.popCell h).bind fun c _ m n hc h => ?_
    subst hc
    exact (hK.pop h).bind fun _ _ m n hv h => hK.writeCell h c hv
  | fetch =>
    refine (hK.popCell h).bind fun c _ m n hc h => ?_
    subst hc
    exact (hK.readCell h c).bind fun _ _ m n hv h => hK.push h hv
  | print => exact (hK.pop h).bind fun _ _ m n hv h => hK.write h (hK.line hv)
  | printStack => exact hK.write h (hK.stackLine h)
  | printWords => exact hK.write h (hlist rfl)
  | defineVariable | defineConstant | textLiteral | blockComment | parenComment | lineComment
  | startDefinition | endDefinition => cases hb

end Ordinary

/-! ## Executing words -/

/-- The values of two bodies that are executed alike. -/
inductive Items (K : Likeness ι) : Value → Value → Prop
  | word {v w : Word} : K.words v w → Items K (.word v) (.word w)
  | literal {v w : Value} : (∀ u, v ≠ .word u) → (∀ u, w ≠ .word u) → K.values v w → Items K v w

/-- Definitions that are executed alike. -/
inductive Definitions (K : Likeness ι) (host : Host) : Definition → Definition → Prop
  | builtIn {b : BuiltIn} :
    (∀ i m n, K.machines i m n → K.Agree i Eq (b.run m) (b.run n)) →
      Definitions K host (.builtIn b) (.builtIn b)
  | host {body : List Action} :
    (∀ i m n, K.machines i m n → K.Agree i Eq (host body m) (host body n)) →
      Definitions K host (.host body) (.host body)
  | variable {c : Nat} : Definitions K host (.variable c) (.variable c)
  | constant {v w : Value} : K.values v w → Definitions K host (.constant v) (.constant w)
  | compiled {vs ws : List Value} : List.Forall₂ K.Items vs ws →
      Definitions K host (.compiled vs) (.compiled ws)

/-- What executing a word needs beyond what its parts need. -/
structure Executable (K : Likeness ι) (host : Host) : Prop extends Ordinary K where
  word : ∀ {v w}, K.words v w → v.name = w.name ∧ K.Definitions host v.definition w.definition
  here : ∀ {i m n}, K.machines i m n →
    K.places (m.location.getD .unspecified) (n.location.getD .unspecified)
  call : ∀ {i m n l k}, K.machines i m n → K.places l k → ∀ name, ∃ j,
    K.machines j (enterCall ⟨name, l⟩ m) (enterCall ⟨name, k⟩ n) ∧
      ∀ m n, K.machines j m n → K.machines i (leaveCall m) (leaveCall n)

theorem executeItems_literal {host : Host} {l : Location} {v : Value} (hv : ∀ u, v ≠ .word u)
    (rest : List Value) :
    executeItems host l (v :: rest) = (do push v; executeItems host l rest) := by
  cases v with
  | word u => exact absurd rfl (hv u)
  | number | text | cell => rfl

/-- An act and the same act between two changes of the machine. -/
theorem agree_between {j : ι} {S : α → β → Prop} {f f' g g' : Machine → Machine}
    {x : Act α} {y : Act β} (h : K.Agree j S (x (f m)) (y (g n)))
    (hleave : ∀ m n, K.machines j m n → K.machines i (f' m) (g' n)) :
    K.Agree i S (between f f' x m) (between g g' y n) := by
  unfold between
  generalize x (f m) = rx at h
  generalize y (g n) = ry at h
  cases h with
  | ok answer left => exact .ok answer (hleave _ _ left)
  | error halt left => exact .error halt (hleave _ _ left)
  | excused excuse => exact .excused excuse

namespace Executable

variable {host : Host} {l k : Location}

/-- A body whose words keep machines alike keeps them alike. -/
theorem executeItems_of_words (hK : K.Executable host) {vs ws : List Value}
    (hitems : List.Forall₂ K.Items vs ws)
    (hwords : ∀ v, .word v ∈ vs → ∀ w i m n, K.words v w → K.machines i m n →
      K.Agree i Eq (Machine.execute host l v m) (Machine.execute host k w n))
    (h : K.machines i m n) :
    K.Agree i Eq (Machine.executeItems host l vs m) (Machine.executeItems host k ws n) := by
  induction hitems generalizing m n with
  | nil => exact .ok rfl h
  | @cons v w vs ws hitem _ ih =>
    have hrest := fun m n => ih (m := m) (n := n) fun v hv => hwords v (List.mem_cons_of_mem _ hv)
    cases hitem with
    | word hw =>
      exact (hwords _ List.mem_cons_self _ _ _ _ hw h).bind fun _ _ m n _ h => hrest m n h
    | literal hv hw hvw =>
      rw [executeItems_literal hv, executeItems_literal hw]
      exact (hK.push h hvw).bind fun _ _ m n _ h => hrest m n h

/-- Executing alike words keeps machines alike. -/
theorem execute (hK : K.Executable host) {v w : Word} (hw : K.words v w) (h : K.machines i m n)
    (hl : K.places l k) :
    K.Agree i Eq (Machine.execute host l v m) (Machine.execute host k w n) := by
  induction v using Word.uses_induction generalizing w i m n l k with
  | h v ih =>
    obtain ⟨hname, hdef⟩ := hK.word hw
    obtain ⟨j, henter, hleave⟩ := hK.call h hl v.name
    rw [execute_eq, execute_eq, ← hname]
    refine agree_between ?_ hleave
    generalize enterCall ⟨v.name, l⟩ m = m' at henter
    generalize enterCall ⟨v.name, k⟩ n = n' at henter
    have hused : ∀ u, .word u ∈ v.definition.values → v.Uses u := fun u hu => hu
    revert hdef hused
    generalize v.definition = d
    generalize w.definition = e
    intro hdef hused
    cases hdef with
    | builtIn hb => exact hb _ _ _ henter
    | host hb => exact hb _ _ _ henter
    | «variable» => exact hK.push henter (hK.cell _)
    | constant hv => exact hK.push henter hv
    | compiled hitems =>
      exact hK.executeItems_of_words hitems
        (fun u hu w i m n hw h => ih u (hused u hu) hw h (hK.here henter)) henter

/-- Executing alike items keeps machines alike. -/
theorem executeItems (hK : K.Executable host) {vs ws : List Value}
    (hitems : List.Forall₂ K.Items vs ws) (hl : K.places l k) (h : K.machines i m n) :
    K.Agree i Eq (Machine.executeItems host l vs m) (Machine.executeItems host k ws n) :=
  hK.executeItems_of_words hitems (fun _ _ _ _ _ _ hw h => hK.execute hw h hl) h

/-- Executing alike bodies keeps machines alike. -/
theorem executeBody (hK : K.Executable host) {vs ws : List Value}
    (hitems : List.Forall₂ K.Items vs ws) (h : K.machines i m n) :
    K.Agree i Eq (Machine.executeBody host vs m) (Machine.executeBody host ws n) :=
  hK.executeItems hitems (hK.here h) h

end Executable
end Likeness
end WordStack
