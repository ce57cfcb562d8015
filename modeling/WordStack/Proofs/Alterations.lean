import Mathlib.Logic.Relation
import WordStack.Proofs.Scripted

/-
  What a script can do to a machine, one thing at a time. `Alters` lists what the built-in words
  do short of closing a definition (`alters_builtIn`), `Scripts` what happens beyond that while a
  text is run (`scripts_run`). So a property of the machines that texts lead to needs one step
  for each kind of alteration (`Scripted.induction`), and the words and runs themselves are not
  taken apart again.
-/
namespace WordStack

open Machine Relation

/-- What a built-in word can do to a machine, short of closing a definition. No word that it
adds is immediate. -/
inductive Alters (m : Machine) : Machine → Prop
  | active (vs : List Value) : Alters m (m.withActive vs)
  | read (rs : List Reader) : Alters m { m with readers := rs }
  | allocated (v : Value) : Alters m { m with cells := (m.cells.allocate v).2 }
  | stored {i : Nat} {v : Value} {cells : Cells} (h : m.cells.set? i v = some cells) :
    Alters m { m with cells }
  | written (s : String) : Alters m { m with output := m.output ++ s }
  | defined {h : Heading} (himm : h.isImmediate = false) (d : Definition) :
    Alters m (m.withWord h d).2
  | opened (name : String) (l : Location) :
    Alters m { m.note (.startedCompiling l name) with pending := some ⟨name, l⟩, mode := .compiling }

/-- What can happen to a machine while it runs a text and has no host words. -/
inductive Scripts (m : Machine) : Machine → Prop
  | altered {n : Machine} (h : Alters m n) : Scripts m n
  | closed {p : Pending} (h : m.pending = some p) :
    Scripts m { m.note (.finishedCompiling m.buffer.length p.name) with
      pending := none, mode := .interpreting, buffer := [] }
  | moved (l : Location) : Scripts m { m with location := some l }
  | noted (e : Event) : Scripts m (m.note e)
  | collected (w : Word) (h : m.mode = .compiling) :
    Scripts m { m.note (.compiledReference w.name) with buffer := .word w :: m.buffer }
  | called (cs : List Call) : Scripts m { m with calls := cs }

variable {α : Type} {C : Machine → Machine → Prop} {m₀ m n : Machine}

namespace Likeness

/-- A machine and itself, as long as steps of `C` lead to it from the first one. -/
abbrev along (C : Machine → Machine → Prop) : Likeness Machine :=
  .equal (fun m₀ m n => m = n ∧ ReflTransGen C m₀ m) unexcused

/-- An act agrees with itself as soon as steps of `C` lead to what it leaves. -/
theorem agree_along {x : Act α} (h : ReflTransGen C m₀ (left (x m))) :
    (along C).Agree m₀ Eq (x m) (x m) := by
  generalize x m = rx at h
  cases rx with
  | ok a n => exact .ok rfl ⟨rfl, h⟩
  | error halt n => exact .error rfl ⟨rfl, h⟩

theorem left_of_along {S : α → α → Prop} {x : Act α}
    (h : (along C).Agree m₀ S (x m) (x n)) : ReflTransGen C m₀ (left (x m)) := by
  generalize x m = rx at h
  generalize x n = ry at h
  cases h with
  | ok _ left => exact left.2
  | error _ left => exact left.2
  | excused excuse => exact excuse.elim

end Likeness

/-! ## What an operation leaves -/

namespace Machine

theorem left_fail (c : Cause) (m : Machine) :
    left (fail c m : EStateM.Result Halt Machine α) = m := rfl

theorem left_readCell (i : Nat) (m : Machine) : left (readCell i m) = m := by
  cases h : m.cells.get? i with
  | none => rw [readCell_of_none h, left_fail]
  | some v => rw [readCell_of_some h]; rfl

theorem left_resolve (token : String) (m : Machine) : left (resolve token m) = m := by
  cases h : m.dictionary.get? (Text.uppercase token) with
  | some w => rw [resolve_of_word h]; rfl
  | none =>
    cases hx : Number.parse? (Text.uppercase token) with
    | some x => rw [resolve_of_number h hx]; rfl
    | none => rw [resolve_of_unknown h hx, left_fail]

theorem left_nextWord (m : Machine) : ∃ rs, left (nextWord m) = { m with readers := rs } := by
  obtain ⟨t, rs, h⟩ := nextWord_ok m
  exact ⟨rs, by rw [h]; rfl⟩

theorem left_nextWordRequired (m : Machine) :
    ∃ rs, left (nextWordRequired m) = { m with readers := rs } := by
  rcases nextWordRequired_cases m with ⟨t, rs, h⟩ | ⟨rs, h⟩
  · exact ⟨rs, by rw [h]; rfl⟩
  · exact ⟨rs, by rw [h, left_fail]⟩

theorem left_textUpTo (d : Char) (m : Machine) :
    ∃ rs, left (textUpTo d m) = { m with readers := rs } := by
  rcases textUpTo_cases d m with ⟨s, rs, h⟩ | ⟨e, rs, h⟩
  · exact ⟨rs, by rw [h]; rfl⟩
  · exact ⟨rs, by rw [h]; rfl⟩

theorem left_skipWordsTo (p : String → Bool) (m : Machine) :
    ∃ rs, left (skipWordsTo p m) = { m with readers := rs } := by
  rcases skipWordsTo_cases p m with ⟨rs, h⟩ | ⟨rs, h⟩
  · exact ⟨rs, by rw [h]; rfl⟩
  · exact ⟨rs, by rw [h, left_fail]⟩

theorem left_between {f g : Machine → Machine} {x : Act α} (m : Machine) :
    left (between f g x m) = g (left (x (f m))) := by
  unfold between
  cases x (f m) <;> rfl

theorem left_stopCompiling {p : Pending} (hp : m.pending = some p) :
    left (stopCompiling m) =
      ({ m.note (.finishedCompiling m.buffer.length p.name) with
          pending := none, mode := .interpreting, buffer := [] }.withWord
        ⟨p.name, false, p.location, "User defined word.", ""⟩ (.compiled m.buffer.reverse)).2 := by
  rw [stopCompiling_of_some hp]
  rfl

end Machine

/-! ## Built-in words -/

namespace Likeness

theorem ordinary_along (hC : ∀ {m n}, Alters m n → C m n) : (along C).Ordinary where
  fail h c := by rw [h.1]; rfl
  shape h := h ▸ .refl _
  number _ := rfl
  cell _ := rfl
  active h := by
    rw [h.1]
    exact List.forall₂_eq_eq_eq (α := Value) ▸ rfl
  withActive {m₀ m n vs ws} h hvs := by
    obtain ⟨rfl, hm⟩ := h
    obtain rfl : vs = ws := List.forall₂_eq_eq_eq ▸ hvs
    exact ⟨rfl, hm.tail (hC (.active vs))⟩
  readCell {m₀ m n} h c := by
    obtain ⟨rfl, hm⟩ := h
    refine agree_along ?_
    rwa [left_readCell]
  writeCell {m₀ m n v w} h c hv := by
    obtain ⟨rfl, hm⟩ := h
    obtain rfl : v = w := hv
    refine agree_along ?_
    cases hc : m.cells.set? c v with
    | none => rwa [writeCell_of_none hc, left_fail]
    | some cells =>
      rw [writeCell_of_some hc]
      exact hm.tail (hC (.stored hc))
  write {m₀ m n s t} h hs := by
    obtain ⟨rfl, hm⟩ := h
    obtain rfl : s = t := hs
    refine agree_along ?_
    rw [write_apply]
    split
    · exact hm
    · exact hm.tail (hC (.written s))
  line h := congrArg (fun v : Value => v.render ++ "\n") h
  stackLine h := congrArg BuiltIn.stackLine h.1

theorem tokens_self (C : Machine → Machine → Prop) {t u : Token} (h : t = u) :
    (along C).Tokens t u := by
  subst h
  exact ⟨rfl, rfl⟩

theorem collecting_along (hC : ∀ {m n}, Alters m n → C m n) : (along C).Collecting where
  toStacking := (ordinary_along hC).toStacking
  text h := congrArg Value.text h
  nextWordRequired {m₀ m n} h := by
    obtain ⟨rfl, hm⟩ := h
    obtain ⟨rs, hrs⟩ := left_nextWordRequired m
    refine (agree_along ?_).mono fun t u htu => tokens_self C htu
    rw [hrs]
    exact hm.tail (hC (.read rs))
  textUpTo {m₀ m n} h d _ := by
    obtain ⟨rfl, hm⟩ := h
    obtain ⟨rs, hrs⟩ := left_textUpTo d m
    refine agree_along ?_
    rw [hrs]
    exact hm.tail (hC (.read rs))
  skipComment {m₀ m n} h := by
    obtain ⟨rfl, hm⟩ := h
    obtain ⟨rs, hrs⟩ := left_skipWordsTo BuiltIn.endsComment m
    refine agree_along ?_
    rw [hrs]
    exact hm.tail (hC (.read rs))
  newCell {m₀ m n} h x := by
    obtain ⟨rfl, hm⟩ := h
    exact agree_along (hm.tail (hC (.allocated (.number x))))
  addVariable {m₀ m n t u} h htu c := by
    obtain ⟨rfl, hm⟩ := h
    obtain rfl := Token.eq_of_same htu
    exact (agree_along (hm.tail (hC (.defined rfl (.variable c))))).mono fun _ _ _ => trivial
  addConstant {m₀ m n t u v w} h htu hv := by
    obtain ⟨rfl, hm⟩ := h
    obtain rfl := Token.eq_of_same htu
    obtain rfl : v = w := hv
    exact (agree_along (hm.tail (hC (.defined rfl (.constant v))))).mono fun _ _ _ => trivial
  startCompiling {m₀ m n t u} h htu := by
    obtain ⟨rfl, hm⟩ := h
    obtain rfl := Token.eq_of_same htu
    exact agree_along (hm.tail (hC (.opened t.text t.location)))

end Likeness

/-- What a built-in word does that does not close a definition. -/
theorem alters_builtIn {b : BuiltIn} (hend : b ≠ .endDefinition) (m : Machine) :
    ReflTransGen Alters m (left (b.run m)) := by
  cases hb : b.isImmediate with
  | false =>
    have hK := Likeness.ordinary_along (C := Alters) fun h => h
    exact Likeness.left_of_along (hK.run hb ⟨rfl, .refl⟩ fun _ => rfl)
  | true =>
    have hK := Likeness.collecting_along (C := Alters) fun h => h
    exact Likeness.left_of_along (hK.run hb hend ⟨rfl, .refl⟩)

/-! ## Runs -/

namespace Likeness

theorem stopCompiling_scripts (h : ReflTransGen Scripts m₀ m) :
    ReflTransGen Scripts m₀ (left (Machine.stopCompiling m)) := by
  cases hp : m.pending with
  | none => rwa [stopCompiling_of_none hp, left_fail]
  | some p =>
    rw [left_stopCompiling hp]
    exact (h.tail (.closed hp)).tail (.altered (.defined rfl _))

theorem reading_scripts : (along Scripts).Reading :=
  { ordinary_along .altered, collecting_along .altered with
    listing := fun h => by rw [h.1]; rfl
    stopCompiling := fun h => by
      rw [← h.1]
      exact (agree_along (stopCompiling_scripts h.2)).mono fun _ _ _ => trivial }

theorem running_scripts : (along Scripts).Running .absent where
  toReading := reading_scripts
  word {v w} h := by
    obtain rfl : v = w := h
    refine ⟨rfl, ?_⟩
    cases v.definition with
    | builtIn b => exact .builtIn fun _ _ _ h => reading_scripts.run b h
    | host body => exact .host fun _ _ _ h => .error rfl h
    | «variable» c => exact .variable
    | constant v => exact .constant rfl
    | compiled body => exact .compiled (Parallel.items body)
  here h := by rw [h.1]; rfl
  call {m₀ m n l k} h hl name := by
    obtain ⟨rfl, hm⟩ := h
    obtain rfl : l = k := hl
    refine ⟨m₀, ⟨rfl, ?_⟩, fun m n h => ?_⟩
    · exact (hm.tail (.noted (.executedWord name))).tail (.called (⟨name, l⟩ :: m.calls))
    · obtain ⟨rfl, hm⟩ := h
      exact ⟨rfl, hm.tail (.called m.calls.tail)⟩
  mode h := by rw [h.1]
  moveTo {m₀ m n l k} h hl := by
    obtain ⟨rfl, hm⟩ := h
    obtain rfl : l = k := hl
    exact ⟨rfl, hm.tail (.moved l)⟩
  resolve {m₀ m n t u} h htu := by
    obtain ⟨rfl, hm⟩ := h
    obtain rfl := Token.eq_of_same htu
    refine (agree_along (by rwa [left_resolve])).mono fun a b hab => ?_
    subst hab
    cases a with
    | word w => exact .word rfl rfl
    | number x => exact .number x
  noteNumber {m₀ m n s t} h hst := by
    obtain ⟨rfl, hm⟩ := h
    obtain rfl : s = t := hst
    exact ⟨rfl, hm.tail (.noted _)⟩
  collect {m₀ m n v w} h hmode hw := by
    obtain ⟨rfl, hm⟩ := h
    obtain rfl : v = w := hw
    exact ⟨rfl, hm.tail (.collected v hmode)⟩

end Likeness

/-- What running a text does where there are no host words. -/
theorem scripts_run (path text : String) (m : Machine) :
    ReflTransGen Scripts m (left (run .absent path text m)) := by
  have hnext : ∀ {m₀ m n}, (Likeness.along Scripts).machines m₀ m n →
      (Likeness.along Scripts).Agree m₀ (Option.Rel (Likeness.along Scripts).Tokens)
        (nextWord m) (nextWord n) := by
    rintro m₀ m _ ⟨rfl, hm⟩
    obtain ⟨rs, hrs⟩ := left_nextWord m
    have hread : ReflTransGen Scripts m₀ (left (nextWord m)) := by
      rw [hrs]
      exact hm.tail (.altered (.read rs))
    refine (Likeness.agree_along hread).mono fun t u htu => ?_
    subst htu
    cases t with
    | none => exact .none
    | some t => exact .some (Likeness.tokens_self Scripts rfl)
  have hwords := Likeness.left_of_along (Likeness.running_scripts.runWords rfl hnext
    ((Reader.ofText path text).rest.length + 1)
    (m := pushReader (.ofText path text) m) ⟨rfl, .refl⟩)
  unfold run Machine.withReader
  rw [left_between]
  exact (hwords.head (.altered (.read _))).tail (.altered (.read _))

/-- What holds of the machine to begin with, outlasts whatever a script does and says nothing
about the output and the reports holds of every machine that texts lead to. -/
theorem Scripted.induction {P : Machine → Prop} (hfresh : P .fresh)
    (hstep : ∀ {m n}, P m → Scripts m n → P n)
    (hsink : ∀ {m} fails, P m → P { m with outputFails := fails })
    (hobserve : ∀ {m}, P m → P (Session.beginStep m)) (h : Scripted m) : P m := by
  induction h with
  | fresh => exact hfresh
  | @run m hm depth path text ih =>
    rw [run_of_scripted hm (.nested depth) .absent]
    have hrun := scripts_run path text m
    generalize left (Machine.run .absent path text m) = n at hrun
    induction hrun with
    | refl => exact ih
    | tail _ hlast ih => exact hstep ih hlast
  | setOutputFails _ fails ih => exact hsink fails ih
  | observe _ ih => exact hobserve ih

end WordStack
