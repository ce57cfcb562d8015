import WordStack.Proofs.Parallel
import WordStack.Proofs.Progress

/-
  Two machines that do exactly the same, host words and nested runs included. A relation between
  machines that differ in their readers at most is `Uniform` when it outlasts every change, every
  reading on, every call and every nested run.
  `Uniform.perform`: then it outlasts every action of a host, and so does every host word
  (`Uniform.nested`), whatever its actions are.
-/
namespace WordStack

open Machine

variable {ι α : Type} {R : ι → Machine → Machine → Prop} {i : ι} {m n : Machine}
  {excused : Halt → Prop}

/-- `R` is parallel, and its machines read from the same reader, in nested runs as well. -/
structure Uniform (R : ι → Machine → Machine → Prop) : Prop extends Parallel R where
  first : ∀ {i m n}, R i m n → (m.readers = [] ∧ n.readers = []) ∨
    ∃ r rs rs', m.readers = r :: rs ∧ n.readers = r :: rs'
  read : ∀ {i m n r s rs rs'}, R i m n → m.readers = r :: rs → n.readers = r :: rs' →
    r.Advances s → R i { m with readers := s :: rs } { n with readers := s :: rs' }
  reader : ∀ {i m n}, R i m n → ∀ r, ∃ j, R j (pushReader r m) (pushReader r n) ∧
    ∀ m n, R j m n → R i (dropReader m) (dropReader n)

namespace Uniform

open Likeness

theorem nextWord (hR : Uniform R) (h : R i m n) :
    (equal R excused).Agree i Eq (Machine.nextWord m) (Machine.nextWord n) := by
  rcases hR.first h with ⟨hm, hn⟩ | ⟨r, rs, rs', hm, hn⟩
  · rw [nextWord_of_nil hm, nextWord_of_nil hn]
    exact .ok rfl h
  · rw [nextWord_of_cons hm, nextWord_of_cons hn]
    exact .ok rfl (hR.read h hm hn (r.advances_nextWord))

theorem nextWordRequired (hR : Uniform R) (h : R i m n) :
    (equal R excused).Agree i Eq (Machine.nextWordRequired m) (Machine.nextWordRequired n) := by
  refine (hR.nextWord h).bind fun t _ m n ht h => ?_
  subst ht
  cases t with
  | none => exact hR.fail h _
  | some t => exact .ok rfl h

theorem textUpTo (hR : Uniform R) (h : R i m n) (d : Char) :
    (equal R excused).Agree i Eq (Machine.textUpTo d m) (Machine.textUpTo d n) := by
  rcases hR.first h with ⟨hm, hn⟩ | ⟨r, rs, rs', hm, hn⟩
  · rw [textUpTo_of_nil hm, textUpTo_of_nil hn]
    exact hR.fail h _
  · rw [textUpTo_of_cons hm, textUpTo_of_cons hn]
    have hadv := r.advances_textUpTo d
    rcases hr : r.textUpTo d with ⟨e | text, s⟩ <;> rw [hr] at hadv
    · refine .error ?_ (hR.read h hm hn hadv)
      rw [hR.same h]
      rfl
    · exact .ok rfl (hR.read h hm hn hadv)

theorem skipWordsTo (hR : Uniform R) (h : R i m n) (p : String → Bool) :
    (equal R excused).Agree i Eq (Machine.skipWordsTo p m) (Machine.skipWordsTo p n) := by
  rcases hR.first h with ⟨hm, hn⟩ | ⟨r, rs, rs', hm, hn⟩
  · rw [skipWordsTo_of_nil hm, skipWordsTo_of_nil hn]
    exact hR.fail h _
  · rw [skipWordsTo_of_cons hm, skipWordsTo_of_cons hn]
    have hread := hR.read h hm hn (r.advances_skipWordsTo p)
    split
    · exact .ok rfl hread
    · exact hR.fail hread _

theorem readsAlike (hR : Uniform R) : ReadsAlike R excused :=
  ⟨hR.nextWordRequired, hR.textUpTo, hR.skipWordsTo⟩

variable {host : Host}

theorem running (hR : Uniform R) (hhost : Parallel.Keeps R excused host) :
    (equal R excused).Running host :=
  hR.toParallel.running hR.readsAlike hhost

/-- Runs over as many words keep machines related. -/
theorem runWords (hR : Uniform R) (hhost : Parallel.Keeps R excused host) (k : Nat) (h : R i m n) :
    (equal R excused).Agree i Eq (Machine.runWords host k m) (Machine.runWords host k n) := by
  refine (hR.running hhost).runWords rfl (fun h => ?_) k h
  refine (hR.nextWord h).mono fun t u htu => ?_
  subst htu
  cases t with
  | none => exact .none
  | some t => exact .some ⟨rfl, rfl⟩

theorem run (hR : Uniform R) (hhost : Parallel.Keeps R excused host) (h : R i m n)
    (path text : String) :
    (equal R excused).Agree i Eq (Machine.run host path text m) (Machine.run host path text n) := by
  obtain ⟨j, hpush, hdrop⟩ := hR.reader h (.ofText path text)
  exact agree_between (hR.runWords hhost _ hpush) hdrop

theorem runFile (hR : Uniform R) (hhost : Parallel.Keeps R excused host) (h : R i m n)
    (path : String) (contents : FileContents) :
    (equal R excused).Agree i Eq (Machine.runFile host path contents m)
      (Machine.runFile host path contents n) := by
  cases contents with
  | ok text => exact hR.run hhost h path text
  | error fault => exact .error rfl h

/-! ## The actions of a host -/

theorem findWord (hR : Uniform R) (h : R i m n) (name : String) :
    (equal R excused).Agree i Eq (Machine.findWord name m) (Machine.findWord name n) := by
  cases hw : m.dictionary.get? name with
  | some w => exact hR.answer h fun rs => findWord_of_some hw
  | none => exact hR.fails h fun rs => findWord_of_none hw

theorem lookUp (hR : Uniform R) (h : R i m n) (named : Dictionary → Except String α) :
    (equal R excused).Agree i Eq (Machine.lookUp named m) (Machine.lookUp named n) := by
  cases hd : named m.dictionary with
  | ok a => exact hR.answer h fun rs => lookUp_of_ok hd
  | error name => exact hR.fails h fun rs => lookUp_of_error hd

theorem pushAll (hR : Uniform R) (h : R i m n) (vs : List Value) :
    (equal R excused).Agree i Eq (vs.forM push m) (vs.forM push n) := by
  induction vs generalizing m n with
  | nil => exact .ok rfl h
  | cons v vs ih =>
    exact (hR.ordinary.push h rfl).bind fun _ _ m n _ h => ih h

/-- What an action gives is made from the answer of the operation in it. -/
theorem reply {β : Type} {x : Act α} {f : α → β} (hx : (equal R excused).Agree i Eq (x m) (x n)) :
    (equal R excused).Agree i Eq ((do return f (← x) : Act β) m) ((do return f (← x) : Act β) n) :=
  hx.bind fun a b m n hab h => by subst hab; exact .ok rfl h

/-- Whatever a host asks of two related machines, they answer alike and stay related. -/
theorem perform (hR : Uniform R) (hhost : Parallel.Keeps R unexcused host) (action : Action)
    (h : R i m n) : (equal R unexcused).Agree i Eq (Machine.perform host action m)
      (Machine.perform host action n) := by
  have hO : (equal R unexcused).Ordinary := hR.ordinary
  cases action with
  | run path text => exact reply (hR.run hhost h path text)
  | runFile path contents => exact reply (hR.runFile hhost h path contents)
  | push values =>
    refine (hR.lookUp h _).bind fun vs _ m n hvs h => ?_
    subst hvs
    exact (hR.pushAll h vs).bind fun _ _ m n _ h => .ok rfl h
  | pop => exact reply (hO.pop h)
  | popNumber => exact reply (hO.popNumber h)
  | popCell => exact reply (hO.popCell h)
  | require depth => exact reply (hO.require h depth)
  | clear => exact .ok rfl (hO.withActive h .nil)
  | stack => exact hR.answer (a := .values m.active.reverse) h fun rs => rfl
  | nextWord => exact reply (hR.nextWord h)
  | nextWordRequired => exact reply (hR.nextWordRequired h)
  | nextText d => exact reply (hR.textUpTo h d)
  | pushText d =>
    refine (hR.textUpTo h d).bind fun s _ m n hs h => ?_
    subst hs
    exact (hO.push h rfl).bind fun _ _ m n _ h => .ok rfl h
  | startCompiling name l => exact reply (hR.startCompiling h name l)
  | stopCompiling => exact reply (hR.stopCompiling h)
  | execute name l =>
    refine (hR.findWord h name).bind fun w _ m n hw h => ?_
    subst hw
    exact reply ((hR.running hhost).execute rfl h rfl)
  | executeBody values =>
    refine (hR.lookUp h _).bind fun vs _ m n hvs h => ?_
    subst hvs
    exact reply ((hR.running hhost).executeBody (Parallel.items vs) h)
  | resolve token => exact reply (hR.resolve h token)
  | find name => exact hR.answer (a := .found (m.dictionary.get? name)) h fun rs => rfl
  | define name isImmediate body =>
    have hheading : hostHeading n name isImmediate = hostHeading m name isImmediate := by
      rw [hR.same h]; rfl
    unfold Machine.perform
    rw [get_bind, get_bind, hheading]
    exact reply (hR.addWord h _ _)
  | addWord heading draft =>
    refine (hR.lookUp h _).bind fun d _ m n hd h => ?_
    subst hd
    exact reply (hR.addWord h _ _)
  | newCell value =>
    refine (hR.lookUp h _).bind fun v _ m n hv h => ?_
    subst hv
    exact reply (hR.newCell h v)
  | readCell c => exact reply (hO.readCell h c)
  | writeCell c value =>
    refine (hR.lookUp h _).bind fun v _ m n hv h => ?_
    subst hv
    exact reply (hO.writeCell h c rfl)
  | listing => exact hR.answer (a := .text m.dictionary.listing) h fun rs => rfl
  | calls => exact hR.answer (a := .calls m.calls) h fun rs => rfl
  | location => exact hR.answer (a := .location m.location) h fun rs => rfl
  | write text => exact reply (hR.write h text)
  | compare i j => exact hR.answer (a := .verdict (compareAt m i j)) h fun rs => rfl
  | attempt action =>
    have hp := hR.perform hhost action h
    unfold Machine.perform
    generalize Machine.perform host action m = x at hp
    generalize Machine.perform host action n = y at hp
    cases hp with
    | ok answer left => exact .ok answer left
    | @error halt _ _ _ heq left =>
      obtain rfl := heq
      cases halt with
      | failed e => exact .ok rfl left
      | exhausted => exact .error rfl left
    | excused excuse => exact excuse.elim

theorem performAll (hR : Uniform R) (hhost : Parallel.Keeps R unexcused host) (body : List Action)
    (h : R i m n) : (equal R unexcused).Agree i Eq (Machine.performAll host body m)
      (Machine.performAll host body n) := by
  induction body generalizing m n with
  | nil => exact .ok rfl h
  | cons action rest ih =>
    refine (hR.perform hhost action h).bind fun r _ m n hr h => ?_
    subst hr
    have hc := hR.change h (.replied r)
    have hn : { m with replies := r :: m.replies, readers := n.readers } =
        { n with replies := r :: n.replies } := by rw [hR.same h]
    rw [hn] at hc
    exact ih hc

/-- Host words keep related machines related, however deep they nest. -/
theorem nested (hR : Uniform R) (k : Nat) : Parallel.Keeps R unexcused (Host.nested k) := by
  induction k with
  | zero => exact fun _ _ _ _ h => .error rfl h
  | succ k ih => exact fun body _ _ _ h => hR.performAll ih body h

end Uniform
end WordStack
