import WordStack.Proofs.ImmediateWords

/-
  A body can be cut into words in any way. `Word.flat` writes out what a word comes to, by putting
  for each compiled word in its body what that word comes to. Entering a call and leaving it again
  changes the calls and the reports only, and nothing that an ordinary word does depends on these
  (`Likeness.calling`); so executing a value and executing what it comes to are the same
  (`flattens`).
  `factoring_free`: words that come to the same do the same, failures included.
-/
namespace WordStack

open Machine

mutual

/-- What the value comes to in a body. -/
def Value.flat : Value → List Value
  | .word w => w.flat
  | .number x => [.number x]
  | .text s => [.text s]
  | .cell i => [.cell i]
termination_by structural v => v

/-- A compiled word comes to what the values in its body come to, any other word to itself. -/
def Word.flat : Word → List Value
  | ⟨_, _, _, _, _, _, .compiled body⟩ => Value.flatAll body
  | w => [.word w]
termination_by structural w => w

def Value.flatAll : List Value → List Value
  | [] => []
  | v :: vs => v.flat ++ Value.flatAll vs
termination_by structural vs => vs

end

/-- The machines differ in their calls and their reports at most. -/
inductive SameButCalls (m : Machine) : Machine → Prop
  | intro (cs : List Call) (es : List Event) : SameButCalls m { m with calls := cs, events := es }

/-- Both acts failed at the same place and for the same cause. -/
inductive SameFailure : Halt → Halt → Prop
  | failed {e f : Error} : f = { e with calls := f.calls } → SameFailure (.failed e) (.failed f)

/-- Both acts succeed, or both fail with errors that differ in their calls at most; and the
machines that they leave differ in their reports at most. -/
inductive SameButTrace :
    EStateM.Result Halt Machine Unit → EStateM.Result Halt Machine Unit → Prop
  | ok {m n : Machine} (left : n = { m with events := n.events }) :
    SameButTrace (.ok () m) (.ok () n)
  | failed {e f : Error} {m n : Machine} (error : f = { e with calls := f.calls })
    (left : n = { m with events := n.events }) :
    SameButTrace (.error (.failed e) m) (.error (.failed f) n)

/-- Machines in the middle of different calls, which do the same. -/
def Likeness.calling : Likeness Unit where
  machines _ := SameButCalls
  values := Eq
  texts := Eq
  places _ _ := True
  words v w := v = w ∧ v.Within Word.IsOrdinary
  halts := SameFailure
  excused := unexcused

variable {host : Host} {m n : Machine} {w v : Word} {body : List Value} {k l : Location}
  {x y z : EStateM.Result Halt Machine Unit}

/-! ## What a word comes to -/

theorem Value.flatAll_eq_flatMap (vs : List Value) : Value.flatAll vs = vs.flatMap Value.flat := by
  induction vs with
  | nil => rfl
  | cons v vs ih => rw [Value.flatAll, ih, List.flatMap_cons]

theorem Value.flat_of_not_word {v : Value} (h : ∀ w, v ≠ .word w) : v.flat = [v] := by
  cases v with
  | word w => exact absurd rfl (h w)
  | number | text | cell => rfl

theorem Word.flat_of_compiled (h : w.definition = .compiled body) :
    w.flat = body.flatMap Value.flat := by
  obtain ⟨serial, name, isImmediate, location, description, signature, definition⟩ := w
  obtain rfl : definition = .compiled body := h
  exact Value.flatAll_eq_flatMap body

theorem Word.flat_of_not_compiled (h : ∀ body, w.definition ≠ .compiled body) :
    w.flat = [.word w] := by
  obtain ⟨serial, name, isImmediate, location, description, signature, definition⟩ := w
  cases definition with
  | compiled body => exact absurd rfl (h body)
  | builtIn | host | «variable» | constant => rfl

/-- A word either comes to what its body comes to, or to itself. -/
theorem Word.flat_cases (w : Word) :
    (∃ body, w.definition = .compiled body ∧ w.flat = body.flatMap Value.flat) ∨
      (∀ body, w.definition ≠ .compiled body) ∧ w.flat = [.word w] := by
  by_cases h : ∃ body, w.definition = .compiled body
  · obtain ⟨body, h⟩ := h
    exact .inl ⟨body, h, Word.flat_of_compiled h⟩
  · have h : ∀ body, w.definition ≠ .compiled body := fun body hbody => h ⟨body, hbody⟩
    exact .inr ⟨h, Word.flat_of_not_compiled h⟩

/-- What a word comes to refers to words that it leads to, and none of them is compiled. -/
theorem Word.leadsTo_of_mem_flat (h : .word v ∈ w.flat) :
    w.LeadsTo v ∧ ∀ body, v.definition ≠ .compiled body := by
  induction w using Word.uses_induction with
  | h w ih =>
    rcases w.flat_cases with ⟨body, hbody, hflat⟩ | ⟨hnot, hflat⟩ <;> rw [hflat] at h
    · obtain ⟨x, hx, hv⟩ := List.mem_flatMap.mp h
      cases x with
      | word u =>
        have hu := Word.uses_of_compiled hbody hx
        obtain ⟨hleads, hnot⟩ := ih u hu hv
        exact ⟨.head hu hleads, hnot⟩
      | number | text | cell => simp [Value.flat] at hv
    · obtain rfl : v = w := by simpa using h
      exact ⟨.refl, hnot⟩

theorem Word.Within.of_mem_flat {p : Word → Prop} (hw : w.Within p) (h : .word v ∈ w.flat) :
    v.Within p :=
  fun u hu => hw u ((Word.leadsTo_of_mem_flat h).1.trans hu)

/-- A call of a compiled word and the body in its place come to the same. -/
theorem flatMap_flat_call {part : List Value} (h : v.definition = .compiled part)
    (before after : List Value) :
    (before ++ .word v :: after).flatMap Value.flat =
      (before ++ part ++ after).flatMap Value.flat := by
  have hcall : (Value.word v).flat = part.flatMap Value.flat := Word.flat_of_compiled h
  rw [List.flatMap_append, List.flatMap_cons, hcall, List.flatMap_append, List.flatMap_append,
    List.append_assoc]

/-! ## Calls make no difference -/

namespace SameButCalls

theorem refl (m : Machine) : SameButCalls m m := .intro m.calls m.events

theorem active_eq (h : SameButCalls m n) : n.active = m.active := by cases h; rfl

theorem withActive (h : SameButCalls m n) (vs : List Value) :
    SameButCalls (m.withActive vs) (n.withActive vs) := by
  obtain ⟨cs, es⟩ := h
  unfold Machine.withActive
  cases m.mode with
  | interpreting => exact .intro cs es
  | compiling => exact .intro cs es

theorem enterCall (h : SameButCalls m n) (c : Call) : SameButCalls (m.enterCall c) n := by
  obtain ⟨cs, es⟩ := h
  exact .intro cs es

theorem leaveCall (h : SameButCalls m n) : SameButCalls m.leaveCall n := by
  obtain ⟨cs, es⟩ := h
  exact .intro cs es

theorem symm (h : SameButCalls m n) : SameButCalls n m := by
  obtain ⟨cs, es⟩ := h
  exact .intro m.calls m.events

theorem eq_of_calls_eq (h : SameButCalls m n) (hcalls : m.calls = n.calls) :
    n = { m with events := n.events } := by
  obtain ⟨cs, es⟩ := h
  obtain rfl : m.calls = cs := hcalls
  rfl

end SameButCalls

namespace Likeness

theorem ordinary_calling : calling.Ordinary where
  fail h c := by
    obtain ⟨cs, es⟩ := h
    exact .failed rfl
  shape h := h ▸ .refl _
  number _ := rfl
  cell _ := rfl
  active h := by
    rw [h.active_eq]
    exact List.forall₂_eq_eq_eq (α := Value) ▸ rfl
  withActive {i m n vs ws} h hvs := by
    obtain rfl : vs = ws := List.forall₂_eq_eq_eq ▸ hvs
    exact h.withActive vs
  readCell h _ := by
    obtain ⟨cs, es⟩ := h
    exact agree_readCell (.intro cs es) rfl (fun _ => .error (.failed rfl) (.intro cs es))
      fun _ _ => rfl
  writeCell {i m n v w} h c hv := by
    obtain ⟨cs, es⟩ := h
    obtain rfl : v = w := hv
    exact agree_writeCell rfl (fun _ => .error (.failed rfl) (.intro cs es))
      fun _ _ => .intro cs es
  write {i m n s t} h hs := by
    obtain ⟨cs, es⟩ := h
    obtain rfl : s = t := hs
    exact agree_write (.intro cs es) rfl (.failed rfl) (.intro cs es)
  line h := congrArg (fun v : Value => v.render ++ "\n") h
  stackLine h := by
    show BuiltIn.stackLine _ = BuiltIn.stackLine _
    unfold BuiltIn.stackLine
    rw [h.active_eq]

theorem executable_calling (host : Host) : calling.Executable host where
  toOrdinary := ordinary_calling
  word {v w} h := by
    obtain ⟨rfl, hv⟩ := h
    refine ⟨rfl, ordinary_calling.definitions hv.self.definition (fun _ i m n h => ?_)
      (fun _ _ => rfl) fun u hu => ⟨rfl, hv.of_uses hu⟩⟩
    obtain ⟨cs, es⟩ := h
    rfl
  here _ := trivial
  call {i m n l k} h _ name := by
    refine ⟨i, ((h.enterCall ⟨name, l⟩).symm.enterCall ⟨name, k⟩).symm, fun m n h => ?_⟩
    exact h.leaveCall.symm.leaveCall.symm

/-- An act and the same act as a call of a word. -/
theorem agree_duringCall {f g : Act Unit} {c : Call}
    (h : calling.Agree () Eq (f (m.enterCall c)) (g n)) :
    calling.Agree () Eq (duringCall c f m) (g n) := by
  unfold duringCall between
  generalize f (m.enterCall c) = rf at h
  generalize g n = rg at h
  cases h with
  | ok answer left => exact .ok answer left.leaveCall
  | error halt left => exact .error halt left.leaveCall
  | excused excuse => exact excuse.elim

end Likeness

/-! ## Executing what a value comes to -/

theorem Machine.executeItems_single (host : Host) (l : Location) (w : Word) :
    executeItems host l [.word w] = execute host l w := by
  funext m
  show (execute host l w >>= fun _ => pure ()) m = _
  rw [bind_apply]
  cases execute host l w m <;> rfl

/-- Executing the value and executing what it comes to is the same. -/
def Value.Flattens (host : Host) (x : Value) : Prop :=
  ∀ m n l k, SameButCalls m n →
    Likeness.calling.Agree () Eq (executeItems host l [x] m) (executeItems host k x.flat n)

theorem flattens_items {xs : List Value} (hxs : ∀ x ∈ xs, x.Flattens host) (h : SameButCalls m n)
    (l k : Location) :
    Likeness.calling.Agree () Eq (executeItems host l xs m)
      (executeItems host k (xs.flatMap Value.flat) n) := by
  induction xs generalizing m n with
  | nil => exact .ok rfl h
  | cons x xs ih =>
    have hrest := fun m n => ih (m := m) (n := n) fun y hy => hxs y (List.mem_cons_of_mem _ hy)
    rw [← List.singleton_append, executeItems_append, List.singleton_append, List.flatMap_cons,
      executeItems_append]
    exact (hxs x List.mem_cons_self m n l k h).bind fun _ _ m n _ h => hrest m n h

/-- A value can be replaced by what it comes to, as long as this is ordinary. -/
theorem flattens {x : Value} (hx : ∀ v, .word v ∈ x.flat → v.Within Word.IsOrdinary) :
    x.Flattens host := by
  induction x using Value.induction with
  | hother x hword =>
    intro m n l k h
    rw [Value.flat_of_not_word hword, Likeness.executeItems_literal hword,
      Likeness.executeItems_literal hword]
    exact (Likeness.ordinary_calling.push h rfl).bind fun _ _ m n _ h => .ok rfl h
  | hword w ih =>
    intro m n l k h
    have hx : ∀ v, .word v ∈ w.flat → v.Within Word.IsOrdinary := hx
    rw [executeItems_single, show (Value.word w).flat = w.flat from rfl]
    rcases w.flat_cases with ⟨body, hbody, hflat⟩ | ⟨-, hflat⟩ <;> rw [hflat] at hx ⊢
    · rw [execute_eq, hbody, executeDefinition_compiled]
      refine Likeness.agree_duringCall (flattens_items (fun y hy => ?_) (h.enterCall _) _ k)
      exact ih y (hbody ▸ hy) fun v hv => hx v (List.mem_flatMap.mpr ⟨y, hy, hv⟩)
    · rw [executeItems_single]
      exact (Likeness.executable_calling host).execute ⟨rfl, hx w List.mem_cons_self⟩ h trivial

namespace SameButTrace

theorem symm (h : SameButTrace x y) : SameButTrace y x := by
  cases h with
  | ok left => exact .ok (by rw [left])
  | failed error left => exact .failed (by rw [error]) (by rw [left])

theorem trans (h₁ : SameButTrace x y) (h₂ : SameButTrace y z) : SameButTrace x z := by
  cases h₁ with
  | ok left₁ =>
    obtain ⟨left₂⟩ := h₂
    exact .ok (by rw [left₂, left₁])
  | failed error₁ left₁ =>
    obtain - | ⟨error₂, left₂⟩ := h₂
    exact .failed (by rw [error₂, error₁]) (by rw [left₂, left₁])

/-- Acts that leave the calls they found. -/
theorem of_agree (h : Likeness.calling.Agree () Eq x y) (hx : (left x).calls = m.calls)
    (hy : (left y).calls = m.calls) : SameButTrace x y := by
  have hcalls := hx.trans hy.symm
  cases h with
  | ok _ left => exact .ok (left.eq_of_calls_eq hcalls)
  | error halt left =>
    obtain ⟨error⟩ := halt
    exact .failed error (left.eq_of_calls_eq hcalls)
  | excused excuse => exact excuse.elim

end SameButTrace

namespace Machine

theorem executeBody_calls (depth : Nat) (vs : List Value) (m : Machine) :
    (left (executeBody (.nested depth) vs m)).calls = m.calls :=
  (left_resumes ((uniform_resumes.running (uniform_resumes.nested depth)).executeBody
    (Parallel.items vs) (resumes_self m))).calls

theorem execute_flat (hw : ∀ v, .word v ∈ w.flat → v.Within Word.IsOrdinary) (depth : Nat)
    (l : Location) (m : Machine) :
    SameButTrace (execute (.nested depth) l w m) (executeBody (.nested depth) w.flat m) := by
  have hflat : (Value.word w).Flattens (.nested depth) := flattens hw
  refine .of_agree (m := m) ?_ (execute_left depth l w m).calls (executeBody_calls depth _ m)
  rw [← executeItems_single]
  exact hflat m m l _ (.refl m)

/-- Words that come to the same do the same. -/
theorem execute_of_flat_eq (hw : ∀ v, .word v ∈ w.flat → v.Within Word.IsOrdinary)
    (h : v.flat = w.flat) (depth : Nat) (l k : Location) (m : Machine) :
    SameButTrace (execute (.nested depth) l w m) (execute (.nested depth) k v m) := by
  have hv := execute_flat (h.symm ▸ hw) depth k m
  rw [h] at hv
  exact (execute_flat hw depth l m).trans hv.symm

theorem Sound.ordinary_of_mem_flat {made : List Word} (h : m.Sound made) (hw : m.Holds w)
    (hbody : w.definition = .compiled body) :
    ∀ v, .word v ∈ w.flat → v.Within Word.IsOrdinary := by
  intro v hv
  have himm : w.isImmediate = false := by
    rw [(h.within_of_holds hw).self.isImmediate, hbody]
    rfl
  have hportable := (h.within_of_not_immediate hw himm).of_mem_flat hv
  exact hportable.mono fun u hu => hu.isOrdinary

/-- A compiled word does what the values it comes to do, none of which is a compiled word: both
succeed, or both fail with errors that differ in their calls at most, and they leave machines that
differ in their reports at most. So every word that comes to the same does the same; in
particular, a part of a body can be made a word of its own, and such a word can be replaced by
what stands in its body. -/
theorem factoring_free (h : Scripted m) (hw : m.Holds w) (hbody : w.definition = .compiled body)
    (depth : Nat) (l : Location) :
    (∀ v b, .word v ∈ w.flat → v.definition ≠ .compiled b) ∧
    SameButTrace (execute (.nested depth) l w m) (executeBody (.nested depth) w.flat m) ∧
    (∀ v k, v.flat = w.flat →
      SameButTrace (execute (.nested depth) l w m) (execute (.nested depth) k v m)) ∧
    (∀ before part after x v k, body = before ++ part ++ after → x.definition = .compiled part →
      v.definition = .compiled (before ++ .word x :: after) →
      SameButTrace (execute (.nested depth) l w m) (execute (.nested depth) k v m)) ∧
    ∀ before x part after v k, body = before ++ .word x :: after → x.definition = .compiled part →
      v.definition = .compiled (before ++ part ++ after) →
      SameButTrace (execute (.nested depth) l w m) (execute (.nested depth) k v m) := by
  obtain ⟨made, hsound⟩ := h.sound
  have hordinary := hsound.ordinary_of_mem_flat hw hbody
  have hsame : ∀ v k, v.flat = w.flat →
      SameButTrace (execute (.nested depth) l w m) (execute (.nested depth) k v m) :=
    fun v k hv => execute_of_flat_eq hordinary hv depth l k m
  refine ⟨fun v b hv => (Word.leadsTo_of_mem_flat hv).2 b, execute_flat hordinary depth l m, hsame,
    fun before part after x v k hsplit hx hv => hsame v k ?_,
    fun before x part after v k hsplit hx hv => hsame v k ?_⟩
  · rw [Word.flat_of_compiled hv, Word.flat_of_compiled hbody, hsplit, flatMap_flat_call hx]
  · rw [Word.flat_of_compiled hv, Word.flat_of_compiled hbody, hsplit, flatMap_flat_call hx]

/-- A word made of words that are made of words. -/
theorem factoring_free_fourth : ∃ m w,
    m = left (run (.nested 0) "s" ": SQ DUP * ; : QD SQ SQ ;" .fresh) ∧
    m.dictionary.get? "QD" = some w ∧ w.flat.map Value.render = ["DUP", "*", "DUP", "*"] ∧
    ∀ l, SameButTrace (execute (.nested 0) l w m) (executeBody (.nested 0) w.flat m) := by
  generalize hm : left (run (.nested 0) "s" ": SQ DUP * ; : QD SQ SQ ;" .fresh) = m
  have hscripted : Scripted m := hm ▸ .run .fresh 0 "s" ": SQ DUP * ; : QD SQ SQ ;"
  have hfound : (m.dictionary.get? "QD").any (fun w => w.definition.kind = "compiled" ∧
      w.flat.map Value.render = ["DUP", "*", "DUP", "*"]) = true := by
    subst hm
    decide +kernel
  obtain ⟨w, hw, hfound⟩ := (Option.any_eq_true _ _).mp hfound
  obtain ⟨hkind, hflat⟩ := of_decide_eq_true hfound
  have hholds : m.Holds w := .entry (Dictionary.mem_of_get? hw)
  refine ⟨m, w, rfl, hw, hflat, fun l => ?_⟩
  cases hbody : w.definition with
  | compiled body => exact (factoring_free hscripted hholds hbody 0 l).2.1
  | builtIn | host | «variable» | constant => simp [hbody, Definition.kind] at hkind

end Machine
end WordStack
