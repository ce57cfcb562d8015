import WordStack.Proofs.Alterations

/-
  The machines that a machine comes by while it does something, one operation after another.
  `Operation` lists what can be asked of a machine in one go, by a host program as well as by a
  running text; host words may ask for anything in any order, and so may a `Course`.
  `performCourse` lists the machines that come up while an action is performed: each machine that
  a word, a built-in word or a host word is started on, and what each of their operations leaves.
  `course_perform`: each of them is one operation away from the one before, and the last one is
  what the action leaves.
-/
namespace WordStack

open Machine

/-- What can be asked of a machine in one go. -/
inductive Operation (m : Machine) : Machine → Prop
  /-- The machine is looked at, or the operation fails and changes nothing. -/
  | look : Operation m m
  | change {n : Machine} (h : Change m n) : Operation m n
  /-- The text is read on, or a run begins or ends. -/
  | read (rs : List Reader) : Operation m { m with readers := rs }
  | enter (c : Call) : Operation m (enterCall c m)
  | leave : Operation m (leaveCall m)
  | builtIn (b : BuiltIn) : Operation m (left (b.run m))
  /-- From here on writing to the output fails, or works. -/
  | sink (fails : Bool) : Operation m { m with outputFails := fails }
  /-- What was written and reported is taken away. -/
  | observe : Operation m (Session.beginStep m)

/-- Operations lead from the first machine through those of the list to the last one. -/
inductive Course : Machine → List Machine → Machine → Prop
  | nil (m : Machine) : Course m [] m
  | cons {m k n : Machine} {ms : List Machine} (first : Operation m k) (rest : Course k ms n) :
    Course m (k :: ms) n

variable {α : Type} {m n k : Machine} {ms ns : List Machine}

namespace Course

theorem single (h : Operation m n) : Course m [n] n := .cons h (.nil n)

theorem append (h : Course m ms k) (h' : Course k ns n) : Course m (ms ++ ns) n := by
  induction h with
  | nil => exact h'
  | cons first _ ih => exact .cons first (ih h')

/-- What outlasts every operation holds of every machine of a course. -/
theorem forall_mem {P : Machine → Prop} (hstep : ∀ m n, P m → Operation m n → P n)
    (h : Course m ms n) (hm : P m) : ∀ k ∈ ms, P k := by
  induction h with
  | nil => exact fun _ hk => absurd hk List.not_mem_nil
  | cons first _ ih =>
    have hfirst := hstep _ _ hm first
    intro k hk
    rcases List.mem_cons.mp hk with rfl | hk
    · exact hfirst
    · exact ih hfirst k hk

end Course

namespace Machine

/-! ## The machines that come up -/

/-- The machines that a host word comes by. -/
abbrev HostCourse := List Action → Machine → List Machine

/-- What comes up after an act, which nothing does if the act stops. -/
def afterwards (x : EStateM.Result Halt Machine α) (rest : α → Machine → List Machine) :
    List Machine :=
  match x with
  | .ok a m => rest a m
  | .error _ _ => []

mutual

def wordCourse (host : Host) (hc : HostCourse) (l : Location) : Word → Machine → List Machine
  | ⟨_, name, _, _, _, _, definition⟩, m =>
    let entered := enterCall ⟨name, l⟩ m
    entered :: (definitionCourse host hc definition entered ++
      [leaveCall (left (executeDefinition host definition entered))])
termination_by structural w => w

def definitionCourse (host : Host) (hc : HostCourse) : Definition → Machine → List Machine
  | .builtIn b, m => [left (b.run m)]
  | .host body, m => hc body m
  | .variable cell, m => [left (push (.cell cell) m)]
  | .constant v, m => [left (push v m)]
  | .compiled body, m => itemsCourse host hc (m.location.getD .unspecified) body m
termination_by structural d => d

def itemsCourse (host : Host) (hc : HostCourse) (l : Location) :
    List Value → Machine → List Machine
  | [], _ => []
  | .word w :: rest, m =>
    wordCourse host hc l w m ++
      afterwards (execute host l w m) fun _ m => itemsCourse host hc l rest m
  | v :: rest, m => left (push v m) :: itemsCourse host hc l rest (left (push v m))
termination_by structural vs => vs

end

/-- What comes up once a word of a text is resolved. -/
def resolvedCourse (host : Host) (hc : HostCourse) (t : Token) : Resolved → Machine → List Machine
  | .number x, m =>
    let noted := m.note (.pushedNumber m.mode t.text)
    [noted, left (push (.number x) noted)]
  | .word w, m =>
    if w.isImmediate ∨ m.mode = .interpreting then wordCourse host hc t.location w m
    else [{ m.note (.compiledReference w.name) with buffer := .word w :: m.buffer }]

def tokenCourse (host : Host) (hc : HostCourse) (t : Token) (m : Machine) : List Machine :=
  let placed := { m with location := some t.location }
  placed :: afterwards (resolve t.text placed) (resolvedCourse host hc t)

def wordsCourse (host : Host) (hc : HostCourse) : Nat → Machine → List Machine
  | 0, _ => []
  | k + 1, m =>
    left (nextWord m) :: afterwards (nextWord m) fun t m =>
      match t with
      | none => []
      | some t =>
        tokenCourse host hc t m ++ afterwards (runToken host t m) fun _ m => wordsCourse host hc k m

def runCourse (host : Host) (hc : HostCourse) (path text : String) (m : Machine) : List Machine :=
  let r := Reader.ofText path text
  let begun := pushReader r m
  begun :: (wordsCourse host hc (r.rest.length + 1) begun ++
    [dropReader (left (runWords host (r.rest.length + 1) begun))])

def actionCourse (host : Host) (hc : HostCourse) : Action → Machine → List Machine
  | .run path text, m => runCourse host hc path text m
  | .runFile path (.ok text), m => runCourse host hc path text m
  | .execute name l, m => afterwards (findWord name m) fun w m => wordCourse host hc l w m
  | .executeBody values, m =>
    afterwards (operands values m) fun vs m =>
      itemsCourse host hc (m.location.getD .unspecified) vs m
  | .pushText d, m => [left (textUpTo d m), left (perform host (.pushText d) m)]
  | .attempt action, m => actionCourse host hc action m
  | action, m => [left (perform host action m)]

def actionsCourse (host : Host) (hc : HostCourse) : List Action → Machine → List Machine
  | [], _ => []
  | action :: rest, m =>
    actionCourse host hc action m ++ afterwards (perform host action m) fun reply m =>
      let replied := { m with replies := reply :: m.replies }
      replied :: actionsCourse host hc rest replied

/-- The machines that a host word comes by where host words nest to this depth. -/
def hostCourse : Nat → HostCourse
  | 0 => fun _ _ => []
  | depth + 1 => actionsCourse (.nested depth) (hostCourse depth)

/-- The machines that come up while an action is performed. -/
def performCourse (depth : Nat) (action : Action) (m : Machine) : List Machine :=
  actionCourse (.nested depth) (hostCourse depth) action m

/-! ## They make up a course -/

/-- The list leads along what the host does. -/
def Follows (host : Host) (hc : HostCourse) : Prop :=
  ∀ body m, Course m (hc body m) (left (host body m))

/-- An act and what comes after it. -/
theorem course_bind {β : Type} {x : Act α} {f : α → Act β} {rest : α → Machine → List Machine}
    (h : Course m ms (left (x m))) (hf : ∀ a n, Course n (rest a n) (left (f a n))) :
    Course m (ms ++ afterwards (x m) rest) (left ((x >>= f) m)) := by
  rw [bind_apply]
  generalize x m = rx at h
  cases rx with
  | ok a n => exact h.append (hf a n)
  | error halt n =>
    unfold afterwards
    rw [List.append_nil]
    exact h

theorem course_push (v : Value) (m : Machine) : Course m [left (push v m)] (left (push v m)) :=
  .single (.change (.active _))

variable {host : Host} {hc : HostCourse}

theorem course_items (l : Location) {vs : List Value}
    (hwords : ∀ w, .word w ∈ vs → ∀ m,
      Course m (wordCourse host hc l w m) (left (execute host l w m))) (m : Machine) :
    Course m (itemsCourse host hc l vs m) (left (executeItems host l vs m)) := by
  induction vs generalizing m with
  | nil => exact .nil m
  | cons v vs ih =>
    have hrest := ih fun w hw => hwords w (List.mem_cons_of_mem _ hw)
    cases v with
    | word w => exact course_bind (hwords w List.mem_cons_self m) fun _ n => hrest n
    | number | text | cell => exact (course_push _ m).append (hrest _)

theorem wordCourse_eq (host : Host) (hc : HostCourse) (l : Location) (w : Word) (m : Machine) :
    wordCourse host hc l w m = enterCall ⟨w.name, l⟩ m ::
      (definitionCourse host hc w.definition (enterCall ⟨w.name, l⟩ m) ++
        [leaveCall (left (executeDefinition host w.definition (enterCall ⟨w.name, l⟩ m)))]) := by
  cases w
  rfl

theorem course_execute (hhost : Follows host hc) (l : Location) (w : Word) (m : Machine) :
    Course m (wordCourse host hc l w m) (left (execute host l w m)) := by
  induction w using Word.uses_induction generalizing l m with
  | h w ih =>
    have hdefinition : ∀ n, Course n (definitionCourse host hc w.definition n)
        (left (executeDefinition host w.definition n)) := by
      intro n
      have hused : ∀ v, .word v ∈ w.definition.values → ∀ l m,
          Course m (wordCourse host hc l v m) (left (execute host l v m)) :=
        fun v hv l m => ih v hv l m
      generalize w.definition = d at hused
      cases d with
      | builtIn b => exact .single (.builtIn b)
      | host body => exact hhost body n
      | «variable» | constant => exact course_push _ n
      | compiled body => exact course_items _ (fun v hv => hused v hv _) n
    rw [wordCourse_eq, execute_eq]
    unfold duringCall
    rw [left_between]
    exact .cons (.enter _) ((hdefinition _).append (.single .leave))

theorem course_token (hhost : Follows host hc) (t : Token) (m : Machine) :
    Course m (tokenCourse host hc t m) (left (runToken host t m)) := by
  refine .cons (.change (.moved t.location)) ?_
  unfold runToken
  rw [modify_bind]
  generalize { m with location := some t.location } = m
  have hresolve : Course m [] (left (resolve t.text m)) := by
    rw [left_resolve]
    exact .nil m
  refine course_bind hresolve fun a n => ?_
  cases a with
  | number x => exact .cons (.change (.noted _)) (course_push (.number x) _)
  | word w =>
    unfold resolvedCourse
    dsimp only
    rw [get_bind]
    by_cases hexec : w.isImmediate ∨ n.mode = .interpreting
    · rw [if_pos hexec, if_pos hexec]
      exact course_execute hhost t.location w n
    · rw [if_neg hexec, if_neg hexec]
      exact .single (.change (.collected w (collected_of_not_executed hexec).2))

theorem course_nextWord (m : Machine) : Course m [left (nextWord m)] (left (nextWord m)) := by
  obtain ⟨rs, h⟩ := left_nextWord m
  rw [h]
  exact .single (.read rs)

theorem course_words (hhost : Follows host hc) (k : Nat) (m : Machine) :
    Course m (wordsCourse host hc k m) (left (runWords host k m)) := by
  induction k generalizing m with
  | zero => exact .nil m
  | succ k ih =>
    refine course_bind (course_nextWord m) fun t n => ?_
    cases t with
    | none => exact .nil n
    | some t => exact course_bind (course_token hhost t n) fun _ n => ih n

theorem course_run (hhost : Follows host hc) (path text : String) (m : Machine) :
    Course m (runCourse host hc path text m) (left (run host path text m)) := by
  unfold run Machine.withReader
  rw [left_between]
  exact .cons (.read _) ((course_words hhost _ _).append (.single (.read _)))

/-- What an action gives makes no difference to what it leaves. -/
theorem left_reply {β : Type} (x : Act α) (f : α → β) (m : Machine) :
    left ((do return f (← x) : Act β) m) = left (x m) := by
  rw [bind_apply]
  cases x m <;> rfl

theorem operation_reply {β : Type} {x : Act α} {f : α → β} (h : Operation m (left (x m))) :
    Operation m (left ((do return f (← x) : Act β) m)) := by
  rwa [left_reply]

theorem left_discard (x : Act α) (m : Machine) : left (discard x m) = left (x m) := by
  rw [discard_apply]
  cases x m <;> rfl

theorem pushAll_apply (vs : List Value) (m : Machine) :
    vs.forM push m = .ok () (m.withActive (vs.reverse ++ m.active)) := by
  induction vs generalizing m with
  | nil =>
    exact congrArg (EStateM.Result.ok ()) (withActive_active m).symm
  | cons v vs ih =>
    have hpush : push v m = .ok () (m.withActive (v :: m.active)) := push_apply v m
    refine (bind_ok hpush _).trans ?_
    rw [ih, active_withActive, withActive_withActive, List.reverse_cons, List.append_assoc]
    rfl

/-! ### Operations of a host -/

theorem operation_pop (m : Machine) : Operation m (left (pop m)) := by
  cases h : m.active with
  | nil =>
    rw [pop_of_nil h]
    exact .look
  | cons v vs =>
    rw [pop_of_cons h]
    exact .change (.active vs)

theorem left_popNumber (m : Machine) : left (popNumber m) = left (pop m) := by
  unfold popNumber
  rw [bind_apply]
  cases pop m with
  | error halt n => rfl
  | ok v n => cases v <;> rfl

theorem left_popCell (m : Machine) : left (popCell m) = left (pop m) := by
  unfold popCell
  rw [bind_apply]
  cases pop m with
  | error halt n => rfl
  | ok v n => cases v <;> rfl

theorem left_require (depth : Nat) (m : Machine) : left (require depth m) = m := by
  rw [require_apply]
  split <;> rfl

theorem operation_nextWord (m : Machine) : Operation m (left (nextWord m)) := by
  obtain ⟨rs, h⟩ := left_nextWord m
  rw [h]
  exact .read rs

theorem operation_nextWordRequired (m : Machine) : Operation m (left (nextWordRequired m)) := by
  obtain ⟨rs, h⟩ := left_nextWordRequired m
  rw [h]
  exact .read rs

theorem operation_textUpTo (d : Char) (m : Machine) : Operation m (left (textUpTo d m)) := by
  obtain ⟨rs, h⟩ := left_textUpTo d m
  rw [h]
  exact .read rs

theorem operation_stopCompiling (m : Machine) : Operation m (left (stopCompiling m)) := by
  have hrun : left (BuiltIn.endDefinition.run m) = left (stopCompiling m) := left_discard _ m
  rw [← hrun]
  exact .builtIn .endDefinition

theorem operation_writeCell (i : Nat) (v : Value) (m : Machine) :
    Operation m (left (writeCell i v m)) := by
  cases h : m.cells.set? i v with
  | none =>
    rw [writeCell_of_none h]
    exact .look
  | some cells =>
    rw [writeCell_of_some h]
    exact .change (.stored h)

theorem operation_write (s : String) (m : Machine) : Operation m (left (write s m)) := by
  rw [write_apply]
  split
  · exact .look
  · exact .change (.written s)

theorem operation_lookUp {β : Type} (named : Dictionary → Except String α) {f : α → Act β}
    (hf : ∀ a, Operation m (left (f a m))) : Operation m (left ((lookUp named >>= f) m)) := by
  cases h : named m.dictionary with
  | ok a =>
    rw [bind_ok (lookUp_of_ok h)]
    exact hf a
  | error name =>
    rw [bind_error (lookUp_of_error h)]
    exact .look

theorem course_lookUp {β : Type} (named : Dictionary → Except String α) {f : α → Act β}
    {rest : α → Machine → List Machine} (hf : ∀ a n, Course n (rest a n) (left (f a n)))
    (m : Machine) :
    Course m (afterwards (lookUp named m) rest) (left ((lookUp named >>= f) m)) := by
  have hlooked : left (lookUp named m) = m := by
    cases h : named m.dictionary with
    | ok a => rw [lookUp_of_ok h]; rfl
    | error name => rw [lookUp_of_error h, left_fail]
  have hlook : Course m [] (left (lookUp named m)) := by
    rw [hlooked]
    exact .nil m
  exact course_bind hlook hf

theorem left_findWord (name : String) (m : Machine) : left (findWord name m) = m := by
  cases h : m.dictionary.get? name with
  | some w => rw [findWord_of_some h]; rfl
  | none => rw [findWord_of_none h, left_fail]

theorem left_attempt (host : Host) (action : Action) (m : Machine) :
    left (perform host (.attempt action) m) = left (perform host action m) := by
  cases h : perform host action m with
  | ok reply n => simp only [perform, h, left]
  | error halt n =>
    cases halt with
    | failed e => simp only [perform, h, left]
    | exhausted => simp only [perform, h, left]

/-- What comes up while an action is performed makes up a course. -/
theorem course_action (hhost : Follows host hc) (action : Action) (m : Machine) :
    Course m (actionCourse host hc action m) (left (perform host action m)) := by
  cases action with
  | run path text =>
    have h := course_run hhost path text m
    rwa [← left_reply _ fun _ => Reply.nothing] at h
  | runFile path contents =>
    cases contents with
    | ok text =>
      have h := course_run hhost path text m
      rwa [← left_reply _ fun _ => Reply.nothing] at h
    | error fault => exact .single .look
  | execute name l =>
    have hfound : Course m [] (left (findWord name m)) := by
      rw [left_findWord]
      exact .nil m
    refine course_bind hfound fun w n => ?_
    rw [left_reply _ fun _ => Reply.nothing]
    exact course_execute hhost l w n
  | executeBody values =>
    refine course_lookUp _ (fun vs n => ?_) m
    rw [left_reply _ fun _ => Reply.nothing]
    exact course_items _ (fun w _ => course_execute hhost _ w) n
  | attempt action =>
    have h := course_action hhost action m
    rwa [← left_attempt] at h
  | push values =>
    refine .single (operation_lookUp _ fun vs => ?_)
    rw [left_reply _ fun _ => Reply.nothing, pushAll_apply]
    exact .change (.active _)
  | pop => exact .single (operation_reply (operation_pop m))
  | popNumber =>
    refine .single (operation_reply ?_)
    rw [left_popNumber]
    exact operation_pop m
  | popCell =>
    refine .single (operation_reply ?_)
    rw [left_popCell]
    exact operation_pop m
  | require depth =>
    refine .single (operation_reply ?_)
    rw [left_require]
    exact .look
  | clear => exact .single (.change (.active []))
  | nextWord => exact .single (operation_reply (operation_nextWord m))
  | nextWordRequired => exact .single (operation_reply (operation_nextWordRequired m))
  | nextText d => exact .single (operation_reply (operation_textUpTo d m))
  | pushText d =>
    refine .cons (operation_textUpTo d m) (.single ?_)
    show Operation _ (left ((textUpTo d >>= _) m))
    rw [bind_apply]
    cases textUpTo d m with
    | ok s n => exact .change (.active _)
    | error halt n => exact .look
  | startCompiling name l => exact .single (.change (.opened name l))
  | stopCompiling => exact .single (operation_reply (operation_stopCompiling m))
  | resolve token =>
    refine .single (operation_reply ?_)
    rw [left_resolve]
    exact .look
  | define name isImmediate body => exact .single (.change (.word _ _))
  | addWord heading draft =>
    exact .single (operation_lookUp _ fun d => .change (.word heading d))
  | newCell value => exact .single (operation_lookUp _ fun v => .change (.allocated v))
  | readCell cell =>
    refine .single (operation_reply ?_)
    rw [left_readCell]
    exact .look
  | writeCell cell value =>
    exact .single (operation_lookUp _ fun v => operation_reply (operation_writeCell cell v m))
  | write text => exact .single (operation_reply (operation_write text m))
  | stack | find | listing | calls | location | compare => exact .single .look

theorem course_actions (hhost : Follows host hc) (body : List Action) (m : Machine) :
    Course m (actionsCourse host hc body m) (left (performAll host body m)) := by
  induction body generalizing m with
  | nil => exact .nil m
  | cons action rest ih =>
    exact course_bind (course_action hhost action m) fun reply n =>
      .cons (.change (.replied reply)) (ih _)

/-- However deep host words nest, what they come by makes up a course. -/
theorem follows_nested (depth : Nat) : Follows (.nested depth) (hostCourse depth) := by
  induction depth with
  | zero => exact fun _ m => .nil m
  | succ depth ih => exact fun body m => course_actions ih body m

/-- The machines that come up while an action is performed lead to what it leaves, one operation
after another. -/
theorem course_perform (depth : Nat) (action : Action) (m : Machine) :
    Course m (performCourse depth action m) (left (perform (.nested depth) action m)) :=
  course_action (follows_nested depth) action m

end Machine

/-! ## Sessions -/

namespace Session

/-- The machines that come up while a step is performed. -/
def stepCourse (m : Machine) : Step → List Machine
  | .perform action => beginStep m :: performCourse hostDepth action (beginStep m)
  | .setOutputFails fails => [beginStep m, { beginStep m with outputFails := fails }]

/-- The machines that come up while steps are performed one after another. -/
def course (m : Machine) : List Step → List Machine
  | [] => []
  | s :: rest => stepCourse m s ++ course (step m s).2 rest

/-- The machine after steps are performed one after another. -/
def after (m : Machine) : List Step → Machine
  | [] => m
  | s :: rest => after (step m s).2 rest

theorem course_step (m : Machine) (s : Step) : Course m (stepCourse m s) (step m s).2 := by
  cases s with
  | setOutputFails fails => exact .cons .observe (.single (.sink fails))
  | perform action =>
    have hleft : (step m (.perform action)).2 =
        left (perform (.nested hostDepth) action (beginStep m)) := by
      unfold step
      dsimp only
      cases perform (.nested hostDepth) action (beginStep m) <;> rfl
    rw [hleft]
    exact .cons .observe (course_perform hostDepth action _)

/-- A session is one course. -/
theorem course_after (m : Machine) (script : List Step) :
    Course m (course m script) (after m script) := by
  induction script generalizing m with
  | nil => exact .nil m
  | cons s rest ih => exact (course_step m s).append (ih _)

end Session
end WordStack
