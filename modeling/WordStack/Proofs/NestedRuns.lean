import WordStack.Proofs.Course
import WordStack.Proofs.Failures

/-
  Where an error points when runs are nested. `performHappenings` follows an action through all
  that it leads to: the errors that are raised, swallowed or not, and the runs with the words that
  they read, each with what happened while it was processed. The place of a machine is that of the
  word last read by any run, and nothing puts it back when a run has ended. So an error of a word
  points at the word that its run is processing as long as no run has read a word in the meantime,
  and else at the last word that was read by such a run (`Placed`, `errors_placed`).
  `errors_placed_astray`: a host word fails after a text that it has run, and the error points
  into that text.
-/
namespace WordStack

open Machine

mutual

/-- What happens while a word is processed, as far as it has to do with places. -/
inductive Happening where
  | raised (e : Error)
  /-- A run has taken place, to its end or up to the word that failed. -/
  | ran (words : List Processing)

/-- A word that a run has read, with what happened while it was processed. -/
inductive Processing where
  | word (t : Token) (meanwhile : List Happening)

end

mutual

/-- The place of the word last read, if a word was read. -/
def Happening.lastPlace : Happening → Option Location
  | .raised _ => none
  | .ran words => lastPlaceOfWords words
termination_by structural h => h

def Processing.lastPlace : Processing → Option Location
  | .word t meanwhile => (lastPlaceOf meanwhile).or (some t.location)
termination_by structural x => x

def lastPlaceOfWords : List Processing → Option Location
  | [] => none
  | x :: rest => (lastPlaceOfWords rest).or x.lastPlace
termination_by structural xs => xs

def lastPlaceOf : List Happening → Option Location
  | [] => none
  | h :: rest => (lastPlaceOf rest).or h.lastPlace
termination_by structural hs => hs

end

/-- The errors of a word that is executed: it lacks a value, it cannot use one, or no definition
is open. -/
def Cause.isOfWord : Cause → Bool
  | .stackUnderflow | .typeMismatch _ _ | .notCompiling => true
  | .unknownWord _ | .unexpectedEnd | .io _ => false

mutual

/-- The errors of words point at the word last read, which is at this place to begin with. -/
def Happening.Placed (l : Option Location) : Happening → Prop
  | .raised e => e.cause.isOfWord = true → e.location = l
  | .ran words => PlacedWords words
termination_by structural h => h

def Processing.Placed : Processing → Prop
  | .word t meanwhile => PlacedAll (some t.location) meanwhile
termination_by structural x => x

def PlacedWords : List Processing → Prop
  | [] => True
  | x :: rest => x.Placed ∧ PlacedWords rest
termination_by structural xs => xs

def PlacedAll (l : Option Location) : List Happening → Prop
  | [] => True
  | h :: rest => h.Placed l ∧ PlacedAll (h.lastPlace.or l) rest
termination_by structural hs => hs

end

/-- The error is raised by one of the happenings or within one. -/
inductive Occurs (e : Error) : List Happening → Prop
  | here {hs : List Happening} (h : .raised e ∈ hs) : Occurs e hs
  | within {hs inner : List Happening} {words : List Processing} {t : Token} (hrun : .ran words ∈ hs)
    (hword : .word t inner ∈ words) (h : Occurs e inner) : Occurs e hs

/-- The error is raised while the innermost unfinished run processes this word, and after these
happenings. -/
inductive During : List Happening → Token → List Happening → Error → Prop
  | now {hs before after : List Happening} {words : List Processing} {t : Token} {e : Error}
    (hrun : .ran words ∈ hs) (hword : .word t (before ++ .raised e :: after) ∈ words) :
    During hs t before e
  | deeper {hs inner before : List Happening} {words : List Processing} {u t : Token} {e : Error}
    (hrun : .ran words ∈ hs) (hword : .word u inner ∈ words) (h : During inner t before e) :
    During hs t before e

namespace Machine

/-! ## What happens -/

variable {α β : Type}

/-- What happens after an act, which is nothing if the act stops. -/
def next (x : EStateM.Result Halt Machine α) (rest : α → Machine → List β) : List β :=
  match x with
  | .ok a m => rest a m
  | .error _ _ => []

/-- The error of an act, if it fails. -/
def raisedBy : EStateM.Result Halt Machine α → List Happening
  | .error (.failed e) _ => [.raised e]
  | _ => []

/-- What happens while a host word is executed. -/
abbrev HostHappenings := List Action → Machine → List Happening

mutual

def wordHappenings (host : Host) (hh : HostHappenings) (l : Location) :
    Word → Machine → List Happening
  | ⟨_, name, _, _, _, _, definition⟩, m =>
    definitionHappenings host hh definition (enterCall ⟨name, l⟩ m)
termination_by structural w => w

def definitionHappenings (host : Host) (hh : HostHappenings) :
    Definition → Machine → List Happening
  | .builtIn b, m => raisedBy (b.run m)
  | .host body, m => hh body m
  | .variable _, _ | .constant _, _ => []
  | .compiled body, m => itemsHappenings host hh (m.location.getD .unspecified) body m
termination_by structural d => d

def itemsHappenings (host : Host) (hh : HostHappenings) (l : Location) :
    List Value → Machine → List Happening
  | [], _ => []
  | .word w :: rest, m =>
    wordHappenings host hh l w m ++
      next (execute host l w m) fun _ m => itemsHappenings host hh l rest m
  | v :: rest, m => itemsHappenings host hh l rest (left (push v m))
termination_by structural vs => vs

end

/-- What happens once a word of a text is resolved. -/
def resolvedHappenings (host : Host) (hh : HostHappenings) (t : Token) :
    Resolved → Machine → List Happening
  | .number _, _ => []
  | .word w, m =>
    if w.isImmediate ∨ m.mode = .interpreting then wordHappenings host hh t.location w m else []

def tokenHappenings (host : Host) (hh : HostHappenings) (t : Token) (m : Machine) :
    List Happening :=
  let placed := { m with location := some t.location }
  raisedBy (resolve t.text placed) ++ next (resolve t.text placed) (resolvedHappenings host hh t)

/-- The words that the loop over the words of a text reads. -/
def wordsProcessed (host : Host) (hh : HostHappenings) : Nat → Machine → List Processing
  | 0, _ => []
  | k + 1, m =>
    next (nextWord m) fun t m =>
      match t with
      | none => []
      | some t =>
        .word t (tokenHappenings host hh t m) ::
          next (runToken host t m) fun _ m => wordsProcessed host hh k m

def runHappenings (host : Host) (hh : HostHappenings) (path text : String) (m : Machine) :
    List Happening :=
  let r := Reader.ofText path text
  [.ran (wordsProcessed host hh (r.rest.length + 1) (pushReader r m))]

def actionHappenings (host : Host) (hh : HostHappenings) : Action → Machine → List Happening
  | .run path text, m => runHappenings host hh path text m
  | .runFile path (.ok text), m => runHappenings host hh path text m
  | .execute name l, m =>
    raisedBy (findWord name m) ++ next (findWord name m) fun w m => wordHappenings host hh l w m
  | .executeBody values, m =>
    raisedBy (operands values m) ++ next (operands values m) fun vs m =>
      itemsHappenings host hh (m.location.getD .unspecified) vs m
  | .attempt action, m => actionHappenings host hh action m
  | action, m => raisedBy (perform host action m)

def actionsHappenings (host : Host) (hh : HostHappenings) : List Action → Machine → List Happening
  | [], _ => []
  | action :: rest, m =>
    actionHappenings host hh action m ++ next (perform host action m) fun reply m =>
      actionsHappenings host hh rest { m with replies := reply :: m.replies }

/-- What happens while a host word is executed where host words nest to this depth. -/
def hostHappenings : Nat → HostHappenings
  | 0 => fun _ _ => []
  | depth + 1 => actionsHappenings (.nested depth) (hostHappenings depth)

/-- What happens while an action is performed. -/
def performHappenings (depth : Nat) (action : Action) (m : Machine) : List Happening :=
  actionHappenings (.nested depth) (hostHappenings depth) action m

/-! ## Acts that run nothing -/

/-- The act leaves the machine where it is, and its error, if it is one of words, points there. -/
def Stays (x : Act α) : Prop := ∀ m, (left (x m)).location = m.location ∧
  ∀ e, halted? (x m) = some (.failed e) → e.cause.isOfWord = true → e.location = m.location

namespace Stays

variable {x : Act α} {f : α → Act β}

theorem pure (a : α) : Stays (pure a : Act α) := fun _ => ⟨rfl, nofun⟩

theorem get : Stays (get : Act Machine) := fun _ => ⟨rfl, nofun⟩

theorem modify {g : Machine → Machine} (hg : ∀ m, (g m).location = m.location) :
    Stays (modify g : Act Unit) := fun m => ⟨hg m, nofun⟩

theorem fail (c : Cause) : Stays (fail c : Act α) := fun m => ⟨rfl, fun e h _ => by
  obtain rfl : (⟨m.location, c, some m.calls⟩ : Error) = e := by injection Option.some.inj h
  rfl⟩

theorem throw {e : Error} (he : e.cause.isOfWord = false) : Stays (throw (.failed e) : Act α) :=
  fun _ => ⟨rfl, fun e' h he' => by
    obtain rfl : e = e' := by injection Option.some.inj h
    rw [he] at he'
    cases he'⟩

theorem bind (hx : Stays x) (hf : ∀ a, Stays (f a)) : Stays (x >>= f) := by
  intro m
  have hplace := hx m
  rw [bind_apply]
  generalize x m = rx at hplace
  cases rx with
  | error halt n => exact hplace
  | ok a n =>
    obtain ⟨hleft, herror⟩ := hf a n
    have hn : n.location = m.location := hplace.1
    exact ⟨hleft.trans hn, fun e h he => (herror e h he).trans hn⟩

theorem discard (hx : Stays x) : Stays (discard x) := by
  intro m
  have hplace := hx m
  rw [discard_apply]
  generalize x m = rx at hplace
  cases rx <;> exact hplace

end Stays

theorem stays_withActive (vs : Machine → List Value) :
    Stays (modify fun m => m.withActive (vs m) : Act Unit) :=
  .modify fun m => (withActive_place m _).1

theorem stays_push (v : Value) : Stays (push v) := stays_withActive _

theorem stays_pop : Stays pop := by
  refine .bind .get fun m => ?_
  cases m.active with
  | nil => exact .fail _
  | cons v vs => exact .bind (stays_withActive _) fun _ => .pure _

theorem stays_popNumber : Stays popNumber := by
  refine .bind stays_pop fun v => ?_
  cases v with
  | number x => exact .pure x
  | text | cell | word => exact .fail _

theorem stays_popCell : Stays popCell := by
  refine .bind stays_pop fun v => ?_
  cases v with
  | cell i => exact .pure i
  | number | text | word => exact .fail _

theorem stays_require (depth : Nat) : Stays (require depth) := by
  refine .bind .get fun m => ?_
  split
  · exact .fail _
  · exact .pure _

theorem stays_nextWord : Stays nextWord := by
  intro m
  obtain ⟨t, rs, h⟩ := nextWord_ok m
  rw [h]
  exact ⟨rfl, nofun⟩

theorem stays_nextWordRequired : Stays nextWordRequired := by
  refine .bind stays_nextWord fun t => ?_
  cases t with
  | none => exact .fail _
  | some t => exact .pure t

theorem stays_textUpTo (d : Char) : Stays (textUpTo d) := by
  intro m
  rcases textUpTo_cases d m with ⟨s, rs, h⟩ | ⟨e, rs, h⟩
  · rw [h]
    exact ⟨rfl, nofun⟩
  · have hcause := (BuiltIn.missing_of_textUpTo h).1
    rw [h]
    refine ⟨rfl, fun e' he' hword => ?_⟩
    obtain rfl : e = e' := by injection Option.some.inj he'
    rw [hcause] at hword
    cases hword

theorem stays_stopCompiling : Stays stopCompiling := by
  intro m
  cases hp : m.pending with
  | none =>
    rw [stopCompiling_of_none hp]
    exact Stays.fail _ m
  | some p =>
    rw [stopCompiling_of_some hp]
    exact ⟨rfl, nofun⟩

theorem stays_resolve (token : String) : Stays (resolve token) := by
  refine .bind .get fun m => ?_
  split
  · exact .pure _
  · split
    · exact .pure _
    · exact .fail _

theorem stays_findWord (name : String) : Stays (findWord name) := by
  refine .bind .get fun m => ?_
  split
  · exact .pure _
  · exact .fail _

theorem stays_addWord (heading : Heading) (d : Definition) : Stays (addWord heading d) :=
  fun _ => ⟨rfl, nofun⟩

theorem stays_startCompiling (name : String) (l : Location) : Stays (startCompiling name l) :=
  .modify fun _ => rfl

theorem stays_newCell (v : Value) : Stays (newCell v) := fun _ => ⟨rfl, nofun⟩

theorem stays_pushAll (vs : List Value) : Stays (vs.forM push) := by
  intro m
  rw [pushAll_apply]
  exact ⟨(withActive_place m _).1, nofun⟩

theorem stays_lookUp (named : Dictionary → Except String α) : Stays (lookUp named) := by
  refine .bind .get fun m => ?_
  split
  · exact .pure _
  · exact .fail _

theorem stays_readCell (i : Nat) : Stays (readCell i) := by
  refine .bind .get fun m => ?_
  split
  · exact .pure _
  · exact .fail _

theorem stays_writeCell (i : Nat) (v : Value) : Stays (writeCell i v) := by
  refine .bind .get fun m => ?_
  split
  · exact .modify fun _ => rfl
  · exact .fail _

theorem stays_write (s : String) : Stays (write s) := by
  refine .bind .get fun m => ?_
  split
  · exact .bind (.throw rfl) fun _ => .modify fun _ => rfl
  · exact .modify fun _ => rfl

theorem stays_builtIn (b : BuiltIn) : Stays b.run := by
  intro m
  refine ⟨(b.run_place m).1, fun e h he => ?_⟩
  rcases BuiltIn.run_failed (eq_error_left h) with ⟨c, hc⟩ | ⟨d, -, hopen⟩ | ⟨-, hc⟩
  · obtain rfl : e = _ := by injection hc
    rfl
  · exact (stays_textUpTo d m).2 e (by rw [hopen]; rfl) he
  · obtain rfl : e = _ := by injection hc
    cases he

end Machine

/-! ## Places along what happens -/

variable {α β : Type} {xs ys : List Happening} {l : Option Location}

theorem lastPlaceOf_append (xs ys : List Happening) :
    lastPlaceOf (xs ++ ys) = (lastPlaceOf ys).or (lastPlaceOf xs) := by
  induction xs with
  | nil => exact Option.or_none.symm
  | cons x xs ih => rw [List.cons_append, lastPlaceOf, ih, lastPlaceOf, Option.or_assoc]

/-- A word that was read has a place. -/
theorem Processing.lastPlace_or (x : Processing) (l : Option Location) :
    x.lastPlace.or l = x.lastPlace := by
  obtain ⟨t, hs⟩ := x
  rw [Processing.lastPlace, Option.or_assoc]
  rfl

theorem placedAll_append (hx : PlacedAll l xs) (hy : PlacedAll ((lastPlaceOf xs).or l) ys) :
    PlacedAll l (xs ++ ys) := by
  induction xs generalizing l with
  | nil => exact hy
  | cons x xs ih =>
    refine ⟨hx.1, ih hx.2 ?_⟩
    rwa [lastPlaceOf, Option.or_assoc] at hy

theorem Occurs.append_right {e : Error} (h : Occurs e ys) (xs : List Happening) :
    Occurs e (xs ++ ys) := by
  cases h with
  | here h => exact .here (List.mem_append_right xs h)
  | within hrun hword h => exact .within (List.mem_append_right xs hrun) hword h

namespace Machine

/-- The happenings are those of an act on this machine that comes to this. -/
structure Tracks (hs : List Happening) (m : Machine) (x : EStateM.Result Halt Machine α) : Prop where
  location : (left x).location = (lastPlaceOf hs).or m.location
  placed : PlacedAll m.location hs
  occurs : ∀ e, halted? x = some (.failed e) → Occurs e hs

variable {m : Machine}

namespace Tracks

theorem nothing {x : EStateM.Result Halt Machine α} (hleft : (left x).location = m.location)
    (herror : ∀ e, halted? x ≠ some (.failed e)) : Tracks [] m x :=
  ⟨hleft, trivial, fun e he => absurd he (herror e)⟩

theorem of_stays {x : Act α} (h : Stays x) (m : Machine) : Tracks (raisedBy (x m)) m (x m) := by
  obtain ⟨hleft, herror⟩ := h m
  generalize x m = rx at hleft herror
  cases rx with
  | ok a n => exact .nothing hleft nofun
  | error halt n =>
    cases halt with
    | exhausted => exact .nothing hleft nofun
    | failed e =>
      refine ⟨hleft, ⟨fun he => herror e rfl he, trivial⟩, fun e' he' => ?_⟩
      obtain rfl : e = e' := by injection Option.some.inj he'
      exact .here List.mem_cons_self

theorem bind {x : Act α} {f : α → Act β} {hs : List Happening}
    {rest : α → Machine → List Happening} (h : Tracks hs m (x m))
    (hf : ∀ a n, Tracks (rest a n) n (f a n)) :
    Tracks (hs ++ next (x m) rest) m ((x >>= f) m) := by
  rw [bind_apply]
  generalize x m = rx at h
  cases rx with
  | error halt n =>
    unfold next
    rw [List.append_nil]
    exact ⟨h.location, h.placed, h.occurs⟩
  | ok a n =>
    have hn : n.location = (lastPlaceOf hs).or m.location := h.location
    have hrest := hf a n
    refine ⟨?_, placedAll_append h.placed ?_, fun e he => (hrest.occurs e he).append_right hs⟩
    · rw [lastPlaceOf_append, Option.or_assoc, ← hn]
      exact hrest.location
    · rw [← hn]
      exact hrest.placed

/-- What an act gives makes no difference to what happens. -/
theorem reply {x : Act α} {f : α → β} {hs : List Happening} (h : Tracks hs m (x m)) :
    Tracks hs m ((do return f (← x) : Act β) m) := by
  have hreply : ∀ a n, Tracks ([] : List Happening) n ((pure (f a) : Act β) n) :=
    fun a n => .nothing rfl nofun
  have hnext : next (x m) (fun _ _ => ([] : List Happening)) = [] := by
    unfold next
    cases x m <;> rfl
  have hbind := h.bind hreply
  rwa [hnext, List.append_nil] at hbind

/-- What happens in a call does not depend on what is changed around it, if the place is not. -/
theorem between {f g : Machine → Machine} {x : Act α} {hs : List Happening}
    (hf : (f m).location = m.location) (hg : ∀ n, (g n).location = n.location)
    (h : Tracks hs (f m) (x (f m))) : Tracks hs m (between f g x m) := by
  refine ⟨?_, hf ▸ h.placed, fun e he => h.occurs e ?_⟩
  · rw [left_between, hg, h.location, hf]
  · unfold Machine.between at he
    generalize x (f m) = rx at he
    cases rx <;> exact he

end Tracks

variable {host : Host} {hh : HostHappenings}

/-- What happens is told of the host. -/
def Narrates (host : Host) (hh : HostHappenings) : Prop :=
  ∀ body m, Tracks (hh body m) m (host body m)

theorem tracks_items (l : Location) {vs : List Value}
    (hwords : ∀ w, .word w ∈ vs → ∀ m,
      Tracks (wordHappenings host hh l w m) m (execute host l w m)) (m : Machine) :
    Tracks (itemsHappenings host hh l vs m) m (executeItems host l vs m) := by
  induction vs generalizing m with
  | nil => exact .nothing rfl nofun
  | cons v vs ih =>
    have hrest := ih fun w hw => hwords w (List.mem_cons_of_mem _ hw)
    cases v with
    | word w => exact (hwords w List.mem_cons_self m).bind fun _ n => hrest n
    | number | text | cell => exact (Tracks.of_stays (stays_push _) m).bind fun _ n => hrest n

theorem wordHappenings_eq (host : Host) (hh : HostHappenings) (l : Location) (w : Word)
    (m : Machine) : wordHappenings host hh l w m =
      definitionHappenings host hh w.definition (enterCall ⟨w.name, l⟩ m) := by
  cases w
  rfl

theorem tracks_execute (hhost : Narrates host hh) (l : Location) (w : Word) (m : Machine) :
    Tracks (wordHappenings host hh l w m) m (execute host l w m) := by
  induction w using Word.uses_induction generalizing l m with
  | h w ih =>
    have hdefinition : ∀ n, Tracks (definitionHappenings host hh w.definition n) n
        (executeDefinition host w.definition n) := by
      intro n
      have hused : ∀ v, .word v ∈ w.definition.values → ∀ l m,
          Tracks (wordHappenings host hh l v m) m (execute host l v m) :=
        fun v hv l m => ih v hv l m
      generalize w.definition = d at hused
      cases d with
      | builtIn b => exact .of_stays (stays_builtIn b) n
      | host body => exact hhost body n
      | «variable» | constant => exact .of_stays (stays_push _) n
      | compiled body => exact tracks_items _ (fun v hv => hused v hv _) n
    rw [wordHappenings_eq, execute_eq]
    exact .between rfl (fun _ => rfl) (hdefinition _)

theorem tracks_token (hhost : Narrates host hh) (t : Token) (m : Machine) :
    Tracks (tokenHappenings host hh t m) { m with location := some t.location }
      (runToken host t m) := by
  unfold runToken
  rw [modify_bind]
  refine (Tracks.of_stays (stays_resolve t.text) _).bind fun a n => ?_
  cases a with
  | number x =>
    have hnoted : Stays (do
        modify fun m => m.note (.pushedNumber m.mode t.text)
        push (.number x)) := .bind (.modify fun _ => rfl) fun _ => stays_push _
    exact .of_stays hnoted n
  | word w =>
    unfold resolvedHappenings
    dsimp only
    rw [get_bind]
    by_cases hexec : w.isImmediate ∨ n.mode = .interpreting
    · rw [if_pos hexec, if_pos hexec]
      exact tracks_execute hhost t.location w n
    · rw [if_neg hexec, if_neg hexec]
      exact .nothing rfl nofun

/-- The words are those that a loop over the words of a text has read from this machine on. -/
structure TracksWords (words : List Processing) (m : Machine)
    (x : EStateM.Result Halt Machine Unit) : Prop where
  location : (left x).location = (lastPlaceOfWords words).or m.location
  placed : PlacedWords words
  occurs : ∀ e, halted? x = some (.failed e) → ∃ t inner, .word t inner ∈ words ∧ Occurs e inner

theorem tracks_words (hhost : Narrates host hh) (k : Nat) (m : Machine) :
    TracksWords (wordsProcessed host hh k m) m (runWords host k m) := by
  induction k generalizing m with
  | zero => exact ⟨rfl, trivial, fun e he => by cases he⟩
  | succ k ih =>
    obtain ⟨t, rs, hnext⟩ := nextWord_ok m
    unfold wordsProcessed runWords
    rw [bind_ok hnext, hnext]
    cases t with
    | none => exact ⟨rfl, trivial, fun e he => by cases he⟩
    | some t =>
      have htoken := tracks_token hhost t { m with readers := rs }
      unfold next
      dsimp only
      rw [bind_apply]
      generalize runToken host t { m with readers := rs } = x at htoken
      cases x with
      | error halt n =>
        exact ⟨htoken.location.trans (Processing.lastPlace_or (.word t _) m.location).symm,
          ⟨htoken.placed, trivial⟩, fun e he => ⟨t, _, List.mem_cons_self, htoken.occurs e he⟩⟩
      | ok _ n =>
        have hn : n.location = (Processing.word t _).lastPlace := htoken.location
        have hrest := ih n
        refine ⟨?_, ⟨htoken.placed, hrest.placed⟩, fun e he => ?_⟩
        · rw [lastPlaceOfWords, Option.or_assoc, Processing.lastPlace_or, ← hn]
          exact hrest.location
        · obtain ⟨u, inner, hu, hinner⟩ := hrest.occurs e he
          exact ⟨u, inner, List.mem_cons_of_mem _ hu, hinner⟩

theorem tracks_run (hhost : Narrates host hh) (path text : String) (m : Machine) :
    Tracks (runHappenings host hh path text m) m (run host path text m) := by
  have hwords := tracks_words hhost ((Reader.ofText path text).rest.length + 1)
    (pushReader (.ofText path text) m)
  refine .between rfl (fun _ => rfl) ⟨hwords.location, ⟨hwords.placed, trivial⟩, fun e he => ?_⟩
  obtain ⟨t, inner, hword, hinner⟩ := hwords.occurs e he
  exact .within List.mem_cons_self hword hinner

/-- An error that is caught does not come out. -/
theorem halted_attempt (host : Host) (action : Action) (m : Machine) (e : Error) :
    halted? (perform host (.attempt action) m) ≠ some (.failed e) := by
  cases h : perform host action m with
  | ok reply n => simp [perform, h, halted?]
  | error halt n => cases halt <;> simp [perform, h, halted?]

/-- What happens while an action is performed. -/
theorem tracks_action (hhost : Narrates host hh) (action : Action) (m : Machine) :
    Tracks (actionHappenings host hh action m) m (perform host action m) := by
  cases action with
  | run path text => exact (tracks_run hhost path text m).reply
  | runFile path contents =>
    cases contents with
    | ok text => exact (tracks_run hhost path text m).reply
    | error fault => exact .of_stays (.bind (.throw rfl) fun _ => .pure _) m
  | execute name l =>
    refine (Tracks.of_stays (stays_findWord name) m).bind fun w n => ?_
    exact (tracks_execute hhost l w n).reply
  | executeBody values =>
    refine (Tracks.of_stays (stays_lookUp _) m).bind fun vs n => ?_
    exact (tracks_items _ (fun w _ => tracks_execute hhost _ w) n).reply
  | attempt action =>
    have hinner := tracks_action hhost action m
    exact ⟨(congrArg location (left_attempt host action m)).trans hinner.location, hinner.placed,
      fun e he => absurd he (halted_attempt host action m e)⟩
  | push values =>
    exact .of_stays (.bind (stays_lookUp _) fun vs => .bind (stays_pushAll vs) fun _ => .pure _) m
  | pop => exact .of_stays (.bind stays_pop fun _ => .pure _) m
  | popNumber => exact .of_stays (.bind stays_popNumber fun _ => .pure _) m
  | popCell => exact .of_stays (.bind stays_popCell fun _ => .pure _) m
  | require depth => exact .of_stays (.bind (stays_require depth) fun _ => .pure _) m
  | clear => exact .of_stays (.bind (stays_withActive _) fun _ => .pure _) m
  | nextWord => exact .of_stays (.bind stays_nextWord fun _ => .pure _) m
  | nextWordRequired => exact .of_stays (.bind stays_nextWordRequired fun _ => .pure _) m
  | nextText d => exact .of_stays (.bind (stays_textUpTo d) fun _ => .pure _) m
  | pushText d =>
    exact .of_stays (.bind (stays_textUpTo d) fun s => .bind (stays_push _) fun _ => .pure _) m
  | startCompiling name l => exact .of_stays (.bind (stays_startCompiling name l) fun _ => .pure _) m
  | stopCompiling => exact .of_stays (.bind stays_stopCompiling fun _ => .pure _) m
  | resolve token => exact .of_stays (.bind (stays_resolve token) fun _ => .pure _) m
  | define name isImmediate body =>
    exact .of_stays (.bind .get fun _ => .bind (stays_addWord _ _) fun _ => .pure _) m
  | addWord heading draft =>
    exact .of_stays (.bind (stays_lookUp _) fun d => .bind (stays_addWord heading d) fun _ =>
      .pure _) m
  | newCell value =>
    exact .of_stays (.bind (stays_lookUp _) fun v => .bind (stays_newCell v) fun _ => .pure _) m
  | readCell cell => exact .of_stays (.bind (stays_readCell cell) fun _ => .pure _) m
  | writeCell cell value =>
    exact .of_stays (.bind (stays_lookUp _) fun v => .bind (stays_writeCell cell v) fun _ =>
      .pure _) m
  | write text => exact .of_stays (.bind (stays_write text) fun _ => .pure _) m
  | stack | find | listing | calls | location | compare =>
    exact .of_stays (.bind .get fun _ => .pure _) m

theorem tracks_actions (hhost : Narrates host hh) (body : List Action) (m : Machine) :
    Tracks (actionsHappenings host hh body m) m (performAll host body m) := by
  induction body generalizing m with
  | nil => exact .nothing rfl nofun
  | cons action rest ih =>
    have hrest : ∀ reply n, Tracks
        (actionsHappenings host hh rest { n with replies := reply :: n.replies }) n
        ((modify (fun m => { m with replies := reply :: m.replies }) >>= fun _ =>
          performAll host rest) n) := by
      intro reply n
      have h := ih { n with replies := reply :: n.replies }
      exact ⟨h.location, h.placed, h.occurs⟩
    exact (tracks_action hhost action m).bind hrest

/-- What happens is told of the hosts, however deep their words nest. -/
theorem narrates_nested (depth : Nat) : Narrates (.nested depth) (hostHappenings depth) := by
  induction depth with
  | zero => exact fun _ m => .nothing rfl nofun
  | succ depth ih => exact fun body m => tracks_actions ih body m

end Machine

/-! ## Where an error points -/

theorem mem_placedWords {words : List Processing} (h : PlacedWords words) :
    ∀ x ∈ words, x.Placed := by
  induction words with
  | nil => exact fun _ hx => absurd hx List.not_mem_nil
  | cons x rest ih =>
    intro y hy
    rcases List.mem_cons.mp hy with rfl | hy
    · exact h.1
    · exact ih h.2 y hy

theorem placed_of_ran {hs : List Happening} {words : List Processing} (h : PlacedAll l hs)
    (hrun : .ran words ∈ hs) : PlacedWords words := by
  induction hs generalizing l with
  | nil => exact absurd hrun List.not_mem_nil
  | cons x hs ih =>
    rcases List.mem_cons.mp hrun with rfl | hrun
    · exact h.1
    · exact ih h.2 hrun

theorem placed_of_raised {before after : List Happening} {e : Error}
    (h : PlacedAll l (before ++ .raised e :: after)) (he : e.cause.isOfWord = true) :
    e.location = (lastPlaceOf before).or l := by
  induction before generalizing l with
  | nil => exact h.1 he
  | cons x before ih =>
    rw [lastPlaceOf, Option.or_assoc]
    exact ih h.2

theorem placed_of_during {hs before : List Happening} {t : Token} {e : Error}
    (h : During hs t before e) (hplaced : PlacedAll l hs) (he : e.cause.isOfWord = true) :
    e.location = (lastPlaceOf before).or (some t.location) := by
  induction h generalizing l with
  | now hrun hword => exact placed_of_raised (mem_placedWords (placed_of_ran hplaced hrun) _ hword) he
  | deeper hrun hword _ ih => exact ih (mem_placedWords (placed_of_ran hplaced hrun) _ hword) he

/-- Whatever is raised is raised outside all runs or while a run processes a word. -/
theorem during_of_occurs {e : Error} {hs : List Happening} (h : Occurs e hs) :
    .raised e ∈ hs ∨ ∃ t before, During hs t before e := by
  induction h with
  | here h => exact .inl h
  | @within hs inner words t hrun hword _ ih =>
    rcases ih with hraised | ⟨u, before, hduring⟩
    · obtain ⟨before, after, rfl⟩ := List.append_of_mem hraised
      exact .inr ⟨t, before, .now hrun hword⟩
    · exact .inr ⟨u, before, .deeper hrun hword hduring⟩

theorem lastPlaceOf_of_idle {hs : List Happening} (h : ∀ words, .ran words ∈ hs → words = []) :
    lastPlaceOf hs = none := by
  induction hs with
  | nil => rfl
  | cons x hs ih =>
    rw [lastPlaceOf, ih fun words hrun => h words (List.mem_cons_of_mem x hrun)]
    cases x with
    | raised e => rfl
    | ran words =>
      rw [h words List.mem_cons_self]
      rfl

/-- Whatever hosts do and however they nest runs, every error that comes out of an action was
raised outside all runs or while the innermost unfinished run processed a word. In the latter case
an error of a word points at the word last read since that word, which is one of a nested run that
has ended, and if there is none at that word. -/
theorem errors_placed (depth : Nat) (action : Action) (m : Machine) :
    (∀ e n, perform (.nested depth) action m = .error (.failed e) n →
      .raised e ∈ performHappenings depth action m ∨
        ∃ t before, During (performHappenings depth action m) t before e) ∧
    ∀ t before e, During (performHappenings depth action m) t before e →
      e.cause.isOfWord = true →
        e.location = (lastPlaceOf before).or (some t.location) ∧
        ((∀ words, .ran words ∈ before → words = []) → e.location = some t.location) := by
  have htracks := tracks_action (narrates_nested depth) action m
  refine ⟨fun e n h => during_of_occurs (htracks.occurs e (by rw [h]; rfl)), fun t before e h he => ?_⟩
  have hplace := placed_of_during h htracks.placed he
  refine ⟨hplace, fun hidle => ?_⟩
  rw [hplace, lastPlaceOf_of_idle hidle]
  rfl

/-- The word of a run of one word that raises an error right after it has run a text, and that
error. -/
def raisedAfterRun? : List Happening → Option (Token × Error)
  | [.ran [.word t [.ran _, .raised e]]] => some (t, e)
  | _ => none

theorem during_of_raisedAfterRun {hs : List Happening} {t : Token} {e : Error}
    (h : raisedAfterRun? hs = some (t, e)) : ∃ words, During hs t [.ran words] e := by
  unfold raisedAfterRun? at h
  split at h
  · next u words e' =>
    obtain ⟨rfl, rfl⟩ := Prod.mk.inj (Option.some.inj h)
    exact ⟨words, .now List.mem_cons_self List.mem_cons_self⟩
  · cases h

/-- A host word that has run a text fails on an empty stack, and the error points at the last word
of that text and not at the word that the run in progress has read. -/
theorem errors_placed_astray : ∃ (m n : Machine) (t : Token) (before : List Happening) (e : Error),
    m = left (perform (.nested 1)
      (.define "NEST" false [.run "inner" "1 2", .pop, .pop, .pop]) .fresh) ∧
    perform (.nested 1) (.run "outer" "NEST") m = .error (.failed e) n ∧
    During (performHappenings 1 (.run "outer" "NEST") m) t before e ∧
    e.cause = .stackUnderflow ∧ t.location = ⟨"outer", 1, 1⟩ ∧
    e.location = some ⟨"inner", 1, 3⟩ := by
  generalize hm : left (perform (.nested 1)
    (.define "NEST" false [.run "inner" "1 2", .pop, .pop, .pop]) .fresh) = m
  have hfails : halted? (perform (.nested 1) (.run "outer" "NEST") m) =
      some (.failed ⟨some ⟨"inner", 1, 3⟩, .stackUnderflow, some [⟨"NEST", ⟨"outer", 1, 1⟩⟩]⟩) := by
    subst hm
    decide +kernel
  have hraised : (raisedAfterRun? (performHappenings 1 (.run "outer" "NEST") m)).any (fun x =>
      x.1.location = ⟨"outer", 1, 1⟩ ∧
      x.2 = ⟨some ⟨"inner", 1, 3⟩, .stackUnderflow, some [⟨"NEST", ⟨"outer", 1, 1⟩⟩]⟩) = true := by
    subst hm
    decide +kernel
  obtain ⟨⟨t, e⟩, hte, hchecks⟩ := (Option.any_eq_true _ _).mp hraised
  obtain ⟨ht, rfl⟩ := of_decide_eq_true hchecks
  obtain ⟨words, hduring⟩ := during_of_raisedAfterRun hte
  exact ⟨m, _, t, [.ran words], _, rfl, eq_error_left hfails, hduring, rfl, ht, rfl⟩

end WordStack
