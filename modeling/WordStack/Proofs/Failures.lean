import WordStack.Proofs.ErrorPlaces

/-
  When a built-in word fails, and what it leaves. A word asks for a number of values first, and
  only then does it look at what they are, one after the other from the top; so the values it has
  taken when it stops are told by the one that it stopped at (`Offends`, `taken`). `FailsOn` says
  of every cause when a word fails for it.
  `run_contract`: these are the only failures, and a failure changes nothing but the values taken
  and how far the text has been read.
-/
namespace WordStack

open Machine

/-- Is the value what is wanted? A reference is, as long as there is a cell that it refers to. -/
def Machine.meets (m : Machine) : Wanted → Value → Bool
  | .number, .number _ => true
  | .variable, .cell i => i < m.cells.size
  | _, _ => false

/-- What an error calls a value that is not what was wanted. A reference can be of the right type
and refer to no cell. -/
def Wanted.found : Wanted → Value → String
  | .variable, .cell i => renderCell i
  | _, v => v.typeName

/-- The act failed for this cause. -/
def FailsFor (c : Cause) (x : EStateM.Result Halt Machine Unit) : Prop :=
  ∃ e n, x = .error (.failed e) n ∧ e.cause = c

namespace BuiltIn

/-- What the word wants the values at the top of the stack to be, from the top on. -/
def wanted : BuiltIn → List Wanted
  | .add | .subtract | .multiply | .divide => [.number, .number]
  | .sqrt => [.number]
  | .store | .fetch => [.variable]
  | _ => []

/-- The stack is deep enough for the word, and the value at this depth is the first that is not
what the word wants there. -/
structure Offends (b : BuiltIn) (m : Machine) (k : Nat) (u : Wanted) (v : Value) : Prop where
  depth : b.operands ≤ m.active.length
  wanted : b.wanted[k]? = some u
  operand : m.active[k]? = some v
  refused : m.meets u v = false
  first : ∀ j < k, ∀ u v, b.wanted[j]? = some u → m.active[j]? = some v → m.meets u v = true

/-- The values that a word has taken when it stops at the one at this depth. A word that stores
takes the value as well before it looks for the cell. -/
def taken : BuiltIn → Value → Nat → Nat
  | .store, .cell _, _ => 2
  | _, _, k => k + 1

/-- The word reads on for a name, a delimiter or the end of a comment that is not there. -/
def MissesInput (b : BuiltIn) (m : Machine) : Prop :=
  (b.readsName ∧ ∀ r ∈ m.readers.head?, r.rest.all isBlank) ∨
  (∃ d, b.delimiter? = some d ∧ ∀ r ∈ m.readers.head?, d ∉ r.rest) ∨
  (b = .blockComment ∧ ∀ r ∈ m.readers.head?, (r.skipWordsTo endsComment).1 = false)

/-- When the word fails for this cause. -/
def FailsOn (b : BuiltIn) (m : Machine) : Cause → Prop
  | .stackUnderflow => m.active.length < b.operands
  | .typeMismatch u found => ∃ k v, b.Offends m k u v ∧ found = u.found v
  | .unexpectedEnd => b.operands ≤ m.active.length ∧ b.MissesInput m
  | .notCompiling => b = .endDefinition ∧ m.pending = none
  | .io text => b.WriteFails m ∧ text = "sink closed"
  | .unknownWord _ => False

/-- How many values are gone from the active stack when the word has failed for this cause. -/
inductive Takes (b : BuiltIn) (m : Machine) : Cause → Nat → Prop
  | operands {k : Nat} {u : Wanted} {v : Value} (h : b.Offends m k u v) :
    Takes b m (.typeMismatch u (u.found v)) (b.taken v k)
  | printed {text : String} (hb : b = .print) : Takes b m (.io text) 1
  | nothing {c : Cause} (hc : ∀ u found, c ≠ .typeMismatch u found)
    (hb : b = .print → ∀ text, c ≠ .io text) : Takes b m c 0

variable {b : BuiltIn} {m n : Machine} {u : Wanted} {v : Value} {vs : List Value} {k : Nat}

/-! ## Operands -/

theorem meets_number {v : Value} : m.meets .number v = true ↔ ∃ x, v = .number x := by
  cases v <;> simp [meets]

theorem meets_withActive (m : Machine) (vs : List Value) (u : Wanted) (v : Value) :
    (m.withActive vs).meets u v = m.meets u v := by
  unfold meets
  rw [withActive_cells]

theorem popNumber_of_refused (h : m.active = v :: vs) (hv : m.meets .number v = false) :
    popNumber m = fail (.typeMismatch .number (Wanted.number.found v)) (m.withActive vs) := by
  cases v with
  | number x => cases hv
  | text | cell | word => exact bind_ok (pop_of_cons h) _

theorem popNumber_of_meets (h : m.active = v :: vs) (hv : m.meets .number v = true) :
    ∃ x, popNumber m = .ok x (m.withActive vs) := by
  obtain ⟨x, rfl⟩ := meets_number.mp hv
  exact ⟨x, bind_ok (pop_of_cons h) _⟩

theorem arithmetic_of_deep (f : Float → Float → Float) (h : 2 ≤ m.active.length) :
    arithmetic f m = (do
      let b ← popNumber
      let a ← popNumber
      push (.number (f a b))) m := bind_ok (require_of_deep h) _

/-- A word of arithmetic that stops at one of its operands. -/
theorem arithmetic_of_offends (f : Float → Float → Float) (hwanted : b.wanted = [.number, .number])
    (hdepth : 2 ≤ m.active.length) (h : b.Offends m k u v) :
    arithmetic f m = fail (.typeMismatch u (u.found v)) (m.withActive (m.active.drop (k + 1))) := by
  obtain ⟨y, x, vs, hactive⟩ := exists_of_two_le hdepth
  obtain ⟨-, hu, hv, hrefused, hfirst⟩ := h
  rw [hwanted] at hu hfirst
  rw [hactive] at hv hfirst
  rw [arithmetic_of_deep f hdepth, hactive]
  match k with
  | 0 =>
    obtain rfl : Wanted.number = u := Option.some.inj hu
    obtain rfl : y = v := Option.some.inj hv
    exact bind_error (popNumber_of_refused hactive hrefused) _
  | 1 =>
    obtain rfl : Wanted.number = u := Option.some.inj hu
    obtain rfl : x = v := Option.some.inj hv
    obtain ⟨b, hb⟩ := popNumber_of_meets hactive (hfirst 0 Nat.zero_lt_one _ _ rfl rfl)
    have hrest : (m.withActive (x :: vs)).active = x :: vs := active_withActive m _
    have hsecond := popNumber_of_refused hrest ((meets_withActive m _ _ _).trans hrefused)
    rw [withActive_withActive] at hsecond
    rw [bind_ok hb, bind_error hsecond]
    rfl
  | k + 2 => cases hu

theorem sqrt_of_offends (h : Offends .sqrt m k u v) :
    run .sqrt m = fail (.typeMismatch u (u.found v)) (m.withActive (m.active.drop (k + 1))) := by
  obtain ⟨hdepth, hu, hv, hrefused, -⟩ := h
  obtain ⟨x, vs, hactive⟩ := List.exists_cons_of_length_pos hdepth
  rw [hactive] at hv ⊢
  match k with
  | 0 =>
    obtain rfl : Wanted.number = u := Option.some.inj hu
    obtain rfl : x = v := Option.some.inj hv
    exact bind_error (popNumber_of_refused hactive hrefused) _
  | k + 1 => cases hu

theorem popCell_of_not_cell (h : m.active = v :: vs) (hv : ∀ i, v ≠ .cell i) :
    popCell m = fail (.typeMismatch .variable (Wanted.variable.found v)) (m.withActive vs) := by
  cases v with
  | cell i => exact absurd rfl (hv i)
  | number | text | word => exact bind_ok (pop_of_cons h) _

theorem not_lt_size_of_refused {i : Nat} (h : m.meets .variable (.cell i) = false) :
    ¬ i < m.cells.size := of_decide_eq_false h

/-- A word that stores and stops at the reference, which is none or refers to no cell. -/
theorem store_of_offends (h : Offends .store m k u v) :
    run .store m =
      fail (.typeMismatch u (u.found v)) (m.withActive (m.active.drop (taken .store v k))) := by
  obtain ⟨hdepth, hu, hv, hrefused, -⟩ := h
  obtain ⟨c, w, vs, hactive⟩ := exists_of_two_le hdepth
  rw [hactive] at hv
  match k with
  | 0 =>
    obtain rfl : Wanted.variable = u := Option.some.inj hu
    obtain rfl : c = v := Option.some.inj hv
    cases c with
    | cell i =>
      have hnone : (m.withActive vs).cells.set? i w = none := by
        rw [withActive_cells]
        exact if_neg (not_lt_size_of_refused hrefused)
      rw [store_of_cell hactive, writeCell_of_none hnone, hactive]
      rfl
    | number | text | word =>
      have hstart : run .store m = (do
          let cell ← popCell
          let v ← pop
          writeCell cell v) m := bind_ok (require_of_deep hdepth) _
      rw [hstart, bind_error (popCell_of_not_cell hactive nofun), hactive]
      rfl
  | k + 1 => cases hu

theorem fetch_of_offends (h : Offends .fetch m k u v) :
    run .fetch m = fail (.typeMismatch u (u.found v)) (m.withActive (m.active.drop (k + 1))) := by
  obtain ⟨hdepth, hu, hv, hrefused, -⟩ := h
  obtain ⟨c, vs, hactive⟩ := List.exists_cons_of_length_pos hdepth
  rw [hactive] at hv ⊢
  match k with
  | 0 =>
    obtain rfl : Wanted.variable = u := Option.some.inj hu
    obtain rfl : c = v := Option.some.inj hv
    cases c with
    | cell i =>
      have hnone : (m.withActive vs).cells.get? i = none := by
        rw [withActive_cells]
        exact Array.getElem?_eq_none_iff.mpr (Nat.not_lt.mp (not_lt_size_of_refused hrefused))
      rw [fetch_of_cell hactive, bind_error (readCell_of_none hnone)]
      rfl
    | number | text | word => exact bind_error (popCell_of_not_cell hactive nofun) _
  | k + 1 => cases hu

/-- A word stops at the first value that is not what it wants. -/
theorem run_of_offends (h : b.Offends m k u v) :
    b.run m =
      fail (.typeMismatch u (u.found v)) (m.withActive (m.active.drop (b.taken v k))) := by
  cases b with
  | add | subtract | multiply | divide => exact arithmetic_of_offends _ rfl h.depth h
  | sqrt => exact sqrt_of_offends h
  | store => exact store_of_offends h
  | fetch => exact fetch_of_offends h
  | _ => cases h.wanted

theorem wanted_of_operation (h : b.operation?.isSome) : b.wanted = [.number, .number] := by
  cases b <;> first | rfl | cases h

theorem meets_number_of_ne (hv : ∀ x, v ≠ .number x) : m.meets .number v = false := by
  cases v with
  | number x => exact absurd rfl (hv x)
  | text | cell | word => rfl

theorem meets_variable_of_ne (hv : ∀ i, v ≠ .cell i) : m.meets .variable v = false := by
  cases v with
  | cell i => exact absurd rfl (hv i)
  | number | text | word => rfl

/-- A value that a word refuses is the first that is not what it wants. -/
theorem offends_of_refuses {before : List Value} (hdepth : b.operands ≤ m.active.length)
    (h : m.active = before ++ v :: vs) (hv : b.Refuses before u v) :
    b.Offends m before.length u v := by
  have hoperand : m.active[before.length]? = some v := by
    rw [h, List.getElem?_append_right (Nat.le_refl _), Nat.sub_self]
    rfl
  cases hv with
  | right hb hv =>
    exact ⟨hdepth, by rw [wanted_of_operation hb]; rfl, hoperand, meets_number_of_ne hv, nofun⟩
  | @left _ y _ hb hv =>
    refine ⟨hdepth, by rw [wanted_of_operation hb]; rfl, hoperand, meets_number_of_ne hv, ?_⟩
    intro j hj u' v' hu' hv'
    obtain rfl := Nat.lt_one_iff.mp hj
    rw [wanted_of_operation hb] at hu'
    rw [h] at hv'
    obtain rfl : Wanted.number = u' := Option.some.inj hu'
    obtain rfl : Value.number y = v' := Option.some.inj hv'
    rfl
  | root hv => exact ⟨hdepth, rfl, hoperand, meets_number_of_ne hv, nofun⟩
  | reference hb hv =>
    have hwanted : b.wanted = [.variable] := by rcases hb with rfl | rfl <;> rfl
    exact ⟨hdepth, by rw [hwanted]; rfl, hoperand, meets_variable_of_ne hv, nofun⟩

/-- A value of another type is named by its type, and it is the last that is taken. -/
theorem found_of_refuses {before : List Value} (hv : b.Refuses before u v) :
    u.found v = v.typeName ∧ b.taken v before.length = before.length + 1 := by
  have htaken : b ≠ .store ∨ (∀ i, v ≠ .cell i) → b.taken v before.length = before.length + 1 := by
    intro h
    unfold taken
    split
    · next i =>
      rcases h with h | h
      · exact absurd rfl h
      · exact absurd rfl (h i)
    · rfl
  cases hv with
  | right hb | left hb => exact ⟨rfl, htaken (.inl fun h => by subst h; cases hb)⟩
  | root => exact ⟨rfl, rfl⟩
  | reference hb hv =>
    refine ⟨?_, htaken (.inr hv)⟩
    cases v with
    | cell i => exact absurd rfl (hv i)
    | number | text | word => rfl

/-! ## Input -/

theorem nextWordRequired_of_blank (h : ∀ r ∈ m.readers.head?, r.rest.all isBlank) :
    ∃ n, nextWordRequired m = fail .unexpectedEnd n := by
  cases hm : m.readers with
  | nil => exact ⟨m, bind_ok (nextWord_of_nil hm) _⟩
  | cons r rs =>
    rw [hm] at h
    have hnone := (Reader.nextWord_eq_none_iff r).mpr (h r rfl)
    have hnext := nextWord_of_cons hm
    rw [hnone] at hnext
    exact ⟨_, bind_ok hnext _⟩

theorem blank_of_nextWordRequired (h : nextWordRequired m = fail .unexpectedEnd n) :
    ∀ r ∈ m.readers.head?, r.rest.all isBlank := by
  intro r hr
  obtain ⟨rs, hm⟩ := List.head?_eq_some_iff.mp hr
  rw [← Reader.nextWord_eq_none_iff]
  unfold nextWordRequired at h
  rw [bind_ok (nextWord_of_cons hm)] at h
  generalize r.nextWord.1 = found at h
  cases found with
  | none => rfl
  | some t => cases h

theorem textUpTo_of_missing {d : Char} (h : ∀ r ∈ m.readers.head?, d ∉ r.rest) :
    ∃ e n, textUpTo d m = .error (.failed e) n ∧ e.cause = .unexpectedEnd := by
  cases hm : m.readers with
  | nil => exact ⟨_, m, textUpTo_of_nil hm, rfl⟩
  | cons r rs =>
    rw [hm] at h
    obtain ⟨n, hn⟩ := textUpTo_of_not_mem hm (h r rfl)
    exact ⟨_, n, hn, rfl⟩

theorem missing_of_textUpTo {d : Char} {e : Error} (h : textUpTo d m = .error (.failed e) n) :
    e.cause = .unexpectedEnd ∧ ∀ r ∈ m.readers.head?, d ∉ r.rest := by
  have hmissing : ∀ r ∈ m.readers.head?, d ∉ r.rest := by
    intro r hr
    obtain ⟨rs, hm⟩ := List.head?_eq_some_iff.mp hr
    exact not_mem_of_textUpTo hm h
  obtain ⟨e', n', he, hcause⟩ := textUpTo_of_missing hmissing
  rw [h] at he
  cases he
  exact ⟨hcause, hmissing⟩

theorem skipWordsTo_of_missing {p : String → Bool}
    (h : ∀ r ∈ m.readers.head?, (r.skipWordsTo p).1 = false) :
    ∃ n, skipWordsTo p m = fail .unexpectedEnd n := by
  cases hm : m.readers with
  | nil => exact ⟨m, skipWordsTo_of_nil hm⟩
  | cons r rs =>
    rw [hm] at h
    refine ⟨_, (skipWordsTo_of_cons hm).trans (if_neg ?_)⟩
    rw [h r rfl]
    exact Bool.false_ne_true

theorem missing_of_skipWordsTo {p : String → Bool} (h : skipWordsTo p m = fail .unexpectedEnd n) :
    ∀ r ∈ m.readers.head?, (r.skipWordsTo p).1 = false := by
  intro r hr
  obtain ⟨rs, hm⟩ := List.head?_eq_some_iff.mp hr
  rw [skipWordsTo_of_cons hm] at h
  split at h
  · cases h
  · next hfound => exact Bool.eq_false_iff.mpr hfound

theorem run_of_missesInput (hdepth : b.operands ≤ m.active.length) (h : b.MissesInput m) :
    FailsFor .unexpectedEnd (b.run m) := by
  rcases h with ⟨hb, hblank⟩ | ⟨d, hd, hmissing⟩ | ⟨rfl, hmissing⟩
  · obtain ⟨n, hn⟩ := nextWordRequired_of_blank hblank
    cases b with
    | defineVariable | startDefinition => exact ⟨_, n, bind_error hn _, rfl⟩
    | defineConstant =>
      have hrun : run .defineConstant m = fail .unexpectedEnd n :=
        (bind_ok (require_of_deep hdepth) _).trans (bind_error hn _)
      exact ⟨_, n, hrun, rfl⟩
    | _ => cases hb
  · obtain ⟨e, n, he, hcause⟩ := textUpTo_of_missing hmissing
    exact ⟨e, n, run_of_textUpTo hd he, hcause⟩
  · obtain ⟨n, hn⟩ := skipWordsTo_of_missing hmissing
    exact ⟨_, n, hn, rfl⟩

/-! ## The contract -/

theorem run_of_failsOn {c : Cause} (h : b.FailsOn m c) : FailsFor c (b.run m) := by
  cases c with
  | stackUnderflow => exact ⟨_, m, run_of_short h, rfl⟩
  | typeMismatch u found =>
    obtain ⟨k, v, hoffends, rfl⟩ := h
    exact ⟨_, _, run_of_offends hoffends, rfl⟩
  | unexpectedEnd => exact run_of_missesInput h.1 h.2
  | notCompiling =>
    obtain ⟨rfl, hpending⟩ := h
    have hrun : run .endDefinition m = fail .notCompiling m := by
      refine (discard_apply stopCompiling m).trans ?_
      rw [stopCompiling_of_none hpending]
      rfl
    exact ⟨_, m, hrun, rfl⟩
  | io text =>
    obtain ⟨hfails, rfl⟩ := h
    obtain ⟨n, hn⟩ := run_of_writeFails hfails
    exact ⟨_, n, hn, rfl⟩
  | unknownWord word => exact h.elim

/-- What a failure of the word comes from and what it leaves. -/
structure FailedAs (b : BuiltIn) (m : Machine) (e : Error) (n : Machine) : Prop where
  cause : b.FailsOn m e.cause
  left : ∃ k rs, b.Takes m e.cause k ∧
    n = { m.withActive (m.active.drop k) with readers := rs } ∧
    (e.cause ≠ .unexpectedEnd → rs = m.readers)

theorem withActive_drop_zero (m : Machine) : m.withActive (m.active.drop 0) = m :=
  withActive_active m

/-- A failure that takes no value. -/
theorem failedAs_of_nothing {e : Error} {rs : List Reader} (hcause : b.FailsOn m e.cause)
    (hc : ∀ u found, e.cause ≠ .typeMismatch u found) (hb : b = .print → ∀ text, e.cause ≠ .io text)
    (hrs : e.cause ≠ .unexpectedEnd → rs = m.readers) : b.FailedAs m e { m with readers := rs } := by
  refine ⟨hcause, 0, rs, .nothing hc hb, ?_, hrs⟩
  rw [withActive_drop_zero]

theorem failedAs_of_offends {l : Option Location} {cs : Option (List Call)} (h : b.Offends m k u v)
    (hvs : m.active.drop (b.taken v k) = vs) :
    b.FailedAs m ⟨l, .typeMismatch u (u.found v), cs⟩ (m.withActive vs) := by
  subst hvs
  refine ⟨⟨k, v, h, rfl⟩, _, m.readers, .operands h, ?_, fun _ => rfl⟩
  unfold withActive
  cases m.mode <;> rfl

/-- The words that work on cells stop at a reference that refers to none. -/
theorem offends_of_missing {i : Nat} (hwanted : b.wanted = [.variable])
    (hdepth : b.operands ≤ m.active.length) (h : m.active = .cell i :: vs)
    (hi : ¬ i < m.cells.size) : b.Offends m 0 .variable (.cell i) :=
  ⟨hdepth, by rw [hwanted]; rfl, by rw [h]; rfl, decide_eq_false hi, nofun⟩

/-- A word that fails to write has taken the value to write, if it takes one. -/
theorem failedAs_of_wrote {s : String} {k : Machine} (hw : b.writing? m = some (s, k))
    (hfails : b.WriteFails m) : b.FailedAs m (.ofIo "sink closed") k := by
  cases b with
  | print =>
    obtain ⟨v, hv, hpair⟩ := Option.map_eq_some_iff.mp hw
    obtain rfl : m.withActive m.active.tail = k := congrArg Prod.snd hpair
    refine ⟨⟨hfails, rfl⟩, 1, m.readers, .printed rfl, ?_, fun _ => rfl⟩
    rw [List.drop_one, ← withActive_readers]
  | printStack | printWords =>
    obtain rfl : m = k := congrArg Prod.snd (Option.some.inj hw)
    exact failedAs_of_nothing ⟨hfails, rfl⟩ nofun nofun fun _ => rfl
  | _ => cases hw

/-- However a word fails, it does so for a cause that it has, and leaves what that cause says. -/
theorem failedAs {halt : Halt} (h : b.run m = .error halt n) :
    ∃ e, halt = .failed e ∧ b.FailedAs m e n := by
  have ho := outcome b m
  rw [h] at ho
  generalize hx : EStateM.Result.error halt n = x at ho
  cases ho with
  | underflow hshort =>
    obtain ⟨rfl, rfl⟩ := EStateM.Result.error.inj hx
    exact ⟨_, rfl, failedAs_of_nothing hshort nofun nofun fun _ => rfl⟩
  | mismatch before hdepth hactive hv =>
    obtain ⟨rfl, rfl⟩ := EStateM.Result.error.inj hx
    obtain ⟨hname, htaken⟩ := found_of_refuses hv
    refine ⟨_, rfl, ?_⟩
    rw [← hname]
    refine failedAs_of_offends (offends_of_refuses hdepth hactive hv) ?_
    rw [htaken, hactive, List.drop_append, List.drop_eq_nil_of_le (Nat.le_succ _),
      Nat.add_sub_cancel_left]
    rfl
  | @storedNowhere i v vs hactive hc =>
    obtain ⟨rfl, rfl⟩ := EStateM.Result.error.inj hx
    have hi : ¬ i < m.cells.size := fun hi => by
      unfold Cells.set? at hc
      rw [if_pos hi] at hc
      cases hc
    have hdepth : operands .store ≤ m.active.length := by rw [hactive]; exact Nat.le_add_left 2 _
    exact ⟨_, rfl, failedAs_of_offends (offends_of_missing rfl hdepth hactive hi)
      (by rw [hactive]; rfl)⟩
  | @fetchedNowhere i vs hactive hc =>
    obtain ⟨rfl, rfl⟩ := EStateM.Result.error.inj hx
    have hi : ¬ i < m.cells.size := Nat.not_lt.mpr (Array.getElem?_eq_none_iff.mp hc)
    have hdepth : operands .fetch ≤ m.active.length := by rw [hactive]; exact Nat.le_add_left 1 _
    exact ⟨_, rfl, failedAs_of_offends (offends_of_missing rfl hdepth hactive hi)
      (by rw [hactive]; rfl)⟩
  | @wrote _ s k hw =>
    rw [write_apply] at hx
    split at hx
    · next hclosed =>
      obtain ⟨rfl, rfl⟩ := EStateM.Result.error.inj hx
      exact ⟨_, rfl, failedAs_of_wrote hw
        ⟨s, n, hw, hclosed.2, (outputFails_of_writing hw).symm.trans hclosed.1⟩⟩
    · cases hx
  | nameless hdepth hb hnext =>
    obtain ⟨rfl, rfl⟩ := EStateM.Result.error.inj hx
    have hmissing : b.MissesInput m := .inl ⟨hb, blank_of_nextWordRequired hnext⟩
    exact ⟨_, rfl, failedAs_of_nothing ⟨hdepth, hmissing⟩ nofun nofun (absurd rfl)⟩
  | @unterminated _ d e rs hb ht =>
    obtain ⟨rfl, rfl⟩ := EStateM.Result.error.inj hx
    obtain ⟨hcause, hmissing⟩ := missing_of_textUpTo ht
    have hdepth : b.operands ≤ m.active.length := by
      cases b <;> first | exact Nat.zero_le _ | cases hb
    have hfails : b.FailsOn m e.cause := by
      rw [hcause]
      exact ⟨hdepth, .inr (.inl ⟨d, hb, hmissing⟩)⟩
    refine ⟨e, rfl, failedAs_of_nothing hfails ?_ ?_ (absurd hcause)⟩ <;> rw [hcause] <;> nofun
  | unterminatedBlock ht =>
    obtain ⟨rfl, rfl⟩ := EStateM.Result.error.inj hx
    have hmissing : MissesInput .blockComment m := .inr (.inr ⟨rfl, missing_of_skipWordsTo ht⟩)
    exact ⟨_, rfl, failedAs_of_nothing ⟨Nat.zero_le _, hmissing⟩ nofun nofun (absurd rfl)⟩
  | notOpen hp =>
    obtain ⟨rfl, rfl⟩ := EStateM.Result.error.inj hx
    exact ⟨_, rfl, failedAs_of_nothing ⟨rfl, hp⟩ nofun nofun fun _ => rfl⟩
  | rearranged | stored | fetched | «variable» | constant | opened | text | comment
  | blockComment | closed => cases hx

theorem failsFor_iff (b : BuiltIn) (m : Machine) (c : Cause) :
    FailsFor c (b.run m) ↔ b.FailsOn m c := by
  refine ⟨fun ⟨e, n, h, hc⟩ => ?_, run_of_failsOn⟩
  obtain ⟨e', he, hfailed⟩ := failedAs h
  obtain rfl : e = e' := by injection he
  exact hc ▸ hfailed.cause

/-- Of the operands that are not what the word wants, one is the first. -/
theorem offends_iff (hdepth : b.operands ≤ m.active.length) :
    (∃ k u v, b.Offends m k u v) ↔
      ∃ (k : Nat) (u : Wanted) (v : Value),
        b.wanted[k]? = some u ∧ m.active[k]? = some v ∧ m.meets u v = false := by
  constructor
  · rintro ⟨k, u, v, h⟩
    exact ⟨k, u, v, h.wanted, h.operand, h.refused⟩
  · rintro ⟨k, h⟩
    induction k using Nat.strong_induction_on with
    | h k ih =>
      obtain ⟨u, v, hu, hv, hrefused⟩ := h
      by_cases hfirst : ∃ j < k, ∃ (u : Wanted) (v : Value),
          b.wanted[j]? = some u ∧ m.active[j]? = some v ∧ m.meets u v = false
      · obtain ⟨j, hj, h⟩ := hfirst
        exact ih j hj h
      · refine ⟨k, u, v, hdepth, hu, hv, hrefused, fun j hj u' v' hu' hv' => ?_⟩
        by_contra hne
        exact hfirst ⟨j, hj, u', v', hu', hv', Bool.eq_false_iff.mpr hne⟩

/-- A built-in word fails for a cause exactly when it has that cause, and otherwise succeeds. On a
stack that is too short for it, it changes nothing at all. Otherwise a word that wants numbers or
a reference fails for the type of a value exactly when one of its operands is not what it wants,
and the first such operand from the top is named. However it fails, the machine that it leaves
differs in the values that it took from the top of the active stack, which are as many as `Takes`
says for the cause, and in what has been read, if the text ended too early. -/
theorem run_contract (b : BuiltIn) (m : Machine) :
    (∀ c, FailsFor c (b.run m) ↔ b.FailsOn m c) ∧
    ((∃ n, b.run m = .ok () n) ↔ ∀ c, ¬ b.FailsOn m c) ∧
    (m.active.length < b.operands → b.run m = fail .stackUnderflow m) ∧
    (b.operands ≤ m.active.length →
      ((∃ u found, FailsFor (.typeMismatch u found) (b.run m)) ↔
        ∃ (k : Nat) (u : Wanted) (v : Value),
          b.wanted[k]? = some u ∧ m.active[k]? = some v ∧ m.meets u v = false)) ∧
    (∀ k u v, b.Offends m k u v → b.run m =
      fail (.typeMismatch u (u.found v)) (m.withActive (m.active.drop (b.taken v k)))) ∧
    ∀ halt n, b.run m = .error halt n → ∃ e k rs, halt = .failed e ∧ b.Takes m e.cause k ∧
      n = { m.withActive (m.active.drop k) with readers := rs } ∧
      (e.cause ≠ .unexpectedEnd → rs = m.readers) := by
  refine ⟨failsFor_iff b m, ⟨?_, fun h => ?_⟩, run_of_short, fun hdepth => ?_,
    fun k u v => run_of_offends, fun halt n h => ?_⟩
  · rintro ⟨n, hn⟩ c hc
    obtain ⟨e, n', hrun, -⟩ := run_of_failsOn hc
    cases hn.symm.trans hrun
  · cases hrun : b.run m with
    | ok _ n => exact ⟨n, rfl⟩
    | error halt n =>
      obtain ⟨e, -, hfailed⟩ := failedAs hrun
      exact absurd hfailed.cause (h e.cause)
  · rw [← offends_iff hdepth]
    constructor
    · rintro ⟨u, found, h⟩
      obtain ⟨k, v, hoffends, -⟩ := (failsFor_iff b m _).mp h
      exact ⟨k, u, v, hoffends⟩
    · rintro ⟨k, u, v, h⟩
      exact ⟨u, u.found v, _, _, run_of_offends h, rfl⟩
  · obtain ⟨e, he, -, k, rs, htakes, hleft, hrs⟩ := failedAs h
    exact ⟨e, k, rs, he, htakes, hleft, hrs⟩

end BuiltIn
end WordStack
