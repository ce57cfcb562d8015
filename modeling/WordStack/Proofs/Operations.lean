import WordStack.Machine.Hosting

/-
  What each operation of a machine comes to, case by case: the value it gives or the error it
  stops with, and the machine it leaves. The statements about words and runs are derived from
  these equations; no other module takes an operation apart.
-/
namespace WordStack.Machine

variable {m : Machine} {α β : Type}

theorem bind_apply (x : Act α) (f : α → Act β) (m : Machine) :
    (x >>= f) m = match x m with
      | .ok a m => f a m
      | .error halt m => .error halt m := by
  show EStateM.bind x f m = _
  unfold EStateM.bind
  cases x m <;> rfl

theorem bind_ok {x : Act α} {a : α} {n : Machine} (h : x m = .ok a n) (f : α → Act β) :
    (x >>= f) m = f a n := by
  rw [bind_apply, h]

theorem bind_error {x : Act α} {halt : Halt} {n : Machine} (h : x m = .error halt n)
    (f : α → Act β) : (x >>= f) m = .error halt n := by
  rw [bind_apply, h]

theorem between_ok {before after : Machine → Machine} {act : Act α} {a : α} {n : Machine}
    (h : act (before m) = .ok a n) : between before after act m = .ok a (after n) := by
  unfold between
  rw [h]

theorem between_error {before after : Machine → Machine} {act : Act α} {halt : Halt}
    {n : Machine} (h : act (before m) = .error halt n) :
    between before after act m = .error halt (after n) := by
  unfold between
  rw [h]

theorem discard_apply (x : Act α) (m : Machine) :
    discard x m = match x m with
      | .ok _ m => .ok () m
      | .error halt m => .error halt m := by
  show EStateM.map _ x m = _
  unfold EStateM.map
  cases x m <;> rfl

/-- An act comes to an end, with an answer or an error, in a machine with this property; no bound
has been used up. -/
inductive Ends (p : Machine → Prop) : EStateM.Result Halt Machine α → Prop
  | ok {a : α} {m : Machine} : p m → Ends p (.ok a m)
  | failed {e : Error} {m : Machine} : p m → Ends p (.error (.failed e) m)

theorem Ends.mono {p q : Machine → Prop} {x : EStateM.Result Halt Machine α} (h : Ends p x)
    (hpq : ∀ m, p m → q m) : Ends q x := by
  cases h with
  | ok h => exact .ok (hpq _ h)
  | failed h => exact .failed (hpq _ h)

theorem Ends.bind {p q : Machine → Prop} {x : Act α} {f : α → Act β} (h : Ends p (x m))
    (hpq : ∀ m, p m → q m) (hf : ∀ a n, p n → Ends q (f a n)) : Ends q ((x >>= f) m) := by
  rw [bind_apply]
  generalize x m = rx at h
  cases h with
  | ok h => exact hf _ _ h
  | failed h => exact .failed (hpq _ h)

theorem Ends.discard {p : Machine → Prop} {x : Act α} (h : Ends p (x m)) :
    Ends p (discard x m) := by
  rw [discard_apply]
  generalize x m = rx at h
  cases h with
  | ok h => exact .ok h
  | failed h => exact .failed h

theorem Ends.between {p : Machine → Prop} {f g : Machine → Machine} {x : Act α}
    (h : Ends (fun n => p (g n)) (x (f m))) : Ends p (between f g x m) := by
  unfold Machine.between
  generalize x (f m) = rx at h
  cases h with
  | ok h => exact .ok h
  | failed h => exact .failed h

theorem get_bind (f : Machine → Act α) (m : Machine) : (get >>= f) m = f m m := rfl

theorem modify_bind (g : Machine → Machine) (f : Unit → Act α) (m : Machine) :
    (modify g >>= f) m = f () (g m) := rfl

/-! ## The active stack -/

theorem push_apply (v : Value) (m : Machine) :
    push v m = .ok () (m.withActive (v :: m.active)) := rfl

theorem pop_of_nil (h : m.active = []) : pop m = fail .stackUnderflow m := by
  unfold pop
  rw [get_bind, h]

theorem pop_of_cons {v : Value} {vs : List Value} (h : m.active = v :: vs) :
    pop m = .ok v (m.withActive vs) := by
  unfold pop
  rw [get_bind, h]
  rfl

theorem pop_apply (m : Machine) : pop m = match m.active with
    | [] => fail .stackUnderflow m
    | v :: vs => .ok v (m.withActive vs) := by
  cases h : m.active with
  | nil => exact pop_of_nil h
  | cons v vs => exact pop_of_cons h

theorem require_apply (k : Nat) (m : Machine) :
    require k m = if m.active.length < k then fail .stackUnderflow m else .ok () m := by
  have hlen : (m.active.take k).length < k ↔ m.active.length < k := by
    rw [List.length_take]; omega
  unfold require
  rw [get_bind]
  by_cases h : m.active.length < k
  · rw [if_pos (hlen.mpr h), if_pos h]
  · rw [if_neg (fun h' => h (hlen.mp h')), if_neg h]; rfl

theorem require_of_short {k : Nat} (h : m.active.length < k) :
    require k m = fail .stackUnderflow m := by
  rw [require_apply, if_pos h]

theorem require_of_deep {k : Nat} (h : k ≤ m.active.length) : require k m = .ok () m := by
  rw [require_apply, if_neg (Nat.not_lt.mpr h)]

theorem active_of_interpreting (h : m.mode = .interpreting) : m.active = m.data := by
  unfold active
  rw [h]

theorem active_of_compiling (h : m.mode = .compiling) : m.active = m.buffer := by
  unfold active
  rw [h]

theorem withActive_of_interpreting (h : m.mode = .interpreting) (vs : List Value) :
    m.withActive vs = { m with data := vs } := by
  unfold withActive
  rw [h]

theorem withActive_of_compiling (h : m.mode = .compiling) (vs : List Value) :
    m.withActive vs = { m with buffer := vs } := by
  unfold withActive
  rw [h]

theorem withActive_withActive (m : Machine) (vs ws : List Value) :
    (m.withActive vs).withActive ws = m.withActive ws := by
  unfold withActive
  cases m.mode <;> rfl

theorem withActive_active (m : Machine) : m.withActive m.active = m := by
  cases h : m.mode with
  | interpreting => rw [withActive_of_interpreting h, active_of_interpreting h]
  | compiling => rw [withActive_of_compiling h, active_of_compiling h]

theorem withActive_place (m : Machine) (vs : List Value) :
    (m.withActive vs).location = m.location ∧ (m.withActive vs).calls = m.calls := by
  unfold withActive
  cases m.mode <;> exact ⟨rfl, rfl⟩

theorem withActive_words (m : Machine) (vs : List Value) :
    (m.withActive vs).dictionary = m.dictionary ∧
      (m.withActive vs).nextSerial = m.nextSerial := by
  unfold withActive
  cases m.mode <;> exact ⟨rfl, rfl⟩

theorem withActive_cells (m : Machine) (vs : List Value) : (m.withActive vs).cells = m.cells := by
  unfold withActive
  cases m.mode <;> rfl

/-! ## The text being read -/

theorem nextWord_of_nil (h : m.readers = []) : nextWord m = .ok none m := by
  unfold nextWord
  rw [get_bind, h]
  rfl

theorem nextWord_of_cons {r : Reader} {rs : List Reader} (h : m.readers = r :: rs) :
    nextWord m = .ok r.nextWord.1 { m with readers := r.nextWord.2 :: rs } := by
  unfold nextWord
  rw [get_bind, h]
  rfl

theorem textUpTo_of_nil {d : Char} (h : m.readers = []) :
    textUpTo d m = fail .unexpectedEnd m := by
  unfold textUpTo
  rw [get_bind, h]

theorem textUpTo_of_cons {d : Char} {r : Reader} {rs : List Reader} (h : m.readers = r :: rs) :
    textUpTo d m = match r.textUpTo d with
      | (.ok text, r) => .ok text { m with readers := r :: rs }
      | (.error e, r) =>
        .error (.failed { e with calls := some m.calls }) { m with readers := r :: rs } := by
  unfold textUpTo
  rw [get_bind, h]
  dsimp only
  rw [modify_bind]
  rcases r.textUpTo d with ⟨_ | text, r'⟩ <;> rfl

theorem skipWordsTo_of_nil {p : String → Bool} (h : m.readers = []) :
    skipWordsTo p m = fail .unexpectedEnd m := by
  unfold skipWordsTo
  rw [get_bind, h]

theorem skipWordsTo_of_cons {p : String → Bool} {r : Reader} {rs : List Reader}
    (h : m.readers = r :: rs) :
    skipWordsTo p m =
      if (r.skipWordsTo p).1 then .ok () { m with readers := (r.skipWordsTo p).2 :: rs }
      else fail .unexpectedEnd { m with readers := (r.skipWordsTo p).2 :: rs } := by
  unfold skipWordsTo
  rw [get_bind, h]
  dsimp only
  rw [modify_bind]
  rcases r.skipWordsTo p with ⟨_ | _, r'⟩ <;> rfl

/-- Reading a word changes the readers only. -/
theorem nextWord_ok (m : Machine) : ∃ t rs, nextWord m = .ok t { m with readers := rs } := by
  cases h : m.readers with
  | nil => exact ⟨none, m.readers, nextWord_of_nil h⟩
  | cons r rs => exact ⟨_, _, nextWord_of_cons h⟩

theorem nextWordRequired_cases (m : Machine) :
    (∃ t rs, nextWordRequired m = .ok t { m with readers := rs }) ∨
      ∃ rs, nextWordRequired m = fail .unexpectedEnd { m with readers := rs } := by
  obtain ⟨t, rs, h⟩ := nextWord_ok m
  unfold nextWordRequired
  rw [bind_ok h]
  cases t with
  | none => exact .inr ⟨rs, rfl⟩
  | some t => exact .inl ⟨t, rs, rfl⟩

theorem textUpTo_cases (d : Char) (m : Machine) :
    (∃ s rs, textUpTo d m = .ok s { m with readers := rs }) ∨
      ∃ e rs, textUpTo d m = .error (.failed e) { m with readers := rs } := by
  cases h : m.readers with
  | nil => exact .inr ⟨_, m.readers, textUpTo_of_nil h⟩
  | cons r rs =>
    rw [textUpTo_of_cons h]
    rcases r.textUpTo d with ⟨e | s, r'⟩
    · exact .inr ⟨_, _, rfl⟩
    · exact .inl ⟨_, _, rfl⟩

theorem skipWordsTo_cases (p : String → Bool) (m : Machine) :
    (∃ rs, skipWordsTo p m = .ok () { m with readers := rs }) ∨
      ∃ rs, skipWordsTo p m = fail .unexpectedEnd { m with readers := rs } := by
  cases h : m.readers with
  | nil => exact .inr ⟨m.readers, skipWordsTo_of_nil h⟩
  | cons r rs =>
    rw [skipWordsTo_of_cons h]
    split
    · exact .inl ⟨_, rfl⟩
    · exact .inr ⟨_, rfl⟩

/-! ## Words -/

theorem stopCompiling_of_none (h : m.pending = none) :
    stopCompiling m = fail .notCompiling m := by
  unfold stopCompiling
  rw [get_bind, h]

theorem stopCompiling_of_some {p : Pending} (h : m.pending = some p) :
    stopCompiling m =
      addWord ⟨p.name, false, p.location, "User defined word.", ""⟩ (.compiled m.buffer.reverse)
        { m.note (.finishedCompiling m.buffer.length p.name) with
          pending := none, mode := .interpreting, buffer := [] } := by
  unfold stopCompiling
  rw [get_bind, h]
  rfl

theorem resolve_of_word {token : String} {w : Word}
    (h : m.dictionary.get? (Text.uppercase token) = some w) :
    resolve token m = .ok (.word w) m := by
  unfold resolve
  rw [get_bind, h]
  rfl

theorem resolve_of_number {token : String} {x : Float}
    (h : m.dictionary.get? (Text.uppercase token) = none)
    (hx : Number.parse? (Text.uppercase token) = some x) :
    resolve token m = .ok (.number x) m := by
  unfold resolve
  rw [get_bind, h]
  dsimp only
  rw [hx]
  rfl

theorem resolve_of_unknown {token : String}
    (h : m.dictionary.get? (Text.uppercase token) = none)
    (hx : Number.parse? (Text.uppercase token) = none) :
    resolve token m = fail (.unknownWord (Text.uppercase token)) m := by
  unfold resolve
  rw [get_bind, h]
  dsimp only
  rw [hx]

/-- A word of a text that is not executed is collected. -/
theorem collected_of_not_executed {w : Word} (h : ¬ (w.isImmediate ∨ m.mode = .interpreting)) :
    w.isImmediate = false ∧ m.mode = .compiling := by
  constructor
  · cases hw : w.isImmediate with
    | false => rfl
    | true => exact absurd (.inl hw) h
  · cases hm : m.mode with
    | interpreting => exact absurd (.inr hm) h
    | compiling => rfl

theorem findWord_of_some {name : String} {w : Word} (h : m.dictionary.get? name = some w) :
    findWord name m = .ok w m := by
  unfold findWord
  rw [get_bind, h]
  rfl

theorem findWord_of_none {name : String} (h : m.dictionary.get? name = none) :
    findWord name m = fail (.unknownWord (Text.uppercase name)) m := by
  unfold findWord
  rw [get_bind, h]

theorem lookUp_of_ok {named : Dictionary → Except String α} {a : α}
    (h : named m.dictionary = .ok a) : lookUp named m = .ok a m := by
  unfold lookUp
  rw [get_bind, h]
  rfl

theorem lookUp_of_error {named : Dictionary → Except String α} {name : String}
    (h : named m.dictionary = .error name) :
    lookUp named m = fail (.unknownWord (Text.uppercase name)) m := by
  unfold lookUp
  rw [get_bind, h]

/-! ## Cells and output -/

theorem readCell_of_some {i : Nat} {v : Value} (h : m.cells.get? i = some v) :
    readCell i m = .ok v m := by
  unfold readCell
  rw [get_bind, h]
  rfl

theorem readCell_of_none {i : Nat} (h : m.cells.get? i = none) :
    readCell i m = fail (.typeMismatch .variable (renderCell i)) m := by
  unfold readCell
  rw [get_bind, h]

theorem writeCell_of_some {i : Nat} {v : Value} {cells : Cells} (h : m.cells.set? i v = some cells) :
    writeCell i v m = .ok () { m with cells } := by
  unfold writeCell
  rw [get_bind, h]
  rfl

theorem writeCell_of_none {i : Nat} {v : Value} (h : m.cells.set? i v = none) :
    writeCell i v m = fail (.typeMismatch .variable (renderCell i)) m := by
  unfold writeCell
  rw [get_bind, h]

theorem write_apply (s : String) (m : Machine) :
    write s m = if m.outputFails ∧ s ≠ "" then .error (.failed (.ofIo "sink closed")) m
      else .ok () { m with output := m.output ++ s } := by
  unfold write
  rw [get_bind]
  by_cases h : m.outputFails ∧ s ≠ ""
  · rw [if_pos h, if_pos h]; rfl
  · rw [if_neg h, if_neg h]; rfl

/-! ## Words of a text -/

theorem runToken_unknown (host : Host) {t : Token}
    (hw : m.dictionary.get? (Text.uppercase t.text) = none)
    (hx : Number.parse? (Text.uppercase t.text) = none) :
    runToken host t m =
      fail (.unknownWord (Text.uppercase t.text)) { m with location := some t.location } := by
  unfold runToken
  rw [modify_bind]
  exact bind_error (resolve_of_unknown (m := { m with location := some t.location }) hw hx) _

/-- What a word of a text can come to. -/
inductive TokenOutcome (host : Host) (t : Token) (m : Machine) :
    EStateM.Result Halt Machine Unit → Prop
  | executed {w : Word} (hw : m.dictionary.get? (Text.uppercase t.text) = some w)
    (hexec : w.isImmediate = true ∨ m.mode = .interpreting) :
    TokenOutcome host t m (execute host t.location w { m with location := some t.location })
  | collected {w : Word} (hw : m.dictionary.get? (Text.uppercase t.text) = some w)
    (himm : w.isImmediate = false) (hmode : m.mode = .compiling) :
    TokenOutcome host t m
      (.ok () { { m with location := some t.location }.note (.compiledReference w.name) with
        buffer := .word w :: m.buffer })
  | number {x : Float} (hw : m.dictionary.get? (Text.uppercase t.text) = none)
    (hx : Number.parse? (Text.uppercase t.text) = some x) :
    TokenOutcome host t m (.ok () (({ m with location := some t.location }.note
      (.pushedNumber m.mode t.text)).withActive (.number x :: m.active)))
  | unknown (hw : m.dictionary.get? (Text.uppercase t.text) = none)
    (hx : Number.parse? (Text.uppercase t.text) = none) :
    TokenOutcome host t m
      (fail (.unknownWord (Text.uppercase t.text)) { m with location := some t.location })

theorem runToken_outcome (host : Host) (t : Token) (m : Machine) :
    TokenOutcome host t m (runToken host t m) := by
  cases hw : m.dictionary.get? (Text.uppercase t.text) with
  | some w =>
    unfold runToken
    rw [modify_bind, bind_ok (resolve_of_word (m := { m with location := some t.location }) hw)]
    dsimp only
    rw [get_bind]
    by_cases hexec : w.isImmediate ∨ m.mode = .interpreting
    · rw [if_pos hexec]
      exact .executed hw hexec
    · rw [if_neg hexec]
      obtain ⟨himm, hmode⟩ := collected_of_not_executed hexec
      exact .collected hw himm hmode
  | none =>
    cases hx : Number.parse? (Text.uppercase t.text) with
    | some x =>
      unfold runToken
      rw [modify_bind,
        bind_ok (resolve_of_number (m := { m with location := some t.location }) hw hx)]
      exact .number hw hx
    | none =>
      rw [runToken_unknown host hw hx]
      exact .unknown hw hx

end WordStack.Machine
