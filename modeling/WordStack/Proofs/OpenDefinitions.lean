import Mathlib.Data.List.Induction
import WordStack.Proofs.CompileTime
import WordStack.Proofs.Executions
import WordStack.Proofs.ModeDiscipline
import WordStack.Proofs.Outcomes

/-
  What the body of a word consists of. Every word that a run reads does one thing at most to the
  definition in progress (`Part`), and what it does can be told without a look at the compile
  buffer. So the name and the items of the definition in progress are those that the words read
  so far come to, one after the other (`left_runToken_part` for one word, `Chronicled.told` for
  all of them).
  `body_of_definition`: a body holds what has been compiled since the latest `:`, after all that
  was compiled before it and never closed; nothing was if no definition was open at that `:`.
  `body_of_definition_reopened`: a second `:` takes over what the first has compiled.
-/
namespace WordStack

open Machine

/-- A word that a run has read, and the machine right after it was read. -/
structure Reading where
  token : Token
  machine : Machine

/-- What a word of a text does to the definition in progress. -/
inductive Part where
  | opens (p : Pending)
  /-- An item is compiled. -/
  | takes (v : Value)
  /-- The latest item, if there is one, is taken back. -/
  | takesBack
  | closes

/-- The name of the definition in progress after a part of it. -/
def Part.pending (p : Option Pending) : Part → Option Pending
  | .opens q => some q
  | .closes => none
  | .takes _ | .takesBack => p

/-- The items that are compiled and not closed after a part, the latest first. -/
def Part.items (vs : List Value) : Part → List Value
  | .opens _ => vs
  | .takes v => v :: vs
  | .takesBack => vs.tail
  | .closes => []

/-- Does the part belong to the body of a definition? -/
def Part.goesOn : Part → Bool
  | .opens _ | .closes => false
  | .takes _ | .takesBack => true

namespace Machine

/-- The next word of the text. -/
def nextToken? (m : Machine) : Option Token := m.readers.head?.bind fun r => r.nextWord.1

/-- The text up to the next delimiter. -/
def textBefore? (d : Char) (m : Machine) : Option String :=
  m.readers.head?.bind fun r => (r.textUpTo d).1.toOption

/-- What an immediate word does to the definition in progress. -/
def immediatePart? (m : Machine) : Definition → Option Part
  | .builtIn .startDefinition => m.nextToken?.map fun name => .opens ⟨name.text, name.location⟩
  | .builtIn .textLiteral =>
    if m.mode = .compiling then (m.textBefore? '"').map fun s => .takes (.text s) else none
  | .builtIn .defineConstant =>
    if m.mode = .compiling then m.nextToken?.map fun _ => .takesBack else none
  | .builtIn .endDefinition => if m.mode = .compiling then some .closes else none
  | _ => none

end Machine

/-- What a word that was read does to the definition in progress: the item is a number, or a
reference to the word that the dictionary held when it was read, or the text of a literal. -/
def Reading.part? (x : Reading) : Option Part :=
  match x.machine.dictionary.get? x.token.text with
  | some w =>
    if w.isImmediate then x.machine.immediatePart? w.definition
    else if x.machine.mode = .compiling then some (.takes (.word w)) else none
  | none =>
    if x.machine.mode = .compiling then
      (Number.parse? (Text.uppercase x.token.text)).map fun n => .takes (.number n)
    else none

def parts (xs : List Reading) : List Part := xs.filterMap Reading.part?

/-- The name of the definition in progress after these words. -/
def pendingAfter (p : Option Pending) (xs : List Reading) : Option Pending :=
  (parts xs).foldl Part.pending p

/-- The items that are compiled and not closed after these words, the latest first. -/
def compiledAfter (vs : List Value) (xs : List Reading) : List Value :=
  (parts xs).foldl Part.items vs

/-- Does the word neither open nor close a definition? -/
def Reading.goesOn (x : Reading) : Bool := x.part?.all Part.goesOn

namespace Machine

/-- The words that the loop over the words of a text reads, up to the one that fails. -/
def wordsReadings : Nat → Machine → List Reading
  | 0, _ => []
  | k + 1, m =>
    match nextWord m with
    | .ok (some t) n =>
      ⟨t, n⟩ :: match runToken .absent t n with
        | .ok _ n' => wordsReadings k n'
        | .error _ _ => []
    | _ => []

/-- The words that a run reads. -/
def runReadings (path text : String) (m : Machine) : List Reading :=
  let r := Reader.ofText path text
  wordsReadings (r.rest.length + 1) (pushReader r m)

end Machine

/-- A machine that has only run texts, with all the words that the runs have read since it had
only the built-in words. -/
inductive Chronicled : List Reading → Machine → Prop
  | fresh : Chronicled [] .fresh
  | run {xs : List Reading} {m : Machine} (h : Chronicled xs m) (depth : Nat) (path text : String) :
    Chronicled (xs ++ runReadings path text m) (left (Machine.run (.nested depth) path text m))
  | setOutputFails {xs : List Reading} {m : Machine} (h : Chronicled xs m) (fails : Bool) :
    Chronicled xs { m with outputFails := fails }
  | observe {xs : List Reading} {m : Machine} (h : Chronicled xs m) :
    Chronicled xs (Session.beginStep m)

theorem Chronicled.scripted {xs : List Reading} {m : Machine} (h : Chronicled xs m) :
    Scripted m := by
  induction h with
  | fresh => exact .fresh
  | run _ depth path text ih => exact ih.run depth path text
  | setOutputFails _ fails ih => exact ih.setOutputFails fails
  | observe _ ih => exact ih.observe

/-- Every machine that has only run texts has read some words. -/
theorem Scripted.chronicled {m : Machine} (h : Scripted m) : ∃ xs, Chronicled xs m := by
  induction h with
  | fresh => exact ⟨_, .fresh⟩
  | run _ depth path text ih =>
    obtain ⟨xs, ih⟩ := ih
    exact ⟨_, ih.run depth path text⟩
  | setOutputFails _ fails ih =>
    obtain ⟨xs, ih⟩ := ih
    exact ⟨xs, ih.setOutputFails fails⟩
  | observe _ ih =>
    obtain ⟨xs, ih⟩ := ih
    exact ⟨xs, ih.observe⟩

/-! ## What a word does to the definition in progress -/

/-- The definition in progress differs by this part. -/
structure Progresses (part? : Option Part) (m n : Machine) : Prop where
  pending : n.pending = part?.toList.foldl Part.pending m.pending
  buffer : n.buffer = part?.toList.foldl Part.items m.buffer

variable {made : List Word} {m n : Machine} {t : Token} {w : Word} {xs ys : List Reading}
  {x : Reading}

namespace BuiltIn

variable {b : BuiltIn}

theorem operation?_of_immediate (hb : b.isImmediate = true) : b.operation? = none := by
  cases b <;> first | rfl | cases hb

theorem writing?_of_immediate (hb : b.isImmediate = true) : b.writing? m = none := by
  cases b <;> first | rfl | cases hb

theorem rearranged?_of_immediate (hb : b.isImmediate = true) (vs : List Value) :
    b.rearranged? vs = none := by
  unfold rearranged?
  split <;> first | cases hb | (rw [operation?_of_immediate hb]; rfl) | rfl

end BuiltIn

theorem Progresses.refl (m : Machine) : Progresses none m m := ⟨rfl, rfl⟩

namespace Machine

theorem nextToken?_of_ok (h : nextWordRequired m = .ok t n) : m.nextToken? = some t := by
  unfold nextToken?
  unfold nextWordRequired at h
  cases hm : m.readers with
  | nil =>
    rw [bind_ok (nextWord_of_nil hm)] at h
    cases h
  | cons r rs =>
    rw [bind_ok (nextWord_of_cons hm)] at h
    show r.nextWord.1 = some t
    generalize r.nextWord.1 = found at h
    cases found with
    | none => cases h
    | some u =>
      obtain rfl : u = t := by injection h
      rfl

theorem nextToken?_of_fail {c : Cause} (h : nextWordRequired m = fail c n) :
    m.nextToken? = none := by
  unfold nextToken?
  unfold nextWordRequired at h
  cases hm : m.readers with
  | nil => rfl
  | cons r rs =>
    rw [bind_ok (nextWord_of_cons hm)] at h
    show r.nextWord.1 = none
    generalize r.nextWord.1 = found at h
    cases found with
    | none => rfl
    | some u => cases h

theorem textBefore?_of_ok {d : Char} {s : String} (h : textUpTo d m = .ok s n) :
    m.textBefore? d = some s := by
  unfold textBefore?
  cases hm : m.readers with
  | nil =>
    rw [textUpTo_of_nil hm] at h
    cases h
  | cons r rs =>
    rw [textUpTo_of_cons hm] at h
    show (r.textUpTo d).1.toOption = some s
    generalize r.textUpTo d = found at h ⊢
    rcases found with ⟨e | s', r'⟩
    · cases h
    · obtain rfl : s' = s := by injection h
      rfl

theorem textBefore?_of_error {d : Char} {halt : Halt} (h : textUpTo d m = .error halt n) :
    m.textBefore? d = none := by
  unfold textBefore?
  cases hm : m.readers with
  | nil => rfl
  | cons r rs =>
    rw [textUpTo_of_cons hm] at h
    show (r.textUpTo d).1.toOption = none
    generalize r.textUpTo d = found at h ⊢
    rcases found with ⟨e | s', r'⟩
    · rfl
    · cases h

/-- A new active stack is a new compile buffer while compiling, and no part of a definition
otherwise. -/
theorem progresses_withActive {part? : Option Part} {k : Machine} {vs : List Value}
    (hmode : k.mode = m.mode) (hkept : Progresses none m k)
    (hcompiling : m.mode = .compiling → Progresses part? m { m with buffer := vs })
    (hinterpreting : m.mode = .interpreting → part? = none) :
    Progresses part? m (k.withActive vs) := by
  have hmodes : m.mode = .compiling ∨ m.mode = .interpreting := by cases m.mode <;> simp
  rcases hmodes with hm | hm
  · rw [withActive_of_compiling (hmode.trans hm)]
    exact ⟨hkept.pending.trans (hcompiling hm).pending, (hcompiling hm).buffer⟩
  · rw [withActive_of_interpreting (hmode.trans hm), hinterpreting hm]
    exact ⟨hkept.pending, hkept.buffer⟩

/-- A part that belongs to a definition is none while interpreting. -/
theorem of_interpreting {α : Type} {x y : α} (hmode : m.mode = .interpreting) :
    (if m.mode = .compiling then x else y) = y := by
  rw [hmode]
  rfl

/-- An immediate built-in word does to the definition in progress what is said of it. -/
theorem progresses_immediate {b : BuiltIn} (hb : b.isImmediate = true) (hm : m.Disciplined) :
    Progresses (m.immediatePart? (.builtIn b)) m (left (b.run m)) := by
  have ho := BuiltIn.outcome b m
  generalize b.run m = x at ho
  cases ho with
  | underflow hshort =>
    -- only `CONST` asks for a value, and an empty compile buffer has no item to take back
    cases b with
    | defineConstant =>
      have hnil : m.active = [] := List.length_eq_zero_iff.mp (Nat.lt_one_iff.mp hshort)
      unfold immediatePart?
      dsimp only
      split
      · next hmode =>
        rw [active_of_compiling hmode] at hnil
        cases m.nextToken? with
        | none => exact .refl m
        | some t => exact ⟨rfl, by rw [left_fail]; show m.buffer = m.buffer.tail; rw [hnil]; rfl⟩
      · exact .refl m
    | _ => first | exact absurd hshort (Nat.not_lt_zero _) | cases hb
  | nameless _ hname h =>
    have hnone := nextToken?_of_fail h
    cases b with
    | defineConstant | startDefinition =>
      unfold immediatePart?
      dsimp only
      rw [hnone]
      first | exact ⟨rfl, rfl⟩ | (split <;> exact ⟨rfl, rfl⟩)
    | defineVariable => exact ⟨rfl, rfl⟩
    | _ => cases hname
  | «variable» h => exact ⟨rfl, rfl⟩
  | @constant t rs v vs hactive h =>
    have hpart : Progresses (m.immediatePart? (.builtIn .defineConstant)) m
        ({ m with readers := rs }.withActive vs) := by
      unfold immediatePart?
      dsimp only
      rw [nextToken?_of_ok h]
      refine progresses_withActive rfl ⟨rfl, rfl⟩ (fun hmode => ?_) fun hmode => of_interpreting hmode
      rw [active_of_compiling hmode] at hactive
      rw [if_pos hmode]
      exact ⟨rfl, (congrArg List.tail hactive).symm⟩
    exact ⟨hpart.pending, hpart.buffer⟩
  | opened h =>
    unfold immediatePart?
    dsimp only
    rw [nextToken?_of_ok h]
    exact ⟨rfl, rfl⟩
  | @text s rs h =>
    have hpart : Progresses (m.immediatePart? (.builtIn .textLiteral)) m
        ({ m with readers := rs }.withActive (.text s :: m.active)) := by
      unfold immediatePart?
      dsimp only
      rw [textBefore?_of_ok h]
      refine progresses_withActive rfl ⟨rfl, rfl⟩ (fun hmode => ?_) fun hmode => of_interpreting hmode
      rw [if_pos hmode, active_of_compiling hmode]
      exact ⟨rfl, rfl⟩
    exact ⟨hpart.pending, hpart.buffer⟩
  | comment hcomment => rcases hcomment with ⟨rfl, -⟩ | ⟨rfl, -⟩ <;> exact ⟨rfl, rfl⟩
  | unterminated hd h =>
    cases b with
    | textLiteral =>
      obtain rfl := Option.some.inj hd
      unfold immediatePart?
      dsimp only
      rw [textBefore?_of_error h]
      split <;> exact ⟨rfl, rfl⟩
    | parenComment | lineComment => exact ⟨rfl, rfl⟩
    | _ => cases hd
  | blockComment | unterminatedBlock => exact ⟨rfl, rfl⟩
  | closed hp =>
    have hmode : m.mode = .compiling := hm.pending.mpr (by rw [hp]; rfl)
    unfold immediatePart?
    dsimp only
    rw [if_pos hmode]
    exact ⟨rfl, rfl⟩
  | notOpen hp =>
    have hmode : m.mode ≠ .compiling := fun hmode => by
      have hsome := hm.pending.mp hmode
      rw [hp] at hsome
      cases hsome
    unfold immediatePart?
    dsimp only
    rw [if_neg hmode]
    exact .refl m
  | wrote h =>
    rw [BuiltIn.writing?_of_immediate hb] at h
    cases h
  | rearranged h =>
    rw [BuiltIn.rearranged?_of_immediate hb] at h
    cases h
  | mismatch _ _ _ h =>
    cases h with
    | right h | left h =>
      rw [BuiltIn.operation?_of_immediate hb] at h
      cases h
    | root => cases hb
    | reference h => rcases h with rfl | rfl <;> cases hb
  | stored | storedNowhere | fetched | fetchedNowhere => cases hb

/-- Executing a word that is not immediate leaves the compiler alone. -/
theorem progresses_ordinary (h : m.Sound made) {name : String}
    (hw : m.dictionary.get? name = some w) (himm : w.isImmediate = false)
    (hmode : m.mode = .interpreting) (l : Location) :
    Progresses none m (left (execute .absent l w m)) := by
  have hworks : Ends (Works (Word.Portable made) m) (execute .absent l w m) :=
    execute_works (fun v hv => hv.isOrdinary) hmode h.data h.cells (h.within_of_get? hw himm) l
  generalize execute .absent l w m = x at hworks
  cases hworks with
  | ok hn | failed hn => exact ⟨by rw [left, hn.frame]; rfl, by rw [left, hn.frame]; rfl⟩

end Machine

namespace Reading

theorem part?_of_immediate (hw : m.dictionary.get? t.text = some w) (himm : w.isImmediate = true) :
    part? ⟨t, m⟩ = m.immediatePart? w.definition := by
  unfold part?
  dsimp only
  rw [hw]
  exact if_pos himm

theorem part?_of_word (hw : m.dictionary.get? t.text = some w) (himm : w.isImmediate = false) :
    part? ⟨t, m⟩ = if m.mode = .compiling then some (.takes (.word w)) else none := by
  unfold part?
  dsimp only
  rw [hw]
  exact if_neg (by rw [himm]; exact Bool.false_ne_true)

theorem part?_of_none (hw : m.dictionary.get? t.text = none) :
    part? ⟨t, m⟩ = if m.mode = .compiling then
      (Number.parse? (Text.uppercase t.text)).map fun n => .takes (.number n) else none := by
  unfold part?
  dsimp only
  rw [hw]

end Reading

namespace Machine

/-- A word of a text does to the definition in progress what is said of it. -/
theorem left_runToken_part (h : m.Sound made) (t : Token) :
    Progresses (Reading.part? ⟨t, m⟩) m (left (runToken .absent t m)) := by
  have hplaced : Sound made { m with location := some t.location } := h.withContext _ _ _ _
  have hout := runToken_outcome .absent t m
  generalize runToken .absent t m = x at hout
  cases hout with
  | @executed w hw hexec =>
    have hw' := (Dictionary.get?_uppercase m.dictionary t.text).symm.trans hw
    cases himm : w.isImmediate with
    | true =>
      obtain ⟨b, hb, hbimm⟩ : ∃ b : BuiltIn, w.definition = .builtIn b ∧ b.isImmediate = true :=
        (h.dictionary _ (Dictionary.mem_of_get? hw)).1.builtIn_of_isImmediate himm
      have hrun := progresses_immediate (m := enterCall ⟨w.name, t.location⟩
        { m with location := some t.location }) hbimm ⟨h.pending, h.empty⟩
      rw [Reading.part?_of_immediate hw' himm, execute_eq, hb]
      unfold duringCall
      rw [left_between]
      exact ⟨hrun.pending, hrun.buffer⟩
    | false =>
      have hmode : m.mode = .interpreting := hexec.resolve_left (by rw [himm]; exact nofun)
      have hleft := progresses_ordinary hplaced hw himm hmode t.location
      rw [Reading.part?_of_word hw' himm, of_interpreting hmode]
      exact ⟨hleft.pending, hleft.buffer⟩
  | collected hw himm hmode =>
    rw [Reading.part?_of_word ((Dictionary.get?_uppercase _ _).symm.trans hw) himm, if_pos hmode]
    exact ⟨rfl, rfl⟩
  | @number x hw hx =>
    rw [Reading.part?_of_none ((Dictionary.get?_uppercase _ _).symm.trans hw), hx]
    refine progresses_withActive rfl ⟨rfl, rfl⟩ (fun hmode => ?_) fun hmode => of_interpreting hmode
    rw [if_pos hmode, active_of_compiling hmode]
    exact ⟨rfl, rfl⟩
  | unknown hw hx =>
    rw [Reading.part?_of_none ((Dictionary.get?_uppercase _ _).symm.trans hw), hx]
    split <;> exact ⟨rfl, rfl⟩

end Machine

/-! ## Whole histories -/

/-- Each word was read on a sound machine whose definition in progress is what the words before it
come to. -/
inductive Told : Option Pending → List Value → List Reading → Prop
  | nil (p : Option Pending) (vs : List Value) : Told p vs []
  | cons {x : Reading} {xs : List Reading} (hsound : ∃ made, x.machine.Sound made)
    (rest : Told (pendingAfter x.machine.pending [x]) (compiledAfter x.machine.buffer [x]) xs) :
    Told x.machine.pending x.machine.buffer (x :: xs)

theorem parts_append (xs ys : List Reading) : parts (xs ++ ys) = parts xs ++ parts ys :=
  List.filterMap_append

theorem parts_singleton (x : Reading) : parts [x] = x.part?.toList := by
  unfold parts
  rw [List.filterMap_cons]
  cases x.part? <;> rfl

theorem pendingAfter_append (p : Option Pending) (xs ys : List Reading) :
    pendingAfter p (xs ++ ys) = pendingAfter (pendingAfter p xs) ys := by
  unfold pendingAfter
  rw [parts_append, List.foldl_append]

theorem compiledAfter_append (vs : List Value) (xs ys : List Reading) :
    compiledAfter vs (xs ++ ys) = compiledAfter (compiledAfter vs xs) ys := by
  unfold compiledAfter
  rw [parts_append, List.foldl_append]

namespace Told

variable {p : Option Pending} {vs : List Value}

theorem append (h : Told p vs xs) (h' : Told (pendingAfter p xs) (compiledAfter vs xs) ys) :
    Told p vs (xs ++ ys) := by
  induction h with
  | nil p vs => exact h'
  | @cons x xs hsound rest ih =>
    refine .cons hsound (ih ?_)
    rwa [← pendingAfter_append, ← compiledAfter_append]

theorem word (h : Told p vs (xs ++ x :: ys)) :
    (∃ made, x.machine.Sound made) ∧ x.machine.pending = pendingAfter p xs ∧
      x.machine.buffer = compiledAfter vs xs := by
  induction xs generalizing p vs with
  | nil =>
    cases h with
    | cons hsound => exact ⟨hsound, rfl, rfl⟩
  | cons y xs ih =>
    cases h with
    | cons _ rest =>
      have hpending := pendingAfter_append y.machine.pending [y] xs
      have hcompiled := compiledAfter_append y.machine.buffer [y] xs
      rw [List.singleton_append] at hpending hcompiled
      rw [hpending, hcompiled]
      exact ih rest

end Told

/-- From the first machine to the second these words were read, and the definition in progress is
what they come to. -/
structure Tells (xs : List Reading) (m n : Machine) : Prop where
  told : Told m.pending m.buffer xs
  pending : n.pending = pendingAfter m.pending xs
  buffer : n.buffer = compiledAfter m.buffer xs

namespace Tells

variable {k : Machine}

theorem refl (m : Machine) : Tells [] m m := ⟨.nil _ _, rfl, rfl⟩

theorem append (h : Tells xs m n) (h' : Tells ys n k) : Tells (xs ++ ys) m k where
  told := h.told.append (by rw [← h.pending, ← h.buffer]; exact h'.told)
  pending := by rw [pendingAfter_append, ← h.pending, h'.pending]
  buffer := by rw [compiledAfter_append, ← h.buffer, h'.buffer]

theorem token (h : m.Sound made) (t : Token) :
    Tells [⟨t, m⟩] m (left (runToken .absent t m)) where
  told := .cons (x := ⟨t, m⟩) ⟨made, h⟩ (.nil _ _)
  pending := by
    rw [(left_runToken_part h t).pending, pendingAfter, parts_singleton]
  buffer := by
    rw [(left_runToken_part h t).buffer, compiledAfter, parts_singleton]

theorem words (h : m.Sound made) (k : Nat) :
    Tells (wordsReadings k m) m (left (runWords .absent k m)) := by
  induction k generalizing made m with
  | zero => exact .refl m
  | succ k ih =>
    obtain ⟨t, rs, hnext⟩ := nextWord_ok m
    have hread : Sound made { m with readers := rs } := h.withContext _ _ _ _
    unfold wordsReadings runWords
    rw [bind_ok hnext, hnext]
    cases t with
    | none => exact ⟨.nil _ _, rfl, rfl⟩
    | some t =>
      have htoken := token hread t
      have hends := sound_runToken .absent hread t
      dsimp only
      rw [bind_apply]
      generalize runToken .absent t { m with readers := rs } = x at htoken hends
      cases hends with
      | failed => exact ⟨htoken.told, htoken.pending, htoken.buffer⟩
      | ok hsound =>
        obtain ⟨more, hsound⟩ := hsound
        have hall := htoken.append (ih hsound)
        exact ⟨hall.told, hall.pending, hall.buffer⟩

end Tells

/-- The definition in progress of a machine that has only run texts is what the words that it read
come to. -/
theorem Chronicled.tells (h : Chronicled xs m) : Tells xs .fresh m := by
  induction h with
  | fresh => exact .refl _
  | @run xs m h depth path text ih =>
    obtain ⟨made, hsound⟩ := h.scripted.sound
    have hstart : Sound made (pushReader (.ofText path text) m) := hsound.withContext _ _ _ _
    have hwords := Tells.words hstart ((Reader.ofText path text).rest.length + 1)
    rw [run_of_scripted h.scripted (.nested depth) .absent]
    refine ih.append ?_
    unfold Machine.run Machine.withReader runReadings
    rw [left_between]
    exact ⟨hwords.told, hwords.pending, hwords.buffer⟩
  | setOutputFails _ _ ih | observe _ ih => exact ⟨ih.told, ih.pending, ih.buffer⟩

/-! ## Where a definition was opened -/

/-- If a definition is open, one of the words read has opened it, and none of those after it has
opened or closed one. -/
theorem exists_opening {p : Pending} (h : pendingAfter none xs = some p) :
    ∃ older opening recent, xs = older ++ opening :: recent ∧ opening.part? = some (.opens p) ∧
      ∀ y ∈ recent, y.goesOn = true := by
  induction xs using List.reverseRecOn with
  | nil => cases h
  | append_singleton xs x ih =>
    rw [pendingAfter_append, pendingAfter, parts_singleton] at h
    -- a word that belongs to the body comes after the same opening as the words before it
    have hlater (hx : x.goesOn = true) (hp : pendingAfter none xs = some p) :
        ∃ older opening recent, xs ++ [x] = older ++ opening :: recent ∧
          opening.part? = some (.opens p) ∧ ∀ y ∈ recent, y.goesOn = true := by
      obtain ⟨older, opening, recent, rfl, hopening, hrecent⟩ := ih hp
      refine ⟨older, opening, recent ++ [x], List.append_assoc _ _ _, hopening, fun y hy => ?_⟩
      rcases List.mem_append.mp hy with hy | hy
      · exact hrecent y hy
      · rwa [List.mem_singleton.mp hy]
    unfold Reading.goesOn at hlater
    cases hx : x.part? with
    | none =>
      rw [hx] at h hlater
      exact hlater rfl h
    | some part =>
      rw [hx] at h hlater
      cases part with
      | opens q =>
        obtain rfl : q = p := Option.some.inj h
        exact ⟨xs, x, [], rfl, hx, fun y hy => absurd hy List.not_mem_nil⟩
      | takes v => exact hlater rfl h
      | takesBack => exact hlater rfl h
      | closes => cases h

/-! ## Where a definition is closed -/

namespace Machine

/-- No word that leads to ordinary words only executes an immediate one. -/
theorem ordinary_wordExecutions (hw : w.Within Word.IsOrdinary) (l : Location) (m : Machine) :
    ∀ x ∈ wordExecutions l w m, x.builtIn.isImmediate = false := by
  have hlasts : OutlastsCalls (fun es _ => ∀ x ∈ es, x.builtIn.isImmediate = false)
      Word.IsOrdinary :=
    { enter := fun _ h => h
      leave := fun h => h
      builtIn := fun {es m w b} hw hb h x hx => by
        rcases List.mem_append.mp hx with hx | hx
        · exact h x hx
        · rw [List.mem_singleton.mp hx]
          have hordinary := hw.definition
          rw [hb] at hordinary
          exact hordinary
      «variable» := fun _ _ h => h
      value := fun _ _ h => h }
  have hnone : ∀ x ∈ ([] : List Execution), x.builtIn.isImmediate = false :=
    fun _ hx => absurd hx List.not_mem_nil
  have hall := hlasts.execute (m := m) hw hnone l
  rwa [List.nil_append] at hall

/-- A `;` is only executed as a word of the text itself. -/
theorem closes_of_execution {k : Machine} (h : m.Sound made)
    (hend : ⟨.endDefinition, k⟩ ∈ tokenExecutions t m)
    (hcloses : succeeds (BuiltIn.endDefinition.run k) = true) :
    ∃ w p, m.dictionary.get? t.text = some w ∧ w.isImmediate = true ∧
      w.definition = .builtIn .endDefinition ∧ m.pending = some p := by
  unfold tokenExecutions at hend
  rw [Dictionary.get?_uppercase] at hend
  cases hw : m.dictionary.get? t.text with
  | none =>
    rw [hw] at hend
    exact absurd hend List.not_mem_nil
  | some w =>
    rw [hw] at hend
    dsimp only at hend
    split at hend
    · cases himm : w.isImmediate with
      | false =>
        have hordinary := (h.within_of_get? hw himm).mono fun u hu => hu.isOrdinary
        cases ordinary_wordExecutions hordinary _ _ _ hend
      | true =>
        obtain ⟨b, hb, -⟩ : ∃ b : BuiltIn, w.definition = .builtIn b ∧ b.isImmediate = true :=
          (h.dictionary _ (Dictionary.mem_of_get? hw)).1.builtIn_of_isImmediate himm
        rw [wordExecutions_eq, hb] at hend
        cases List.mem_singleton.mp hend
        cases hp : m.pending with
        | none =>
          have hpending : (enterCall ⟨w.name, t.location⟩
              { m with location := some t.location }).pending = none := hp
          have hrun : BuiltIn.endDefinition.run (enterCall ⟨w.name, t.location⟩
              { m with location := some t.location }) = _ := discard_apply _ _
          rw [hrun, stopCompiling_of_none hpending] at hcloses
          cases hcloses
        | some p => exact ⟨w, p, rfl, himm, hb, rfl⟩
    · exact absurd hend List.not_mem_nil

/-- A `;` defines a word of the name of the definition in progress, with what has been compiled. -/
theorem defined_of_closing (host : Host) {p : Pending} (hw : m.dictionary.get? t.text = some w)
    (himm : w.isImmediate = true) (hend : w.definition = .builtIn .endDefinition)
    (hp : m.pending = some p) :
    ∃ n u, runToken host t m = .ok () n ∧ n.dictionary.get? p.name = some u ∧
      u.name = Text.uppercase p.name ∧ u.location = some p.location ∧
      u.definition = .compiled m.buffer.reverse := by
  have hpending : (enterCall ⟨w.name, t.location⟩
      { m with location := some t.location }).pending = some p := hp
  have hrun : BuiltIn.endDefinition.run (enterCall ⟨w.name, t.location⟩
      { m with location := some t.location }) = _ := discard_apply _ _
  rw [stopCompiling_of_some hpending] at hrun
  rw [runToken_immediate host hw himm hend]
  unfold duringCall between
  rw [hrun]
  exact ⟨_, _, rfl, Dictionary.get?_insert_self (Text.uppercase_uppercase p.name).symm, rfl, rfl,
    rfl⟩

end Machine

/-- Whenever a `;` succeeds in a machine that has only run texts, the word that it defines has the
name and the place that the latest `:` before it took, and nothing was closed in between. Its body
consists, in order, of what the words read since that `:` have compiled and not taken back, after
all that was compiled and not closed before that `:`. Nothing was if no definition was open
there. -/
theorem body_of_definition {before after : List Reading} {k : Machine}
    (h : Chronicled (before ++ x :: after) m)
    (hend : ⟨.endDefinition, k⟩ ∈ tokenExecutions x.token x.machine)
    (hcloses : succeeds (BuiltIn.endDefinition.run k) = true) (depth : Nat) :
    ∃ older opening recent p n w, before = older ++ opening :: recent ∧
      opening.part? = some (.opens p) ∧ (∀ y ∈ recent, y.goesOn = true) ∧
      runToken (.nested depth) x.token x.machine = .ok () n ∧
      n.dictionary.get? p.name = some w ∧ w.name = Text.uppercase p.name ∧
      w.location = some p.location ∧
      w.definition = .compiled (compiledAfter (compiledAfter [] older) recent).reverse ∧
      (opening.machine.mode = .interpreting → compiledAfter [] older = []) := by
  have htold := h.tells.told
  obtain ⟨⟨made, hsound⟩, hpending, hbuffer⟩ := htold.word
  obtain ⟨v, p, hv, himm, hdefinition, hp⟩ := closes_of_execution hsound hend hcloses
  obtain ⟨older, opening, recent, rfl, hopening, hrecent⟩ :=
    exists_opening (hpending.symm.trans hp)
  obtain ⟨n, w, hrun, hw, hname, hlocation, hbody⟩ :=
    defined_of_closing (.nested depth) hv himm hdefinition hp
  refine ⟨older, opening, recent, p, n, w, rfl, hopening, hrecent, hrun, hw, hname, hlocation,
    ?_, fun hmode => ?_⟩
  · have hitems : compiledAfter [] (older ++ opening :: recent) =
        compiledAfter (compiledAfter [] older) recent := by
      have hsplit := compiledAfter_append (compiledAfter [] older) [opening] recent
      have hopened : compiledAfter (compiledAfter [] older) [opening] = compiledAfter [] older := by
        unfold compiledAfter
        rw [parts_singleton, hopening]
        rfl
      rw [compiledAfter_append, ← List.singleton_append, hsplit, hopened]
    rw [hbody, hbuffer, ← hitems]
    rfl
  · rw [List.append_assoc] at htold
    obtain ⟨⟨made, hopened⟩, -, hitems⟩ := htold.word
    exact hitems.symm.trans (hopened.empty hmode)

/-- A word is defined whose body has lost a number to a constant. -/
theorem body_of_definition_constant : ∃ (before : List Reading) (x : Reading) (m k n : Machine)
    (w : Word) (older recent : List Reading),
    Chronicled (before ++ x :: []) m ∧ ⟨.endDefinition, k⟩ ∈ tokenExecutions x.token x.machine ∧
      succeeds (BuiltIn.endDefinition.run k) = true ∧ x.machine.buffer.length = 1 ∧
      runToken (.nested 0) x.token x.machine = .ok () n ∧
      w.definition = .compiled (compiledAfter (compiledAfter [] older) recent).reverse := by
  have hchronicled := Chronicled.fresh.run 0 "s" ": B DUP 1 CONST K ;"
  rw [List.nil_append] at hchronicled
  have hlast : ((runReadings "s" ": B DUP 1 CONST K ;" .fresh).getLast?).any (fun x =>
      decide (x.machine.buffer.length = 1) && (tokenExecutions x.token x.machine).any fun e =>
        e.builtIn = .endDefinition ∧ succeeds e.result) = true := by
    decide +kernel
  obtain ⟨x, hx, hchecks⟩ := (Option.any_eq_true _ _).mp hlast
  obtain ⟨before, hreadings⟩ := List.getLast?_eq_some_iff.mp hx
  obtain ⟨hlength, hends⟩ := Bool.and_eq_true_iff.mp hchecks
  obtain ⟨⟨b, k⟩, hk, hends⟩ := List.any_eq_true.mp hends
  obtain ⟨rfl, hcloses⟩ := of_decide_eq_true hends
  rw [hreadings] at hchronicled
  obtain ⟨older, opening, recent, p, n, w, -, -, -, hrun, -, -, -, hbody, -⟩ :=
    body_of_definition hchronicled hk hcloses 0
  exact ⟨before, x, _, k, n, w, older, recent, hchronicled, hk, hcloses, of_decide_eq_true hlength,
    hrun, hbody⟩

theorem Part.eq_opens {part : Part} {p : Pending} (h : part.pending none = some p) :
    part = .opens p := by
  cases part with
  | opens q => exact congrArg Part.opens (Option.some.inj h)
  | takes | takesBack | closes => cases h

/-- A definition that is opened while another one is open takes over what that one has compiled:
one word is compiled after the `:` that takes the name, and the body holds two. -/
theorem body_of_definition_reopened : ∃ (older recent : List Reading) (opening x : Reading)
    (m n : Machine) (p : Pending) (w : Word) (body : List Value),
    Chronicled (older ++ opening :: (recent ++ [x])) m ∧ opening.part? = some (.opens p) ∧
      (∀ y ∈ recent, y.goesOn = true) ∧ x.machine.dictionary.Stands x.token.text .endDefinition ∧
      runToken .absent x.token x.machine = .ok () n ∧ n.dictionary.get? p.name = some w ∧
      w.definition = .compiled body ∧ body.length = 2 ∧ (compiledAfter [] recent).length = 1 := by
  have hchronicled := Chronicled.fresh.run 0 "s" ": A DUP : B DROP ;"
  rw [List.nil_append] at hchronicled
  generalize hxs : runReadings "s" ": A DUP : B DROP ;" .fresh = xs at hchronicled
  have hlast : xs.getLast?.any (fun x => decide
      (x.machine.dictionary.Stands x.token.text .endDefinition ∧
        x.machine.pending = some ⟨"B", ⟨"s", 1, 11⟩⟩ ∧ x.machine.buffer.length = 2)) = true := by
    subst hxs
    decide +kernel
  have hitem : xs.dropLast.getLast?.any (fun y => decide
      (y.goesOn = true ∧ (compiledAfter [] [y]).length = 1)) = true := by
    subst hxs
    decide +kernel
  have hsecond : xs.dropLast.dropLast.getLast?.any (fun opening => decide
      (opening.part?.map (Part.pending none) = some (some ⟨"B", ⟨"s", 1, 11⟩⟩))) = true := by
    subst hxs
    decide +kernel
  obtain ⟨x, hx, hcloses⟩ := (Option.any_eq_true _ _).mp hlast
  obtain ⟨before, rfl⟩ := List.getLast?_eq_some_iff.mp hx
  rw [List.dropLast_concat] at hitem hsecond
  obtain ⟨y, hy, htakes⟩ := (Option.any_eq_true _ _).mp hitem
  obtain ⟨before, rfl⟩ := List.getLast?_eq_some_iff.mp hy
  rw [List.dropLast_concat] at hsecond
  obtain ⟨opening, ho, hopens⟩ := (Option.any_eq_true _ _).mp hsecond
  obtain ⟨older, rfl⟩ := List.getLast?_eq_some_iff.mp ho
  obtain ⟨hstands, hpending, hlength⟩ := of_decide_eq_true hcloses
  obtain ⟨hgoesOn, hcompiled⟩ := of_decide_eq_true htakes
  obtain ⟨part, hpart, hopened⟩ := Option.map_eq_some_iff.mp (of_decide_eq_true hopens)
  obtain ⟨v, hv, himm, hdefinition⟩ := hstands
  obtain ⟨n, w, hrun, hw, -, -, hbody⟩ := defined_of_closing .absent hv himm hdefinition hpending
  rw [List.append_assoc, List.append_assoc] at hchronicled
  refine ⟨older, [y], opening, x, _, n, _, w, _, hchronicled, ?_, fun z hz => ?_,
    ⟨v, hv, himm, hdefinition⟩, hrun, hw, hbody, ?_, hcompiled⟩
  · rw [hpart, Part.eq_opens hopened]
  · rwa [List.mem_singleton.mp hz]
  · rw [List.length_reverse, hlength]

end WordStack
