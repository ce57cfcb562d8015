import WordStack.Proofs.Likeness

/-
  Running texts on two machines side by side. `Collecting` lists what a likeness has to respect
  so that the words that read on in the text and close no definition keep it, `Reading` what it
  takes that every built-in word does (`Reading.run`). `Running` adds what it takes to do what a
  word of a text asks for (`Running.runToken`); texts that end together are then run alike
  (`Running.runWords`).
-/
namespace WordStack

/-- The name and the trimmings of the word that a variable gets. -/
def variableHeading (t : Token) : Heading :=
  ⟨t.text, false, t.location, "Access the cell for variable " ++ t.text ++ ".", " -- variable"⟩

/-- The name and the trimmings of the word that a constant gets. -/
def constantHeading (t : Token) : Heading :=
  ⟨t.text, false, t.location, "Push the value of constant " ++ t.text ++ ".", " -- value"⟩

theorem Token.eq_of_same {t u : Token} (h : t.text = u.text ∧ t.location = u.location) : t = u := by
  obtain ⟨text, location⟩ := t
  obtain ⟨text', location'⟩ := u
  obtain ⟨rfl, rfl⟩ : text = text' ∧ location = location' := h
  rfl

namespace Likeness

open Machine

variable {ι : Type} {K : Likeness ι} {i : ι} {m n : Machine} {host : Host}

/-- Words of a text that are spelt alike and stand at like places. -/
def Tokens (K : Likeness ι) (t u : Token) : Prop :=
  K.texts t.text u.text ∧ K.places t.location u.location

/-- What two words of a text turned out to be. -/
inductive Resolutions (K : Likeness ι) : Resolved → Resolved → Prop
  | number (x : Float) : Resolutions K (.number x) (.number x)
  | word {v w : Word} : v.isImmediate = w.isImmediate → K.words v w →
    Resolutions K (.word v) (.word w)

theorem Stacking.nextWordRequired (hK : K.Stacking)
    (h : K.Agree i (Option.Rel K.Tokens) (nextWord m) (nextWord n)) :
    K.Agree i K.Tokens (Machine.nextWordRequired m) (Machine.nextWordRequired n) := by
  refine h.bind fun t u m n htu h => ?_
  cases htu with
  | none => exact hK.failed h _
  | some htu => exact .ok htu h

/-- What the words that read on in the text and close no definition can see, and what they
change. -/
structure Collecting (K : Likeness ι) : Prop extends Stacking K where
  text : ∀ {s t}, K.texts s t → K.values (.text s) (.text t)
  nextWordRequired : ∀ {i m n}, K.machines i m n →
    K.Agree i K.Tokens (nextWordRequired m) (nextWordRequired n)
  textUpTo : ∀ {i m n}, K.machines i m n → ∀ d ∈ ['"', ')', '\n'],
    K.Agree i K.texts (textUpTo d m) (textUpTo d n)
  skipComment : ∀ {i m n}, K.machines i m n →
    K.Agree i Eq (skipWordsTo BuiltIn.endsComment m) (skipWordsTo BuiltIn.endsComment n)
  newCell : ∀ {i m n}, K.machines i m n → ∀ x,
    K.Agree i Eq (newCell (.number x) m) (newCell (.number x) n)
  addVariable : ∀ {i m n t u}, K.machines i m n → K.Tokens t u → ∀ c,
    K.Agree i (fun _ _ => True) (addWord (variableHeading t) (.variable c) m)
      (addWord (variableHeading u) (.variable c) n)
  addConstant : ∀ {i m n t u v w}, K.machines i m n → K.Tokens t u → K.values v w →
    K.Agree i (fun _ _ => True) (addWord (constantHeading t) (.constant v) m)
      (addWord (constantHeading u) (.constant w) n)
  startCompiling : ∀ {i m n t u}, K.machines i m n → K.Tokens t u →
    K.Agree i Eq (startCompiling t.text t.location m) (startCompiling u.text u.location n)

/-- The words that read on in the text and close no definition keep machines alike. -/
theorem Collecting.run (hK : K.Collecting) {b : BuiltIn} (hb : b.isImmediate = true)
    (hend : b ≠ .endDefinition) (h : K.machines i m n) : K.Agree i Eq (b.run m) (b.run n) := by
  cases b with
  | defineVariable =>
    refine (hK.nextWordRequired h).bind fun t u m n htu h => ?_
    refine (hK.newCell h _).bind fun c _ m n hc h => ?_
    subst hc
    exact (hK.addVariable h htu c).discard
  | defineConstant =>
    refine (hK.require h 1).bind fun _ _ m n _ h => ?_
    refine (hK.nextWordRequired h).bind fun t u m n htu h => ?_
    exact (hK.pop h).bind fun v w m n hv h => (hK.addConstant h htu hv).discard
  | textLiteral =>
    exact (hK.textUpTo h '"' (by decide)).bind fun s t m n hst h => hK.push h (hK.text hst)
  | blockComment => exact hK.skipComment h
  | parenComment => exact (hK.textUpTo h ')' (by decide)).discard
  | lineComment => exact (hK.textUpTo h '\n' (by decide)).discard
  | startDefinition =>
    exact (hK.nextWordRequired h).bind fun t u m n htu h => hK.startCompiling h htu
  | endDefinition => exact absurd rfl hend
  | _ => cases hb

/-- What the words that read on in the text can see, and what they change. -/
structure Reading (K : Likeness ι) : Prop extends Ordinary K, Collecting K where
  listing : ∀ {i m n}, K.machines i m n → K.texts m.dictionary.listing n.dictionary.listing
  stopCompiling : ∀ {i m n}, K.machines i m n →
    K.Agree i (fun _ _ => True) (stopCompiling m) (stopCompiling n)

/-- Every built-in word keeps machines alike. -/
theorem Reading.run (hK : K.Reading) (b : BuiltIn) (h : K.machines i m n) :
    K.Agree i Eq (b.run m) (b.run n) := by
  cases hb : b.isImmediate with
  | false => exact hK.toOrdinary.run hb h fun _ => hK.listing h
  | true =>
    by_cases hend : b = .endDefinition
    · subst hend
      exact (hK.stopCompiling h).discard
    · exact hK.toCollecting.run hb hend h

/-- What it takes to do what a word of a text asks for, beyond what the words need. -/
structure Running (K : Likeness ι) (host : Host) : Prop extends Reading K, Executable K host where
  mode : ∀ {i m n}, K.machines i m n → m.mode = n.mode
  moveTo : ∀ {i m n l k}, K.machines i m n → K.places l k →
    K.machines i { m with location := some l } { n with location := some k }
  resolve : ∀ {i m n t u}, K.machines i m n → K.Tokens t u →
    K.Agree i K.Resolutions (resolve t.text m) (resolve u.text n)
  noteNumber : ∀ {i m n s t}, K.machines i m n → K.texts s t →
    K.machines i (m.note (.pushedNumber m.mode s)) (n.note (.pushedNumber n.mode t))
  collect : ∀ {i m n v w}, K.machines i m n → m.mode = .compiling → K.words v w →
    K.machines i { m.note (.compiledReference v.name) with buffer := .word v :: m.buffer }
      { n.note (.compiledReference w.name) with buffer := .word w :: n.buffer }

namespace Running

/-- Alike words of a text keep machines alike. -/
theorem runToken (hK : K.Running host) {t u : Token} (h : K.machines i m n) (htu : K.Tokens t u) :
    K.Agree i Eq (Machine.runToken host t m) (Machine.runToken host u n) := by
  unfold Machine.runToken
  rw [modify_bind, modify_bind]
  refine (hK.resolve (hK.moveTo h htu.2) htu).bind fun a b m n hab h => ?_
  cases hab with
  | number x =>
    show K.Agree i Eq (push (.number x) (m.note _)) (push (.number x) (n.note _))
    exact hK.push (hK.noteNumber h htu.1) (hK.number x)
  | @word v w himm hw =>
    show K.Agree i Eq ((if v.isImmediate ∨ m.mode = .interpreting then _ else _ : Act Unit) m)
      ((if w.isImmediate ∨ n.mode = .interpreting then _ else _ : Act Unit) n)
    rw [himm, hK.mode h]
    by_cases hexec : w.isImmediate ∨ n.mode = .interpreting
    · rw [if_pos hexec, if_pos hexec]
      exact hK.execute hw h htu.2
    · rw [if_neg hexec, if_neg hexec]
      have hmode := (hK.mode h).trans (collected_of_not_executed hexec).2
      exact .ok rfl (hK.collect h hmode hw)

/-- Runs over as many words of texts that end together keep machines alike. -/
theorem runWords (hK : K.Running host) (hexhausted : K.halts .exhausted .exhausted)
    (hnext : ∀ {m n}, K.machines i m n →
      K.Agree i (Option.Rel K.Tokens) (nextWord m) (nextWord n))
    (k : Nat) (h : K.machines i m n) :
    K.Agree i Eq (Machine.runWords host k m) (Machine.runWords host k n) := by
  induction k generalizing m n with
  | zero => exact .error hexhausted h
  | succ k ih =>
    refine (hnext h).bind fun t u m n htu h => ?_
    cases htu with
    | none => exact .ok rfl h
    | some htu => exact (hK.runToken h htu).bind fun _ _ m n _ h => ih h

end Running
end Likeness
end WordStack
