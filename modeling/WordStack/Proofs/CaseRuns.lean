import WordStack.Proofs.LetterCase
import WordStack.Proofs.LikeRuns
import WordStack.Proofs.Scripted

/-
  Runs of texts that differ in the case of letters only. `Machine.SameButCase` is a relation of
  machines that every operation keeps: words are looked up and added under their names in upper
  case, nothing else compares two texts, and what is written depends on a text letter by letter.
  So the runs read as many words at the same places, and stop together for the same cause
  (`insensitive_to_case`).
-/
namespace WordStack

open Machine

/-- The machines are the same but for the case of the letters in the texts that they hold: text
values, the descriptions of words, the name of the definition in progress, what is left to read, the
output and the reports. All the rest is equal: the depths of the stacks, the numbers, the references
to cells, the keys of the dictionary, and of every word its name, kind and place. -/
structure Machine.SameButCase (m n : Machine) : Prop where
  data : m.data.map Value.folded = n.data.map Value.folded
  buffer : m.buffer.map Value.folded = n.buffer.map Value.folded
  mode : m.mode = n.mode
  pending : m.pending.map Pending.folded = n.pending.map Pending.folded
  location : m.location = n.location
  calls : m.calls = n.calls
  dictionary : m.dictionary.folded = n.dictionary.folded
  cells : m.cells.folded = n.cells.folded
  readers : m.readers.map Reader.folded = n.readers.map Reader.folded
  output : Text.SameButCase m.output n.output
  outputFails : m.outputFails = n.outputFails
  nextSerial : m.nextSerial = n.nextSerial
  events : m.events.map Event.folded = n.events.map Event.folded
  replies : m.replies = n.replies

namespace Machine

variable {m n : Machine}

/-! ## What machines that are the same but for case have in common -/

theorem fold_stackLine (h : m.active.map Value.folded = n.active.map Value.folded) :
    Text.fold (BuiltIn.stackLine m) = Text.fold (BuiltIn.stackLine n) := by
  have hvalues : ∀ vs : List Value, (vs.reverse.map fun v => " " ++ v.dump).map Text.fold =
      (vs.map Value.folded).reverse.map fun v => Text.fold (" " ++ v.dump) := by
    intro vs
    simp [Text.fold_append, Value.fold_dump]
  have hdepth : m.active.length = n.active.length := by simpa using congrArg List.length h
  unfold BuiltIn.stackLine
  simp only [Text.fold_append, Text.fold_join]
  rw [hvalues, hvalues, h, hdepth]

/-- The reports of an addition give names of words, and depend on which words are native. -/
theorem additionEvents_folded (replaced : Option Word) (w : Word) :
    additionEvents (replaced.map Word.folded) w.folded = additionEvents replaced w := by
  unfold additionEvents
  rw [w.folded_definition, Definition.folded_isNative, w.folded_name]
  cases replaced with
  | none => rfl
  | some old =>
    rw [Option.map_some]
    dsimp only
    rw [old.folded_definition, Definition.folded_isNative]

namespace SameButCase

theorem refl (m : Machine) : m.SameButCase m :=
  ⟨rfl, rfl, rfl, rfl, rfl, rfl, rfl, rfl, rfl, Text.fold_eq_iff.mp rfl, rfl, rfl, rfl, rfl⟩

theorem active (h : m.SameButCase n) :
    m.active.map Value.folded = n.active.map Value.folded := by
  unfold Machine.active
  rw [h.mode]
  cases n.mode with
  | interpreting => exact h.data
  | compiling => exact h.buffer

theorem withActive (h : m.SameButCase n) {vs ws : List Value}
    (hvs : vs.map Value.folded = ws.map Value.folded) :
    (m.withActive vs).SameButCase (n.withActive ws) := by
  cases hmode : n.mode with
  | interpreting =>
    rw [withActive_of_interpreting (h.mode.trans hmode), withActive_of_interpreting hmode]
    exact { h with data := hvs }
  | compiling =>
    rw [withActive_of_compiling (h.mode.trans hmode), withActive_of_compiling hmode]
    exact { h with buffer := hvs }

theorem note (h : m.SameButCase n) {d e : Event} (hde : d.folded = e.folded) :
    (m.note d).SameButCase (n.note e) :=
  { h with events := congrArg₂ List.cons hde h.events }

/-- Both machines read a text that is the same but for case, or neither reads any. -/
theorem first (h : m.SameButCase n) : m.readers = [] ∧ n.readers = [] ∨ ∃ r rs s ss,
    m.readers = r :: rs ∧ n.readers = s :: ss ∧ r.folded = s.folded ∧
      rs.map Reader.folded = ss.map Reader.folded := by
  have hreaders := h.readers
  rcases hm : m.readers with _ | ⟨r, rs⟩ <;> rcases hn : n.readers with _ | ⟨s, ss⟩ <;>
    rw [hm, hn] at hreaders
  · exact .inl ⟨rfl, rfl⟩
  · cases hreaders
  · cases hreaders
  · obtain ⟨hfirst, hrest⟩ := List.cons.inj hreaders
    exact .inr ⟨r, rs, s, ss, rfl, rfl, hfirst, hrest⟩

theorem read (h : m.SameButCase n) {r s : Reader} {rs ss : List Reader} (hr : r.folded = s.folded)
    (hrs : rs.map Reader.folded = ss.map Reader.folded) :
    SameButCase { m with readers := r :: rs } { n with readers := s :: ss } :=
  { h with readers := congrArg₂ List.cons hr hrs }

theorem get? (h : m.SameButCase n) (name : String) :
    Option.Rel (fun v w => v.folded = w.folded) (m.dictionary.get? name) (n.dictionary.get? name) :=
  Dictionary.get?_of_map h.dictionary name

theorem listing (h : m.SameButCase n) :
    Text.SameButCase m.dictionary.listing n.dictionary.listing := by
  rw [← Text.fold_eq_iff, ← Dictionary.fold_listing, h.dictionary, Dictionary.fold_listing]

/-- A word is added under its name in upper case. -/
theorem withWord (h : m.SameButCase n) {g k : Heading} {d e : Definition}
    (hgk : g.folded = k.folded) (hde : d.folded = e.folded) :
    (m.withWord g d).2.SameButCase (n.withWord k e).2 := by
  obtain ⟨hname, himmediate, hlocation, hdescription, hsignature⟩ := Heading.mk.inj hgk
  have hkey : Text.uppercase g.name = Text.uppercase k.name := Text.uppercase_of_fold hname
  have hword : (m.withWord g d).1.folded = (n.withWord k e).1.folded := by
    unfold Machine.withWord Word.folded
    rw [h.nextSerial, hkey, himmediate, hlocation, hdescription, hsignature, hde]
  have hevents : additionEvents (m.dictionary.get? (Text.uppercase g.name)) (m.withWord g d).1 =
      additionEvents (n.dictionary.get? (Text.uppercase k.name)) (n.withWord k e).1 := by
    rw [← additionEvents_folded, ← additionEvents_folded (n.dictionary.get? _), hword, hkey,
      ← Dictionary.get?_map, ← Dictionary.get?_map]
    exact congrArg (fun d : Dictionary => additionEvents (d.get? _) _) h.dictionary
  refine { h with
    dictionary := ?_, nextSerial := congrArg (· + 1) h.nextSerial, events := ?_ }
  · show ((m.dictionary.insert (m.withWord g d).1).folded : Dictionary) =
      (n.dictionary.insert (n.withWord k e).1).folded
    rw [Dictionary.folded_insert, Dictionary.folded_insert, h.dictionary, hword]
  · show (additionEvents _ (m.withWord g d).1 ++ m.events).map Event.folded =
      (additionEvents _ (n.withWord k e).1 ++ n.events).map Event.folded
    rw [List.map_append, List.map_append, hevents, h.events]

end SameButCase
end Machine

/-! ## The words -/

/-- Machines, values and words are the same but for case; the places and the halts are equal. -/
def Likeness.butCase : Likeness Unit where
  machines _ := Machine.SameButCase
  values v w := v.folded = w.folded
  texts := Text.SameButCase
  places := Eq
  words v w := v.folded = w.folded
  halts := Eq
  excused := unexcused

variable {m n : Machine}

theorem shape_of_folded {v w : Value} (h : v.folded = w.folded) : Likeness.SameShape v w := by
  cases v with
  | number x =>
    cases w with
    | number y =>
      obtain rfl : x = y := Value.number.inj h
      exact .number x
    | text | cell | word => cases h
  | text s =>
    cases w with
    | text t => exact .text s t
    | number | cell | word => cases h
  | cell i =>
    cases w with
    | cell j =>
      obtain rfl : i = j := Value.cell.inj h
      exact .cell i
    | number | text | word => cases h
  | word v =>
    cases w with
    | word w => exact .word v w
    | number | text | cell => cases h

theorem stacking_butCase : Likeness.butCase.Stacking where
  fail h c := by
    show Halt.failed _ = .failed _
    rw [h.location, h.calls]
  active h := (forall₂_iff_map Value.folded).mpr h.active
  withActive h hvs := h.withActive ((forall₂_iff_map Value.folded).mp hvs)

theorem ordinary_butCase : Likeness.butCase.Ordinary where
  toStacking := stacking_butCase
  shape := shape_of_folded
  number _ := rfl
  cell _ := rfl
  readCell {i m n} h c := by
    have hget := Cells.get?_of_folded h.cells c
    rcases hm : m.cells.get? c with _ | v <;> rcases hn : n.cells.get? c with _ | w <;>
      rw [hm, hn] at hget
    · rw [readCell_of_none hm, readCell_of_none hn]
      exact stacking_butCase.failed h _
    · cases hget
    · cases hget
    · rw [readCell_of_some hm, readCell_of_some hn]
      exact .ok (Option.some.inj hget) h
  writeCell {i m n v w} h c hv := by
    have hset := Cells.set?_of_folded h.cells c hv
    rcases hm : m.cells.set? c v with _ | cs <;> rcases hn : n.cells.set? c w with _ | ds <;>
      rw [hm, hn] at hset
    · rw [writeCell_of_none hm, writeCell_of_none hn]
      exact stacking_butCase.failed h _
    · cases hset
    · cases hset
    · rw [writeCell_of_some hm, writeCell_of_some hn]
      exact .ok rfl { h with cells := Option.some.inj hset }
  write {i m n s t} h hst := by
    have hempty : s = "" ↔ t = "" := by
      rw [← Text.fold_eq_empty_iff, Text.fold_eq_iff.mpr hst, Text.fold_eq_empty_iff]
    have hfails : m.outputFails ∧ s ≠ "" ↔ n.outputFails ∧ t ≠ "" := by
      rw [h.outputFails]
      exact and_congr_right fun _ => not_congr hempty
    rw [write_apply, write_apply]
    by_cases hn : n.outputFails ∧ t ≠ ""
    · rw [if_pos (hfails.mpr hn), if_pos hn]
      exact .error rfl h
    · rw [if_neg fun hm => hn (hfails.mp hm), if_neg hn]
      exact .ok rfl { h with output := h.output.append hst }
  line {v w} h := by
    have hvw : v.folded = w.folded := h
    show Text.SameButCase _ _
    rw [← Text.fold_eq_iff, Text.fold_append, Text.fold_append, ← v.fold_render, hvw,
      w.fold_render]
  stackLine h := Text.fold_eq_iff.mp (fold_stackLine h.active)

theorem nextWord_butCase {i : Unit} (h : Likeness.butCase.machines i m n) :
    Likeness.butCase.Agree i (Option.Rel Likeness.butCase.Tokens) (nextWord m) (nextWord n) := by
  rcases h.first with ⟨hm, hn⟩ | ⟨r, rs, s, ss, hm, hn, hr, hrs⟩
  · rw [nextWord_of_nil hm, nextWord_of_nil hn]
    exact .ok .none h
  · obtain ⟨htoken, hrest⟩ := Reader.nextWord_of_folded hr
    rw [nextWord_of_cons hm, nextWord_of_cons hn]
    refine .ok ?_ (h.read hrest hrs)
    have htokens := rel_of_map htoken
    generalize r.nextWord.1 = t at htokens
    generalize s.nextWord.1 = u at htokens
    cases htokens with
    | none => exact .none
    | some htu =>
      obtain ⟨htext, hplace⟩ := Token.mk.inj htu
      exact .some ⟨Text.fold_eq_iff.mp htext, hplace⟩

theorem addWord_butCase {i : Unit} (h : Likeness.butCase.machines i m n) {g k : Heading}
    {d e : Definition} (hgk : g.folded = k.folded) (hde : d.folded = e.folded) :
    Likeness.butCase.Agree i (fun _ _ => True) (addWord g d m) (addWord k e n) :=
  .ok trivial (h.withWord hgk hde)

theorem reading_butCase : Likeness.butCase.Reading where
  toOrdinary := ordinary_butCase
  listing h := h.listing
  text h := congrArg Value.text (Text.fold_eq_iff.mpr h)
  nextWordRequired h := stacking_butCase.nextWordRequired (nextWord_butCase h)
  textUpTo {i m n} h d hd := by
    rcases h.first with ⟨hm, hn⟩ | ⟨r, rs, s, ss, hm, hn, hr, hrs⟩
    · rw [textUpTo_of_nil hm, textUpTo_of_nil hn]
      exact stacking_butCase.failed h _
    · obtain ⟨htext, hrest⟩ := Reader.textUpTo_of_folded hd hr
      rw [textUpTo_of_cons hm, textUpTo_of_cons hn]
      rcases hrd : r.textUpTo d with ⟨e | a, r'⟩ <;> rcases hsd : s.textUpTo d with ⟨f | b, s'⟩ <;>
        rw [hrd, hsd] at htext hrest
      · obtain rfl : e = f := Except.error.inj htext
        refine .error ?_ (h.read hrest hrs)
        show Halt.failed _ = .failed _
        rw [h.calls]
      · cases htext
      · cases htext
      · exact .ok (Text.fold_eq_iff.mp (Except.ok.inj htext)) (h.read hrest hrs)
  skipComment {i m n} h := by
    rcases h.first with ⟨hm, hn⟩ | ⟨r, rs, s, ss, hm, hn, hr, hrs⟩
    · rw [skipWordsTo_of_nil hm, skipWordsTo_of_nil hn]
      exact stacking_butCase.failed h _
    · obtain ⟨hfound, hrest⟩ := Reader.skipWordsTo_of_folded Text.endsComment_fold hr
      rw [skipWordsTo_of_cons hm, skipWordsTo_of_cons hn, hfound]
      split
      · exact .ok rfl (h.read hrest hrs)
      · exact stacking_butCase.failed (h.read hrest hrs) _
  newCell {i m n} h x := by
    obtain ⟨hindex, hcells⟩ := Cells.allocate_of_folded h.cells (.number x)
    exact .ok hindex { h with cells := hcells }
  addVariable {i m n t u} h htu c := by
    refine addWord_butCase h ?_ rfl
    unfold Heading.folded variableHeading
    dsimp only
    rw [Text.fold_append, Text.fold_append, Text.fold_append, Text.fold_append,
      Text.fold_eq_iff.mpr htu.1, show t.location = u.location from htu.2]
  addConstant {i m n t u v w} h htu hv := by
    refine addWord_butCase h ?_ (congrArg Definition.constant hv)
    unfold Heading.folded constantHeading
    dsimp only
    rw [Text.fold_append, Text.fold_append, Text.fold_append, Text.fold_append,
      Text.fold_eq_iff.mpr htu.1, show t.location = u.location from htu.2]
  startCompiling {i m n t u} h htu := by
    have hname : Text.fold t.text = Text.fold u.text := Text.fold_eq_iff.mpr htu.1
    have hevent : (Event.startedCompiling u.location t.text).folded =
        (Event.startedCompiling u.location u.text).folded :=
      congrArg (Event.startedCompiling u.location) hname
    rw [show t.location = u.location from htu.2]
    refine .ok rfl { h.note hevent with pending := ?_, mode := rfl }
    exact congrArg (fun name => some (Pending.mk name u.location)) hname
  stopCompiling {i m n} h := by
    have hpending := h.pending
    rcases hm : m.pending with _ | p <;> rcases hn : n.pending with _ | q <;>
      rw [hm, hn] at hpending
    · rw [stopCompiling_of_none hm, stopCompiling_of_none hn]
      exact stacking_butCase.failed h _
    · cases hpending
    · cases hpending
    · obtain ⟨hname, hplace⟩ := Pending.mk.inj (Option.some.inj hpending)
      have hlength : m.buffer.length = n.buffer.length := by
        simpa using congrArg List.length h.buffer
      have hevent : (Event.finishedCompiling n.buffer.length p.name).folded =
          (Event.finishedCompiling n.buffer.length q.name).folded :=
        congrArg (Event.finishedCompiling n.buffer.length) hname
      rw [stopCompiling_of_some hm, stopCompiling_of_some hn, hlength, hplace]
      refine addWord_butCase (i := i) ?_ (congrArg (Heading.mk · _ _ _ _) hname) ?_
      · exact { h.note hevent with pending := rfl, mode := rfl, buffer := rfl }
      · rw [Definition.folded_compiled, Definition.folded_compiled, List.map_reverse,
          List.map_reverse, h.buffer]

/-! ## Runs -/

theorem items_of_folded {v w : Value} (h : v.folded = w.folded) :
    Likeness.butCase.Items v w := by
  cases shape_of_folded h with
  | word v w => exact .word (Value.word.inj h)
  | number | text | cell => exact .literal nofun nofun h

theorem definitions_of_folded {d e : Definition} (h : d.folded = e.folded) :
    Likeness.butCase.Definitions .absent d e := by
  cases d with
  | builtIn b =>
    cases e with
    | builtIn c =>
      obtain rfl : b = c := Definition.builtIn.inj h
      exact .builtIn fun i m n h => reading_butCase.run b h
    | host | «variable» | constant | compiled => cases h
  | host body =>
    cases e with
    | host other =>
      obtain rfl : body = other := Definition.host.inj h
      exact .host fun i m n h => .error rfl h
    | builtIn | «variable» | constant | compiled => cases h
  | «variable» c =>
    cases e with
    | «variable» d =>
      obtain rfl : c = d := Definition.variable.inj h
      exact .variable
    | builtIn | host | constant | compiled => cases h
  | constant v =>
    cases e with
    | constant w => exact .constant (Definition.constant.inj h)
    | builtIn | host | «variable» | compiled => cases h
  | compiled vs =>
    cases e with
    | compiled ws =>
      rw [Definition.folded_compiled, Definition.folded_compiled] at h
      have hbodies := (forall₂_iff_map Value.folded).mpr (Definition.compiled.inj h)
      exact .compiled (hbodies.imp fun _ _ => items_of_folded)
    | builtIn | host | «variable» | constant => cases h

/-- Without host words, what a word of a text asks for keeps machines the same but for case. -/
theorem running_butCase : Likeness.butCase.Running .absent where
  toReading := reading_butCase
  word {v w} h := by
    have hvw : v.folded = w.folded := h
    refine ⟨by rw [← v.folded_name, hvw, w.folded_name], definitions_of_folded ?_⟩
    rw [← v.folded_definition, hvw, w.folded_definition]
  here {i m n} h := by
    show m.location.getD .unspecified = n.location.getD .unspecified
    rw [h.location]
  call {i m n l k} h hl name := by
    obtain rfl : l = k := hl
    have hentered : (m.note (.executedWord name)).SameButCase (n.note (.executedWord name)) :=
      h.note rfl
    refine ⟨i, { hentered with calls := congrArg (List.cons _) h.calls }, fun m n h => ?_⟩
    exact { h with calls := congrArg List.tail h.calls }
  mode h := h.mode
  moveTo h hl := { h with location := congrArg some hl }
  resolve {i m n t u} h htu := by
    -- Words and numbers alike are told by the upper case, which the two spellings share.
    have hname : Text.uppercase t.text = Text.uppercase u.text :=
      Text.uppercase_of_fold (Text.fold_eq_iff.mpr htu.1)
    have hget := h.get? (Text.uppercase u.text)
    rcases hm : m.dictionary.get? (Text.uppercase u.text) with _ | v <;>
      rcases hn : n.dictionary.get? (Text.uppercase u.text) with _ | w <;> rw [hm, hn] at hget
    · rw [← hname] at hm
      cases hx : Number.parse? (Text.uppercase u.text) with
      | some x =>
        rw [resolve_of_number hm (hname ▸ hx), resolve_of_number hn hx]
        exact .ok (.number x) h
      | none =>
        rw [resolve_of_unknown hm (hname ▸ hx), resolve_of_unknown hn hx, hname]
        exact stacking_butCase.failed h _
    · cases hget
    · cases hget
    · rw [← hname] at hm
      rw [resolve_of_word hm, resolve_of_word hn]
      cases hget with
      | some hvw =>
        have himmediate : v.isImmediate = w.isImmediate := by
          rw [← v.folded_isImmediate, hvw, w.folded_isImmediate]
        exact .ok (.word himmediate hvw) h
  noteNumber {i m n s t} h hst := by
    rw [h.mode]
    exact h.note (congrArg (Event.pushedNumber n.mode) (Text.fold_eq_iff.mpr hst))
  collect {i m n v w} h _ hvw := by
    have hname : v.name = w.name := by
      rw [← v.folded_name, show v.folded = w.folded from hvw, w.folded_name]
    have hnoted : (m.note (.compiledReference w.name)).SameButCase
        (n.note (.compiledReference w.name)) := h.note rfl
    rw [hname]
    exact { hnoted with buffer := congrArg₂ List.cons (congrArg Value.word hvw) h.buffer }

namespace Machine

variable {a b : String}

theorem SameButCase.pushReader (h : m.SameButCase n) (hab : Text.SameButCase a b) (path : String) :
    SameButCase (pushReader (.ofText path a) m) (pushReader (.ofText path b) n) := by
  have hreader : (Reader.ofText path a).folded = (Reader.ofText path b).folded :=
    congrArg (Reader.mk · (.start path)) ((forall₂_iff_map Char.toUpper).mp hab)
  exact { h with readers := congrArg₂ List.cons hreader h.readers }

theorem SameButCase.dropReader (h : m.SameButCase n) :
    (dropReader m).SameButCase (dropReader n) := by
  refine { h with readers := ?_ }
  show m.readers.tail.map Reader.folded = n.readers.tail.map Reader.folded
  rw [List.map_tail, List.map_tail, h.readers]

/-- Reading as many words of texts that are the same but for case. -/
theorem SameButCase.runWords (h : m.SameButCase n) (k : Nat) :
    Likeness.butCase.Agree () Eq (runWords .absent k m) (runWords .absent k n) :=
  running_butCase.runWords rfl nextWord_butCase k h

theorem SameButCase.run (h : m.SameButCase n) (hab : Text.SameButCase a b) (path : String) :
    Likeness.butCase.Agree () Eq (run .absent path a m) (run .absent path b n) := by
  have hlength : (Reader.ofText path a).rest.length = (Reader.ofText path b).rest.length :=
    hab.length_eq
  unfold Machine.run
  rw [hlength]
  exact Likeness.agree_between ((h.pushReader hab path).runWords _) fun _ _ h => h.dropReader

/-- Two runs end alike: both succeed, or both stop for the same cause, at the same place and
during the same calls; and the machines that they leave are the same but for case. -/
inductive EndAlike : EStateM.Result Halt Machine Unit → EStateM.Result Halt Machine Unit → Prop
  | ok {m n : Machine} : m.SameButCase n → EndAlike (.ok () m) (.ok () n)
  | error {halt : Halt} {m n : Machine} :
    m.SameButCase n → EndAlike (.error halt m) (.error halt n)

theorem endAlike_of_agree {x y : EStateM.Result Halt Machine Unit}
    (h : Likeness.butCase.Agree () Eq x y) : EndAlike x y := by
  cases h with
  | ok _ left => exact .ok left
  | error halt left =>
    obtain rfl := halt
    exact .error left
  | excused excuse => exact excuse.elim

/-- However texts were run before, running one of two texts that are the same but for case is
running the other: both succeed, or both fail with the same error, and what they leave is the same
but for case. The two runs go in lockstep, so this holds after any number of words already. -/
theorem insensitive_to_case (h : Scripted m) (depth : Nat) (path : String)
    (hab : Text.SameButCase a b) :
    (∀ k, EndAlike (runWords (.nested depth) k (pushReader (.ofText path a) m))
      (runWords (.nested depth) k (pushReader (.ofText path b) m))) ∧
    ((∃ n n', run (.nested depth) path a m = .ok () n ∧ run (.nested depth) path b m = .ok () n' ∧
        n.SameButCase n') ∨
      ∃ e n n', run (.nested depth) path a m = .error (.failed e) n ∧
        run (.nested depth) path b m = .error (.failed e) n' ∧ n.SameButCase n') := by
  obtain ⟨made, hsound⟩ := h.sound
  constructor
  · intro k
    have hreads : ∀ text, Sound made (pushReader (.ofText path text) m) :=
      fun text => hsound.withContext _ _ _ _
    rw [(hreads a).runWords_eq _ .absent, (hreads b).runWords_eq _ .absent]
    exact endAlike_of_agree (((SameButCase.refl m).pushReader hab path).runWords k)
  · have hends := sound_run depth hsound path a
    have halike : EndAlike (run (.nested depth) path a m) (run (.nested depth) path b m) := by
      rw [run_of_scripted h _ .absent path a, run_of_scripted h _ .absent path b]
      exact endAlike_of_agree ((SameButCase.refl m).run hab path)
    generalize run (.nested depth) path a m = x at hends halike
    generalize run (.nested depth) path b m = y at halike
    cases halike with
    | ok hleft => exact .inl ⟨_, _, rfl, rfl, hleft⟩
    | error hleft =>
      cases hends with
      | failed => exact .inr ⟨_, _, _, rfl, rfl, hleft⟩

/-- A definition, a comment and a text in mixed case, and then a word that is not known. -/
theorem insensitive_to_case_mixed :
    Text.SameButCase ": Tw dup ; ( Ab ) \" aB\" tW . oops" ": tW DUP ; ( aB ) \" Ab\" Tw . OOPS" ∧
    ∃ e n n', e.cause = .unknownWord "OOPS" ∧
      run (.nested 0) "s" ": Tw dup ; ( Ab ) \" aB\" tW . oops" .fresh = .error (.failed e) n ∧
      run (.nested 0) "s" ": tW DUP ; ( aB ) \" Ab\" Tw . OOPS" .fresh = .error (.failed e) n' ∧
      n.SameButCase n' := by
  have hab : Text.SameButCase ": Tw dup ; ( Ab ) \" aB\" tW . oops"
      ": tW DUP ; ( aB ) \" Ab\" Tw . OOPS" := Text.fold_eq_iff.mp (by decide +kernel)
  have hstops : halted? (run (.nested 0) "s" ": Tw dup ; ( Ab ) \" aB\" tW . oops" .fresh) =
      some (.failed ⟨some ⟨"s", 1, 30⟩, .unknownWord "OOPS", some []⟩) := by
    decide +kernel
  obtain ⟨-, ⟨n, n', ha, -, -⟩ | ⟨e, n, n', ha, hb, hleft⟩⟩ :=
    insensitive_to_case .fresh 0 "s" hab
  · have hnone := congrArg halted? ha
    rw [hstops] at hnone
    cases hnone
  · have hcause := congrArg halted? ha
    rw [hstops] at hcause
    obtain rfl := Halt.failed.inj (Option.some.inj hcause)
    exact ⟨hab, _, n, n', rfl, ha, hb, hleft⟩

end Machine
end WordStack
