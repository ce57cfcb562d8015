import WordStack.Proofs.LikeRuns
import WordStack.Proofs.ReadOn
import WordStack.Proofs.Relocation

/-
  A run is indifferent to the places of what it reads and finds: where every place is moved
  beforehand, the run does the same, and what it leaves is moved in the same way
  (`run_relocated`). The moving has to go along with the reading of a text (`Moves`).
-/
namespace WordStack

open Machine

/-- Moving a place and reading on from it can be exchanged for the places with `p`, which are the
places in the texts being read. -/
structure Moves (f : Location → Location) (p : Location → Prop) : Prop where
  unspecified : f .unspecified = .unspecified
  advance : ∀ {l}, p l → ∀ c, p (l.advance c) ∧ f (l.advance c) = (f l).advance c

variable {f : Location → Location} {p : Location → Prop} {m n : Machine}

namespace Moves

theorem after (hf : Moves f p) {l : Location} (hl : p l) (cs : List Char) :
    p (l.after cs) ∧ f (l.after cs) = (f l).after cs := by
  induction cs generalizing l with
  | nil => exact ⟨hl, rfl⟩
  | cons c cs ih =>
    obtain ⟨hc, heq⟩ := hf.advance hl c
    rw [Location.after_cons, Location.after_cons, ← heq]
    exact ih hc

theorem of_advances (hf : Moves f p) {r s : Reader} (h : r.Advances s) (hr : p r.location) :
    p s.location := by
  obtain ⟨cs, -, hl⟩ := h
  rw [hl]
  exact (hf.after hr cs).1

theorem skip (hf : Moves f p) {r : Reader} (hr : p r.location) (cs : List Char) :
    (r.relocate f).skip cs = (r.skip cs).relocate f :=
  congrArg (Reader.mk _) (hf.after hr cs).2.symm

theorem skipBlanks (hf : Moves f p) {r : Reader} (hr : p r.location) :
    (r.relocate f).skipBlanks = r.skipBlanks.relocate f :=
  hf.skip hr _

theorem pastWord (hf : Moves f p) {r : Reader} (hr : p r.location) :
    (r.relocate f).pastWord = r.pastWord.relocate f := by
  have hstart := hf.of_advances r.advances_skipBlanks hr
  have hword := (hf.after hstart (r.skipBlanks.rest.takeWhile isInk)).1
  unfold Reader.pastWord
  rw [hf.skipBlanks hr]
  dsimp only
  rw [show (r.skipBlanks.relocate f).rest = r.skipBlanks.rest from rfl, hf.skip hstart]
  exact hf.skip hword _

/-- The next word, and what is left after it. -/
theorem nextWord (hf : Moves f p) {r : Reader} (hr : p r.location) :
    (r.relocate f).nextWord =
      (r.nextWord.1.map fun t => ⟨t.text, f t.location⟩, r.nextWord.2.relocate f) := by
  by_cases hb : r.rest.all isBlank
  · rw [Reader.nextWord_of_blank hb, Reader.nextWord_of_blank (r := r.relocate f) hb,
      hf.skipBlanks hr]
    rfl
  · rw [Reader.nextWord_of_not_blank hb, Reader.nextWord_of_not_blank (r := r.relocate f) hb,
      hf.skipBlanks hr, hf.pastWord hr]
    rfl

theorem textUpTo (hf : Moves f p) {r : Reader} (hr : p r.location) (d : Char) :
    (r.relocate f).textUpTo d =
      ((r.textUpTo d).1.mapError (Error.relocate f), (r.textUpTo d).2.relocate f) := by
  have htext := (hf.after hr (r.rest.takeWhile (· != d))).1
  unfold Reader.textUpTo
  dsimp only
  rw [show (r.relocate f).rest = r.rest from rfl, hf.skip hr]
  generalize hs : r.skip (r.rest.takeWhile (· != d)) = s
  rw [show (s.relocate f).rest = s.rest from rfl]
  cases hrest : s.rest with
  | nil => rfl
  | cons c cs =>
    refine congrArg (Prod.mk _) (hf.skip ?_ [c])
    rw [← hs]
    exact htext

theorem skipWordsTo (hf : Moves f p) {r : Reader} (hr : p r.location) (q : String → Bool) :
    (r.relocate f).skipWordsTo q = ((r.skipWordsTo q).1, (r.skipWordsTo q).2.relocate f) := by
  induction hlen : r.rest.length using Nat.strong_induction_on generalizing r with
  | _ len ih =>
    rw [Reader.skipWordsTo_eq, Reader.skipWordsTo_eq q r, hf.nextWord hr]
    rcases hw : r.nextWord with ⟨_ | t, s⟩
    · rfl
    · have hs := r.advances_nextWord
      rw [hw] at hs
      dsimp only [Option.map_some]
      by_cases hq : q t.text
      · rw [if_pos hq, if_pos hq]
      · rw [if_neg hq, if_neg hq]
        exact ih _ (hlen ▸ Reader.length_rest_of_nextWord hw) (hf.of_advances hs hr) rfl

end Moves

/-! ## Machines -/

/-- The second machine is the first with its places moved. -/
def Likeness.moved (f : Location → Location) (p : Location → Prop) : Likeness Unit where
  machines _ m n := n = m.relocate f ∧ ∀ r ∈ m.readers, p r.location
  values v w := w = v.relocate f
  texts := Eq
  places l k := k = f l
  words v w := w = v.relocate f
  halts h k := k = h.relocate f
  excused := unexcused

theorem forall₂_map {α β : Type} (g : α → β) (xs : List α) :
    List.Forall₂ (fun x y => y = g x) xs (xs.map g) := by
  rw [List.forall₂_map_right_iff, List.forall₂_same]
  exact fun _ _ => rfl

theorem eq_map_of_forall₂ {α β : Type} {g : α → β} {xs : List α} {ys : List β}
    (h : List.Forall₂ (fun x y => y = g x) xs ys) : ys = xs.map g := by
  induction h with
  | nil => rfl
  | cons hxy _ ih => rw [hxy, ih, List.map_cons]

theorem Cells.relocate_get? (c : Cells) (i : Nat) :
    (c.relocate f).get? i = (c.get? i).map (Value.relocate f) :=
  c.get?_map (Value.relocate f) i

theorem Cells.relocate_set? (c : Cells) (i : Nat) (v : Value) :
    (c.relocate f).set? i (v.relocate f) = (c.set? i v).map (Cells.relocate f) :=
  c.set?_map (Value.relocate f) i v

theorem shape_relocate (v : Value) : Likeness.SameShape v (v.relocate f) := by
  cases v with
  | number x => exact .number x
  | text s => exact .text s s
  | cell i => exact .cell i
  | word w => exact .word w _

theorem ordinary_moved : (Likeness.moved f p).Ordinary where
  fail h c := by rw [h.1]; rfl
  shape {v w} h := by
    obtain rfl : w = v.relocate f := h
    exact shape_relocate v
  number _ := rfl
  cell _ := rfl
  active h := by
    rw [h.1, relocate_active]
    exact forall₂_map _ _
  withActive {i m n vs ws} h hvs := by
    obtain rfl := eq_map_of_forall₂ hvs
    refine ⟨by rw [h.1, relocate_withActive], ?_⟩
    have hreaders : (m.withActive vs).readers = m.readers := by
      unfold withActive
      cases m.mode <;> rfl
    rw [hreaders]
    exact h.2
  readCell {i m n} h c := by
    have hget : n.cells.get? c = (m.cells.get? c).map (Value.relocate f) := by
      rw [h.1]; exact m.cells.relocate_get? c
    cases hc : m.cells.get? c with
    | none =>
      rw [hc] at hget
      rw [readCell_of_none hc, readCell_of_none hget, h.1]
      exact .error rfl ⟨rfl, h.2⟩
    | some v =>
      rw [hc] at hget
      rw [readCell_of_some hc, readCell_of_some hget]
      exact .ok rfl h
  writeCell {i m n v w} h c hv := by
    obtain rfl : w = v.relocate f := hv
    have hset : n.cells.set? c (v.relocate f) = (m.cells.set? c v).map (Cells.relocate f) := by
      rw [h.1]; exact m.cells.relocate_set? c v
    cases hc : m.cells.set? c v with
    | none =>
      rw [hc] at hset
      rw [writeCell_of_none hc, writeCell_of_none hset, h.1]
      exact .error rfl ⟨rfl, h.2⟩
    | some cells =>
      rw [hc] at hset
      rw [writeCell_of_some hc, writeCell_of_some hset, h.1]
      exact .ok rfl ⟨rfl, h.2⟩
  write {i m n s t} h hs := by
    obtain rfl : s = t := hs
    rw [write_apply, write_apply, h.1]
    show (Likeness.moved f p).Agree i Eq _ (if m.outputFails ∧ s ≠ "" then _ else _)
    split
    · exact .error rfl ⟨rfl, h.2⟩
    · exact .ok rfl ⟨rfl, h.2⟩
  line {v w} h := by
    obtain rfl : w = v.relocate f := h
    rw [v.relocate_render]
    rfl
  stackLine {i m n} h := by
    rw [h.1]
    show BuiltIn.stackLine m = BuiltIn.stackLine (m.relocate f)
    unfold BuiltIn.stackLine
    rw [relocate_active]
    simp [Function.comp_def]

theorem readers_relocate {r : Reader} {rs : List Reader} (h : m.readers = r :: rs) :
    (m.relocate f).readers = r.relocate f :: rs.map (Reader.relocate f) :=
  congrArg (List.map _) h

theorem readers_relocate_of_nil (h : m.readers = []) : (m.relocate f).readers = [] :=
  congrArg (List.map _) h

/-- Reading on keeps the places of the readers among those with `p`. -/
theorem Moves.read (hf : Moves f p) {r s : Reader} {rs : List Reader} (hm : m.readers = r :: rs)
    (hplaces : ∀ q ∈ m.readers, p q.location) (h : r.Advances s) :
    p r.location ∧ ∀ q ∈ s :: rs, p q.location := by
  rw [hm, List.forall_mem_cons] at hplaces
  exact ⟨hplaces.1, List.forall_mem_cons.mpr ⟨hf.of_advances h hplaces.1, hplaces.2⟩⟩

theorem nextWord_moved (hf : Moves f p) {i : Unit} (h : (Likeness.moved f p).machines i m n) :
    (Likeness.moved f p).Agree i (Option.Rel (Likeness.moved f p).Tokens)
      (nextWord m) (nextWord n) := by
  obtain ⟨rfl, hplaces⟩ := h
  cases hm : m.readers with
  | nil =>
    rw [nextWord_of_nil hm, nextWord_of_nil (readers_relocate_of_nil hm)]
    exact .ok .none ⟨rfl, hplaces⟩
  | cons r rs =>
    obtain ⟨hr, hrs⟩ := hf.read hm hplaces r.advances_nextWord
    rw [nextWord_of_cons hm, nextWord_of_cons (readers_relocate hm), hf.nextWord hr]
    refine .ok ?_ ⟨rfl, hrs⟩
    cases r.nextWord.1 with
    | none => exact .none
    | some t => exact .some ⟨rfl, rfl⟩

theorem addWord_moved {i : Unit} (h : (Likeness.moved f p).machines i m n) (heading : Heading)
    (d : Definition) :
    (Likeness.moved f p).Agree i (fun _ _ => True) (addWord heading d m)
      (addWord (heading.relocate f) (d.relocate f) n) := by
  obtain ⟨rfl, hplaces⟩ := h
  exact .ok trivial ⟨congrArg Prod.snd (relocate_withWord f m heading d), hplaces⟩

theorem reading_moved (hf : Moves f p) : (Likeness.moved f p).Reading where
  toOrdinary := ordinary_moved
  listing h := by
    rw [h.1]
    exact (Dictionary.relocate_listing f _).symm
  text h := congrArg Value.text h.symm
  nextWordRequired h := ordinary_moved.nextWordRequired (nextWord_moved hf h)
  textUpTo {i m n} h d _ := by
    obtain ⟨rfl, hplaces⟩ := h
    cases hm : m.readers with
    | nil =>
      rw [textUpTo_of_nil hm, textUpTo_of_nil (readers_relocate_of_nil hm)]
      exact ordinary_moved.failed ⟨rfl, hplaces⟩ _
    | cons r rs =>
      obtain ⟨hr, hrs⟩ := hf.read hm hplaces (r.advances_textUpTo d)
      rw [textUpTo_of_cons hm, textUpTo_of_cons (readers_relocate hm), hf.textUpTo hr]
      rcases htext : r.textUpTo d with ⟨e | text, s⟩ <;> rw [htext] at hrs
      · exact .error rfl ⟨rfl, hrs⟩
      · exact .ok rfl ⟨rfl, hrs⟩
  skipComment {i m n} h := by
    obtain ⟨rfl, hplaces⟩ := h
    cases hm : m.readers with
    | nil =>
      rw [skipWordsTo_of_nil hm, skipWordsTo_of_nil (readers_relocate_of_nil hm)]
      exact ordinary_moved.failed ⟨rfl, hplaces⟩ _
    | cons r rs =>
      obtain ⟨hr, hrs⟩ := hf.read hm hplaces (r.advances_skipWordsTo BuiltIn.endsComment)
      rw [skipWordsTo_of_cons hm, skipWordsTo_of_cons (readers_relocate hm), hf.skipWordsTo hr]
      dsimp only
      split
      · exact .ok rfl ⟨rfl, hrs⟩
      · exact ordinary_moved.failed ⟨rfl, hrs⟩ _
  newCell {i m n} h x := by
    obtain ⟨rfl, hplaces⟩ := h
    have hpush : (m.cells.contents.map (Value.relocate f)).push (.number x) =
        (m.cells.contents.push (.number x)).map (Value.relocate f) := by
      rw [Array.map_push]; rfl
    refine .ok Array.size_map.symm ⟨?_, hplaces⟩
    exact congrArg (fun contents => { m.relocate f with cells := ⟨contents⟩ }) hpush
  addVariable {i m n t u} h htu c := by
    have hheading : variableHeading u = (variableHeading t).relocate f := by
      unfold variableHeading
      rw [← htu.1, show u.location = f t.location from htu.2]
      rfl
    rw [hheading]
    exact addWord_moved h _ _
  addConstant {i m n t u v w} h htu hv := by
    have hheading : constantHeading u = (constantHeading t).relocate f := by
      unfold constantHeading
      rw [← htu.1, show u.location = f t.location from htu.2]
      rfl
    rw [hheading, show w = v.relocate f from hv]
    exact addWord_moved h _ _
  startCompiling {i m n t u} h htu := by
    obtain ⟨rfl, hplaces⟩ := h
    rw [← htu.1, show u.location = f t.location from htu.2]
    exact .ok rfl ⟨rfl, hplaces⟩
  stopCompiling {i m n} h := by
    obtain ⟨rfl, hplaces⟩ := h
    cases hp : m.pending with
    | none =>
      have hn : (m.relocate f).pending = none := congrArg (Option.map _) hp
      rw [stopCompiling_of_none hp, stopCompiling_of_none hn]
      exact ordinary_moved.failed ⟨rfl, hplaces⟩ _
    | some q =>
      have hn : (m.relocate f).pending = some (q.relocate f) := congrArg (Option.map _) hp
      have hbody : Definition.compiled (m.relocate f).buffer.reverse =
          (Definition.compiled m.buffer.reverse).relocate f := by
        rw [Definition.relocate_compiled, List.map_reverse]
        rfl
      rw [stopCompiling_of_some hp, stopCompiling_of_some hn, hbody]
      have hlength : (m.relocate f).buffer.length = m.buffer.length := List.length_map _
      have hclosed : (Likeness.moved f p).machines i
          { m.note (.finishedCompiling m.buffer.length q.name) with
            pending := none, mode := .interpreting, buffer := [] }
          { (m.relocate f).note (.finishedCompiling m.buffer.length q.name) with
            pending := none, mode := .interpreting, buffer := [] } := ⟨rfl, hplaces⟩
      rw [hlength]
      exact addWord_moved hclosed _ _

/-- Without host words, a run keeps machines alike but for their places. -/
theorem running_moved (hf : Moves f p) : (Likeness.moved f p).Running .absent where
  toReading := reading_moved hf
  word {v w} h := by
    obtain rfl : w = v.relocate f := h
    refine ⟨(v.relocate_name f).symm, ?_⟩
    rw [v.relocate_definition]
    cases v.definition with
    | builtIn b => exact .builtIn fun i m n h => (reading_moved hf).run b h
    | host body => exact .host fun i m n h => .error rfl h
    | «variable» c => exact .variable
    | constant v => exact .constant rfl
    | compiled body =>
      rw [Definition.relocate_compiled]
      refine .compiled ?_
      rw [List.forall₂_map_right_iff, List.forall₂_same]
      intro v _
      cases v with
      | word w => exact .word rfl
      | number | text | cell => exact .literal nofun nofun rfl
  here {i m n} h := by
    obtain ⟨rfl, -⟩ := h
    show (m.location.map f).getD .unspecified = f (m.location.getD .unspecified)
    cases m.location with
    | none => exact hf.unspecified.symm
    | some l => rfl
  call {i m n l k} h hl name := by
    obtain rfl : k = f l := hl
    obtain ⟨rfl, hplaces⟩ := h
    refine ⟨i, ⟨rfl, hplaces⟩, fun m n h => ?_⟩
    obtain ⟨rfl, hplaces⟩ := h
    refine ⟨?_, hplaces⟩
    unfold leaveCall relocate
    simp only [List.map_tail]
  mode h := by rw [h.1]; rfl
  moveTo {i m n l k} h hl := by
    obtain rfl : k = f l := hl
    obtain ⟨rfl, hplaces⟩ := h
    exact ⟨rfl, hplaces⟩
  resolve {i m n t u} h htu := by
    obtain ⟨rfl, hplaces⟩ := h
    obtain ⟨htext, -⟩ := htu
    rw [← htext]
    have hget := m.dictionary.relocate_get? f (Text.uppercase t.text)
    cases hw : m.dictionary.get? (Text.uppercase t.text) with
    | some w =>
      rw [hw] at hget
      rw [resolve_of_word hw, resolve_of_word (m := m.relocate f) hget]
      exact .ok (.word (w.relocate_isImmediate f).symm rfl) ⟨rfl, hplaces⟩
    | none =>
      rw [hw] at hget
      cases hx : Number.parse? (Text.uppercase t.text) with
      | some x =>
        rw [resolve_of_number hw hx, resolve_of_number (m := m.relocate f) hget hx]
        exact .ok (.number x) ⟨rfl, hplaces⟩
      | none =>
        rw [resolve_of_unknown hw hx, resolve_of_unknown (m := m.relocate f) hget hx]
        exact ordinary_moved.failed ⟨rfl, hplaces⟩ _
  noteNumber {i m n s t} h hst := by
    obtain rfl : s = t := hst
    obtain ⟨rfl, hplaces⟩ := h
    exact ⟨rfl, hplaces⟩
  collect {i m n v w} h _ hw := by
    obtain rfl : w = v.relocate f := hw
    obtain ⟨rfl, hplaces⟩ := h
    rw [v.relocate_name]
    exact ⟨rfl, hplaces⟩

namespace Machine

theorem eq_relocated {α : Type} {i : Unit} {x y : EStateM.Result Halt Machine α}
    (h : (Likeness.moved f p).Agree i Eq x y) : y = relocated f x := by
  cases h with
  | ok answer left => rw [answer, left.1]; rfl
  | error halt left => rw [left.1, show _ = Halt.relocate f _ from halt]; rfl
  | excused excuse => exact excuse.elim

theorem readOn_relocated (hf : Moves f p) (h : ∀ r ∈ m.readers, p r.location) :
    readOn .absent (m.relocate f) = relocated f (readOn .absent m) := by
  have hunread : (m.relocate f).unread = m.unread := by
    unfold unread relocate
    cases m.readers <;> rfl
  rw [readOn_apply, readOn_apply, hunread]
  refine eq_relocated (p := p) (i := ()) ((running_moved hf).runWords rfl ?_ _ ⟨rfl, h⟩)
  exact fun h => nextWord_moved hf h

theorem relocate_dropReader (m : Machine) :
    dropReader (m.relocate f) = (dropReader m).relocate f := by
  unfold dropReader relocate
  rw [List.map_tail]

/-- Running on from a place, with every place moved beforehand, is to run on and to move them
afterwards. -/
theorem withReader_relocated (hf : Moves f p) (h : ∀ r ∈ m.readers, p r.location) {r : Reader}
    (hr : p r.location) :
    withReader (r.relocate f) (readOn .absent) (m.relocate f) =
      relocated f (withReader r (readOn .absent) m) := by
  have hread := readOn_relocated (m := pushReader r m) hf (List.forall_mem_cons.mpr ⟨hr, h⟩)
  unfold withReader between
  rw [show pushReader (r.relocate f) (m.relocate f) = (pushReader r m).relocate f from rfl, hread]
  cases readOn .absent (pushReader r m) with
  | ok a n => exact congrArg (EStateM.Result.ok a) (relocate_dropReader n)
  | error halt n => exact congrArg (EStateM.Result.error _) (relocate_dropReader n)

end Machine
end WordStack
