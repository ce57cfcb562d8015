import Mathlib.Data.List.Forall2
import WordStack.Proofs.Progress
import WordStack.Proofs.Relocation
import WordStack.Proofs.Uppercase

/-
  Texts but for the case of ASCII letters, and machines but for the case of the letters in the
  texts that they hold: text values, descriptions, the name of the definition in progress, the
  output, the reports and what is left to read. Names of words are kept in upper case, so they are
  left as they are. The blanks, the delimiters and the newlines are no letters, so texts that are
  the same but for case are read word by word at the same places (`Reader.folded_nextWord` and
  the others).
-/
namespace WordStack

namespace Text

/-- The text with every ASCII letter in upper case. -/
def fold (s : String) : String := String.ofList (s.toList.map Char.toUpper)

/-- The characters of the two texts are pairwise equal but for the case of ASCII letters. -/
def SameButCase (s t : String) : Prop :=
  List.Forall₂ (fun c d => c.toUpper = d.toUpper) s.toList t.toList

end Text

def Token.folded (t : Token) : Token := ⟨Text.fold t.text, t.location⟩

def Reader.folded (r : Reader) : Reader := ⟨r.rest.map Char.toUpper, r.location⟩

def Pending.folded (p : Pending) : Pending := ⟨Text.fold p.name, p.location⟩

def Heading.folded (h : Heading) : Heading :=
  { h with name := Text.fold h.name, description := Text.fold h.description }

def Event.folded : Event → Event
  | .pushedNumber mode token => .pushedNumber mode (Text.fold token)
  | .startedCompiling location name => .startedCompiling location (Text.fold name)
  | .finishedCompiling length name => .finishedCompiling length (Text.fold name)
  | .compiledReference name => .compiledReference name
  | .executedWord name => .executedWord name
  | .redefinedBuiltIn name => .redefinedBuiltIn name
  | .definedWord name => .definedWord name

mutual

/-- The value with the letters of its texts in upper case. -/
def Value.folded : Value → Value
  | .number x => .number x
  | .text s => .text (Text.fold s)
  | .cell i => .cell i
  | .word w => .word w.folded
termination_by structural v => v

def Definition.folded : Definition → Definition
  | .builtIn b => .builtIn b
  | .host body => .host body
  | .variable cell => .variable cell
  | .constant v => .constant v.folded
  | .compiled body => .compiled (Value.foldedAll body)
termination_by structural d => d

/-- The word with the letters of its description, and of the texts in it, in upper case. -/
def Word.folded : Word → Word
  | ⟨serial, name, isImmediate, location, description, signature, definition⟩ =>
    ⟨serial, name, isImmediate, location, Text.fold description, signature, definition.folded⟩
termination_by structural w => w

def Value.foldedAll : List Value → List Value
  | [] => []
  | v :: vs => v.folded :: Value.foldedAll vs
termination_by structural vs => vs

end

def Dictionary.folded (d : Dictionary) : Dictionary := d.map Word.folded

def Cells.folded (c : Cells) : Cells := c.map Value.folded

/-! ## Characters -/

namespace Text

theorem toUpper_of_not_ascii {c : Char} (hc : ¬ c.toNat < 0x80) : c.toUpper = c := by
  refine dif_neg fun hlower => hc ?_
  have hz : c.toNat ≤ 'z'.val.toNat := UInt32.le_iff_toNat_le.mp hlower.2
  exact Nat.lt_of_le_of_lt hz (by decide)

/-- A character is changed only if it is among the first 128, which can be tried out. -/
theorem toUpper_cases {p : Char → Prop} (hascii : ∀ n < 0x80, p (Char.ofNat n))
    (hrest : ∀ c, c.toUpper = c → p c) (c : Char) : p c := by
  by_cases hc : c.toNat < 0x80
  · have hp := hascii c.toNat hc
    rwa [Char.ofNat_toNat] at hp
  · exact hrest c (toUpper_of_not_ascii hc)

theorem toUpper_toUpper (c : Char) : c.toUpper.toUpper = c.toUpper := by
  by_cases hc : c.toNat < 0x80
  · exact (toUpper_of_ascii hc).2
  · rw [toUpper_of_not_ascii hc, toUpper_of_not_ascii hc]

theorem isBlank_toUpper (c : Char) : isBlank c.toUpper = isBlank c :=
  toUpper_cases (p := fun c => isBlank c.toUpper = isBlank c) (by decide +kernel)
    (fun c hc => by rw [hc]) c

theorem isInk_toUpper (c : Char) : isInk c.toUpper = isInk c := congrArg not (isBlank_toUpper c)

/-- Only a capital letter is what another character becomes in upper case. -/
theorem toUpper_eq_iff {d : Char} (hd : d.isUpper = false ∧ d.toUpper = d) (c : Char) :
    c.toUpper = d ↔ c = d := by
  have hcapital : ∀ c : Char, c.toUpper = c ∨ c.toUpper.isUpper = true :=
    toUpper_cases (by decide +kernel) fun c hc => .inl hc
  constructor
  · intro hc
    rcases hcapital c with hsame | hletter
    · exact hsame.symm.trans hc
    · rw [hc, hd.1] at hletter
      cases hletter
  · intro hc
    rw [hc, hd.2]

theorem beq_toUpper {d : Char} (hd : d.isUpper = false ∧ d.toUpper = d) (c : Char) :
    (d == c.toUpper) = (d == c) := by
  rw [Bool.eq_iff_iff, beq_iff_eq, beq_iff_eq, eq_comm, toUpper_eq_iff hd, eq_comm]

theorem bne_delimiter_toUpper {d : Char} (hd : d ∈ ['"', ')', '\n']) (c : Char) :
    (c.toUpper != d) = (c != d) := by
  have hplain : d.isUpper = false ∧ d.toUpper = d := by
    simp only [List.mem_cons, List.not_mem_nil, or_false] at hd
    rcases hd with rfl | rfl | rfl <;> decide
  rw [Bool.eq_iff_iff, bne_iff_ne, bne_iff_ne, Ne, toUpper_eq_iff hplain]

theorem uppercaseChar_toUpper (c : Char) : uppercaseChar c.toUpper = uppercaseChar c := by
  by_cases hc : c.toNat < 0x80
  · obtain ⟨hlt, htwice⟩ := toUpper_of_ascii hc
    rw [uppercaseChar_of_ascii hlt, uppercaseChar_of_ascii hc, htwice]
  · rw [toUpper_of_not_ascii hc]

theorem quoteChar_toUpper (c : Char) :
    (quoteChar c.toUpper).map Char.toUpper = (quoteChar c).map Char.toUpper :=
  toUpper_cases
    (p := fun c => (quoteChar c.toUpper).map Char.toUpper = (quoteChar c).map Char.toUpper)
    (by decide +kernel) (fun c hc => by rw [hc]) c

/-! ## Texts -/

variable {s t : String}

theorem toList_fold (s : String) : (fold s).toList = s.toList.map Char.toUpper := by
  simp [fold]

theorem fold_append (s t : String) : fold (s ++ t) = fold s ++ fold t := by
  simp [fold]

theorem fold_fold (s : String) : fold (fold s) = fold s := by
  rw [← String.toList_inj, toList_fold, toList_fold, List.map_map]
  exact List.map_congr_left fun c _ => toUpper_toUpper c

theorem fold_eq_iff : fold s = fold t ↔ SameButCase s t := by
  rw [← String.toList_inj, toList_fold, toList_fold]
  exact (forall₂_iff_map Char.toUpper).symm

theorem uppercase_fold (s : String) : uppercase (fold s) = uppercase s := by
  rw [← String.toList_inj, toList_uppercase, toList_uppercase, toList_fold, List.flatMap_map]
  exact List.flatMap_congr fun c _ => uppercaseChar_toUpper c

theorem uppercase_of_fold (h : fold s = fold t) : uppercase s = uppercase t := by
  rw [← uppercase_fold, h, uppercase_fold]

theorem SameButCase.append {s' t' : String} (h : SameButCase s t) (h' : SameButCase s' t') :
    SameButCase (s ++ s') (t ++ t') := by
  rw [← fold_eq_iff] at h h' ⊢
  rw [fold_append, fold_append, h, h']

theorem fold_quote (s : String) : fold (quote (fold s)) = fold (quote s) := by
  unfold quote
  rw [fold_append, fold_append, fold_append, fold_append]
  refine congrArg (fold "\"" ++ · ++ fold "\"") ?_
  rw [toList_fold, ← String.toList_inj, toList_fold, toList_fold, String.toList_ofList,
    String.toList_ofList, List.flatMap_map, List.map_flatMap, List.map_flatMap]
  exact List.flatMap_congr fun c _ => quoteChar_toUpper c

theorem fold_eq_empty_iff : fold s = "" ↔ s = "" := by
  rw [← String.toList_inj, ← String.toList_inj, toList_fold]
  exact List.map_eq_nil_iff

theorem fold_join (l : List String) : fold (String.join l) = String.join (l.map fold) := by
  have hfrom : ∀ start,
      fold (l.foldl (· ++ ·) start) = (l.map fold).foldl (· ++ ·) (fold start) := by
    induction l with
    | nil => exact fun _ => rfl
    | cons s l ih =>
      intro start
      rw [List.foldl_cons, ih, fold_append]
      rfl
  exact hfrom ""

/-- A comment ends at the same word. -/
theorem endsComment_fold (s : String) :
    BuiltIn.endsComment (fold s) = BuiltIn.endsComment s := by
  have hstar := beq_toUpper (d := '*') (by decide)
  have hslash := beq_toUpper (d := '/') (by decide)
  unfold BuiltIn.endsComment List.isSuffixOf
  rw [toList_fold, ← List.map_reverse]
  generalize s.toList.reverse = cs
  match cs with
  | [] => rfl
  | [c] => simp [List.isPrefixOf, hslash]
  | c :: d :: cs => simp [List.isPrefixOf, hslash, hstar]

end Text

/-! ## Places and readers -/

theorem Location.advance_toUpper (l : Location) (c : Char) : l.advance c.toUpper = l.advance c := by
  unfold advance
  have hnewline := Text.toUpper_eq_iff (d := '\n') (by decide) c
  by_cases hc : c = '\n'
  · rw [if_pos hc, if_pos (hnewline.mpr hc)]
  · rw [if_neg hc, if_neg fun h => hc (hnewline.mp h)]

theorem Location.after_toUpper (l : Location) (cs : List Char) :
    l.after (cs.map Char.toUpper) = l.after cs := by
  induction cs generalizing l with
  | nil => rfl
  | cons c cs ih => rw [List.map_cons, after_cons, after_cons, advance_toUpper, ih]

namespace Reader

variable {r : Reader} {p : Char → Bool}

theorem takeWhile_toUpper (hp : ∀ c : Char, p c.toUpper = p c) (cs : List Char) :
    (cs.map Char.toUpper).takeWhile p = (cs.takeWhile p).map Char.toUpper := by
  have hpred : p ∘ Char.toUpper = p := funext hp
  rw [List.takeWhile_map, hpred]

theorem all_toUpper (cs : List Char) : (cs.map Char.toUpper).all isBlank = cs.all isBlank := by
  rw [List.all_map]
  exact congrArg cs.all (funext Text.isBlank_toUpper)

theorem folded_skip (r : Reader) (cs : List Char) :
    r.folded.skip (cs.map Char.toUpper) = (r.skip cs).folded := by
  unfold skip folded
  rw [List.length_map, List.map_drop, Location.after_toUpper]

theorem folded_skipBlanks (r : Reader) : r.folded.skipBlanks = r.skipBlanks.folded := by
  unfold skipBlanks
  rw [show r.folded.rest = r.rest.map Char.toUpper from rfl,
    takeWhile_toUpper Text.isBlank_toUpper]
  exact r.folded_skip _

theorem folded_pastWord (r : Reader) : r.folded.pastWord = r.pastWord.folded := by
  unfold pastWord
  rw [folded_skipBlanks]
  dsimp only
  rw [show r.skipBlanks.folded.rest = r.skipBlanks.rest.map Char.toUpper from rfl,
    takeWhile_toUpper Text.isInk_toUpper, folded_skip]
  generalize r.skipBlanks.skip (r.skipBlanks.rest.takeWhile isInk) = s
  rw [show s.folded.rest = s.rest.map Char.toUpper from rfl, ← List.map_take]
  exact s.folded_skip _

/-- The next word, and what is left after it. -/
theorem folded_nextWord (r : Reader) :
    r.folded.nextWord = (r.nextWord.1.map Token.folded, r.nextWord.2.folded) := by
  have hblank : r.folded.rest.all isBlank = r.rest.all isBlank := all_toUpper r.rest
  by_cases hb : r.rest.all isBlank
  · rw [nextWord_of_blank hb, nextWord_of_blank (hblank.trans hb), folded_skipBlanks]
    rfl
  · rw [nextWord_of_not_blank hb, nextWord_of_not_blank (hblank ▸ hb), folded_skipBlanks,
      folded_pastWord]
    rw [show r.skipBlanks.folded.rest = r.skipBlanks.rest.map Char.toUpper from rfl,
      takeWhile_toUpper Text.isInk_toUpper]
    refine Prod.ext (congrArg some ?_) rfl
    unfold Token.folded Text.fold
    rw [String.toList_ofList]
    rfl

theorem folded_textUpTo {d : Char} (hd : d ∈ ['"', ')', '\n']) (r : Reader) :
    r.folded.textUpTo d = ((r.textUpTo d).1.map Text.fold, (r.textUpTo d).2.folded) := by
  unfold textUpTo
  dsimp only
  rw [show r.folded.rest = r.rest.map Char.toUpper from rfl,
    takeWhile_toUpper (p := (· != d)) (Text.bne_delimiter_toUpper hd), folded_skip]
  generalize r.skip (r.rest.takeWhile (· != d)) = s
  rw [show s.folded.rest = s.rest.map Char.toUpper from rfl]
  cases hrest : s.rest with
  | nil => rfl
  | cons c cs =>
    refine Prod.ext (congrArg Except.ok ?_) (s.folded_skip [c])
    unfold Text.fold
    rw [String.toList_ofList]

theorem folded_skipWordsTo {q : String → Bool} (hq : ∀ s, q (Text.fold s) = q s) (r : Reader) :
    r.folded.skipWordsTo q = ((r.skipWordsTo q).1, (r.skipWordsTo q).2.folded) := by
  induction hlen : r.rest.length using Nat.strong_induction_on generalizing r with
  | _ len ih =>
    rw [skipWordsTo_eq, skipWordsTo_eq q r, folded_nextWord]
    rcases hw : r.nextWord with ⟨_ | t, s⟩
    · rfl
    · dsimp only [Option.map_some, Token.folded]
      rw [hq]
      by_cases hqt : q t.text
      · rw [if_pos hqt, if_pos hqt]
      · rw [if_neg hqt, if_neg hqt]
        exact ih _ (hlen ▸ length_rest_of_nextWord hw) s rfl

/-! What is read from a text does not depend on the case of its letters. -/

variable {s : Reader}

theorem nextWord_of_folded (h : r.folded = s.folded) :
    r.nextWord.1.map Token.folded = s.nextWord.1.map Token.folded ∧
      r.nextWord.2.folded = s.nextWord.2.folded :=
  Prod.mk.inj (by rw [← folded_nextWord, h, folded_nextWord])

theorem textUpTo_of_folded {d : Char} (hd : d ∈ ['"', ')', '\n']) (h : r.folded = s.folded) :
    (r.textUpTo d).1.map Text.fold = (s.textUpTo d).1.map Text.fold ∧
      (r.textUpTo d).2.folded = (s.textUpTo d).2.folded :=
  Prod.mk.inj (by rw [← folded_textUpTo hd, h, folded_textUpTo hd])

theorem skipWordsTo_of_folded {q : String → Bool} (hq : ∀ s, q (Text.fold s) = q s)
    (h : r.folded = s.folded) :
    (r.skipWordsTo q).1 = (s.skipWordsTo q).1 ∧
      (r.skipWordsTo q).2.folded = (s.skipWordsTo q).2.folded :=
  Prod.mk.inj (by rw [← folded_skipWordsTo hq, h, folded_skipWordsTo hq])

end Reader

/-! ## Values and words -/

theorem Value.foldedAll_eq_map (vs : List Value) : Value.foldedAll vs = vs.map Value.folded := by
  induction vs with
  | nil => rfl
  | cons v vs ih => rw [Value.foldedAll, ih, List.map_cons]

theorem Definition.folded_compiled (body : List Value) :
    (compiled body).folded = .compiled (body.map Value.folded) :=
  congrArg compiled (Value.foldedAll_eq_map body)

theorem Word.folded_name (w : Word) : w.folded.name = w.name := by cases w; rfl

theorem Word.folded_isImmediate (w : Word) : w.folded.isImmediate = w.isImmediate := by
  cases w; rfl

theorem Word.folded_description (w : Word) :
    w.folded.description = Text.fold w.description := by cases w; rfl

theorem Word.folded_definition (w : Word) : w.folded.definition = w.definition.folded := by
  cases w; rfl

theorem Definition.folded_kind (d : Definition) : d.folded.kind = d.kind := by
  cases d <;> rfl

theorem Definition.folded_isNative (d : Definition) : d.folded.isNative = d.isNative := by
  cases d <;> rfl

theorem Value.fold_render (v : Value) : Text.fold v.folded.render = Text.fold v.render := by
  cases v with
  | text s => exact Text.fold_fold s
  | word w => exact congrArg Text.fold w.folded_name
  | number | cell => rfl

theorem Value.fold_dump (v : Value) : Text.fold v.folded.dump = Text.fold v.dump := by
  cases v with
  | text s => exact Text.fold_quote s
  | word w => exact congrArg Text.fold w.folded_name
  | number | cell => rfl

/-! ## Cells and the dictionary -/

namespace Cells

variable {c d : Cells}

theorem get?_of_folded (h : c.folded = d.folded) (i : Nat) :
    (c.get? i).map Value.folded = (d.get? i).map Value.folded := by
  rw [← get?_map, ← get?_map]
  exact congrArg (get? · i) h

theorem set?_of_folded (h : c.folded = d.folded) (i : Nat) {v w : Value}
    (hvw : v.folded = w.folded) : (c.set? i v).map folded = (d.set? i w).map folded := by
  show (c.set? i v).map (map Value.folded) = (d.set? i w).map (map Value.folded)
  rw [← set?_map, ← set?_map, hvw]
  exact congrArg (set? · i w.folded) h

theorem allocate_of_folded (h : c.folded = d.folded) (v : Value) :
    (c.allocate v).1 = (d.allocate v).1 ∧ (c.allocate v).2.folded = (d.allocate v).2.folded := by
  refine Prod.mk.inj ?_
  show ((c.allocate v).1, (c.allocate v).2.map Value.folded) =
    ((d.allocate v).1, (d.allocate v).2.map Value.folded)
  rw [← allocate_map, ← allocate_map]
  exact congrArg (allocate · v.folded) h

end Cells

theorem Dictionary.folded_insert (d : Dictionary) (w : Word) :
    (d.insert w).folded = d.folded.insert w.folded :=
  insert_map w.folded_name d

/-- The listing of the words shows their descriptions, and says nothing else of their texts. -/
theorem Dictionary.fold_listing (d : Dictionary) :
    Text.fold d.folded.listing = Text.fold d.listing := by
  have hkeys : d.folded.keys = d.keys := by simp [keys, folded, map]
  have hsize : d.folded.size = d.size := by simp [size, folded, map]
  have hline : ∀ width key (w : Word),
      Text.fold (entryLine width key w.folded) = Text.fold (entryLine width key w) := by
    intro width key w
    unfold entryLine
    rw [w.folded_definition, Definition.folded_kind, w.folded_isImmediate, w.folded_description]
    simp only [Text.fold_append, Text.fold_fold]
  have hlines : ∀ f : String × Word → String,
      (∀ key w, Text.fold (f (key, w.folded)) = Text.fold (f (key, w))) →
      (d.folded.entries.map f).map Text.fold = (d.entries.map f).map Text.fold := by
    intro f hf
    simp [folded, map, hf]
  unfold listing nameWidth
  rw [hkeys, hsize, Text.fold_append, Text.fold_append, Text.fold_append, Text.fold_append,
    Text.fold_join, Text.fold_join, hlines]
  exact fun key w => hline _ key w

end WordStack
