import WordStack.Proofs.Bodies
import WordStack.Proofs.Places

/-
  What a reader takes from a text, and where it says it was. Words, raw texts and single characters
  may be read in any order: the reader goes on from where it was, and its place is that of the
  characters read so far (`advances_moves`).
  `reads_exactly`: a word is the first run of characters that are not blank, a raw text ends before
  the first delimiter, and neither loses a character. `places_exact`: a word stands at the place of
  its first character, and no other word of the text stands there.
-/
namespace WordStack

/-- The longest runs of characters that are not blank, in order. -/
def runs (cs : List Char) : List (List Char) := (cs.splitOnP isBlank).filter (· ≠ [])

/-- The text begins with these blanks and then this word; the rest follows the word and the blank
that ends it, unless the text ends with the word. -/
structure HasFirstWord (cs blanks word rest : List Char) : Prop where
  blank : ∀ c ∈ blanks, isBlank c
  isWord : IsWord word
  split : (cs = blanks ++ word ∧ rest = []) ∨ ∃ c, isBlank c ∧ cs = blanks ++ (word ++ c :: rest)

/-- The word that begins at this place of a text, if a character stands there. -/
def Location.wordIn (l : Location) (text : String) : Option String :=
  ((List.range text.toList.length).find? fun i => ofOffset l.path text.toList i = l).map fun i =>
    String.ofList ((text.toList.drop i).takeWhile isInk)

/-! ## The first word of a text -/

namespace HasFirstWord

variable {cs blanks word rest : List Char}

theorem length_lt (h : HasFirstWord cs blanks word rest) :
    blanks.length + rest.length < cs.length := by
  have hpos := List.length_pos_iff.mpr h.isWord.ne_nil
  rcases h.split with ⟨rfl, rfl⟩ | ⟨c, -, rfl⟩
  · simp only [List.length_append, List.length_nil]
    omega
  · simp only [List.length_append, List.length_cons]
    omega

/-- After the blanks stands the word, and it is as long as it can be. -/
theorem exists_tail (h : HasFirstWord cs blanks word rest) :
    ∃ tail, cs = blanks ++ tail ∧ tail.takeWhile isInk = word := by
  rcases h.split with ⟨hcs, -⟩ | ⟨c, hc, hcs⟩
  · exact ⟨word, hcs, List.takeWhile_eq_self_iff.mpr h.isWord.ink⟩
  · have hink : ¬ isInk c := by simp [isInk, hc]
    refine ⟨word ++ c :: rest, hcs, ?_⟩
    rw [List.takeWhile_append_of_pos h.isWord.ink, List.takeWhile_cons_of_neg hink,
      List.append_nil]

end HasFirstWord

theorem runs_blanks {blanks : List Char} (h : ∀ c ∈ blanks, isBlank c) (cs : List Char) :
    runs (blanks ++ cs) = runs cs := by
  induction blanks with
  | nil => rfl
  | cons c blanks ih =>
    have hc : isBlank c := h c List.mem_cons_self
    have hrest := ih fun x hx => h x (List.mem_cons_of_mem _ hx)
    unfold runs at hrest ⊢
    rw [List.cons_append, List.splitOnP_cons_eq_if_modifyHead, if_pos hc]
    simpa using hrest

theorem runs_of_blank {cs : List Char} (h : cs.all isBlank) : runs cs = [] := by
  have hblanks := runs_blanks (List.all_eq_true.mp h) []
  rw [List.append_nil] at hblanks
  exact hblanks

theorem runs_of_firstWord {cs blanks word rest : List Char}
    (h : HasFirstWord cs blanks word rest) : runs cs = word :: runs rest := by
  have hne := h.isWord.ne_nil
  have hink : ∀ c ∈ word, isBlank c = false := fun c hc => by
    simpa [isInk] using h.isWord.ink c hc
  rcases h.split with ⟨rfl, rfl⟩ | ⟨c, hc, rfl⟩ <;> rw [runs_blanks h.blank] <;> unfold runs
  · rw [List.splitOnP_eq_singleton hink]
    simp [hne]
  · rw [List.splitOnP_append_cons_of_forall_mem hink c hc]
    simp [hne]

namespace Reader

/-- What can be done with a reader. -/
inductive Move where
  | peek
  | next
  | word
  | textUpTo (delimiter : Char)

def move (r : Reader) : Move → Reader
  | .peek => r
  | .next => r.next?.2
  | .word => r.nextWord.2
  | .textUpTo d => (r.textUpTo d).2

def moves (r : Reader) (ms : List Move) : Reader := ms.foldl move r

variable {r s : Reader} {t : Token} {d : Char} {path text : String}

theorem firstWord_of_nextWord (h : r.nextWord = (some t, s)) :
    ∃ blanks, HasFirstWord r.rest blanks t.text.toList s.rest ∧
      t.location = r.location.after blanks := by
  obtain ⟨rest, l⟩ := r
  obtain ⟨bs, w, hbs, hw, hne, hrest⟩ := shape_of_nextWord h
  rcases hrest with hrest | ⟨c, cs, hc, hrest⟩ <;> obtain rfl := hrest
  · rw [nextWord_last hbs hw hne] at h
    cases h
    refine ⟨bs, ⟨hbs, ?_, .inl ⟨?_, rfl⟩⟩, rfl⟩ <;> rw [String.toList_ofList]
    exact ⟨hne, hw⟩
  · rw [nextWord_word hbs hw hne hc] at h
    cases h
    refine ⟨bs, ⟨hbs, ?_, .inr ⟨c, hc, ?_⟩⟩, rfl⟩ <;> rw [String.toList_ofList]
    exact ⟨hne, hw⟩

/-- Read on word by word, a text gives its runs, and then nothing. -/
theorem words_of_moves (r : Reader) (k : Nat) :
    (r.moves (List.replicate k .word)).nextWord.1.map (·.text.toList) = (runs r.rest)[k]? := by
  induction k generalizing r with
  | zero =>
    show r.nextWord.1.map _ = _
    rcases hr : r.nextWord with ⟨_ | t, s⟩
    · rw [runs_of_blank ((nextWord_eq_none_iff r).mp (congrArg Prod.fst hr))]
      rfl
    · obtain ⟨blanks, hfirst, -⟩ := firstWord_of_nextWord hr
      rw [runs_of_firstWord hfirst]
      rfl
  | succ k ih =>
    show (moves r.nextWord.2 (List.replicate k .word)).nextWord.1.map _ = _
    rw [ih]
    rcases hr : r.nextWord with ⟨_ | t, s⟩
    · have hblank := (nextWord_eq_none_iff r).mp (congrArg Prod.fst hr)
      rw [nextWord_of_blank hblank, skipBlanks_of_blank hblank] at hr
      obtain rfl : ⟨[], r.location.after r.rest⟩ = s := congrArg Prod.snd hr
      rw [runs_of_blank hblank]
      rfl
    · obtain ⟨blanks, hfirst, -⟩ := firstWord_of_nextWord hr
      rw [runs_of_firstWord hfirst, List.getElem?_cons_succ]

theorem textUpTo_of_mem (h : d ∈ r.rest) :
    ∃ before, d ∉ before ∧ r.rest = before ++ d :: (r.textUpTo d).2.rest ∧
      (r.textUpTo d).1 = .ok (String.ofList before) := by
  obtain ⟨rest, l⟩ := r
  obtain ⟨before, after, hrest, hbefore⟩ := List.eq_append_cons_of_mem h
  obtain rfl : rest = before ++ d :: after := hrest
  rw [textUpTo_found hbefore]
  exact ⟨before, hbefore, rfl, rfl⟩

/-! ## Where a reader stands -/

theorem advances_move (r : Reader) (m : Move) : r.Advances (r.move m) := by
  cases m with
  | peek => exact .refl r
  | next =>
    show r.Advances r.next?.2
    unfold next?
    split
    · exact .refl r
    · next c cs h => exact ⟨[c], h, rfl⟩
  | word => exact advances_nextWord r
  | textUpTo d => exact advances_textUpTo d r

theorem advances_moves (r : Reader) (ms : List Move) : r.Advances (r.moves ms) := by
  induction ms generalizing r with
  | nil => exact .refl r
  | cons m ms ih => exact (advances_move r m).trans (ih _)

/-- The word that a reader gives begins at an offset of the text, which is not before the reader
and is before where the reader goes on. -/
theorem offset_of_nextWord (hr : (ofText path text).Advances r) (h : r.nextWord = (some t, s)) :
    ∃ i, text.toList.length ≤ i + r.rest.length ∧ i + s.rest.length < text.toList.length ∧
      t.location = .ofOffset path text.toList i ∧
      t.text.toList = (text.toList.drop i).takeWhile isInk := by
  obtain ⟨read, hread, hplace⟩ := hr
  obtain ⟨blanks, hfirst, htoken⟩ := firstWord_of_nextWord h
  obtain ⟨tail, hrest, htail⟩ := hfirst.exists_tail
  have htext : text.toList = read ++ r.rest := hread
  have hsplit : text.toList = (read ++ blanks) ++ tail := by
    rw [htext, hrest, List.append_assoc]
  have hlength := congrArg List.length htext
  have hlt := hfirst.length_lt
  rw [List.length_append] at hlength
  refine ⟨(read ++ blanks).length, ?_, ?_, ?_, ?_⟩
  · rw [List.length_append]
    omega
  · rw [List.length_append]
    omega
  · rw [htoken, hplace, hsplit, Location.ofOffset_length, Location.after_append]
    rfl
  · rw [hsplit, List.drop_left, htail]

/-- What stands at the place of a word is found again in the text. -/
theorem wordIn_of_nextWord (hr : (ofText path text).Advances r) (h : r.nextWord = (some t, s)) :
    t.location.wordIn text = some t.text := by
  obtain ⟨i, -, hi, hplace, hword⟩ := offset_of_nextWord hr h
  have hpath : t.location.path = path := by rw [hplace]; rfl
  have hmem : i ∈ List.range text.toList.length := List.mem_range.mpr (by omega)
  unfold Location.wordIn
  rw [hpath, hplace]
  cases hfind : (List.range text.toList.length).find? fun j =>
      Location.ofOffset path text.toList j = .ofOffset path text.toList i with
  | none => exact absurd (decide_eq_true rfl) (List.find?_eq_none.mp hfind i hmem)
  | some j =>
    have hj := List.mem_range.mp (List.mem_of_find?_eq_some hfind)
    have hsame : Location.ofOffset path text.toList j = .ofOffset path text.toList i := by
      simpa using List.find?_some hfind
    obtain rfl := Location.ofOffset_injective path hj.le (by omega) hsame
    rw [Option.map_some, ← hword, String.ofList_toList]

/-- What one call gives, after any calls: no character is lost, a word is the first run of
characters that are not blank, and a raw text ends before the first delimiter. -/
theorem reads_exactly (path text : String) (ms : List Move) :
    let r := (ofText path text).moves ms
    (∃ read, text.toList = read ++ r.rest ∧ r.location = (Location.start path).after read) ∧
    (r.nextWord.1 = none ↔ r.rest.all isBlank) ∧
    (r.nextWord.1 = none → r.nextWord.2.rest = []) ∧
    (∀ t, r.nextWord.1 = some t →
      ∃ blanks, HasFirstWord r.rest blanks t.text.toList r.nextWord.2.rest) ∧
    (∀ d, d ∈ r.rest → ∃ before, d ∉ before ∧
      r.rest = before ++ d :: (r.textUpTo d).2.rest ∧
      (r.textUpTo d).1 = .ok (String.ofList before)) ∧
    (∀ d, d ∉ r.rest → (r.textUpTo d).2.rest = [] ∧
      (r.textUpTo d).1 = .error ⟨some r.location, .unexpectedEnd, none⟩) ∧
    ∀ k, (r.moves (List.replicate k .word)).nextWord.1.map (·.text.toList) =
      (runs r.rest)[k]? := by
  intro r
  have hr : (ofText path text).Advances r := advances_moves _ ms
  refine ⟨hr, nextWord_eq_none_iff r, fun hnone => ?_, fun t ht => ?_,
    fun d => textUpTo_of_mem, fun d hd => ?_, words_of_moves r⟩
  · have hblank := (nextWord_eq_none_iff r).mp hnone
    rw [nextWord_of_blank hblank, skipBlanks_of_blank hblank]
  · obtain ⟨blanks, hfirst, -⟩ := firstWord_of_nextWord (Prod.ext ht rfl)
    exact ⟨blanks, hfirst⟩
  · rw [textUpTo_missing hd]
    exact ⟨rfl, rfl⟩

/-- The place of a reader counts the lines and the columns of what was read, a word carries the
place of its first character, and a place tells which character of the text stands there. -/
theorem places_exact (path text : String) (ms : List Move) :
    let r := (ofText path text).moves ms
    (∃ read, text.toList = read ++ r.rest ∧
      r.location =
        ⟨path, 1 + read.count '\n', 1 + (read.reverse.takeWhile (· ≠ '\n')).length⟩) ∧
    (∀ i j, i < j → j ≤ text.toList.length →
      (Location.ofOffset path text.toList i).Precedes (.ofOffset path text.toList j)) ∧
    (∀ i j, i ≤ text.toList.length → j ≤ text.toList.length →
      Location.ofOffset path text.toList i = .ofOffset path text.toList j → i = j) ∧
    ∀ t, r.nextWord.1 = some t →
      (∃ read blanks, text.toList = read ++ r.rest ∧
        HasFirstWord r.rest blanks t.text.toList r.nextWord.2.rest ∧
        t.location = .ofOffset path text.toList (read ++ blanks).length) ∧
      t.location.wordIn text = some t.text ∧
      ∀ more u, (r.nextWord.2.moves more).nextWord.1 = some u → t.location.Precedes u.location := by
  intro r
  have hr : (ofText path text).Advances r := advances_moves _ ms
  obtain ⟨read, hread, hplace⟩ := id hr
  refine ⟨⟨read, hread, hplace.trans (Location.start_after path read)⟩,
    fun i j => Location.ofOffset_precedes path, fun i j => Location.ofOffset_injective path,
    fun t ht => ?_⟩
  have hword : r.nextWord = (some t, r.nextWord.2) := Prod.ext ht rfl
  refine ⟨?first, wordIn_of_nextWord hr hword, fun more u hu => ?later⟩
  case first =>
    obtain ⟨blanks, hfirst, htoken⟩ := firstWord_of_nextWord hword
    obtain ⟨tail, hrest, -⟩ := hfirst.exists_tail
    have hsplit : text.toList = (read ++ blanks) ++ tail := by
      rw [List.append_assoc, ← hrest]
      exact hread
    refine ⟨read, blanks, hread, hfirst, ?_⟩
    rw [hsplit, Location.ofOffset_length, Location.after_append, htoken, hplace]
    rfl
  case later =>
    obtain ⟨i, -, hi, hti, -⟩ := offset_of_nextWord hr hword
    have hmore := advances_moves r.nextWord.2 more
    have hon := (hr.trans (advances_nextWord r)).trans hmore
    obtain ⟨j, hj, hlt, huj, -⟩ := offset_of_nextWord hon (Prod.ext hu rfl)
    have hle := hmore.length_le
    rw [hti, huj]
    exact Location.ofOffset_precedes path (by omega) (by omega)

end Reader
end WordStack
