import WordStack.Proofs.Progress

/-
  Reading a text that goes on. Where a text is cut after or before a blank, a reader of its first
  part and a reader of the whole text give the same words, raw texts and comments, as long as the
  first part lasts. They are not quite in step: the last word of the first part takes the blank
  with it that begins the second (`Follows`).
-/
namespace WordStack.Reader

/-! ## Reading by the shape of the text -/

theorem nextWord_word {bs w cs : List Char} {c : Char} (hbs : ∀ x ∈ bs, isBlank x)
    (hw : ∀ x ∈ w, isInk x) (hne : w ≠ []) (hc : isBlank c) (l : Location) :
    (⟨bs ++ (w ++ c :: cs), l⟩ : Reader).nextWord =
      (some ⟨String.ofList w, l.after bs⟩, ⟨cs, l.after (bs ++ (w ++ [c]))⟩) := by
  have hink : ¬ isInk c := by simp [isInk, hc]
  obtain ⟨x, w', rfl⟩ := List.exists_cons_of_ne_nil hne
  have hx : ¬ isBlank x := by simpa [isInk] using hw x List.mem_cons_self
  have hblank : (bs ++ (x :: w' ++ c :: cs)).takeWhile isBlank = bs := by
    rw [List.takeWhile_append_of_pos hbs, List.cons_append, List.takeWhile_cons_of_neg hx,
      List.append_nil]
  have hword : (x :: w' ++ c :: cs).takeWhile isInk = x :: w' := by
    rw [List.takeWhile_append_of_pos hw, List.takeWhile_cons_of_neg hink, List.append_nil]
  unfold nextWord skipBlanks
  simp only [hblank, skip_rest, skip_location, List.drop_left, hword]
  rw [if_neg hne]
  simp only [skip, List.drop_left, List.take_one, List.head?_cons, Option.toList_some,
    List.length_singleton, List.drop_one, List.tail_cons, Location.after_append]

theorem nextWord_last {bs w : List Char} (hbs : ∀ x ∈ bs, isBlank x) (hw : ∀ x ∈ w, isInk x)
    (hne : w ≠ []) (l : Location) :
    (⟨bs ++ w, l⟩ : Reader).nextWord =
      (some ⟨String.ofList w, l.after bs⟩, ⟨[], l.after (bs ++ w)⟩) := by
  obtain ⟨x, w', rfl⟩ := List.exists_cons_of_ne_nil hne
  have hx : ¬ isBlank x := by simpa [isInk] using hw x List.mem_cons_self
  have hblank : (bs ++ (x :: w')).takeWhile isBlank = bs := by
    rw [List.takeWhile_append_of_pos hbs, List.takeWhile_cons_of_neg hx, List.append_nil]
  have hword : (x :: w').takeWhile isInk = x :: w' := List.takeWhile_eq_self_iff.mpr hw
  unfold nextWord skipBlanks
  simp only [hblank, skip_rest, skip_location, List.drop_left, hword]
  rw [if_neg hne]
  simp [skip, Location.after_append, Location.after_nil]

/-- Blanks before a word make no difference to the word. -/
theorem nextWord_blanks {bs : List Char} (hbs : ∀ x ∈ bs, isBlank x) (cs : List Char)
    (l : Location) : (⟨bs ++ cs, l⟩ : Reader).nextWord = (⟨cs, l.after bs⟩ : Reader).nextWord := by
  have hskip : (⟨bs ++ cs, l⟩ : Reader).skipBlanks = (⟨cs, l.after bs⟩ : Reader).skipBlanks := by
    unfold skipBlanks skip
    simp [List.takeWhile_append_of_pos hbs, Location.after_append]
  unfold nextWord
  rw [hskip]

theorem nextWord_blank {c : Char} (hc : isBlank c) (cs : List Char) (l : Location) :
    (⟨c :: cs, l⟩ : Reader).nextWord = (⟨cs, l.after [c]⟩ : Reader).nextWord := by
  have hone : ∀ x ∈ [c], isBlank x := fun x hx => by rwa [List.mem_singleton.mp hx]
  exact nextWord_blanks hone cs l

/-- A word stands between blanks and either a blank or the end of the text. -/
theorem shape_of_nextWord {r s : Reader} {t : Token} (h : r.nextWord = (some t, s)) :
    ∃ bs w, (∀ x ∈ bs, isBlank x) ∧ (∀ x ∈ w, isInk x) ∧ w ≠ [] ∧
      (r.rest = bs ++ w ∨ ∃ c cs, isBlank c ∧ r.rest = bs ++ (w ++ c :: cs)) := by
  have hb : ¬ r.rest.all isBlank := by
    rw [← nextWord_eq_none_iff, h]
    nofun
  have hne : (r.rest.dropWhile isBlank).takeWhile isInk ≠ [] := by
    rwa [Ne, takeWhile_isInk_eq_nil_iff]
  refine ⟨r.rest.takeWhile isBlank, (r.rest.dropWhile isBlank).takeWhile isInk,
    fun x hx => List.mem_takeWhile_imp hx, fun x hx => List.mem_takeWhile_imp hx, hne, ?_⟩
  have hrest : r.rest = r.rest.takeWhile isBlank ++ ((r.rest.dropWhile isBlank).takeWhile isInk ++
      (r.rest.dropWhile isBlank).dropWhile isInk) := by
    rw [List.takeWhile_append_dropWhile, List.takeWhile_append_dropWhile]
  cases htail : (r.rest.dropWhile isBlank).dropWhile isInk with
  | nil =>
    rw [htail, List.append_nil] at hrest
    exact .inl hrest
  | cons c cs =>
    rw [htail] at hrest
    have hc := List.head_dropWhile_not isInk (l := r.rest.dropWhile isBlank) (by rw [htail]; nofun)
    refine .inr ⟨c, cs, ?_, hrest⟩
    simpa [htail, isInk] using hc

theorem bne_of_not_mem {cs : List Char} {d : Char} (h : d ∉ cs) : ∀ c ∈ cs, (c != d) = true :=
  fun c hc => by simpa using fun hcd : c = d => h (hcd ▸ hc)

theorem textUpTo_found {text cs : List Char} {d : Char} (h : d ∉ text) (l : Location) :
    (⟨text ++ d :: cs, l⟩ : Reader).textUpTo d =
      (.ok (String.ofList text), ⟨cs, l.after (text ++ [d])⟩) := by
  have htext : (text ++ d :: cs).takeWhile (· != d) = text := by
    rw [List.takeWhile_append_of_pos (bne_of_not_mem h), List.takeWhile_cons_of_neg (by simp),
      List.append_nil]
  unfold textUpTo
  simp only [htext, skip_rest, List.drop_left]
  simp [skip, Location.after_append]

/-- Without a delimiter the rest of the text is read, and the error points at where it began. -/
theorem textUpTo_missing {r : Reader} {d : Char} (h : d ∉ r.rest) :
    r.textUpTo d = (.error ⟨some r.location, .unexpectedEnd, none⟩,
      ⟨[], r.location.after r.rest⟩) := by
  have hall : r.rest.takeWhile (· != d) = r.rest :=
    List.takeWhile_eq_self_iff.mpr (bne_of_not_mem h)
  unfold textUpTo
  simp only [hall, skip_rest, List.drop_length]
  simp [skip]

theorem shape_of_textUpTo {r s : Reader} {d : Char} {text : String}
    (h : r.textUpTo d = (.ok text, s)) : ∃ cs ds, d ∉ cs ∧ r.rest = cs ++ d :: ds := by
  unfold textUpTo at h
  dsimp only at h
  split at h
  · cases h
  · next c cs hc =>
    rw [skip_rest, drop_length_takeWhile] at hc
    have hd := List.head_dropWhile_not (· != d) (l := r.rest) (by rw [hc]; nofun)
    simp only [hc, List.head_cons] at hd
    obtain rfl : c = d := by simpa using hd
    refine ⟨r.rest.takeWhile (· != c), cs, fun hmem => ?_, ?_⟩
    · simpa using List.mem_takeWhile_imp hmem
    · rw [← hc, List.takeWhile_append_dropWhile]

/-! ## A text that goes on -/

/-- No word runs over the cut between two parts of a text. -/
def Cut (cs ds : List Char) : Prop :=
  (∀ c ∈ cs.getLast?, isBlank c) ∨ ∃ c ∈ ds.head?, isBlank c

theorem Cut.of_append {xs cs ds : List Char} (h : Cut (xs ++ cs) ds) : Cut cs ds := by
  rcases h with h | h
  · refine .inl fun c hc => h c ?_
    rw [List.getLast?_append, Option.mem_def.mp hc]
    rfl
  · exact .inr h

/-- The second reader reads on with `ds` where the text of the first ends. -/
def Follows (ds : List Char) (r s : Reader) : Prop :=
  (s = ⟨r.rest ++ ds, r.location⟩ ∧ Cut r.rest ds) ∨
    (r.rest = [] ∧ ∃ c, isBlank c ∧ ds = c :: s.rest ∧ s.location = r.location.advance c)

variable {ds : List Char} {r s r' : Reader} {t : Token} {d : Char} {text : String}

theorem Follows.nextWord (h : Follows ds r s) (hr : r.nextWord = (some t, r')) :
    ∃ s', s.nextWord = (some t, s') ∧ Follows ds r' s' := by
  obtain ⟨rest, l⟩ := r
  obtain ⟨bs, w, hbs, hw, hne, hrest⟩ := shape_of_nextWord hr
  rcases h with ⟨rfl, hcut⟩ | ⟨hnil, -⟩
  · rcases hrest with hrest | ⟨c, cs, hc, hrest⟩ <;> obtain rfl := hrest
    · rw [nextWord_last hbs hw hne] at hr
      cases hr
      rcases hcut with hlast | ⟨c, hc, hblank⟩
      · -- the word is the last thing in the first part, which then does not end with a blank
        have hx := List.getLast?_eq_some_getLast hne
        have hblank := hlast _ (by rw [List.getLast?_append, hx]; rfl)
        have hink := hw _ (List.getLast_mem hne)
        rw [isInk, hblank] at hink
        cases hink
      · obtain ⟨ds', rfl⟩ := List.head?_eq_some_iff.mp hc
        refine ⟨⟨ds', l.after (bs ++ (w ++ [c]))⟩, ?_, .inr ⟨rfl, c, hblank, rfl, ?_⟩⟩
        · dsimp only
          rw [List.append_assoc, nextWord_word hbs hw hne hblank]
        · rw [← List.append_assoc, Location.after_append]
          rfl
    · rw [nextWord_word hbs hw hne hc] at hr
      cases hr
      refine ⟨_, ?_, .inl ⟨rfl, ?_⟩⟩
      · rw [List.append_assoc, List.append_assoc, List.cons_append,
          nextWord_word hbs hw hne hc]
      · have hcut : Cut ((bs ++ (w ++ [c])) ++ cs) ds := by simpa using hcut
        exact hcut.of_append
  · rw [nextWord_of_blank (by rw [hnil]; rfl)] at hr
    cases hr

theorem Follows.textUpTo (h : Follows ds r s) (hr : r.textUpTo d = (.ok text, r')) :
    ∃ s', s.textUpTo d = (.ok text, s') ∧ Follows ds r' s' := by
  obtain ⟨rest, l⟩ := r
  obtain ⟨cs, es, hd, hrest⟩ := shape_of_textUpTo hr
  obtain rfl : rest = cs ++ d :: es := hrest
  rcases h with ⟨rfl, hcut⟩ | ⟨hnil, -⟩
  · rw [textUpTo_found hd] at hr
    cases hr
    refine ⟨_, ?_, .inl ⟨rfl, ?_⟩⟩
    · rw [List.append_assoc, List.cons_append, textUpTo_found hd]
    · have hcut : Cut ((cs ++ [d]) ++ es) ds := by simpa using hcut
      exact hcut.of_append
  · exact absurd hnil (by simp)

theorem Follows.skipWordsTo {p : String → Bool} (h : Follows ds r s)
    (hr : r.skipWordsTo p = (true, r')) :
    ∃ s', s.skipWordsTo p = (true, s') ∧ Follows ds r' s' := by
  induction hlen : r.rest.length using Nat.strong_induction_on generalizing r s with
  | _ len ih =>
    rw [skipWordsTo_eq] at hr
    rcases hw : r.nextWord with ⟨_ | t, r''⟩ <;> rw [hw] at hr <;> dsimp only at hr
    · cases hr
    · obtain ⟨s', hs, hfollows⟩ := h.nextWord hw
      rw [skipWordsTo_eq, hs]
      dsimp only
      split at hr
      · next hp =>
        cases hr
        exact ⟨s', by rw [if_pos hp], hfollows⟩
      · next hp =>
        rw [if_neg hp]
        exact ih _ (hlen ▸ length_rest_of_nextWord hw) hfollows hr rfl

/-- Where the first part has come to its end, the second part comes next. -/
theorem Follows.nextWord_of_blank (h : Follows ds r s) (hr : r.rest.all isBlank) :
    s.nextWord = (⟨ds, r.location.after r.rest⟩ : Reader).nextWord := by
  rcases h with ⟨rfl, -⟩ | ⟨hnil, c, hc, rfl, hl⟩
  · exact nextWord_blanks (List.all_eq_true.mp hr) ds r.location
  · obtain ⟨rest, l⟩ := s
    obtain rfl : l = r.location.advance c := hl
    rw [hnil, Location.after_nil]
    exact (nextWord_blank hc rest r.location).symm

end WordStack.Reader
