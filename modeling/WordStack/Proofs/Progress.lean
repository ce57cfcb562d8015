import Mathlib.Data.List.TakeWhile
import WordStack.Source.Reader

/-
  How far a reader gets. Whatever is read, the reader goes on from where it was: what is left
  is an end of what was left, and the place has moved over the characters read (`Advances`).
  A word takes at least one character (`length_rest_of_nextWord`), so the count that bounds the
  search for the end of a comment is never used up: `skipWordsTo_eq` is the search without it.
-/
namespace WordStack.Reader

/-- The second reader has read some characters more than the first. -/
def Advances (r s : Reader) : Prop :=
  ∃ cs, r.rest = cs ++ s.rest ∧ s.location = r.location.after cs

theorem Advances.refl (r : Reader) : r.Advances r := ⟨[], rfl, rfl⟩

theorem Advances.trans {r s t : Reader} (h₁ : r.Advances s) (h₂ : s.Advances t) :
    r.Advances t := by
  obtain ⟨cs, hc, hl⟩ := h₁
  obtain ⟨ds, hd, hk⟩ := h₂
  refine ⟨cs ++ ds, ?_, ?_⟩
  · rw [hc, hd, List.append_assoc]
  · rw [hk, hl, Location.after_append]

theorem Advances.length_le {r s : Reader} (h : r.Advances s) : s.rest.length ≤ r.rest.length := by
  obtain ⟨cs, hc, -⟩ := h
  rw [hc, List.length_append]
  omega

theorem advances_skip {r : Reader} {cs : List Char} (h : cs <+: r.rest) : r.Advances (r.skip cs) := by
  obtain ⟨ds, hd⟩ := h
  refine ⟨cs, ?_, rfl⟩
  rw [skip_rest, ← hd, List.drop_left]

theorem advances_skipBlanks (r : Reader) : r.Advances r.skipBlanks :=
  advances_skip (List.takeWhile_prefix _)

/-! ## Words -/

/-- The reader after the next word and the blank that ends it. -/
def pastWord (r : Reader) : Reader :=
  let after := r.skipBlanks.skip (r.skipBlanks.rest.takeWhile isInk)
  after.skip (after.rest.take 1)

theorem skipBlanks_of_blank {r : Reader} (h : r.rest.all isBlank) :
    r.skipBlanks = ⟨[], r.location.after r.rest⟩ := by
  have hall : r.rest.takeWhile isBlank = r.rest :=
    List.takeWhile_eq_self_iff.mpr (List.all_eq_true.mp h)
  unfold skipBlanks skip
  rw [hall, List.drop_length]

theorem nextWord_of_blank {r : Reader} (h : r.rest.all isBlank) :
    r.nextWord = (none, r.skipBlanks) := by
  have hnil : r.skipBlanks.rest.takeWhile isInk = [] := by
    rw [skipBlanks_rest, takeWhile_isInk_eq_nil_iff, h]
  unfold nextWord
  dsimp only
  rw [if_pos hnil]

theorem nextWord_of_not_blank {r : Reader} (h : ¬ r.rest.all isBlank) :
    r.nextWord = (some ⟨String.ofList (r.skipBlanks.rest.takeWhile isInk), r.skipBlanks.location⟩,
      r.pastWord) := by
  have hne : r.skipBlanks.rest.takeWhile isInk ≠ [] := by
    rw [skipBlanks_rest, Ne, takeWhile_isInk_eq_nil_iff]
    exact h
  unfold nextWord
  dsimp only
  rw [if_neg hne]
  rfl

theorem advances_pastWord (r : Reader) : r.Advances r.pastWord :=
  ((advances_skipBlanks r).trans (advances_skip (List.takeWhile_prefix _))).trans
    (advances_skip (List.take_prefix 1 _))

theorem advances_nextWord (r : Reader) : r.Advances r.nextWord.2 := by
  by_cases h : r.rest.all isBlank
  · rw [nextWord_of_blank h]; exact advances_skipBlanks r
  · rw [nextWord_of_not_blank h]; exact advances_pastWord r

/-- A word takes at least one character. -/
theorem length_rest_of_nextWord {r s : Reader} {t : Token} (h : r.nextWord = (some t, s)) :
    s.rest.length < r.rest.length := by
  by_cases hb : r.rest.all isBlank
  · rw [nextWord_of_blank hb] at h; cases h
  · rw [nextWord_of_not_blank hb] at h
    obtain rfl : r.pastWord = s := congrArg Prod.snd h
    have hne : r.skipBlanks.rest.takeWhile isInk ≠ [] := by
      rw [skipBlanks_rest, Ne, takeWhile_isInk_eq_nil_iff]
      exact hb
    have hpos := List.length_pos_iff.mpr hne
    have hle := (List.takeWhile_prefix (l := r.skipBlanks.rest) isInk).length_le
    have hstart := (advances_skipBlanks r).length_le
    unfold pastWord
    simp only [skip_rest, List.length_drop]
    omega

/-! ## Raw text and comments -/

theorem advances_textUpTo (d : Char) (r : Reader) : r.Advances (r.textUpTo d).2 := by
  have hafter : r.Advances (r.skip (r.rest.takeWhile (· != d))) :=
    advances_skip (List.takeWhile_prefix _)
  unfold textUpTo
  dsimp only
  split
  · exact hafter
  · next c cs hc => exact hafter.trans (advances_skip (hc ▸ ⟨cs, rfl⟩))

theorem skipWordsTo_go_of_nil {p : String → Bool} {r : Reader} (h : r.rest = []) (n : Nat) :
    skipWordsTo.go p n r = (false, r.skipBlanks) := by
  cases n with
  | zero => rfl
  | succ n =>
    unfold skipWordsTo.go
    rw [nextWord_of_blank (by rw [h]; rfl)]

/-- The bound on the number of words makes no difference once it is the length of the text. -/
theorem skipWordsTo_go_eq {p : String → Bool} {r : Reader} {n k : Nat}
    (hn : r.rest.length ≤ n) (hk : r.rest.length ≤ k) :
    skipWordsTo.go p n r = skipWordsTo.go p k r := by
  induction n generalizing r k with
  | zero =>
    have hnil := List.length_eq_zero_iff.mp (Nat.le_zero.mp hn)
    rw [skipWordsTo_go_of_nil hnil, skipWordsTo_go_of_nil hnil]
  | succ n ih =>
    cases k with
    | zero =>
      have hnil := List.length_eq_zero_iff.mp (Nat.le_zero.mp hk)
      rw [skipWordsTo_go_of_nil hnil, skipWordsTo_go_of_nil hnil]
    | succ k =>
      unfold skipWordsTo.go
      rcases hw : r.nextWord with ⟨_ | t, s⟩
      · rfl
      · have hlt := length_rest_of_nextWord hw
        dsimp only
        rw [ih (k := k) (by omega) (by omega)]

/-- The search for the end of a comment, word by word and without a bound. -/
theorem skipWordsTo_eq (p : String → Bool) (r : Reader) :
    r.skipWordsTo p = match r.nextWord with
      | (none, s) => (false, s)
      | (some t, s) => if p t.text then (true, s) else s.skipWordsTo p := by
  have hgo : r.skipWordsTo p = skipWordsTo.go p (r.rest.length + 1) r :=
    skipWordsTo_go_eq (Nat.le_refl _) (Nat.le_succ _)
  rw [hgo]
  unfold skipWordsTo.go
  rcases hw : r.nextWord with ⟨_ | t, s⟩
  · rfl
  · have hlt := length_rest_of_nextWord hw
    dsimp only
    rw [skipWordsTo, skipWordsTo_go_eq (n := r.rest.length) (k := s.rest.length) (by omega)
      (Nat.le_refl _)]

theorem advances_skipWordsTo (p : String → Bool) (r : Reader) : r.Advances (r.skipWordsTo p).2 := by
  induction hlen : r.rest.length using Nat.strong_induction_on generalizing r with
  | _ len ih =>
    rw [skipWordsTo_eq]
    have hstep := advances_nextWord r
    rcases hw : r.nextWord with ⟨_ | t, s⟩
    · rw [hw] at hstep; exact hstep
    · rw [hw] at hstep
      dsimp only
      split
      · exact hstep
      · have hlt := length_rest_of_nextWord hw
        exact hstep.trans (ih _ (hlen ▸ hlt) s rfl)

end WordStack.Reader
