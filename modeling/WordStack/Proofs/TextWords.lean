import WordStack.Proofs.Lexing

/-
  All the words of a text. They can be read one after another without a bound (`words_of_some`),
  and those of a text that is cut where no word runs over are those of its first part and then those
  of its second (`words_append`). So a word that stands between blanks is one of the words of the
  text (`mem_words`).
-/
namespace WordStack.Reader

variable {r s : Reader} {cs ds : List Char} {l : Location}

theorem words_go_of_nil (h : r.rest = []) (n : Nat) : words.go n r = ([], r.skipBlanks) := by
  cases n with
  | zero => rfl
  | succ n =>
    unfold words.go
    rw [nextWord_of_blank (by rw [h]; rfl)]

/-- The bound on the number of words makes no difference once it is the length of the text. -/
theorem words_go_eq {n k : Nat} (hn : r.rest.length ≤ n) (hk : r.rest.length ≤ k) :
    words.go n r = words.go k r := by
  induction n generalizing r k with
  | zero =>
    have hnil := List.length_eq_zero_iff.mp (Nat.le_zero.mp hn)
    rw [words_go_of_nil hnil, words_go_of_nil hnil]
  | succ n ih =>
    cases k with
    | zero =>
      have hnil := List.length_eq_zero_iff.mp (Nat.le_zero.mp hk)
      rw [words_go_of_nil hnil, words_go_of_nil hnil]
    | succ k =>
      unfold words.go
      rcases hw : r.nextWord with ⟨_ | t, s⟩
      · rfl
      · have hlt := length_rest_of_nextWord hw
        dsimp only
        rw [ih (k := k) (by omega) (by omega)]

theorem words_of_none (h : r.nextWord = (none, s)) : r.words = ([], s) := by
  have hgo : r.words = words.go (r.rest.length + 1) r := words_go_eq (Nat.le_refl _) (Nat.le_succ _)
  rw [hgo]
  unfold words.go
  rw [h]

theorem words_of_some {t : Token} (h : r.nextWord = (some t, s)) :
    r.words = (t :: s.words.1, s.words.2) := by
  have hlt := length_rest_of_nextWord h
  have hgo : r.words = words.go (r.rest.length + 1) r := words_go_eq (Nat.le_refl _) (Nat.le_succ _)
  rw [hgo]
  unfold words.go
  rw [h]
  dsimp only
  rw [words_go_eq (k := s.rest.length) (by omega) (Nat.le_refl _)]
  rfl

/-- The words do not depend on the blanks before the first of them. -/
theorem words_congr (h : r.nextWord = s.nextWord) : r.words = s.words := by
  rcases hs : s.nextWord with ⟨_ | t, s'⟩
  · rw [words_of_none hs, words_of_none (h.trans hs)]
  · rw [words_of_some hs, words_of_some (h.trans hs)]

theorem Advances.end_eq (h : r.Advances s) :
    s.location.after s.rest = r.location.after r.rest := by
  obtain ⟨read, hrest, hlocation⟩ := h
  rw [hrest, hlocation, Location.after_append]

/-- A reader that follows another one gives its words, and then those of the second part. -/
theorem words_of_follows (h : Follows ds r s) :
    s.words.1 = r.words.1 ++ (⟨ds, r.location.after r.rest⟩ : Reader).words.1 := by
  induction hlen : r.rest.length using Nat.strong_induction_on generalizing r s with
  | _ len ih =>
    rcases hr : r.nextWord with ⟨_ | t, r'⟩
    · have hblank := (nextWord_eq_none_iff r).mp (congrArg Prod.fst hr)
      rw [words_congr (h.nextWord_of_blank hblank), words_of_none hr, List.nil_append]
    · obtain ⟨s', hs, hfollows⟩ := h.nextWord hr
      have hadvances := advances_nextWord r
      rw [hr] at hadvances
      have hrest := ih _ (hlen ▸ length_rest_of_nextWord hr) hfollows rfl
      rw [words_of_some hs, words_of_some hr, ← hadvances.end_eq]
      exact congrArg (t :: ·) hrest

/-- The words of a text that is cut where no word runs over. -/
theorem words_append (h : Cut cs ds) (l : Location) : (⟨cs ++ ds, l⟩ : Reader).words.1 =
    (⟨cs, l⟩ : Reader).words.1 ++ (⟨ds, l.after cs⟩ : Reader).words.1 :=
  words_of_follows (.inl ⟨rfl, h⟩)

/-- A word after a blank, or at the start, and before a blank, or at the end. -/
theorem mem_words {before word after : List Char} (hbefore : ∀ c ∈ before.getLast?, isBlank c)
    (hword : IsWord word) (hafter : EndsWord after) (l : Location) :
    ⟨String.ofList word, l.after before⟩ ∈
      (⟨before ++ (word ++ after), l⟩ : Reader).words.1 := by
  obtain ⟨s, hs, -⟩ := nextWord_of_isWord hword hafter (l.after before)
  rw [words_append (.inl hbefore), words_of_some hs]
  exact List.mem_append_right _ List.mem_cons_self

end WordStack.Reader
