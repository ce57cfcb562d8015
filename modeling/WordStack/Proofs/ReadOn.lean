import WordStack.Proofs.Context

/-
  The loop over the words of a text without its bound. Each turn of the loop reads a character,
  and whatever the word does, less is left to read after it than before (`unread_runToken_lt`), so
  a bound above the number of characters left makes no difference (`runWords_eq_readOn`).
  `readOn_of_none`, `readOn_of_token`: the loop one word at a time.
-/
namespace WordStack.Machine

variable {depth : Nat} {m n : Machine}

/-- The number of characters that are left of the text being read. -/
def unread (m : Machine) : Nat := (m.readers.head?.map (·.rest.length)).getD 0

theorem unread_of_cons {r : Reader} {rs : List Reader} (h : m.readers = r :: rs) :
    m.unread = r.rest.length := by
  unfold unread
  rw [h]
  rfl

theorem runToken_resumes (depth : Nat) (t : Token) (m : Machine) :
    Resumes (m.contextWith m.readers.tail) (left (runToken (.nested depth) t m))
      (left (runToken (.nested depth) t m)) :=
  left_resumes ((uniform_resumes.running (uniform_resumes.nested depth)).runToken
    (resumes_self m) ⟨rfl, rfl⟩)

/-- What a word of the text does to the readers: the first may advance. -/
theorem readers_runToken {r : Reader} {rs : List Reader} (h : m.readers = r :: rs) (depth : Nat)
    (t : Token) :
    ∃ s, r.Advances s ∧ (left (runToken (.nested depth) t m)).readers = s :: rs := by
  have hres := (runToken_resumes depth t m).readers
  unfold contextWith at hres
  rw [h] at hres
  rcases hres with ⟨hr, -⟩ | ⟨r', s, hr, hadv, hs, -⟩
  · cases hr
  · obtain rfl : r = r' := Option.some.inj hr
    exact ⟨s, hadv, hs⟩

/-- Less is left to read after a word of the text than before it. -/
theorem unread_runToken_lt {t : Token} {rs : List Reader}
    (hnext : nextWord m = .ok (some t) { m with readers := rs })
    (hrun : runToken (.nested depth) t { m with readers := rs } = .ok () n) :
    n.unread < m.unread := by
  cases hm : m.readers with
  | nil =>
    rw [nextWord_of_nil hm] at hnext
    cases hnext
  | cons r rs' =>
    rw [nextWord_of_cons hm] at hnext
    injection hnext with htoken hleft
    obtain rfl : r.nextWord.2 :: rs' = rs := congrArg readers hleft
    have hlt := Reader.length_rest_of_nextWord (r := r) (Prod.ext htoken rfl)
    obtain ⟨s, hadv, hs⟩ := readers_runToken
      (m := { m with readers := r.nextWord.2 :: rs' }) rfl depth t
    rw [hrun] at hs
    rw [unread_of_cons hm, unread_of_cons (m := n) hs]
    exact Nat.lt_of_le_of_lt hadv.length_le hlt

/-- The bound on the number of words makes no difference once it exceeds what is left. -/
theorem runWords_eq {j k : Nat} (hj : m.unread < j) (hk : m.unread < k) :
    runWords (.nested depth) j m = runWords (.nested depth) k m := by
  induction j generalizing k m with
  | zero => exact absurd hj (Nat.not_lt_zero _)
  | succ j ih =>
    cases k with
    | zero => exact absurd hk (Nat.not_lt_zero _)
    | succ k =>
      obtain ⟨t, rs, hnext⟩ := nextWord_ok m
      unfold runWords
      rw [bind_ok hnext, bind_ok hnext]
      cases t with
      | none => rfl
      | some t =>
        dsimp only
        cases hrun : runToken (.nested depth) t { m with readers := rs } with
        | error halt m' => rw [bind_error hrun, bind_error hrun]
        | ok _ m' =>
          have hlt := unread_runToken_lt hnext hrun
          rw [bind_ok hrun, bind_ok hrun]
          exact ih (by omega) (by omega)

/-- Reads words until the text ends. -/
def readOn (host : Host) : Act Unit := fun m => runWords host (m.unread + 1) m

theorem readOn_apply (host : Host) (m : Machine) :
    readOn host m = runWords host (m.unread + 1) m := rfl

theorem runWords_eq_readOn {k : Nat} (h : m.unread < k) :
    runWords (.nested depth) k m = readOn (.nested depth) m :=
  runWords_eq h (Nat.lt_succ_self _)

theorem readOn_of_none {r s : Reader} {rs : List Reader} (host : Host) (h : m.readers = r :: rs)
    (hr : r.nextWord = (none, s)) : readOn host m = .ok () { m with readers := s :: rs } := by
  rw [readOn_apply]
  unfold runWords
  rw [bind_ok (nextWord_of_cons h), hr]
  rfl

theorem readOn_of_token {r s : Reader} {rs : List Reader} {t : Token} (depth : Nat)
    (h : m.readers = r :: rs) (hr : r.nextWord = (some t, s)) :
    readOn (.nested depth) m = (do runToken (.nested depth) t; readOn (.nested depth))
      { m with readers := s :: rs } := by
  have hnext : nextWord m = .ok (some t) { m with readers := s :: rs } := by
    rw [nextWord_of_cons h, hr]
  rw [readOn_apply]
  unfold runWords
  rw [bind_ok hnext]
  dsimp only
  cases hrun : runToken (.nested depth) t { m with readers := s :: rs } with
  | error halt m' => rw [bind_error hrun, bind_error hrun]
  | ok _ m' =>
    rw [bind_ok hrun, bind_ok hrun]
    exact runWords_eq_readOn (unread_runToken_lt hnext hrun)

/-- What is read on does not depend on the blanks before the next word. -/
theorem readOn_congr {r s : Reader} {rs : List Reader} (depth : Nat) (hr : m.readers = r :: rs)
    (hn : n = { m with readers := s :: rs }) (h : s.nextWord = r.nextWord) :
    readOn (.nested depth) n = readOn (.nested depth) m := by
  subst hn
  rcases hw : r.nextWord with ⟨_ | t, r'⟩ <;> rw [hw] at h
  · rw [readOn_of_none _ hr hw, readOn_of_none _ rfl h]
  · rw [readOn_of_token depth hr hw, readOn_of_token depth rfl h]

/-- A run reads on from the start of its text. -/
theorem run_eq (depth : Nat) (path text : String) :
    run (.nested depth) path text =
      withReader (.ofText path text) (readOn (.nested depth)) := by
  funext m
  unfold run withReader between
  rw [runWords_eq_readOn]
  exact Nat.lt_succ_self _

/-- Any bound that leaves room for every character of the text would do for a run. -/
theorem run_eq_of_length_lt {k : Nat} (path text : String) (h : text.toList.length < k) :
    run (.nested depth) path text =
      withReader (.ofText path text) (runWords (.nested depth) k) := by
  rw [run_eq]
  funext m
  unfold withReader between
  rw [runWords_eq_readOn]
  exact h

end WordStack.Machine
