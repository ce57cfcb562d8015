import WordStack.Proofs.Parallel
import WordStack.Proofs.ReadOn
import WordStack.Proofs.Splitting

/-
  A run of a text that is cut between two words. As long as the run of the first part goes well,
  the run of the whole text does the same: a word that reads on finds what it looks for in the
  first part or fails there. `run_append`: so the run of the whole text is that of its second
  part, from the machine that the first part leaves and from the place where the cut is.
-/
namespace WordStack

open Machine

/-- The machines differ in the reader in use at most, and the second one reads on with `ds`. -/
def GoesOn (ds : List Char) (below : List Reader) (m n : Machine) : Prop :=
  n = { m with readers := n.readers } ∧
    ∃ r s, m.readers = r :: below ∧ n.readers = s :: below ∧ Reader.Follows ds r s

variable {ds : List Char} {below : List Reader} {m n : Machine}

theorem GoesOn.read {r s : Reader} (h : n = { m with readers := n.readers })
    (hrs : Reader.Follows ds r s) :
    GoesOn ds below { m with readers := r :: below } { n with readers := s :: below } :=
  ⟨by rw [h], r, s, rfl, rfl, hrs⟩

theorem parallel_goesOn : Parallel (GoesOn ds) where
  same h := h.1
  change {below m n m'} h hc := by
    obtain ⟨-, r, s, hm, hn, hrs⟩ := h
    exact ⟨rfl, r, s, hc.readers_eq.trans hm, hn, hrs⟩
  call {below m n} h c := by
    obtain ⟨hsame, hreaders⟩ := h
    refine ⟨below, ⟨congrArg (enterCall c) hsame, hreaders⟩, fun m n h => ?_⟩
    exact ⟨congrArg leaveCall h.1, h.2⟩

/-- Whatever reads on reads the same, unless it fails in the first part. -/
theorem readsAlike_goesOn : ReadsAlike (GoesOn ds) (fun _ => True) where
  nextWordRequired {below m n} h := by
    obtain ⟨hsame, r, s, hm, hn, hrs⟩ := h
    unfold nextWordRequired
    rw [bind_ok (nextWord_of_cons hm), bind_ok (nextWord_of_cons hn)]
    rcases hr : r.nextWord with ⟨_ | t, r'⟩
    · exact .excused trivial
    · obtain ⟨s', hs, hrs'⟩ := hrs.nextWord hr
      rw [hs]
      exact .ok rfl (.read hsame hrs')
  textUpTo {below m n} h d := by
    obtain ⟨hsame, r, s, hm, hn, hrs⟩ := h
    rw [textUpTo_of_cons hm, textUpTo_of_cons hn]
    rcases hr : r.textUpTo d with ⟨e | text, r'⟩
    · exact .excused trivial
    · obtain ⟨s', hs, hrs'⟩ := hrs.textUpTo hr
      rw [hs]
      exact .ok rfl (.read hsame hrs')
  skipWordsTo {below m n} h p := by
    obtain ⟨hsame, r, s, hm, hn, hrs⟩ := h
    rw [skipWordsTo_of_cons hm, skipWordsTo_of_cons hn]
    rcases hr : r.skipWordsTo p with ⟨_ | _, r'⟩
    · exact .excused trivial
    · obtain ⟨s', hs, hrs'⟩ := hrs.skipWordsTo hr
      rw [hs]
      exact .ok rfl (.read hsame hrs')

namespace Machine

theorem runToken_goesOn (h : GoesOn ds below m n) (t : Token) :
    (Likeness.equal (GoesOn ds) (fun _ => True)).Agree below Eq
      (runToken (.nested 0) t m) (runToken (.nested 0) t n) :=
  (parallel_goesOn.running readsAlike_goesOn fun _ _ _ _ _ => .excused trivial).runToken h
    ⟨rfl, rfl⟩

/-- Where the first part ends well, the second part is read on from there. -/
theorem readOn_append {r : Reader} {m₁ : Machine} (h : GoesOn ds below m n)
    (hm : m.readers = r :: below) (hok : readOn (.nested 0) m = .ok () m₁) :
    ∃ l, r.Advances ⟨[], l⟩ ∧ m₁.readers = ⟨[], l⟩ :: below ∧
      readOn (.nested 0) n = readOn (.nested 0) { m₁ with readers := ⟨ds, l⟩ :: below } := by
  induction hlen : r.rest.length using Nat.strong_induction_on generalizing m n r with
  | _ len ih =>
    have hgoes := h
    obtain ⟨hsame, r₀, s, hm₀, hn, hrs⟩ := h
    obtain rfl : r = r₀ := by rw [hm] at hm₀; exact (List.cons.inj hm₀).1
    by_cases hb : r.rest.all isBlank
    · have hskip := Reader.nextWord_of_blank hb
      have hadv := r.advances_skipBlanks
      rw [Reader.skipBlanks_of_blank hb] at hskip hadv
      rw [readOn_of_none _ hm hskip] at hok
      cases hok
      refine ⟨_, hadv, rfl, readOn_congr 0 rfl ?_ (hrs.nextWord_of_blank hb)⟩
      rw [hsame, hn]
    · have hr := Reader.nextWord_of_not_blank hb
      obtain ⟨s', hs, hrs'⟩ := hrs.nextWord hr
      generalize (⟨_, r.skipBlanks.location⟩ : Token) = t at hr hs
      have hlt := Reader.length_rest_of_nextWord hr
      have hnext := Reader.advances_nextWord r
      rw [hr] at hnext
      have hgoes : GoesOn ds below _ _ := .read hsame hrs'
      have htoken := runToken_goesOn hgoes t
      obtain ⟨r', hadv, hr'⟩ :=
        readers_runToken (m := { m with readers := r.pastWord :: below }) rfl 0 t
      rw [readOn_of_token 0 hm hr, bind_apply] at hok
      rw [readOn_of_token 0 hn hs, bind_apply]
      cases hrun : runToken (.nested 0) t { m with readers := r.pastWord :: below } with
      | error halt m' =>
        rw [hrun] at hok
        cases hok
      | ok _ m' =>
        rw [hrun] at hok htoken hr'
        generalize runToken (.nested 0) t { n with readers := s' :: below } = y at htoken
        cases htoken with
        | ok _ left =>
          have hle := hadv.length_le
          obtain ⟨l, hl, hm₁, hrest⟩ := ih _ (by omega) left hr' hok rfl
          exact ⟨l, (hnext.trans hadv).trans hl, hm₁, hrest⟩

/-- What is left to do when a text has been read up to a cut between two words. -/
theorem run_append {a b : String} (hcut : Reader.Cut a.toList b.toList) {path : String}
    {m m₁ : Machine} (hok : run (.nested 0) path a m = .ok () m₁) :
    run (.nested 0) path (a ++ b) m =
      withReader ⟨b.toList, (Location.start path).after a.toList⟩ (readOn (.nested 0)) m₁ := by
  have hgoes : GoesOn b.toList m.readers (pushReader (.ofText path a) m)
      (pushReader (.ofText path (a ++ b)) m) := by
    refine ⟨rfl, _, _, rfl, rfl, .inl ⟨?_, hcut⟩⟩
    unfold Reader.ofText
    rw [String.toList_append]
  rw [run_eq] at hok ⊢
  unfold withReader between at hok ⊢
  cases hread : readOn (.nested 0) (pushReader (.ofText path a) m) with
  | error halt n => rw [hread] at hok; cases hok
  | ok _ n =>
    rw [hread] at hok
    cases hok
    obtain ⟨l, ⟨cs, hcs, hl⟩, hn, hrest⟩ := readOn_append hgoes rfl hread
    obtain rfl : a.toList = cs := hcs.trans (List.append_nil cs)
    obtain rfl : l = (Location.start path).after a.toList := hl
    rw [hrest]
    unfold pushReader dropReader
    rw [hn]
    rfl

end Machine
end WordStack
