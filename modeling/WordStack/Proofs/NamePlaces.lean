import WordStack.Proofs.LetterCase
import WordStack.Proofs.OpenDefinitions
import WordStack.Proofs.TextWords

/-
  Where the words of a script come from. The name of a variable, a constant or a definition is the
  word of the text that follows the word which defines it or opens the definition. It stands after
  a blank, the one that ends that word, so it is also one of the words of the whole text
  (`Reader.mem_words_after`), whatever was read raw before. A name waits for its `;` together with
  its place, over any number of runs (`NamesKept`).
  `defined_words_point_at_names`: every word that `VAR`, `CONST` or `;` has ever added points at
  its name in one of the texts run so far.
-/
namespace WordStack

open Machine

/-- A word of one of these texts, each of them with its path. -/
def IsWordOf (texts : List (String × String)) (t : Token) : Prop :=
  ∃ text, (t.location.path, text) ∈ texts ∧ t ∈ (Reader.ofText t.location.path text).words.1

/-- The word has its name from a word of one of these texts, and its place as well. -/
structure Word.PointsAtName (texts : List (String × String)) (w : Word) : Prop where
  place : ∃ t, IsWordOf texts t ∧ w.location = some t.location ∧ w.name = Text.uppercase t.text
  isWord : IsWord w.name.toList

/-- The built-in words that add a word to the dictionary. -/
def BuiltIn.definers : List BuiltIn := [.defineVariable, .defineConstant, .endDefinition]

/-- If it defines a word, the word points at its name. -/
def Execution.NamesFrom (texts : List (String × String)) (x : Execution) : Prop :=
  x.builtIn ∈ BuiltIn.definers → ∀ n, x.result = .ok () n →
    ∃ w, n.dictionary = x.before.dictionary.insert w ∧ w.PointsAtName texts

/-- A machine that has only run texts, with these texts and all that was executed for them. -/
inductive Documented : List (String × String) → List Execution → Machine → Prop
  | fresh : Documented [] [] .fresh
  | run {texts : List (String × String)} {es : List Execution} {m : Machine}
    (h : Documented texts es m) (depth : Nat) (path text : String) :
    Documented (texts ++ [(path, text)]) (es ++ runExecutions path text m)
      (left (Machine.run (.nested depth) path text m))
  | setOutputFails {texts : List (String × String)} {es : List Execution} {m : Machine}
    (h : Documented texts es m) (fails : Bool) : Documented texts es { m with outputFails := fails }
  | observe {texts : List (String × String)} {es : List Execution} {m : Machine}
    (h : Documented texts es m) : Documented texts es (Session.beginStep m)

variable {texts texts' : List (String × String)} {es : List Execution} {made : List Word}
  {m n : Machine} {t t' : Token} {r s s' : Reader} {rs : List Reader} {path text : String}
  {w : Word} {b : BuiltIn}

theorem BuiltIn.mem_definers :
    b ∈ definers ↔ b = .defineVariable ∨ b = .defineConstant ∨ b = .endDefinition := by
  simp [definers]

theorem Documented.recorded (h : Documented texts es m) : Recorded es m := by
  induction h with
  | fresh => exact .fresh
  | run _ depth path text ih => exact ih.run depth path text
  | setOutputFails _ fails ih => exact ih.setOutputFails fails
  | observe _ ih => exact ih.observe

/-- Every history of a machine comes with the texts that were run. -/
theorem Recorded.documented (h : Recorded es m) : ∃ texts, Documented texts es m := by
  induction h with
  | fresh => exact ⟨_, .fresh⟩
  | run _ depth path text ih =>
    obtain ⟨texts, ih⟩ := ih
    exact ⟨_, ih.run depth path text⟩
  | setOutputFails _ fails ih =>
    obtain ⟨texts, ih⟩ := ih
    exact ⟨texts, ih.setOutputFails fails⟩
  | observe _ ih =>
    obtain ⟨texts, ih⟩ := ih
    exact ⟨texts, ih.observe⟩

/-! ## Upper case -/

namespace Text

open Uppercase

/-- Is the character of this code beyond the blanks? -/
def beyondBlanks (code : Nat) : Bool := decide code.isValidChar && Nat.blt 0x20 code

theorem expansions_ink : expansions.all (fun e => !e.2.isEmpty && e.2.all beyondBlanks) = true := by
  decide +kernel

theorem runs_ink : Uppercase.runs.all (fun r => Nat.blt 0x20 r.target) = true := by
  decide +kernel

theorem isInk_of_lt {c : Char} (h : 0x20 < c.toNat) : isInk c = true := by
  unfold isInk isBlank
  simp only [Bool.not_eq_true', Bool.or_eq_false_iff, decide_eq_false_iff_not]
  refine ⟨⟨⟨?_, ?_⟩, ?_⟩, ?_⟩ <;> rintro rfl <;> exact absurd h (by decide)

theorem isInk_ofNat {code : Nat} (h : beyondBlanks code = true) : isInk (Char.ofNat code) = true := by
  simp only [beyondBlanks, Bool.and_eq_true, decide_eq_true_eq, Nat.blt_eq] at h
  refine isInk_of_lt ?_
  have hcode : (Char.ofNat code).toNat = code := by
    rw [Char.ofNat, dif_pos h.1]
    rfl
  rw [hcode]
  exact h.2

/-- The upper case of a character that is not blank has such characters, and at least one. -/
theorem uppercaseChar_ink {c : Char} (hc : isInk c = true) :
    uppercaseChar c ≠ [] ∧ ∀ d ∈ uppercaseChar c, isInk d = true := by
  unfold uppercaseChar
  split
  · refine ⟨List.cons_ne_nil _ _, fun d hd => ?_⟩
    rw [List.mem_singleton.mp hd, isInk_toUpper]
    exact hc
  · split
    · next codes hlookup =>
      obtain ⟨before, after, hentries, -⟩ := List.lookup_eq_some_iff.mp hlookup
      have hmem : (c.toNat, codes) ∈ expansions := by
        rw [hentries]
        exact List.mem_append_right _ List.mem_cons_self
      obtain ⟨hne, hall⟩ := Bool.and_eq_true_iff.mp (List.all_eq_true.mp expansions_ink _ hmem)
      refine ⟨by simpa using hne, fun d hd => ?_⟩
      obtain ⟨code, hcode, rfl⟩ := List.mem_map.mp hd
      exact isInk_ofNat (List.all_eq_true.mp hall code hcode)
    · split
      · next r hr =>
        have hmem := List.mem_of_find?_eq_some hr
        have htarget := Nat.blt_eq.mp (List.all_eq_true.mp runs_ink r hmem)
        have hupper := isUpper_image hmem (List.find?_eq_some_iff_append.mp hr).1
        have hbeyond : beyondBlanks (r.image c.toNat) = true := by
          simp only [isUpper, Bool.and_eq_true, decide_eq_true_eq] at hupper
          simp only [beyondBlanks, Bool.and_eq_true, decide_eq_true_eq, Nat.blt_eq]
          exact ⟨hupper.1.1.1, htarget.trans_le (Nat.le_add_right _ _)⟩
        refine ⟨List.cons_ne_nil _ _, fun d hd => ?_⟩
        rw [List.mem_singleton.mp hd]
        exact isInk_ofNat hbeyond
      · refine ⟨List.cons_ne_nil _ _, fun d hd => ?_⟩
        rwa [List.mem_singleton.mp hd]

end Text

theorem IsWord.uppercase {s : String} (h : IsWord s.toList) :
    IsWord (Text.uppercase s).toList := by
  rw [Text.toList_uppercase]
  obtain ⟨c, cs, hcs⟩ := List.exists_cons_of_ne_nil h.ne_nil
  refine ⟨?_, fun d hd => ?_⟩
  · rw [hcs, List.flatMap_cons]
    have hc := Text.uppercaseChar_ink (h.ink c (hcs ▸ List.mem_cons_self))
    exact fun hnil => hc.1 (List.append_eq_nil_iff.mp hnil).1
  · obtain ⟨c, hc, hd⟩ := List.mem_flatMap.mp hd
    exact (Text.uppercaseChar_ink (h.ink c hc)).2 d hd

/-! ## Words of a text -/

theorem HasFirstWord.exists_endsWord {cs blanks word rest : List Char}
    (h : HasFirstWord cs blanks word rest) :
    ∃ tail, cs = blanks ++ (word ++ tail) ∧ EndsWord tail := by
  rcases h.split with ⟨hcs, -⟩ | ⟨c, hc, hcs⟩
  · exact ⟨[], by rw [hcs, List.append_nil], nofun⟩
  · exact ⟨c :: rest, hcs, .cons hc rest⟩

namespace Reader

theorem isWord_of_mem_words (h : t ∈ r.words.1) : IsWord t.text.toList := by
  induction hlen : r.rest.length using Nat.strong_induction_on generalizing r with
  | _ len ih =>
    rcases hr : r.nextWord with ⟨_ | u, s⟩
    · rw [words_of_none hr] at h
      cases h
    · rw [words_of_some hr] at h
      rcases List.mem_cons.mp h with rfl | h
      · obtain ⟨blanks, hfirst, -⟩ := firstWord_of_nextWord hr
        exact hfirst.isWord
      · exact ih _ (hlen ▸ length_rest_of_nextWord hr) h rfl

/-- A word that is read right after another one is a word of the text. -/
theorem mem_words_after (hr : (ofText path text).Advances r) (h : r.nextWord = (some t, s))
    (h' : s.nextWord = (some t', s')) :
    t'.location.path = path ∧ t' ∈ (ofText path text).words.1 := by
  obtain ⟨blanks, hfirst, -⟩ := firstWord_of_nextWord h
  obtain ⟨blanks', hfirst', hplace⟩ := firstWord_of_nextWord h'
  obtain ⟨tail, hs, htail⟩ := hfirst'.exists_endsWord
  have hadvances := hr.trans (h ▸ advances_nextWord r)
  obtain ⟨read, hread, -⟩ := hr
  obtain ⟨before, hbefore, hlocation⟩ := hadvances
  -- the blank that ends the first word stands before the second
  obtain ⟨c, xs, hc, rfl⟩ : ∃ c xs, isBlank c ∧ before = xs ++ [c] := by
    rcases hfirst.split with ⟨-, hnil⟩ | ⟨c, hc, hrest⟩
    · rw [hnil] at hs
      exact absurd hs.symm (by simp [hfirst'.isWord.ne_nil])
    · refine ⟨c, read ++ (blanks ++ t.text.toList), hc, ?_⟩
      apply List.append_cancel_right
      rw [← hbefore, hread, hrest]
      simp only [List.append_assoc, List.singleton_append]
  have hsplit : text.toList = (xs ++ [c] ++ blanks') ++ (t'.text.toList ++ tail) := by
    rw [List.append_assoc _ blanks', ← hs]
    exact hbefore
  have hlast : ∀ x ∈ (xs ++ [c] ++ blanks').getLast?, isBlank x := by
    intro x hx
    rw [List.append_assoc, List.singleton_append, List.getLast?_append_cons] at hx
    rcases List.mem_cons.mp (List.mem_of_getLast? hx) with rfl | hx
    · exact hc
    · exact hfirst'.blank x hx
  have hplaced : t'.location = (Location.start path).after (xs ++ [c] ++ blanks') := by
    rw [hplace, hlocation, Location.after_append _ (xs ++ [c])]
    rfl
  have hmem := mem_words hlast hfirst'.isWord htail (.start path)
  rw [← hsplit, ← hplaced, String.ofList_toList] at hmem
  exact ⟨by rw [hplaced, Location.start_after], hmem⟩

end Reader

theorem IsWordOf.isWord (h : IsWordOf texts t) : IsWord t.text.toList := by
  obtain ⟨text, -, hmem⟩ := h
  exact Reader.isWord_of_mem_words hmem

theorem IsWordOf.mono (hsub : texts ⊆ texts') (h : IsWordOf texts t) : IsWordOf texts' t := by
  obtain ⟨text, htext, hmem⟩ := h
  exact ⟨text, hsub htext, hmem⟩

theorem Word.PointsAtName.mono (hsub : texts ⊆ texts') (h : w.PointsAtName texts) :
    w.PointsAtName texts' := by
  obtain ⟨⟨t, ht, hplace⟩, hword⟩ := h
  exact ⟨⟨t, ht.mono hsub, hplace⟩, hword⟩

theorem Execution.NamesFrom.mono {x : Execution} (hsub : texts ⊆ texts') (h : x.NamesFrom texts) :
    x.NamesFrom texts' := by
  intro hb n hn
  obtain ⟨w, hw, hpoints⟩ := h hb n hn
  exact ⟨w, hw, hpoints.mono hsub⟩

/-! ## Names that are kept -/

/-- The words that were added point at their names, and the definition in progress, if there is
one, has its name from the texts as well. -/
structure NamesKept (texts : List (String × String)) (m : Machine) : Prop where
  dictionary : ∀ e ∈ m.dictionary.entries,
    e ∈ fresh.dictionary.entries ∨ e.2.PointsAtName texts
  pending : ∀ p ∈ m.pending, IsWordOf texts ⟨p.name, p.location⟩

namespace NamesKept

theorem mono (hsub : texts ⊆ texts') (h : NamesKept texts m) : NamesKept texts' m where
  dictionary e he := (h.dictionary e he).imp_right (·.mono hsub)
  pending p hp := (h.pending p hp).mono hsub

theorem congr (h : NamesKept texts m) (hdictionary : n.dictionary = m.dictionary)
    (hpending : n.pending = m.pending) : NamesKept texts n where
  dictionary := hdictionary ▸ h.dictionary
  pending := hpending ▸ h.pending

theorem insert (h : NamesKept texts m) (hw : w.PointsAtName texts)
    (hdictionary : n.dictionary = m.dictionary.insert w)
    (hpending : ∀ p ∈ n.pending, p ∈ m.pending) : NamesKept texts n where
  dictionary e he := by
    rw [hdictionary] at he
    rcases Dictionary.mem_insertEntry he with rfl | he
    · exact .inr hw
    · exact h.dictionary e he
  pending p hp := h.pending p (hpending p hp)

theorem withActive (h : NamesKept texts m) (vs : List Value) : NamesKept texts (m.withActive vs) := by
  refine h.congr (withActive_words m vs).1 ?_
  unfold Machine.withActive
  cases m.mode <;> rfl

end NamesKept

/-- A word that takes its name and its place from a word of a text points at its name. -/
theorem pointsAtName_withWord (ht : IsWordOf texts t) (m : Machine) {h : Heading}
    (hname : h.name = t.text) (hplace : h.location = t.location) (d : Definition) :
    (m.withWord h d).1.PointsAtName texts where
  place := ⟨t, ht, congrArg some hplace, congrArg Text.uppercase hname⟩
  isWord := by
    show IsWord (Text.uppercase h.name).toList
    rw [hname]
    exact ht.isWord.uppercase

/-- A built-in word keeps the names, if the next word of the text is one of the texts' words. -/
theorem namesKept_builtIn (h : NamesKept texts m) (hnext : ∀ t ∈ m.nextToken?, IsWordOf texts t)
    (b : BuiltIn) : NamesKept texts (left (b.run m)) := by
  have ho := BuiltIn.outcome b m
  generalize b.run m = x at ho
  cases ho with
  | underflow | nameless | comment | unterminated | blockComment | unterminatedBlock | notOpen =>
    exact h.congr rfl rfl
  | mismatch | rearranged | storedNowhere | fetched | fetchedNowhere => exact h.withActive _
  | stored => exact (h.withActive _).congr rfl rfl
  | wrote hw =>
    obtain ⟨vs, -, rfl⟩ := BuiltIn.machine_of_writing hw
    rw [write_apply]
    split
    · exact h.withActive vs
    · exact (h.withActive vs).congr rfl rfl
  | @«variable» t rs hread =>
    have ht := hnext t (nextToken?_of_ok hread)
    exact h.insert (pointsAtName_withWord ht _ rfl rfl _) rfl fun p hp => hp
  | @constant t rs v vs hactive hread =>
    have ht := hnext t (nextToken?_of_ok hread)
    have hread : NamesKept texts { m with readers := rs } := h.congr rfl rfl
    exact (hread.withActive vs).insert (pointsAtName_withWord ht _ rfl rfl _) rfl fun p hp => hp
  | @opened t rs hread =>
    have ht := hnext t (nextToken?_of_ok hread)
    exact ⟨h.dictionary, fun p hp => Option.some.inj hp ▸ ht⟩
  | @text s rs => exact NamesKept.withActive (h.congr (n := { m with readers := rs }) rfl rfl) _
  | @closed p hp =>
    have ht := h.pending p hp
    exact h.insert (pointsAtName_withWord ht _ rfl rfl _) rfl nofun

/-- A word that has been added points at its name. -/
theorem namesFrom_builtIn (h : NamesKept texts m) (hnext : ∀ t ∈ m.nextToken?, IsWordOf texts t)
    (b : BuiltIn) : Execution.NamesFrom texts ⟨b, m⟩ := by
  intro hb n hn
  have hn : b.run m = .ok () n := hn
  have ho := BuiltIn.outcome b m
  replace hb := BuiltIn.mem_definers.mp hb
  generalize b.run m = x at ho hn
  cases ho with
  | @«variable» t rs hread =>
    cases hn
    have ht := hnext t (nextToken?_of_ok hread)
    exact ⟨_, rfl, pointsAtName_withWord ht _ rfl rfl _⟩
  | @constant t rs v vs hactive hread =>
    cases hn
    have ht := hnext t (nextToken?_of_ok hread)
    have hwords := (withActive_words { m with readers := rs } vs).1
    refine ⟨(({ m with readers := rs }.withActive vs).withWord (constantHeading t)
      (.constant v)).1, ?_, pointsAtName_withWord ht _ rfl rfl _⟩
    exact congrArg (Dictionary.insert · _) hwords
  | @closed p hp =>
    cases hn
    exact ⟨_, rfl, pointsAtName_withWord (h.pending p hp) _ rfl rfl _⟩
  | rearranged hvs =>
    rw [BuiltIn.rearranged?_of_immediate (by rcases hb with rfl | rfl | rfl <;> rfl)] at hvs
    cases hvs
  | wrote hw => rcases hb with rfl | rfl | rfl <;> cases hw
  | comment hcomment => rcases hb with rfl | rfl | rfl <;> simp at hcomment
  | stored | fetched | opened | text | blockComment => simp at hb
  | _ => cases hn

/-! ## Runs -/

/-- What a run keeps: the names, and that all words added by then point at theirs. -/
structure Names (texts : List (String × String)) (xs : List Execution) (m : Machine) : Prop where
  kept : NamesKept texts m
  defined : ∀ x ∈ xs, x.NamesFrom texts

theorem Names.nil (h : NamesKept texts m) : Names texts [] m :=
  ⟨h, fun _ hx => absurd hx List.not_mem_nil⟩

theorem Names.append {xs ys : List Execution} (hxs : ∀ x ∈ xs, x.NamesFrom texts)
    (h : Names texts ys m) : Names texts (xs ++ ys) m where
  kept := h.kept
  defined x hx := (List.mem_append.mp hx).elim (hxs x) (h.defined x)

theorem names_builtIn (h : NamesKept texts m) (hnext : ∀ t ∈ m.nextToken?, IsWordOf texts t)
    (c : Call) (b : BuiltIn) : Names texts [⟨b, enterCall c m⟩] (left (duringCall c b.run m)) := by
  have hentered : NamesKept texts (enterCall c m) := h.congr rfl rfl
  unfold duringCall
  rw [left_between]
  refine ⟨(namesKept_builtIn hentered hnext b).congr rfl rfl, fun x hx => ?_⟩
  rw [List.mem_singleton.mp hx]
  exact namesFrom_builtIn hentered hnext b

/-- A word that is not immediate defines nothing, whatever it is made of. -/
theorem names_within (hsound : m.Sound made) (hmode : m.mode = .interpreting)
    (hw : w.Within (Word.Portable made)) (h : NamesKept texts m) (l : Location) :
    Names texts (wordExecutions l w m) (left (execute .absent l w m)) := by
  refine ⟨?_, fun x hx hb => ?_⟩
  · have hworks : Ends (Works (Word.Portable made) m) (execute .absent l w m) :=
      execute_works (fun v hv => hv.isOrdinary) hmode hsound.data hsound.cells hw l
    generalize execute .absent l w m = y at hworks
    cases hworks with
    | ok hn | failed hn => exact h.congr (by rw [left, hn.frame]) (by rw [left, hn.frame])
  · have hnot := ordinary_wordExecutions (hw.mono fun u hu => hu.isOrdinary) l m x hx
    rcases BuiltIn.mem_definers.mp hb with hb | hb | hb <;> rw [hb] at hnot <;> cases hnot

/-- Only a word of the text itself defines a word, so its name comes next in the text. -/
theorem names_token (hsound : m.Sound made) (h : NamesKept texts m)
    (hnext : ∀ t ∈ m.nextToken?, IsWordOf texts t) (t : Token) :
    Names texts (tokenExecutions t m) (left (runToken .absent t m)) := by
  have hplaced : NamesKept texts { m with location := some t.location } := h.congr rfl rfl
  have hout := runToken_outcome .absent t m
  generalize runToken .absent t m = x at hout
  cases hout with
  | @executed w hw hexec =>
    have hw' := (Dictionary.get?_uppercase m.dictionary t.text).symm.trans hw
    rw [tokenExecutions_of_executed hw hexec]
    cases himm : w.isImmediate with
    | true =>
      obtain ⟨b, hb, -⟩ : ∃ b : BuiltIn, w.definition = .builtIn b ∧ b.isImmediate = true :=
        (hsound.dictionary _ (Dictionary.mem_of_get? hw)).1.builtIn_of_isImmediate himm
      rw [execute_eq, wordExecutions_eq, hb]
      exact names_builtIn hplaced hnext _ b
    | false =>
      have hmode : m.mode = .interpreting := hexec.resolve_left (by simp [himm])
      have hsoundPlaced : Sound made { m with location := some t.location } :=
        hsound.withContext _ _ _ _
      exact names_within hsoundPlaced hmode (hsound.within_of_get? hw' himm) hplaced t.location
  | collected hw himm hmode =>
    rw [tokenExecutions_of_collected hw himm hmode]
    exact .nil (hplaced.congr rfl rfl)
  | number hw =>
    have hnoted : NamesKept texts ({ m with location := some t.location }.note
      (.pushedNumber m.mode t.text)) := hplaced.congr rfl rfl
    rw [tokenExecutions_of_none hw]
    exact .nil (hnoted.withActive _)
  | unknown hw =>
    rw [tokenExecutions_of_none hw]
    exact .nil hplaced

theorem names_words (hsound : m.Sound made) (h : NamesKept texts m) (htext : (path, text) ∈ texts)
    (hm : m.readers = r :: rs) (hr : (Reader.ofText path text).Advances r) (k : Nat) :
    Names texts (wordsExecutions k m) (left (runWords .absent k m)) := by
  induction k generalizing made m r with
  | zero => exact .nil h
  | succ k ih =>
    have hnext := nextWord_of_cons hm
    rcases hw : r.nextWord with ⟨_ | t, s⟩ <;> rw [hw] at hnext
    · unfold wordsExecutions runWords
      rw [bind_ok hnext, hnext]
      exact .nil (h.congr rfl rfl)
    · have hadvanced : r.Advances s := by
        have hadvances := Reader.advances_nextWord r
        rwa [hw] at hadvances
      have hread : NamesKept texts { m with readers := s :: rs } := h.congr rfl rfl
      have hsoundRead : Sound made { m with readers := s :: rs } := hsound.withContext _ _ _ _
      have hname : ∀ t' ∈ Machine.nextToken? { m with readers := s :: rs }, IsWordOf texts t' := by
        intro t' ht'
        have hword : s.nextWord = (some t', s.nextWord.2) := Prod.ext ht' rfl
        obtain ⟨hpath, hmem⟩ := Reader.mem_words_after hr hw hword
        exact ⟨text, hpath ▸ htext, hpath ▸ hmem⟩
      have htoken := names_token hsoundRead hread hname t
      have hends := sound_runToken .absent hsoundRead t
      obtain ⟨s', hadvances, hreaders⟩ :=
        readers_runToken (m := { m with readers := s :: rs }) rfl 0 t
      have hreaders : (left (runToken .absent t { m with readers := s :: rs })).readers = s' :: rs :=
        hreaders
      unfold wordsExecutions runWords
      rw [bind_ok hnext, hnext]
      dsimp only
      rw [bind_apply]
      generalize runToken .absent t { m with readers := s :: rs } = x at htoken hends hreaders
      cases hends with
      | failed => exact .append htoken.defined (.nil htoken.kept)
      | ok hsound =>
        obtain ⟨more, hsound⟩ := hsound
        have hrest := ih hsound htoken.kept hreaders
          ((hr.trans hadvanced).trans hadvances)
        exact .append htoken.defined hrest

theorem Documented.names (h : Documented texts es m) : Names texts es m := by
  induction h with
  | fresh => exact .nil ⟨fun e he => .inl he, nofun⟩
  | @run texts es m h depth path text ih =>
    have hscripted := h.recorded.scripted
    obtain ⟨made, hsound⟩ := hscripted.sound
    have hsub : texts ⊆ texts ++ [(path, text)] := List.subset_append_left _ _
    have htext : (path, text) ∈ texts ++ [(path, text)] :=
      List.mem_append_right _ (List.mem_singleton_self _)
    have hstart : Sound made (pushReader (.ofText path text) m) := hsound.withContext _ _ _ _
    have hkept : NamesKept (texts ++ [(path, text)]) (pushReader (.ofText path text) m) :=
      (ih.kept.mono hsub).congr rfl rfl
    have hwords := names_words hstart hkept htext rfl (.refl _)
      ((Reader.ofText path text).rest.length + 1)
    rw [run_of_scripted hscripted (.nested depth) .absent]
    unfold Machine.run Machine.withReader runExecutions
    rw [left_between]
    exact .append (fun x hx => (ih.defined x hx).mono hsub)
      ⟨hwords.kept.congr rfl rfl, hwords.defined⟩
  | setOutputFails _ fails ih => exact ⟨ih.kept.congr rfl rfl, ih.defined⟩
  | observe _ ih => exact ⟨ih.kept.congr rfl rfl, ih.defined⟩

/-- Whenever `VAR`, `CONST` or `;` succeeds in a machine that has only run texts, it adds one word,
and that word points at its name: at its place one of the texts run so far has a word whose upper
case is the name of the added word, which is not empty and has no blank in it. So does every word
of the dictionary that was not there to begin with. -/
theorem defined_words_point_at_names (h : Documented texts es m) :
    (∀ x ∈ es, x.builtIn ∈ BuiltIn.definers → ∀ n, x.result = .ok () n →
      ∃ w, n.dictionary = x.before.dictionary.insert w ∧ w.PointsAtName texts) ∧
    ∀ e ∈ m.dictionary.entries, e ∈ fresh.dictionary.entries ∨ e.2.PointsAtName texts :=
  ⟨h.names.defined, h.names.kept.dictionary⟩

/-- A definition that is opened in one text and closed in another one, which then fails. -/
theorem defined_words_point_at_names_spanning : ∃ (es : List Execution) (m : Machine) (w : Word),
    Documented [("a", "2 : sq  DUP"), ("b", "* ; VAR")] es m ∧
      (∃ x ∈ es, x.builtIn = .endDefinition ∧ ∃ n u, x.result = .ok () n ∧
        n.dictionary = x.before.dictionary.insert u ∧
        u.PointsAtName [("a", "2 : sq  DUP"), ("b", "* ; VAR")]) ∧
      m.dictionary.get? "SQ" = some w ∧ w.location = some ⟨"a", 1, 5⟩ ∧
      w.PointsAtName [("a", "2 : sq  DUP"), ("b", "* ; VAR")] := by
  have hdocumented := (Documented.fresh.run 0 "a" "2 : sq  DUP").run 0 "b" "* ; VAR"
  obtain ⟨hdefined, hnames⟩ := defined_words_point_at_names hdocumented
  have hcloses : (([] ++ runExecutions "a" "2 : sq  DUP" fresh) ++ runExecutions "b" "* ; VAR"
      (left (run (.nested 0) "a" "2 : sq  DUP" fresh))).any (fun x : Execution =>
        x.builtIn = BuiltIn.endDefinition ∧ succeeds x.result) = true := by
    decide +kernel
  have hplace : ((left (run (.nested 0) "b" "* ; VAR"
      (left (run (.nested 0) "a" "2 : sq  DUP" fresh)))).dictionary.get? "SQ").map (·.location) =
        some (some ⟨"a", 1, 5⟩) := by
    decide +kernel
  have hfresh : ∀ e ∈ fresh.dictionary.entries, e.2.location = none := by
    decide +kernel
  obtain ⟨x, hx, hclosed⟩ := List.any_eq_true.mp hcloses
  obtain ⟨hb, hsucceeds⟩ := of_decide_eq_true hclosed
  have hok : x.result = .ok () x.after := eq_ok_left hsucceeds
  obtain ⟨u, hu, hpoints⟩ := hdefined x hx (by rw [hb]; decide) _ hok
  obtain ⟨w, hw, hlocation⟩ := Option.map_eq_some_iff.mp hplace
  rcases hnames _ (Dictionary.mem_of_get? hw) with hold | hpointsLater
  · rw [hfresh _ hold] at hlocation
    cases hlocation
  · exact ⟨_, _, w, hdocumented, ⟨x, hx, hb, _, u, hok, hu, hpoints⟩, hw, hlocation, hpointsLater⟩

end WordStack
