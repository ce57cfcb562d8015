import WordStack.Proofs.CompileTime
import WordStack.Proofs.Failures
import WordStack.Proofs.Scripted
import WordStack.Proofs.TextWords

/-
  Literals and comments. A word that reads on takes what follows it, character by character up to
  its delimiter or, for a block comment, word by word (`Takes`); or the text ends before it comes
  to an end (`Unended`). One of the two is the case of every text (`takes_or_unended`).
  `literals_and_comments`: in the first case a literal pushes what it has taken, as it stands, and
  a comment nothing, and the text goes on right behind; in the second the word fails, and nothing
  has changed but what has been read. It makes no difference whether a definition is open.
-/
namespace WordStack

open Machine BuiltIn

/-- The words that read on to the end of a literal or a comment. -/
def BuiltIn.readsText : List BuiltIn := [.textLiteral, .blockComment, .parenComment, .lineComment]

/-- What a word takes of a text, what it pushes, if anything, and what is left of the text. -/
inductive Takes : BuiltIn → List Char → Option Value → List Char → Prop
  | literal {t : List Char} (ht : '"' ∉ t) (rest : List Char) :
    Takes .textLiteral (t ++ '"' :: rest) (some (.text (String.ofList t))) rest
  | paren {t : List Char} (ht : ')' ∉ t) (rest : List Char) :
    Takes .parenComment (t ++ ')' :: rest) none rest
  | line {t : List Char} (ht : '\n' ∉ t) (rest : List Char) :
    Takes .lineComment (t ++ '\n' :: rest) none rest
  | block {s : List Char} {c : Char} (hs : CommentWords s) (hc : isBlank c) (rest : List Char) :
    Takes .blockComment (s ++ c :: rest) none rest
  /-- The comment ends with the text. -/
  | lastBlock {s : List Char} (hs : CommentWords s) : Takes .blockComment s none []

/-- The delimiter of the word does not occur in the text, or no word of the text ends a comment. -/
def Unended : BuiltIn → List Char → Prop
  | .blockComment, cs => ∀ w ∈ runs cs, endsComment (String.ofList w) = false
  | b, cs => ∀ d ∈ b.delimiter?, d ∉ cs

variable {m : Machine} {r : Reader} {rs : List Reader} {cs blanks word rest : List Char}
  {l : Location} {b : BuiltIn} {v : Option Value}

theorem BuiltIn.mem_readsText : b ∈ readsText ↔
    b = .textLiteral ∨ b = .blockComment ∨ b = .parenComment ∨ b = .lineComment := by
  simp [readsText]

/-! ## Block comments -/

theorem CommentWords.after_blanks (h : ∀ c ∈ blanks, isBlank c) (hcs : CommentWords cs) :
    CommentWords (blanks ++ cs) := by
  induction blanks with
  | nil => exact hcs
  | cons c blanks ih =>
    exact .blank (h c List.mem_cons_self) (ih fun x hx => h x (List.mem_cons_of_mem _ hx))

theorem CommentWords.ne_nil (h : CommentWords cs) : cs ≠ [] := by
  cases h with
  | last hw _ => exact hw.ne_nil
  | _ => simp

/-- A comment goes on behind a word that does not end it. -/
theorem unended_of_firstWord (hfirst : HasFirstWord cs blanks word rest) :
    Unended .blockComment cs ↔
      endsComment (String.ofList word) = false ∧ Unended .blockComment rest := by
  simp only [Unended]
  rw [runs_of_firstWord hfirst, List.forall_mem_cons]

namespace Reader

theorem nextWord_of_firstWord (h : HasFirstWord cs blanks word rest) (l : Location) :
    ∃ k, (⟨cs, l⟩ : Reader).nextWord =
      (some ⟨String.ofList word, l.after blanks⟩, ⟨rest, k⟩) := by
  rcases h.split with ⟨rfl, rfl⟩ | ⟨c, hc, rfl⟩
  · exact ⟨_, nextWord_last h.blank h.isWord.ink h.isWord.ne_nil l⟩
  · exact ⟨_, nextWord_word h.blank h.isWord.ink h.isWord.ne_nil hc l⟩

/-- A block comment is read together with the blank that ends it. -/
theorem skipWordsTo_commentWords {s tail : List Char} (hs : CommentWords s) (htail : EndsWord tail)
    (l : Location) : (⟨s ++ tail, l⟩ : Reader).skipWordsTo endsComment =
      (true, ⟨tail.drop 1, l.after (s ++ tail.take 1)⟩) := by
  induction hs generalizing l with
  | @blank c s hc _ ih =>
    rw [List.cons_append, skipWordsTo_congr (nextWord_blank hc (s ++ tail) l), ih]
    rfl
  | @word w s c hw hgoes hc _ ih =>
    have hplace : (l.after (w ++ [c])).after (s ++ tail.take 1) =
        l.after (w ++ c :: s ++ tail.take 1) := by
      rw [← Location.after_append]
      simp only [List.append_assoc, List.cons_append, List.nil_append]
    rw [List.append_assoc, List.cons_append, skipWordsTo_eq, nextWord_opening hw hc]
    dsimp only
    rw [if_neg (by rw [hgoes]; exact Bool.false_ne_true), ih, hplace]
  | @last w hw hends =>
    rw [skipWordsTo_eq]
    cases tail with
    | nil =>
      rw [List.append_nil, nextWord_alone hw]
      dsimp only
      rw [if_pos hends, List.take_nil, List.append_nil, List.drop_nil]
    | cons c cs =>
      rw [nextWord_opening hw (htail c rfl)]
      dsimp only
      rw [if_pos hends]
      rfl

theorem skipWordsTo_unended (h : Unended .blockComment r.rest) :
    r.skipWordsTo endsComment = (false, ⟨[], r.location.after r.rest⟩) := by
  induction hlen : r.rest.length using Nat.strong_induction_on generalizing r with
  | _ len ih =>
    rw [skipWordsTo_eq]
    rcases hr : r.nextWord with ⟨_ | t, s⟩
    · have hblank := (nextWord_eq_none_iff r).mp (congrArg Prod.fst hr)
      rw [nextWord_of_blank hblank, skipBlanks_of_blank hblank] at hr
      obtain rfl : ⟨[], r.location.after r.rest⟩ = s := congrArg Prod.snd hr
      rfl
    · obtain ⟨blanks, hfirst, -⟩ := firstWord_of_nextWord hr
      obtain ⟨hgoes, hrest⟩ := (unended_of_firstWord hfirst).mp h
      have hadvances := advances_nextWord r
      rw [hr] at hadvances
      rw [String.ofList_toList] at hgoes
      dsimp only
      rw [if_neg (by rw [hgoes]; exact Bool.false_ne_true),
        ih _ (hlen ▸ length_rest_of_nextWord hr) hrest rfl]
      rw [hadvances.end_eq]

end Reader

/-! ## One word -/

/-- The machine after this has been pushed, if it is anything. -/
def Machine.given (m : Machine) : Option Value → Machine
  | some v => m.withActive (v :: m.active)
  | none => m

theorem Takes.ne_nil (h : Takes b cs v rest) : cs ≠ [] := by
  cases h with
  | lastBlock hs => exact hs.ne_nil
  | _ => simp

theorem Takes.after_blanks (hblanks : ∀ c ∈ blanks, isBlank c) (h : Takes .blockComment cs v rest) :
    Takes .blockComment (blanks ++ cs) v rest := by
  cases h with
  | block hs hc =>
    rw [← List.append_assoc]
    exact .block (hs.after_blanks hblanks) hc rest
  | lastBlock hs => exact .lastBlock (hs.after_blanks hblanks)

theorem Takes.after_word {c : Char} (hw : IsWord word)
    (hgoes : endsComment (String.ofList word) = false) (hc : isBlank c)
    (h : Takes .blockComment cs v rest) : Takes .blockComment (word ++ c :: cs) v rest := by
  cases h with
  | @block s d hs hd =>
    have htakes := Takes.block (.word hw hgoes hc hs) hd rest
    rwa [List.append_assoc] at htakes
  | lastBlock hs => exact .lastBlock (.word hw hgoes hc hs)

/-- A comment that ends with the first word takes the blank behind it as well. -/
theorem exists_takes_of_ends (hfirst : HasFirstWord cs blanks word rest)
    (hends : endsComment (String.ofList word) = true) : ∃ after, Takes .blockComment cs none after := by
  have hlast : CommentWords (blanks ++ word) :=
    .after_blanks hfirst.blank (.last hfirst.isWord hends)
  rcases hfirst.split with ⟨rfl, -⟩ | ⟨c, hc, rfl⟩
  · exact ⟨[], .lastBlock hlast⟩
  · rw [← List.append_assoc]
    exact ⟨rest, .block hlast hc rest⟩

theorem Takes.of_firstWord {after : List Char} (hfirst : HasFirstWord cs blanks word rest)
    (hgoes : endsComment (String.ofList word) = false) (h : Takes .blockComment rest v after) :
    Takes .blockComment cs v after := by
  rcases hfirst.split with ⟨-, rfl⟩ | ⟨c, hc, rfl⟩
  · exact absurd rfl h.ne_nil
  · exact (h.after_word hfirst.isWord hgoes hc).after_blanks hfirst.blank

theorem takes_or_unended_block (cs : List Char) :
    (∃ rest, Takes .blockComment cs none rest) ∨ Unended .blockComment cs := by
  induction hlen : cs.length using Nat.strong_induction_on generalizing cs with
  | _ len ih =>
    rcases hr : (⟨cs, .unspecified⟩ : Reader).nextWord with ⟨_ | t, s⟩
    · have hblank := (Reader.nextWord_eq_none_iff _).mp (congrArg Prod.fst hr)
      refine .inr fun w hw => ?_
      rw [runs_of_blank hblank] at hw
      cases hw
    · obtain ⟨blanks, hfirst, -⟩ := Reader.firstWord_of_nextWord hr
      have hlt : s.rest.length < len := hlen ▸ Reader.length_rest_of_nextWord hr
      cases hends : endsComment (String.ofList t.text.toList) with
      | true => exact .inl (exists_takes_of_ends hfirst hends)
      | false =>
        rcases ih _ hlt s.rest rfl with ⟨after, htakes⟩ | hunended
        · exact .inl ⟨after, .of_firstWord hfirst hends htakes⟩
        · exact .inr ((unended_of_firstWord hfirst).mpr ⟨hends, hunended⟩)

/-- A literal or a comment comes to an end, or the text does. -/
theorem takes_or_unended (hb : b ∈ readsText) (cs : List Char) :
    (∃ v rest, Takes b cs v rest) ∨ Unended b cs := by
  have hdelimited : ∀ d : Char, d ∉ cs ∨ ∃ t rest, d ∉ t ∧ cs = t ++ d :: rest := by
    intro d
    by_cases hd : d ∈ cs
    · obtain ⟨t, rest, hcs, ht⟩ := List.eq_append_cons_of_mem hd
      exact .inr ⟨t, rest, ht, hcs⟩
    · exact .inl hd
  rcases mem_readsText.mp hb with rfl | rfl | rfl | rfl
  · rcases hdelimited '"' with hd | ⟨t, rest, ht, rfl⟩
    · exact .inr fun d h => Option.some.inj h ▸ hd
    · exact .inl ⟨_, rest, .literal ht rest⟩
  · exact (takes_or_unended_block cs).imp_left fun ⟨rest, h⟩ => ⟨none, rest, h⟩
  · rcases hdelimited ')' with hd | ⟨t, rest, ht, rfl⟩
    · exact .inr fun d h => Option.some.inj h ▸ hd
    · exact .inl ⟨_, rest, .paren ht rest⟩
  · rcases hdelimited '\n' with hd | ⟨t, rest, ht, rfl⟩
    · exact .inr fun d h => Option.some.inj h ▸ hd
    · exact .inl ⟨_, rest, .line ht rest⟩

theorem run_of_takes (h : Takes b cs v rest) (hm : m.readers = ⟨cs, l⟩ :: rs) :
    ∃ k, (⟨cs, l⟩ : Reader).Advances ⟨rest, k⟩ ∧
      b.run m = .ok () { m.given v with readers := ⟨rest, k⟩ :: rs } := by
  cases h with
  | @literal t ht =>
    refine ⟨l.after (t ++ ['"']), ⟨t ++ ['"'], by simp, rfl⟩, ?_⟩
    refine (bind_ok (textUpTo_found ht hm) _).trans ?_
    rw [push_apply]
    unfold given withActive active
    cases m.mode <;> rfl
  | @paren t ht =>
    refine ⟨l.after (t ++ [')']), ⟨t ++ [')'], by simp, rfl⟩, ?_⟩
    refine (discard_apply _ _).trans ?_
    rw [textUpTo_found ht hm]
    rfl
  | @line t ht =>
    refine ⟨l.after (t ++ ['\n']), ⟨t ++ ['\n'], by simp, rfl⟩, ?_⟩
    refine (discard_apply _ _).trans ?_
    rw [textUpTo_found ht hm]
    rfl
  | @block s c hs hc =>
    have hskip := Reader.skipWordsTo_commentWords hs (.cons hc rest) l
    refine ⟨l.after (s ++ [c]), ⟨s ++ [c], by simp, rfl⟩, ?_⟩
    refine (skipWordsTo_of_cons hm).trans ?_
    rw [hskip, if_pos rfl]
    rfl
  | lastBlock hs =>
    have hend : EndsWord [] := nofun
    have hskip := Reader.skipWordsTo_commentWords hs hend l
    rw [List.append_nil] at hskip
    refine ⟨l.after cs, ⟨cs, by simp, rfl⟩, ?_⟩
    refine (skipWordsTo_of_cons hm).trans ?_
    rw [hskip, if_pos rfl]
    simp [given]

theorem run_of_unended (hb : b ∈ readsText) (h : Unended b cs) (hm : m.readers = ⟨cs, l⟩ :: rs) :
    ∃ e : Error, e.cause = .unexpectedEnd ∧
      b.run m = .error (.failed e) { m with readers := ⟨[], l.after cs⟩ :: rs } := by
  have hdelimited : ∀ d, b.delimiter? = some d → d ∉ cs → ∃ e : Error, e.cause = .unexpectedEnd ∧
      b.run m = .error (.failed e) { m with readers := ⟨[], l.after cs⟩ :: rs } := by
    intro d hd hmissing
    have hread : textUpTo d m = .error (.failed ⟨some l, .unexpectedEnd, some m.calls⟩)
        { m with readers := ⟨[], l.after cs⟩ :: rs } := by
      rw [textUpTo_of_cons hm, Reader.textUpTo_missing hmissing]
    exact ⟨_, rfl, run_of_textUpTo hd hread⟩
  rcases mem_readsText.mp hb with rfl | rfl | rfl | rfl
  · exact hdelimited '"' rfl (h '"' rfl)
  · have hskip := Reader.skipWordsTo_unended (r := ⟨cs, l⟩) h
    refine ⟨⟨m.location, .unexpectedEnd, some m.calls⟩, rfl, (skipWordsTo_of_cons hm).trans ?_⟩
    rw [hskip, if_neg Bool.false_ne_true]
    rfl
  · exact hdelimited ')' rfl (h ')' rfl)
  · exact hdelimited '\n' rfl (h '\n' rfl)

/-! ## One turn of a run -/

/-- One turn of the loop over the words of a text. -/
def Machine.turn (host : Host) : Act Unit := do
  match ← nextWord with
  | none => pure ()
  | some token => runToken host token

variable {t : Token} {s : Reader}

theorem turn_of_token (host : Host) (hm : m.readers = r :: rs) (hr : r.nextWord = (some t, s)) :
    turn host m = runToken host t { m with readers := s :: rs } := by
  have hnext : nextWord m = .ok (some t) { m with readers := s :: rs } := by
    rw [nextWord_of_cons hm, hr]
  unfold turn
  rw [bind_ok hnext]

/-- Reading on is one turn after the other. -/
theorem readOn_of_turn (depth : Nat) (hm : m.readers = r :: rs) (hr : r.nextWord = (some t, s)) :
    readOn (.nested depth) m = (do turn (.nested depth); readOn (.nested depth)) m := by
  rw [readOn_of_token depth hm hr, bind_apply, bind_apply, turn_of_token _ hm hr]

/-- A word that reads on does so right behind itself, in a call of its own. -/
theorem turn_of_stands (host : Host) (hfirst : HasFirstWord r.rest blanks word rest)
    (hm : m.readers = r :: rs) (hd : m.dictionary.Stands (String.ofList word) b)
    (hb : b.isImmediate = true) : ∃ k c, r.Advances ⟨rest, k⟩ ∧
      turn host m = duringCall c b.run
        (m.reading (⟨rest, k⟩ :: rs) (some (r.location.after blanks)) m.events) := by
  obtain ⟨u, hu, himm, hdefinition⟩ := hd
  obtain ⟨k, hr⟩ := Reader.nextWord_of_firstWord hfirst r.location
  have hadvances := Reader.advances_nextWord r
  rw [hr] at hadvances
  refine ⟨k, ⟨u.name, r.location.after blanks⟩, hadvances, ?_⟩
  rw [turn_of_token host hm hr]
  exact runToken_immediate (m := { m with readers := ⟨rest, k⟩ :: rs }) host hu (himm.trans hb)
    hdefinition

/-- What is pushed in a call stays there after it. -/
theorem given_called (m : Machine) (v : Option Value) (c : Call) (rs rs' : List Reader)
    (l : Option Location) (es : List Event) :
    leaveCall { (enterCall c (m.reading rs l es)).given v with readers := rs' } =
      (m.given v).reading rs' l (.executedWord c.word :: es) := by
  obtain ⟨data, buffer, mode⟩ := m
  cases mode <;> cases v <;> rfl

/-- Where the next word of a text still stands for one of these built-in words, the word takes the
text behind it and the one blank that ends it. If the literal or the comment comes to an end there,
the literal is pushed as it stands, nothing else has changed but the place and the events, and the
run goes on right behind. The word fails for want of text exactly if there is no such end, and then
only the rest of the text has been read. The machine may be in any state and in either mode. -/
theorem literals_and_comments (hm : m.readers = r :: rs)
    (hfirst : HasFirstWord r.rest blanks word rest)
    (hd : m.dictionary.Stands (String.ofList word) b) (hb : b ∈ readsText) (depth : Nat) :
    readOn (.nested depth) m = (do turn (.nested depth); readOn (.nested depth)) m ∧
    (∀ v after, Takes b rest v after → ∃ l es, r.Advances ⟨after, l⟩ ∧
      turn (.nested depth) m = .ok () ((m.given v).reading (⟨after, l⟩ :: rs)
        (some (r.location.after blanks)) es)) ∧
    (FailsFor .unexpectedEnd (turn (.nested depth) m) ↔ Unended b rest) ∧
    (Unended b rest → ∃ e es, e.cause = .unexpectedEnd ∧
      turn (.nested depth) m = .error (.failed e) (m.reading
        (⟨[], r.location.after r.rest⟩ :: rs) (some (r.location.after blanks)) es)) := by
  have himm : b.isImmediate = true := by
    rcases mem_readsText.mp hb with rfl | rfl | rfl | rfl <;> rfl
  obtain ⟨k, c, hadvances, hturn⟩ := turn_of_stands (.nested depth) hfirst hm hd himm
  obtain ⟨j, hr⟩ := Reader.nextWord_of_firstWord hfirst r.location
  have htakes : ∀ v after, Takes b rest v after → ∃ l es, r.Advances ⟨after, l⟩ ∧
      turn (.nested depth) m = .ok () ((m.given v).reading (⟨after, l⟩ :: rs)
        (some (r.location.after blanks)) es) := by
    intro v after h
    obtain ⟨l, hafter, hrun⟩ := run_of_takes (m := enterCall c
      (m.reading (⟨rest, k⟩ :: rs) (some (r.location.after blanks)) m.events)) h rfl
    have hcall := given_called m v c (⟨rest, k⟩ :: rs) (⟨after, l⟩ :: rs)
      (some (r.location.after blanks)) m.events
    exact ⟨l, _, hadvances.trans hafter,
      hturn.trans ((between_ok hrun).trans (congrArg (EStateM.Result.ok ()) hcall))⟩
  have hunended : Unended b rest → ∃ e es, e.cause = .unexpectedEnd ∧
      turn (.nested depth) m = .error (.failed e) (m.reading
        (⟨[], r.location.after r.rest⟩ :: rs) (some (r.location.after blanks)) es) := by
    intro h
    obtain ⟨e, hcause, hrun⟩ := run_of_unended (m := enterCall c
      (m.reading (⟨rest, k⟩ :: rs) (some (r.location.after blanks)) m.events)) hb h rfl
    refine ⟨e, .executedWord c.word :: m.events, hcause, hturn.trans ((between_error hrun).trans ?_)⟩
    rw [← hadvances.end_eq]
    rfl
  refine ⟨readOn_of_turn depth hm hr, htakes, ⟨fun ⟨e, n, hfails, _⟩ => ?_, fun h => ?_⟩, hunended⟩
  · rcases takes_or_unended hb rest with ⟨v, after, h⟩ | h
    · obtain ⟨l, es, -, hok⟩ := htakes v after h
      rw [hok] at hfails
      cases hfails
    · exact h
  · obtain ⟨e, es, hcause, hfails⟩ := hunended h
    exact ⟨e, _, hfails, hcause⟩

/-- While a definition is open: a literal with a comment sign in it, right before a word, and a
comment whose last word does not end with the sign. -/
theorem literals_and_comments_compiling : ∃ m : Machine, Scripted m ∧ m.mode = .compiling ∧
    (∃ l es, turn (.nested 0) (pushReader (.ofText "s" "\"  1 /* \"DROP") m) =
      .ok () (((pushReader (.ofText "s" "\"  1 /* \"DROP") m).given (some (.text " 1 /* "))).reading
        [⟨['D', 'R', 'O', 'P'], l⟩] (some ⟨"s", 1, 1⟩) es)) ∧
    FailsFor .unexpectedEnd (turn (.nested 0) (pushReader (.ofText "s" "/* 1 */2") m)) := by
  have hscripted := Scripted.fresh.run 0 "s" ": A"
  have hmode : (left (run (.nested 0) "s" ": A" fresh)).mode = .compiling := by decide +kernel
  have hliteral : (left (run (.nested 0) "s" ": A" fresh)).dictionary.Stands "\"" .textLiteral := by
    decide +kernel
  have hcomment : (left (run (.nested 0) "s" ": A" fresh)).dictionary.Stands "/*" .blockComment := by
    decide +kernel
  have hreaders := hscripted.atRest.2
  generalize left (run (.nested 0) "s" ": A" fresh) = m at *
  have hfirst : HasFirstWord (Reader.ofText "s" "\"  1 /* \"DROP").rest [] ['"']
      " 1 /* \"DROP".toList := ⟨nofun, .of_all nofun rfl, .inr ⟨' ', rfl, rfl⟩⟩
  have hfirst' : HasFirstWord (Reader.ofText "s" "/* 1 */2").rest [] ['/', '*'] "1 */2".toList :=
    ⟨nofun, .of_all nofun rfl, .inr ⟨' ', rfl, rfl⟩⟩
  have hread : ∀ r : Reader, (pushReader r m).readers = [r] := fun r => congrArg (r :: ·) hreaders
  have htext : Takes .textLiteral " 1 /* \"DROP".toList (some (.text " 1 /* "))
      ['D', 'R', 'O', 'P'] := .literal (t := " 1 /* ".toList) (by decide) _
  have hunended : Unended .blockComment "1 */2".toList := by
    unfold Unended
    decide
  obtain ⟨-, htakes, -⟩ := literals_and_comments (hread _) hfirst hliteral (by decide) 0
  obtain ⟨-, -, hfails, -⟩ := literals_and_comments (hread _) hfirst' hcomment (by decide) 0
  obtain ⟨l, es, -, hturn⟩ := htakes _ _ htext
  exact ⟨m, hscripted, hmode, ⟨l, es, hturn⟩, hfails.mpr hunended⟩

end WordStack
