import WordStack.Proofs.Executions
import WordStack.Proofs.Outcomes
import WordStack.Proofs.Splitting
import WordStack.Proofs.Uppercase

/-
  What the error of a failed run says: its place is that of the word last read, and its calls lead
  from that word to the built-in word that failed. The calls and the place are kept by the machine
  and taken down again by every call, so the statement for one word of a text is an induction
  over the words that it leads to (`stops_execute`), in which every word that succeeds leaves the
  place and the calls as it found them.
  Three failures are told otherwise: a word that is neither in the dictionary nor a number, a text
  that ends inside a literal or a comment, and an output that fails (`Explains`).
-/
namespace WordStack

open Machine

/-- Executing the first word, which is compiled, executes the second. -/
def Word.Calls (w v : Word) : Prop := ∃ body, w.definition = .compiled body ∧ .word v ∈ body

theorem Word.Calls.uses {w v : Word} (h : w.Calls v) : w.Uses v := by
  obtain ⟨body, hw, hv⟩ := h
  exact Word.uses_of_compiled hw hv

/-- No calls lead from a built-in word. -/
theorem Word.Calls.nil_of_builtIn {w : Word} {path : List Word} {b : BuiltIn}
    (h : (w :: path).IsChain Word.Calls) (hw : w.definition = .builtIn b) : path = [] := by
  cases path with
  | nil => rfl
  | cons v path =>
    obtain ⟨body, hbody, -⟩ := (List.isChain_cons_cons.mp h).1
    cases hw.symm.trans hbody

/-- What is true of the words in the values of the first word, and of all they lead to, is true of
the last word of a chain of calls, unless the first word is the last. -/
theorem Word.Calls.last {p : Word → Prop} {w u : Word} {path : List Word}
    (hw : ∀ v, w.Uses v → v.Within p) (h : (w :: path).IsChain Word.Calls)
    (hu : (w :: path).getLast? = some u) : (path = [] ∧ u = w) ∨ p u := by
  induction path generalizing w with
  | nil => exact .inl ⟨rfl, (Option.some.inj hu).symm⟩
  | cons v path ih =>
    obtain ⟨hcall, hchain⟩ := List.isChain_cons_cons.mp h
    have hv := hw v hcall.uses
    rw [List.getLast?_cons_cons] at hu
    rcases ih (fun x hx => hv.of_uses hx) hchain hu with ⟨-, rfl⟩ | hp
    · exact .inr hv.self
    · exact .inr hp

namespace Machine

/-! ## The failing word of a text -/

/-- The word that the loop over the words of a text reads last, and the machine right after it is
read. -/
def lastRead (host : Host) : Nat → Machine → Option (Token × Machine)
  | 0, _ => none
  | k + 1, m =>
    match nextWord m with
    | .ok (some t) n =>
      match runToken host t n with
      | .ok _ n' => (lastRead host k n').or (some (t, n))
      | .error _ _ => some (t, n)
    | _ => none

/-- The word that a run reads last, and the machine right after it is read. -/
def lastToken (host : Host) (path text : String) (m : Machine) : Option (Token × Machine) :=
  let r := Reader.ofText path text
  lastRead host (r.rest.length + 1) (pushReader r m)

/-- The word is neither in the dictionary nor a number. -/
def Unresolvable (t : Token) (m : Machine) : Prop :=
  m.dictionary.get? t.text = none ∧ Number.parse? (Text.uppercase t.text) = none

/-- The word opens a literal or a comment that is not closed in the rest of the text. -/
def Unterminated (t : Token) (m : Machine) (w : Word) (r : Reader) : Prop :=
  m.dictionary.get? t.text = some w ∧ m.readers.head? = some r ∧
    ∃ b d, w.definition = .builtIn b ∧ b.delimiter? = some d ∧ d ∉ r.rest

/-- The last thing that the word executes is to write something, and the output fails. -/
def OutputFailed (t : Token) (m : Machine) : Prop :=
  ∃ x, (tokenExecutions t m).getLast? = some x ∧ x.builtIn.WriteFails x.before

/-- The calls of these words, one by the other and all from one place, innermost first. -/
def callsFrom (l : Location) (path : List Word) : List Call :=
  (path.map fun w => ⟨w.name, l⟩).reverse

/-- The last of the executions stopped, in calls that lead to it along this path. -/
structure StopsAlong (l : Location) (path : List Word) (x : Execution) (halt : Halt)
    (es : List Execution) (below : List Call) : Prop where
  chain : path.IsChain Word.Calls
  builtIn : ∃ w, path.getLast? = some w ∧ w.definition = .builtIn x.builtIn
  last : es.getLast? = some x
  stops : ∃ n, x.result = .error halt n
  location : x.before.location = some l
  calls : x.before.calls = callsFrom l path ++ below

/-- What an error says about the word of the text that failed. -/
structure Explains (t : Token) (m : Machine) (e : Error) : Prop where
  unresolvable : Unresolvable t m →
    e = ⟨some t.location, .unknownWord (Text.uppercase t.text), some []⟩
  unterminated : ∀ w r, Unterminated t m w r →
    e = ⟨some r.location, .unexpectedEnd, some [⟨w.name, t.location⟩]⟩
  output : OutputFailed t m → ∃ text, e = ⟨none, .io text, none⟩
  otherwise : ¬ Unresolvable t m → (∀ w r, ¬ Unterminated t m w r) → ¬ OutputFailed t m →
    ∃ w path x, m.dictionary.get? t.text = some w ∧
      StopsAlong t.location (w :: path) x (.failed e) (tokenExecutions t m) [] ∧
      e.location = some t.location ∧ e.calls = some (callsFrom t.location (w :: path))

variable {made : List Word} {m n : Machine} {l : Location} {halt : Halt}

/-! ## Calls that fail -/

/-- A word without host words stays at the place where it is executed. -/
theorem location_execute (h : m.location = some l) (k : Location) (w : Word) :
    (left (execute .absent k w m)).location = some l := by
  have hQ : OutlastsCalls (fun _ m => m.location = some l) fun _ => True := by
    refine ⟨fun _ h => h, fun h => h, fun _ _ h => ?_, fun _ _ h => ?_, fun _ _ h => ?_⟩
    · exact (BuiltIn.run_place _ _).1.trans h
    · exact (withActive_place _ _).1.trans h
    · exact (withActive_place _ _).1.trans h
  exact @OutlastsCalls.execute _ _ [] _ hQ _ (fun _ _ => trivial) h k

theorem StopsAlong.of_append {path : List Word} {x : Execution} {es : List Execution}
    {below : List Call} (h : StopsAlong l path x halt es below) (ds : List Execution) :
    StopsAlong l path x halt (ds ++ es) below where
  chain := h.chain
  builtIn := h.builtIn
  last := by rw [List.getLast?_append, h.last, Option.some_or]
  stops := h.stops
  location := h.location
  calls := h.calls

/-- A call of the path's first word comes before the path. -/
theorem StopsAlong.call {w v : Word} {path : List Word} {x : Execution} {es : List Execution}
    {below : List Call} (h : StopsAlong l (v :: path) x halt es (⟨w.name, l⟩ :: below))
    (hw : w.Calls v) : StopsAlong l (w :: v :: path) x halt es below where
  chain := .cons_cons hw h.chain
  builtIn := h.builtIn
  last := h.last
  stops := h.stops
  location := h.location
  calls := by simp [h.calls, callsFrom]

/-- A body that fails does so in one of its words. -/
theorem stops_items {vs : List Value}
    (hwords : ∀ u, .word u ∈ vs → ∀ {m n}, m.location = some l →
      execute .absent l u m = .error halt n →
      ∃ path x, StopsAlong l (u :: path) x halt (wordExecutions l u m) m.calls)
    (hm : m.location = some l) (h : executeItems .absent l vs m = .error halt n) :
    ∃ u path x, .word u ∈ vs ∧
      StopsAlong l (u :: path) x halt (itemsExecutions l vs m) m.calls := by
  induction vs generalizing m with
  | nil => cases h
  | cons v vs ih =>
    have hrest := fun m => ih (m := m) fun u hu => hwords u (List.mem_cons_of_mem _ hu)
    cases v with
    | word u =>
      cases hu : execute .absent l u m with
      | error halt' n' =>
        have hstop : executeItems .absent l (.word u :: vs) m = .error halt' n' := bind_error hu _
        obtain ⟨rfl, rfl⟩ := EStateM.Result.error.inj (h.symm.trans hstop)
        obtain ⟨path, x, hx⟩ := hwords u List.mem_cons_self hm hu
        refine ⟨u, path, x, List.mem_cons_self, ?_⟩
        rw [itemsExecutions, hu]
        unfold continued
        rwa [List.append_nil]
      | ok _ k =>
        have hgo : executeItems .absent l (.word u :: vs) m = executeItems .absent l vs k :=
          bind_ok hu _
        have hloc : k.location = some l := by
          have hleft := location_execute hm l u
          rwa [hu] at hleft
        have hcalls : k.calls = m.calls := by
          have hleft := (execute_left 0 l u m).calls
          rwa [show execute (.nested 0) l u m = .ok _ k from hu] at hleft
        obtain ⟨v, path, x, hv, hx⟩ := hrest k hloc (hgo ▸ h)
        refine ⟨v, path, x, List.mem_cons_of_mem _ hv, ?_⟩
        rw [itemsExecutions, hu, ← hcalls]
        exact hx.of_append _
    | number | text | cell =>
      obtain ⟨hplace, hcalls⟩ := withActive_place m (_ :: m.active)
      obtain ⟨v, path, x, hv, hx⟩ := hrest _ (hplace.trans hm) h
      exact ⟨v, path, x, List.mem_cons_of_mem _ hv, hcalls ▸ hx⟩

/-- A word that fails does so in a built-in word that it leads to, along calls from one place. -/
theorem stops_execute {w : Word} (hw : w.Within fun v => ∀ body, v.definition ≠ .host body)
    (hm : m.location = some l) (h : execute .absent l w m = .error halt n) :
    ∃ path x, StopsAlong l (w :: path) x halt (wordExecutions l w m) m.calls := by
  induction w using Word.uses_induction generalizing m n with
  | h w ih =>
    have hhost := hw.self
    have hused : ∀ u, .word u ∈ w.definition.values → ∀ {m n}, m.location = some l →
        execute .absent l u m = .error halt n →
        ∃ path x, StopsAlong l (u :: path) x halt (wordExecutions l u m) m.calls :=
      fun u hu m n hm h => ih u hu (hw.of_uses hu) hm h
    have hdefinition : ∃ n', executeDefinition .absent w.definition (enterCall ⟨w.name, l⟩ m) =
        .error halt n' := by
      rw [execute_eq] at h
      unfold duringCall between at h
      split at h
      · cases h
      · next halt' n' hdef =>
        obtain ⟨rfl, -⟩ := EStateM.Result.error.inj h
        exact ⟨n', hdef⟩
    obtain ⟨n', hdefinition⟩ := hdefinition
    rw [wordExecutions_eq]
    cases hd : w.definition with
    | builtIn b =>
      rw [hd] at hdefinition
      refine ⟨[], ⟨b, enterCall ⟨w.name, l⟩ m⟩, .singleton w, ⟨w, rfl, hd⟩, rfl, ⟨n', hdefinition⟩,
        hm, rfl⟩
    | host body => exact absurd hd (hhost body)
    | «variable» | constant =>
      rw [hd] at hdefinition
      cases hdefinition
    | compiled body =>
      rw [hd] at hdefinition hused
      have hplace : (enterCall ⟨w.name, l⟩ m).location = some l := hm
      have hstart : executeBody .absent body (enterCall ⟨w.name, l⟩ m) = executeItems .absent
          ((enterCall ⟨w.name, l⟩ m).location.getD .unspecified) body
          (enterCall ⟨w.name, l⟩ m) := rfl
      rw [executeDefinition_compiled, hstart, hplace] at hdefinition
      obtain ⟨u, path, x, hu, hx⟩ := stops_items hused hplace hdefinition
      refine ⟨u :: path, x, ?_⟩
      rw [definitionExecutions, hplace]
      exact hx.call ⟨body, hd, hu⟩

/-! ## Texts that are not closed -/

theorem textUpTo_of_not_mem {r : Reader} {rs : List Reader} {d : Char} (hr : m.readers = r :: rs)
    (hd : d ∉ r.rest) :
    ∃ n, textUpTo d m = .error (.failed ⟨some r.location, .unexpectedEnd, some m.calls⟩) n := by
  refine ⟨{ m with readers := ⟨[], r.location.after r.rest⟩ :: rs }, ?_⟩
  rw [textUpTo_of_cons hr, Reader.textUpTo_missing hd]

theorem not_mem_of_textUpTo {r : Reader} {rs : List Reader} {d : Char} (hr : m.readers = r :: rs)
    (h : textUpTo d m = .error halt n) : d ∉ r.rest := by
  intro hd
  obtain ⟨cs, ds, hrest, hcs⟩ := List.eq_append_cons_of_mem hd
  have hfound : (⟨cs ++ d :: ds, r.location⟩ : Reader).textUpTo d = _ :=
    Reader.textUpTo_found hcs r.location
  rw [← hrest] at hfound
  rw [textUpTo_of_cons hr, hfound] at h
  cases h

theorem run_of_textUpTo {b : BuiltIn} {d : Char} (hb : b.delimiter? = some d)
    (h : textUpTo d m = .error halt n) : b.run m = .error halt n := by
  cases b with
  | textLiteral =>
    obtain rfl := Option.some.inj hb
    exact bind_error h _
  | parenComment | lineComment =>
    obtain rfl := Option.some.inj hb
    exact (discard_apply _ m).trans (by rw [h])
  | _ => cases hb

/-! ## One word of a text -/

/-- The only built-in word of a built-in word starts on the same text. -/
theorem readers_of_last {w : Word} {b : BuiltIn} {x : Execution} (hw : w.definition = .builtIn b)
    (h : (wordExecutions l w m).getLast? = some x) : x.before.readers = m.readers := by
  rw [wordExecutions_eq, hw] at h
  obtain rfl : ⟨b, enterCall ⟨w.name, l⟩ m⟩ = x := Option.some.inj h
  rfl

/-- A word of a text that is found in the dictionary fails in a built-in word. This is the word
itself, or else no immediate word. -/
theorem runToken_stops {t : Token} {w : Word} (hsound : m.Sound made)
    (hw : m.dictionary.get? t.text = some w) (h : runToken .absent t m = .error halt n) :
    ∃ path x, StopsAlong t.location (w :: path) x halt (tokenExecutions t m) m.calls ∧
      (path = [] → w.definition = .builtIn x.builtIn ∧ x.before.readers = m.readers) ∧
      (path ≠ [] → x.builtIn.isImmediate = false) := by
  rw [← Dictionary.get?_uppercase] at hw
  have hout := runToken_outcome .absent t m
  generalize runToken .absent t m = y at h hout
  cases hout with
  | collected | number => cases h
  | unknown hnone =>
    rw [hw] at hnone
    cases hnone
  | @executed v hv hexec =>
    obtain rfl : v = w := Option.some.inj (hv.symm.trans hw)
    rw [tokenExecutions_of_executed hv hexec]
    obtain ⟨path, x, hx⟩ := stops_execute (hsound.hostless hw) rfl h
    obtain ⟨u, hu, hdef⟩ := hx.builtIn
    refine ⟨path, x, hx, fun hnil => ?_, fun hne => ?_⟩
    · subst hnil
      obtain rfl := Option.some.inj hu
      have hsame := readers_of_last hdef hx.last
      exact ⟨hdef, hsame⟩
    · have hvalues := (hsound.dictionary _ (Dictionary.mem_of_get? hw)).2
      have hportable :=
        Word.Calls.last (fun v hv => Value.within_word.mp (hvalues _ hv)) hx.chain hu
      rcases hportable with ⟨hnil, -⟩ | hportable
      · exact absurd hnil hne
      · have himm := hportable.isImmediate
        rw [hportable.notImmediate, hdef] at himm
        exact himm.symm

theorem runToken_unresolvable {t : Token} (ht : Unresolvable t m) :
    ∃ n, runToken .absent t m =
      .error (.failed ⟨some t.location, .unknownWord (Text.uppercase t.text), some m.calls⟩) n := by
  obtain ⟨hw, hx⟩ := ht
  rw [← Dictionary.get?_uppercase] at hw
  exact ⟨_, runToken_unknown .absent hw hx⟩

/-- A number is pushed. -/
theorem get?_of_runToken {t : Token} (h : runToken .absent t m = .error halt n)
    (ht : ¬ Unresolvable t m) : ∃ w, m.dictionary.get? t.text = some w := by
  have hout := runToken_outcome .absent t m
  generalize runToken .absent t m = y at h hout
  cases hout with
  | executed hw | collected hw => exact ⟨_, (Dictionary.get?_uppercase _ _).symm.trans hw⟩
  | number => cases h
  | unknown hw hx => exact absurd ⟨(Dictionary.get?_uppercase _ _).symm.trans hw, hx⟩ ht

theorem isImmediate_of_delimiter {b : BuiltIn} {d : Char} (h : b.delimiter? = some d) :
    b.isImmediate = true := by
  cases b <;> first | rfl | cases h

/-- A word that is not in the dictionary fails as such. -/
theorem explains_unresolvable {t : Token} (ht : Unresolvable t m) (hcalls : m.calls = []) :
    Explains t m ⟨some t.location, .unknownWord (Text.uppercase t.text), some m.calls⟩ where
  unresolvable _ := by rw [hcalls]
  unterminated w r h := by
    cases ht.1.symm.trans h.1
  output h := by
    obtain ⟨x, hx, -⟩ := h
    rw [tokenExecutions_of_none ((Dictionary.get?_uppercase _ _).trans ht.1)] at hx
    cases hx
  otherwise h := absurd ht h

section

variable {t : Token} {w : Word} {path : List Word} {x : Execution} {r : Reader} {rs : List Reader}
  {e : Error}

/-- A literal or comment that is not closed is what failed, since the word that opens it is built
in and calls no other. -/
theorem error_of_unterminated {w' : Word} {r' : Reader}
    (hw : m.dictionary.get? t.text = some w) (hcalls : m.calls = [])
    (hreaders : m.readers = r :: rs)
    (hx : StopsAlong t.location (w :: path) x (.failed e) (tokenExecutions t m) m.calls)
    (hself : path = [] → w.definition = .builtIn x.builtIn ∧ x.before.readers = m.readers)
    (ht : Unterminated t m w' r') :
    e = ⟨some r'.location, .unexpectedEnd, some [⟨w'.name, t.location⟩]⟩ := by
  obtain ⟨hw', hr', b, d, hdef, hd, hnot⟩ := ht
  obtain rfl := Option.some.inj (hw.symm.trans hw')
  rw [hreaders] at hr'
  obtain rfl : r = r' := Option.some.inj hr'
  have hnil := Word.Calls.nil_of_builtIn hx.chain hdef
  obtain ⟨hb, hsame⟩ := hself hnil
  obtain rfl : b = x.builtIn := by injection hdef.symm.trans hb
  obtain ⟨n, hstop⟩ := hx.stops
  obtain ⟨n', hopen⟩ := textUpTo_of_not_mem (hsame.trans hreaders) hnot
  obtain ⟨hhalt, -⟩ := EStateM.Result.error.inj (hstop.symm.trans (run_of_textUpTo hd hopen))
  rw [hx.calls, hcalls, hnil] at hhalt
  injection hhalt

theorem error_of_outputFailed
    (hx : StopsAlong t.location (w :: path) x (.failed e) (tokenExecutions t m) m.calls)
    (hout : OutputFailed t m) : ∃ text, e = ⟨none, .io text, none⟩ := by
  obtain ⟨y, hy, hfails⟩ := hout
  obtain rfl := Option.some.inj (hx.last.symm.trans hy)
  obtain ⟨n, hstop⟩ := hx.stops
  obtain ⟨n', hclosed⟩ := BuiltIn.run_of_writeFails hfails
  obtain ⟨hhalt, -⟩ := EStateM.Result.error.inj (hstop.symm.trans hclosed)
  injection hhalt with he
  exact ⟨_, he⟩

/-- What the error says of a word that is found in the dictionary. -/
theorem explains_stops (hw : m.dictionary.get? t.text = some w) (hcalls : m.calls = [])
    (hreaders : m.readers = r :: rs)
    (hx : StopsAlong t.location (w :: path) x (.failed e) (tokenExecutions t m) m.calls)
    (hself : path = [] → w.definition = .builtIn x.builtIn ∧ x.before.readers = m.readers)
    (himm : path ≠ [] → x.builtIn.isImmediate = false) : Explains t m e where
  unresolvable ht := by cases ht.1.symm.trans hw
  unterminated w' r' ht := error_of_unterminated hw hcalls hreaders hx hself ht
  output hout := error_of_outputFailed hx hout
  otherwise _ hterm hout := by
    obtain ⟨n, hstop⟩ := hx.stops
    rcases BuiltIn.run_failed hstop with ⟨c, hhalt⟩ | ⟨d, hd, hopen⟩ | ⟨hfails, -⟩
    · injection hhalt with he
      rw [hx.location, hx.calls, hcalls, List.append_nil] at he
      rw [hcalls] at hx
      exact ⟨w, path, x, hw, hx, by rw [he], by rw [he]⟩
    · -- only an immediate word opens a literal, and no compiled word calls one
      have hnil : path = [] := by
        by_contra hne
        have hdelimiter := isImmediate_of_delimiter hd
        rw [himm hne] at hdelimiter
        cases hdelimiter
      obtain ⟨hb, hsame⟩ := hself hnil
      have hnot := not_mem_of_textUpTo (hsame.trans hreaders) hopen
      exact absurd ⟨hw, by rw [hreaders]; rfl, x.builtIn, d, hb, hd, hnot⟩ (hterm w r)
    · exact absurd ⟨x, hx.last, hfails⟩ hout

end

theorem failed_of_run {b : BuiltIn} (h : b.run m = .error halt n) : ∃ e, halt = .failed e := by
  rcases BuiltIn.run_failed h with ⟨c, rfl⟩ | ⟨d, -, hopen⟩ | ⟨-, rfl⟩
  · exact ⟨_, rfl⟩
  · rcases textUpTo_cases d m with ⟨s, rs, hs⟩ | ⟨e, rs, hs⟩
    · cases hopen.symm.trans hs
    · obtain ⟨rfl, -⟩ := EStateM.Result.error.inj (hopen.symm.trans hs)
      exact ⟨e, rfl⟩
  · exact ⟨_, rfl⟩

/-- What the error of a word of a text says. -/
theorem explains_runToken {t : Token} {r : Reader} {rs : List Reader} (hsound : m.Sound made)
    (hcalls : m.calls = []) (hreaders : m.readers = r :: rs)
    (h : runToken .absent t m = .error halt n) : ∃ e, halt = .failed e ∧ Explains t m e := by
  by_cases hun : Unresolvable t m
  · obtain ⟨n', hfail⟩ := runToken_unresolvable hun
    obtain ⟨rfl, -⟩ := EStateM.Result.error.inj (h.symm.trans hfail)
    exact ⟨_, rfl, explains_unresolvable hun hcalls⟩
  · obtain ⟨w, hw⟩ := get?_of_runToken h hun
    obtain ⟨path, x, hx, hself, himm⟩ := runToken_stops hsound hw h
    obtain ⟨n', hstop⟩ := hx.stops
    obtain ⟨e, rfl⟩ := failed_of_run hstop
    exact ⟨e, rfl, explains_stops hw hcalls hreaders hx hself himm⟩

/-! ## Runs -/

/-- The place after a word and the one blank that ends it. -/
theorem location_of_nextWord {r s : Reader} {t : Token} (h : r.nextWord = (some t, s)) :
    ∃ blank : List Char, blank.length ≤ 1 ∧ (∀ c ∈ blank, isBlank c) ∧
      s.location = t.location.after (t.text.toList ++ blank) := by
  obtain ⟨cs, l⟩ := r
  obtain ⟨bs, w, hbs, hw, hne, rfl | ⟨c, cs, hc, rfl⟩⟩ := Reader.shape_of_nextWord h
  · rw [Reader.nextWord_last hbs hw hne] at h
    cases h
    refine ⟨[], Nat.zero_le _, nofun, ?_⟩
    rw [Location.after_append, String.toList_ofList, List.append_nil]
  · rw [Reader.nextWord_word hbs hw hne hc] at h
    cases h
    refine ⟨[c], Nat.le_refl _, ?_, ?_⟩
    · intro x hx
      rwa [List.mem_singleton.mp hx]
    · rw [Location.after_append, String.toList_ofList]

theorem lastRead_of_token {host : Host} {k : Nat} {t : Token}
    (hnext : nextWord m = .ok (some t) n) :
    lastRead host (k + 1) m = match runToken host t n with
      | .ok _ n' => (lastRead host k n').or (some (t, n))
      | .error _ _ => some (t, n) := by
  rw [lastRead, hnext]

/-- A word of a text that succeeds leaves a sound machine, outside all calls. -/
theorem sound_of_runToken {depth : Nat} {t : Token} (hsound : m.Sound made) (hcalls : m.calls = [])
    (h : runToken (.nested depth) t m = .ok () n) : (∃ made', n.Sound made') ∧ n.calls = [] := by
  have hleft := (runToken_resumes depth t m).calls
  have hends := sound_runToken (.nested depth) hsound t
  rw [h] at hleft hends
  obtain ⟨more, hn⟩ := hends
  exact ⟨⟨_, hn⟩, hleft.trans hcalls⟩

/-- The word that a failing loop reads last is one that fails. -/
theorem lastRead_of_error {depth k : Nat} (hsound : m.Sound made) (hcalls : m.calls = [])
    (hk : m.unread < k) (h : runWords (.nested depth) k m = .error halt n) :
    ∃ t m' made' r rs, lastRead (.nested depth) k m = some (t, m') ∧ m'.Sound made' ∧
      m'.calls = [] ∧ m'.readers = r :: rs ∧ runToken .absent t m' = .error halt n ∧
      ∃ blank : List Char, blank.length ≤ 1 ∧ (∀ c ∈ blank, isBlank c) ∧
        r.location = t.location.after (t.text.toList ++ blank) := by
  induction k generalizing made m with
  | zero => exact absurd hk (Nat.not_lt_zero _)
  | succ k ih =>
    cases hreaders : m.readers with
    | nil =>
      unfold runWords at h
      rw [bind_ok (nextWord_of_nil hreaders)] at h
      cases h
    | cons r rs =>
      have hnext := nextWord_of_cons hreaders
      rcases hword : r.nextWord with ⟨_ | t, s⟩ <;> rw [hword] at hnext <;> dsimp only at hnext
      · unfold runWords at h
        rw [bind_ok hnext] at h
        cases h
      · have hread : Sound made { m with readers := s :: rs } := hsound.withContext _ _ _ _
        unfold runWords at h
        rw [bind_ok hnext] at h
        dsimp only at h
        rw [lastRead_of_token hnext]
        cases htoken : runToken (.nested depth) t { m with readers := s :: rs } with
        | error halt' n' =>
          rw [bind_error htoken] at h
          obtain ⟨rfl, rfl⟩ := EStateM.Result.error.inj h
          rw [hread.runToken_eq (.nested depth) .absent] at htoken
          exact ⟨t, _, made, s, rs, rfl, hread, hcalls, rfl, htoken, location_of_nextWord hword⟩
        | ok _ m' =>
          rw [bind_ok htoken] at h
          have hlt := unread_runToken_lt hnext htoken
          obtain ⟨⟨made', hsound'⟩, hcalls'⟩ := sound_of_runToken hread hcalls htoken
          obtain ⟨t', k', made'', r', rs', hlast, hrest⟩ := ih hsound' hcalls' (by omega) h
          refine ⟨t', k', made'', r', rs', ?_, hrest⟩
          dsimp only
          rw [hlast]
          rfl

/-- However texts were run before, the error of a run tells the last word that the run read, as
`Explains` says. The reader stands right after that word and the blank that ends it. -/
theorem errors_located (h : Scripted m) (depth : Nat) (path text : String)
    (hrun : run (.nested depth) path text m = .error halt n) :
    ∃ e t k r, halt = .failed e ∧ lastToken (.nested depth) path text m = some (t, k) ∧
      Explains t k e ∧ k.readers.head? = some r ∧
      ∃ blank : List Char, blank.length ≤ 1 ∧ (∀ c ∈ blank, isBlank c) ∧
        r.location = t.location.after (t.text.toList ++ blank) := by
  obtain ⟨made, hsound⟩ := h.sound
  have hstart : Sound made (pushReader (.ofText path text) m) := hsound.withContext _ _ _ _
  have hwords : ∃ n', runWords (.nested depth) ((Reader.ofText path text).rest.length + 1)
      (pushReader (.ofText path text) m) = .error halt n' := by
    unfold run withReader between at hrun
    split at hrun
    · cases hrun
    · next halt' n' hwords =>
      obtain ⟨rfl, -⟩ := EStateM.Result.error.inj hrun
      exact ⟨n', hwords⟩
  obtain ⟨n', hwords⟩ := hwords
  obtain ⟨t, k, made', r, rs, hlast, hsound', hcalls, hreaders, htoken, hblank⟩ :=
    lastRead_of_error hstart h.atRest.1 (Nat.lt_succ_self _) hwords
  obtain ⟨e, rfl, he⟩ := explains_runToken hsound' hcalls hreaders htoken
  exact ⟨e, t, k, r, rfl, hlast, he, by rw [hreaders]; rfl, hblank⟩

/-- A word that is called two calls down from the text lacks its operand. -/
theorem errors_located_nested :
    ∃ e t k r, lastToken (.nested 0) "s" ": IN DROP ; : OUT IN ; OUT" .fresh = some (t, k) ∧
      e = ⟨some ⟨"s", 1, 24⟩, .stackUnderflow, some [⟨"DROP", ⟨"s", 1, 24⟩⟩, ⟨"IN", ⟨"s", 1, 24⟩⟩,
        ⟨"OUT", ⟨"s", 1, 24⟩⟩]⟩ ∧
      Explains t k e ∧ k.readers.head? = some r := by
  have hstops : halted? (run (.nested 0) "s" ": IN DROP ; : OUT IN ; OUT" .fresh) =
      some (.failed ⟨some ⟨"s", 1, 24⟩, .stackUnderflow, some [⟨"DROP", ⟨"s", 1, 24⟩⟩,
        ⟨"IN", ⟨"s", 1, 24⟩⟩, ⟨"OUT", ⟨"s", 1, 24⟩⟩]⟩) := by
    decide +kernel
  obtain ⟨e, t, k, r, he, hlast, hexplains, hr, -⟩ :=
    errors_located .fresh 0 "s" ": IN DROP ; : OUT IN ; OUT" (eq_error_left hstops)
  injection he with he
  exact ⟨e, t, k, r, hlast, he.symm, hexplains, hr⟩

end Machine
end WordStack
