import WordStack.Proofs.LikeRuns
import WordStack.Proofs.OrdinaryWords
import WordStack.Proofs.ReadOn

/-
  What running texts keeps true of a machine without host words. `made` lists every word made so
  far in the order in which they were made: a word stands in it at its serial number, after all
  the words it uses (`Word.Sound`). Only built-in words are immediate, and no immediate word lies
  on a stack, in a cell or in a body (`Word.Portable`). A definition is open exactly while
  compiling, and nothing is collected otherwise (`Machine.Sound`).
  `sound_runToken` is one word of a text, `sound_run` a whole run: it comes to an end, and what
  it leaves is sound again, with more words made.
-/
namespace WordStack

open Machine

/-- Does the definition read on in the text? -/
def Definition.readsOn : Definition → Bool
  | .builtIn b => b.isImmediate
  | .host _ | .variable _ | .constant _ | .compiled _ => false

namespace Word

structure Sound (made : List Word) (w : Word) : Prop where
  recorded : made[w.serial]? = some w
  earlier : ∀ v, w.Uses v → v.serial < w.serial
  isImmediate : w.isImmediate = w.definition.readsOn
  notHost : ∀ body, w.definition ≠ .host body

/-- A word that can lie on a stack, in a cell or in a body. -/
structure Portable (made : List Word) (w : Word) : Prop extends Sound made w where
  notImmediate : w.isImmediate = false

variable {made : List Word} {w : Word}

theorem Portable.isOrdinary (h : w.Portable made) : w.IsOrdinary := by
  refine ⟨h.notImmediate, ?_⟩
  have himm := h.isImmediate
  have hhost := h.notHost
  rw [h.notImmediate] at himm
  generalize w.definition = d at himm hhost
  cases d with
  | builtIn b => exact himm.symm
  | host body => exact absurd rfl (hhost body)
  | «variable» | constant | compiled => trivial

/-- An immediate word is a built-in word that reads on in the text. -/
theorem Sound.builtIn_of_isImmediate (h : w.Sound made) (hw : w.isImmediate = true) :
    ∃ b : BuiltIn, w.definition = .builtIn b ∧ b.isImmediate = true := by
  have himm := h.isImmediate
  rw [hw] at himm
  generalize w.definition = d at himm
  cases d with
  | builtIn b => exact ⟨b, rfl, himm.symm⟩
  | host | «variable» | constant | compiled => cases himm

theorem Sound.more (h : w.Sound made) (u : Word) : w.Sound (made ++ [u]) where
  recorded := List.getElem?_append_left (List.getElem?_eq_some_iff.mp h.recorded).1 ▸ h.recorded
  earlier := h.earlier
  isImmediate := h.isImmediate
  notHost := h.notHost

theorem Portable.more (h : w.Portable made) (u : Word) : w.Portable (made ++ [u]) :=
  ⟨h.toSound.more u, h.notImmediate⟩

end Word

structure Machine.Sound (made : List Word) (m : Machine) : Prop where
  length : made.length = m.nextSerial
  data : ∀ v ∈ m.data, v.Within (Word.Portable made)
  buffer : ∀ v ∈ m.buffer, v.Within (Word.Portable made)
  cells : ∀ i v, m.cells.get? i = some v → v.Within (Word.Portable made)
  dictionary : ∀ e ∈ m.dictionary.entries, e.2.Sound made ∧
    ∀ v ∈ e.2.definition.values, v.Within (Word.Portable made)
  pending : m.mode = .compiling ↔ m.pending.isSome
  empty : m.mode = .interpreting → m.buffer = []

namespace Machine.Sound

variable {made : List Word} {m : Machine}

/-- What a sound machine is sound for does not include these. -/
theorem withContext (h : m.Sound made) (readers : List Reader) (location : Option Location)
    (calls : List Call) (events : List Event) :
    { m with readers, location, calls, events }.Sound made :=
  ⟨h.length, h.data, h.buffer, h.cells, h.dictionary, h.pending, h.empty⟩

theorem active (h : m.Sound made) : ∀ v ∈ m.active, v.Within (Word.Portable made) := by
  unfold Machine.active
  cases m.mode with
  | interpreting => exact h.data
  | compiling => exact h.buffer

theorem withActive (h : m.Sound made) {vs : List Value}
    (hvs : ∀ v ∈ vs, v.Within (Word.Portable made)) : (m.withActive vs).Sound made := by
  cases hm : m.mode with
  | interpreting =>
    rw [withActive_of_interpreting hm]
    exact ⟨h.length, hvs, h.buffer, h.cells, h.dictionary, h.pending, h.empty⟩
  | compiling =>
    rw [withActive_of_compiling hm]
    refine ⟨h.length, h.data, hvs, h.cells, h.dictionary, h.pending, fun hi => ?_⟩
    cases hm.symm.trans hi

theorem push (h : m.Sound made) {v : Value} (hv : v.Within (Word.Portable made)) :
    (m.withActive (v :: m.active)).Sound made := by
  refine h.withActive fun x hx => ?_
  rcases List.mem_cons.mp hx with rfl | hx
  · exact hv
  · exact h.active x hx

theorem more (h : m.Sound made) (u : Word) :
    (∀ v ∈ m.data, v.Within (Word.Portable (made ++ [u]))) ∧
    (∀ v ∈ m.buffer, v.Within (Word.Portable (made ++ [u]))) ∧
    (∀ i v, m.cells.get? i = some v → v.Within (Word.Portable (made ++ [u]))) ∧
    ∀ e ∈ m.dictionary.entries, e.2.Sound (made ++ [u]) ∧
      ∀ v ∈ e.2.definition.values, v.Within (Word.Portable (made ++ [u])) := by
  have hmore : ∀ w, Word.Portable made w → Word.Portable (made ++ [u]) w := fun w hw => hw.more u
  exact ⟨fun v hv => (h.data v hv).mono hmore, fun v hv => (h.buffer v hv).mono hmore,
    fun i v hv => (h.cells i v hv).mono hmore,
    fun e he => ⟨(h.dictionary e he).1.more u, fun v hv => ((h.dictionary e he).2 v hv).mono hmore⟩⟩

/-- While interpreting, no definition is open. -/
theorem pending_of_interpreting (h : m.Sound made) (hmode : m.mode = .interpreting) :
    m.pending = none := by
  cases hp : m.pending with
  | none => rfl
  | some p =>
    have hcompiling := h.pending.mpr (by rw [hp]; rfl)
    rw [hmode] at hcompiling
    cases hcompiling

end Machine.Sound

theorem Dictionary.mem_insertEntry {key : String} {w : Word} {entries : List (String × Word)}
    {e : String × Word} (h : e ∈ insertEntry key w entries) : e = (key, w) ∨ e ∈ entries := by
  induction entries with
  | nil => exact .inl (List.mem_singleton.mp h)
  | cons f rest ih =>
    unfold insertEntry at h
    split at h
    · rcases List.mem_cons.mp h with h | h
      · exact .inl h
      · exact .inr (List.mem_cons_of_mem _ h)
    split at h
    · exact List.mem_cons.mp h
    · rcases List.mem_cons.mp h with h | h
      · exact .inr (h ▸ List.mem_cons_self)
      · exact (ih h).imp_right (List.mem_cons_of_mem _)

theorem Dictionary.mem_of_get? {d : Dictionary} {name : String} {w : Word}
    (h : d.get? name = some w) : (Text.uppercase name, w) ∈ d.entries := by
  obtain ⟨before, after, hentries, -⟩ := List.lookup_eq_some_iff.mp h
  rw [hentries]
  exact List.mem_append_right _ List.mem_cons_self

namespace Machine

variable {made : List Word} {m : Machine}

/-- A word that uses only what the machine holds can be added to the dictionary. -/
theorem Sound.insert (h : m.Sound made) {w : Word} (hserial : w.serial = m.nextSerial)
    (himm : w.isImmediate = w.definition.readsOn) (hhost : ∀ body, w.definition ≠ .host body)
    (hw : ∀ v ∈ w.definition.values, v.Within (Word.Portable made)) :
    Sound (made ++ [w])
      { m with dictionary := m.dictionary.insert w, nextSerial := m.nextSerial + 1 } := by
  obtain ⟨hdata, hbuffer, hcells, hdictionary⟩ := h.more w
  have hsound : w.Sound (made ++ [w]) := by
    refine ⟨?_, fun v hv => ?_, himm, hhost⟩
    · rw [hserial, ← h.length, List.getElem?_concat_length]
    · have hv := (Value.within_word.mp (hw _ hv)).self
      have hlt := (List.getElem?_eq_some_iff.mp hv.recorded).1
      rw [hserial, ← h.length]
      exact hlt
  refine ⟨?_, hdata, hbuffer, hcells, fun e he => ?_, h.pending, h.empty⟩
  · rw [List.length_append, h.length]; rfl
  · rcases Dictionary.mem_insertEntry he with rfl | he
    · exact ⟨hsound, fun v hv => (hw v hv).mono fun w hw => hw.more _⟩
    · exact hdictionary e he

theorem Sound.fail {α : Type} (h : m.Sound made) (c : Cause) :
    Ends (Sound made) (Machine.fail c m : EStateM.Result Halt Machine α) := .failed h

theorem sound_nextWordRequired (h : m.Sound made) : Ends (Sound made) (nextWordRequired m) := by
  rcases nextWordRequired_cases m with ⟨t, rs, ht⟩ | ⟨rs, ht⟩
  · rw [ht]; exact .ok (h.withContext rs _ _ _)
  · rw [ht]; exact (h.withContext rs _ _ _).fail _

theorem sound_textUpTo (h : m.Sound made) (d : Char) : Ends (Sound made) (textUpTo d m) := by
  rcases textUpTo_cases d m with ⟨s, rs, hs⟩ | ⟨e, rs, hs⟩
  · rw [hs]; exact .ok (h.withContext rs _ _ _)
  · rw [hs]; exact .failed (h.withContext rs _ _ _)

theorem sound_skipWordsTo (h : m.Sound made) (p : String → Bool) :
    Ends (Sound made) (skipWordsTo p m) := by
  rcases skipWordsTo_cases p m with ⟨rs, hs⟩ | ⟨rs, hs⟩
  · rw [hs]; exact .ok (h.withContext rs _ _ _)
  · rw [hs]; exact (h.withContext rs _ _ _).fail _

theorem sound_newCell (h : m.Sound made) {v : Value} (hv : v.Within (Word.Portable made)) :
    Ends (Sound made) (newCell v m) := by
  refine .ok ⟨h.length, h.data, h.buffer, fun i x hx => ?_, h.dictionary, h.pending, h.empty⟩
  have hx : (m.cells.contents.push v)[i]? = some x := hx
  rw [Array.getElem?_push] at hx
  split at hx
  · obtain rfl := Option.some.inj hx
    exact hv
  · exact h.cells i x hx

/-- The machine is sound, and more words may have been made. -/
def SoundFrom (made : List Word) (m : Machine) : Prop := ∃ more, m.Sound (made ++ more)

theorem Sound.soundFrom (h : m.Sound made) : m.SoundFrom made :=
  ⟨[], (List.append_nil made).symm ▸ h⟩

theorem SoundFrom.trans {more : List Word} (h : m.SoundFrom (made ++ more)) : m.SoundFrom made := by
  obtain ⟨rest, h⟩ := h
  exact ⟨more ++ rest, by rwa [← List.append_assoc]⟩

theorem sound_addWord (h : m.Sound made) (heading : Heading) {d : Definition}
    (hheading : heading.isImmediate = d.readsOn) (hhost : ∀ body, d ≠ .host body)
    (hd : ∀ v ∈ d.values, v.Within (Word.Portable made)) :
    Ends (SoundFrom made) (addWord heading d m) := by
  have hw := h.insert (w := (m.withWord heading d).1) rfl hheading hhost hd
  exact .ok ⟨[_], hw.withContext m.readers m.location m.calls _⟩

/-- The words that read on in the text, and those that open and close a definition. -/
theorem sound_immediate {b : BuiltIn} (hb : b.isImmediate = true) (h : m.Sound made) :
    Ends (SoundFrom made) (b.run m) := by
  have hweak : ∀ n : Machine, n.Sound made → n.SoundFrom made := fun n hn => hn.soundFrom
  cases b with
  | defineVariable =>
    refine (sound_nextWordRequired h).bind hweak fun t n hn => ?_
    refine (sound_newCell hn (Value.within_number _)).bind hweak fun c n hn => ?_
    exact (sound_addWord (d := .variable c) hn (variableHeading t) rfl nofun nofun).discard
  | defineConstant =>
    have hrequire : Ends (Sound made) (require 1 m) := by
      rw [require_apply]
      split
      · exact h.fail _
      · exact .ok h
    refine hrequire.bind hweak fun _ n hn => ?_
    refine (sound_nextWordRequired hn).bind hweak fun t n hn => ?_
    cases hact : n.active with
    | nil => rw [bind_apply, pop_of_nil hact]; exact .failed hn.soundFrom
    | cons v vs =>
      have hall := hn.active
      rw [hact] at hall
      have hrest := hn.withActive fun x hx => hall x (List.mem_cons_of_mem _ hx)
      rw [bind_ok (pop_of_cons hact)]
      refine (sound_addWord (d := .constant v) hrest (constantHeading t) rfl nofun ?_).discard
      intro x hx
      obtain rfl := List.mem_singleton.mp hx
      exact hall _ List.mem_cons_self
  | textLiteral =>
    refine (sound_textUpTo h '"').bind hweak fun s n hn => .ok ?_
    exact (hn.push (Value.within_text s)).soundFrom
  | blockComment => exact (sound_skipWordsTo h _).mono hweak
  | parenComment => exact ((sound_textUpTo h ')').mono hweak).discard
  | lineComment => exact ((sound_textUpTo h '\n').mono hweak).discard
  | startDefinition =>
    refine (sound_nextWordRequired h).bind hweak fun t n hn => .ok (Sound.soundFrom ?_)
    exact ⟨hn.length, hn.data, hn.buffer, hn.cells, hn.dictionary, ⟨fun _ => rfl, fun _ => rfl⟩,
      fun hmode => nomatch hmode⟩
  | endDefinition =>
    refine Ends.discard ?_
    cases hp : m.pending with
    | none => rw [stopCompiling_of_none hp]; exact .failed h.soundFrom
    | some p =>
      rw [stopCompiling_of_some hp]
      have hclosed : Sound made { m.note (.finishedCompiling m.buffer.length p.name) with
          pending := none, mode := .interpreting, buffer := [] } := by
        refine ⟨h.length, h.data, ?_, h.cells, h.dictionary, ?_, fun _ => rfl⟩
        · exact fun _ hv => absurd hv List.not_mem_nil
        · exact ⟨fun hmode => (nomatch hmode), fun hsome => (nomatch hsome)⟩
      refine sound_addWord (d := .compiled m.buffer.reverse) hclosed
        ⟨p.name, false, p.location, "User defined word.", ""⟩ rfl nofun ?_
      exact fun v hv => h.buffer v (List.mem_reverse.mp hv)
  | _ => cases hb

/-! ## Runs -/

/-- What an ordinary word works on is as sound as before. -/
theorem Sound.of_works (h : m.Sound made) (hmode : m.mode = .interpreting) {n : Machine}
    (hw : Works (Word.Portable made) m n) : n.Sound made where
  length := h.length.trans hw.nextSerial_eq.symm
  data := hw.data
  buffer := by rw [hw.frame]; exact h.buffer
  cells := hw.cells
  dictionary := by rw [hw.frame]; exact h.dictionary
  pending := by rw [hw.frame]; exact h.pending
  empty _ := by rw [hw.frame]; exact h.empty hmode

/-- A word of the dictionary that is not immediate can lie anywhere. -/
theorem Sound.within_of_get? (h : m.Sound made) {w : Word} {name : String}
    (hw : m.dictionary.get? name = some w) (himm : w.isImmediate = false) :
    w.Within (Word.Portable made) := by
  obtain ⟨hsound, hvalues⟩ := h.dictionary _ (Dictionary.mem_of_get? hw)
  exact Word.within_iff_values.mpr ⟨⟨hsound, himm⟩, hvalues⟩

/-- While compiling, a word that is not immediate goes into the definition. -/
theorem Sound.collect (h : m.Sound made) {w : Word} {name : String}
    (hw : m.dictionary.get? name = some w) (himm : w.isImmediate = false)
    (hmode : m.mode = .compiling) :
    Sound made { m.note (.compiledReference w.name) with buffer := .word w :: m.buffer } := by
  refine ⟨h.length, h.data, fun v hv => ?_, h.cells, h.dictionary, h.pending, fun hi => ?_⟩
  · rcases List.mem_cons.mp hv with rfl | hv
    · exact Value.within_word.mpr (h.within_of_get? hw himm)
    · exact h.buffer v hv
  · cases hmode.symm.trans hi

variable {host : Host} {depth : Nat}

/-- A word of the dictionary that is found in a text is executed to an end. -/
theorem sound_execute (h : m.Sound made) {w : Word} {name : String}
    (hw : m.dictionary.get? name = some w) (hexec : w.isImmediate = true ∨ m.mode = .interpreting)
    (l : Location) : Ends (SoundFrom made) (execute host l w m) := by
  cases himm : w.isImmediate with
  | true =>
    have hsound := (h.dictionary _ (Dictionary.mem_of_get? hw)).1
    obtain ⟨b, hb, hbimm⟩ := hsound.builtIn_of_isImmediate himm
    rw [execute_eq, hb]
    have hrun : Ends (SoundFrom made) (b.run (enterCall ⟨w.name, l⟩ m)) :=
      sound_immediate hbimm (h.withContext _ _ _ _)
    refine Ends.between (hrun.mono fun n hn => ?_)
    obtain ⟨more, hn⟩ := hn
    exact ⟨more, hn.withContext _ _ _ _⟩
  | false =>
    have hmode : m.mode = .interpreting := by
      rcases hexec with hexec | hexec
      · rw [himm] at hexec; cases hexec
      · exact hexec
    refine (execute_works (fun v hv => hv.isOrdinary) hmode h.data h.cells
      (h.within_of_get? hw himm) l).mono ?_
    exact fun n hn => (h.of_works hmode hn).soundFrom

theorem sound_runToken (host : Host) (h : m.Sound made) (t : Token) :
    Ends (SoundFrom made) (runToken host t m) := by
  have h : Sound made { m with location := some t.location } := h.withContext _ _ _ _
  have hout := runToken_outcome host t m
  generalize runToken host t m = x at hout
  cases hout with
  | executed hw hexec => exact sound_execute h hw hexec t.location
  | collected hw himm hmode => exact .ok (h.collect hw himm hmode).soundFrom
  | number => exact .ok ((h.withContext m.readers _ _ _).push (Value.within_number _)).soundFrom
  | unknown => exact .failed h.soundFrom

/-- As long as the bound leaves room for what is left of the text, a run comes to an end. -/
theorem sound_runWords {k : Nat} (h : m.Sound made) (hk : m.unread < k) :
    Ends (SoundFrom made) (runWords (.nested depth) k m) := by
  induction k generalizing made m with
  | zero => exact absurd hk (Nat.not_lt_zero _)
  | succ k ih =>
    obtain ⟨t, rs, hnext⟩ := nextWord_ok m
    have hn : Sound made { m with readers := rs } := h.withContext _ _ _ _
    unfold runWords
    rw [bind_ok hnext]
    cases t with
    | none => exact .ok hn.soundFrom
    | some t =>
      have htoken := sound_runToken (.nested depth) hn t
      dsimp only
      rw [bind_apply]
      cases hrun : runToken (.nested depth) t { m with readers := rs } with
      | error halt n' =>
        rw [hrun] at htoken
        cases htoken with
        | failed h => exact .failed h
      | ok _ n' =>
        have hlt := unread_runToken_lt hnext hrun
        rw [hrun] at htoken
        cases htoken with
        | ok h =>
          obtain ⟨more, h⟩ := h
          exact (ih h (by omega)).mono fun _ h => h.trans

/-- A run comes to an end, and the words it made are sound like those before it. -/
theorem sound_run (depth : Nat) (h : m.Sound made) (path text : String) :
    Ends (SoundFrom made) (run (.nested depth) path text m) := by
  refine Ends.between ((sound_runWords (h.withContext _ _ _ _) ?_).mono fun n hn => ?_)
  · exact Nat.lt_succ_self _
  · obtain ⟨more, hn⟩ := hn
    exact ⟨more, hn.withContext _ _ _ _⟩

end Machine
end WordStack
