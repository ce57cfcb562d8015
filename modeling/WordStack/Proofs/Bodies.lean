import WordStack.Proofs.ReadOn
import WordStack.Proofs.Splitting
import WordStack.Proofs.Uppercase

/-
  The texts that can be the body of a definition: blanks, numbers, words that are not immediate,
  and literals and comments that come to an end (`Body`), together with the values they stand for.
  Reading such a text in a definition collects its values (`reaches_body`).
  The blank that ends the word `//`, `(`, `/*` or `"` belongs to the word, so the text of the
  literal or comment starts after it.
-/
namespace WordStack

open Machine

/-- One or more characters that are not blank. -/
structure IsWord (w : List Char) : Prop where
  ne_nil : w ≠ []
  ink : ∀ c ∈ w, isInk c

theorem IsWord.of_all {w : List Char} (hne : w ≠ []) (h : w.all isInk = true) : IsWord w :=
  ⟨hne, List.all_eq_true.mp h⟩

/-- A word before this text would end there. -/
def EndsWord (cs : List Char) : Prop := ∀ c ∈ cs.head?, isBlank c

/-- Words, of which the last one ends a block comment and no other one does. -/
inductive CommentWords : List Char → Prop
  | blank {c : Char} {cs : List Char} (hc : isBlank c) (rest : CommentWords cs) :
    CommentWords (c :: cs)
  | word {w cs : List Char} {c : Char} (hw : IsWord w)
    (hgoes : BuiltIn.endsComment (String.ofList w) = false) (hc : isBlank c)
    (rest : CommentWords cs) : CommentWords (w ++ c :: cs)
  | last {w : List Char} (hw : IsWord w) (hends : BuiltIn.endsComment (String.ofList w) = true) :
    CommentWords w

/-- The name still stands for the built-in word. -/
def Dictionary.Stands (d : Dictionary) (name : String) (b : BuiltIn) : Prop :=
  ∃ w, d.get? name = some w ∧ w.isImmediate = b.isImmediate ∧ w.definition = .builtIn b

instance (d : Definition) (b : BuiltIn) : Decidable (d = .builtIn b) :=
  match d with
  | .builtIn c => decidable_of_iff (c = b) ⟨congrArg Definition.builtIn, Definition.builtIn.inj⟩
  | .host _ | .variable _ | .constant _ | .compiled _ => isFalse nofun

instance (d : Dictionary) (name : String) (b : BuiltIn) : Decidable (d.Stands name b) :=
  match h : d.get? name with
  | none => isFalse fun ⟨_, hw, _⟩ => nomatch h.symm.trans hw
  | some w =>
    decidable_of_iff (w.isImmediate = b.isImmediate ∧ w.definition = .builtIn b)
      ⟨fun hw => ⟨w, h, hw⟩, fun ⟨_, hv, hw⟩ => Option.some.inj (h.symm.trans hv) ▸ hw⟩

/-- To begin with, every built-in word stands under its names. -/
theorem Machine.fresh_stands (b : BuiltIn) :
    ∀ name ∈ b.names, fresh.dictionary.Stands name b := by
  have hall : ∀ b ∈ BuiltIn.all, ∀ name ∈ b.names, fresh.dictionary.Stands name b := by
    decide +kernel
  exact hall b (BuiltIn.mem_all b)

/-- Is this word of a text another one than that with this name? -/
def Differs (name : String) (w : List Char) : Prop :=
  Text.uppercase (String.ofList w) ≠ Text.uppercase name

instance (name : String) (w : List Char) : Decidable (Differs name w) :=
  inferInstanceAs (Decidable (_ ≠ _))

/-- A text that can be the body of a definition of this name, and the values it stands for. -/
inductive Body (d : Dictionary) (name : String) : List Char → List Value → Prop
  | nil : Body d name [] []
  | blank {c : Char} {cs : List Char} {vs : List Value} (hc : isBlank c)
    (rest : Body d name cs vs) : Body d name (c :: cs) vs
  | number {w cs : List Char} {x : Float} {vs : List Value} (hw : IsWord w) (hends : EndsWord cs)
    (hname : Differs name w) (hd : d.get? (String.ofList w) = none)
    (hx : Number.parse? (Text.uppercase (String.ofList w)) = some x)
    (rest : Body d name cs vs) : Body d name (w ++ cs) (.number x :: vs)
  | word {w cs : List Char} {u : Word} {vs : List Value} (hw : IsWord w) (hends : EndsWord cs)
    (hname : Differs name w) (hd : d.get? (String.ofList w) = some u)
    (himm : u.isImmediate = false) (rest : Body d name cs vs) :
    Body d name (w ++ cs) (.word u :: vs)
  | text {c : Char} {s cs : List Char} {vs : List Value} (hname : Differs name ['"'])
    (hd : d.Stands "\"" .textLiteral) (hc : isBlank c) (hs : '"' ∉ s) (rest : Body d name cs vs) :
    Body d name ('"' :: c :: (s ++ '"' :: cs)) (.text (String.ofList s) :: vs)
  | paren {c : Char} {s cs : List Char} {vs : List Value} (hname : Differs name ['('])
    (hd : d.Stands "(" .parenComment) (hc : isBlank c) (hs : ')' ∉ s) (rest : Body d name cs vs) :
    Body d name ('(' :: c :: (s ++ ')' :: cs)) vs
  | line {c : Char} {s cs : List Char} {vs : List Value} (hname : Differs name ['/', '/'])
    (hd : d.Stands "//" .lineComment) (hc : isBlank c) (hs : '\n' ∉ s) (rest : Body d name cs vs) :
    Body d name ('/' :: '/' :: c :: (s ++ '\n' :: cs)) vs
  | block {c : Char} {s cs : List Char} {vs : List Value} (hname : Differs name ['/', '*'])
    (hd : d.Stands "/*" .blockComment) (hc : isBlank c) (hs : CommentWords s) (hends : EndsWord cs)
    (rest : Body d name cs vs) : Body d name ('/' :: '*' :: c :: (s ++ cs)) vs

theorem EndsWord.cons {c : Char} (hc : isBlank c) (cs : List Char) : EndsWord (c :: cs) := by
  intro x hx
  cases hx
  exact hc

theorem EndsWord.append {cs tail : List Char} (hcs : EndsWord cs) (htail : EndsWord tail) :
    EndsWord (cs ++ tail) := by
  cases cs with
  | nil => exact htail
  | cons c cs => exact hcs

/-- A word of another name makes no difference to what the text stands for. -/
theorem Body.insert {d : Dictionary} {name : String} {cs : List Char} {vs : List Value}
    (h : Body d name cs vs) {w : Word} (hw : Text.uppercase w.name = Text.uppercase name) :
    Body (d.insert w) name cs vs := by
  have hget : ∀ u, Differs name u →
      (d.insert w).get? (String.ofList u) = d.get? (String.ofList u) :=
    fun u hu => Dictionary.get?_insert_of_ne (hw ▸ hu)
  have hstands : ∀ u b, Differs name u → d.Stands (String.ofList u) b →
      (d.insert w).Stands (String.ofList u) b := by
    intro u b hu ⟨v, hv, hb⟩
    exact ⟨v, (hget u hu).trans hv, hb⟩
  induction h with
  | nil => exact .nil
  | blank hc _ ih => exact .blank hc ih
  | number hw hends hname hd hx _ ih => exact .number hw hends hname ((hget _ hname).trans hd) hx ih
  | word hw hends hname hd himm _ ih => exact .word hw hends hname ((hget _ hname).trans hd) himm ih
  | text hname hd hc hs _ ih => exact .text hname (hstands _ _ hname hd) hc hs ih
  | paren hname hd hc hs _ ih => exact .paren hname (hstands _ _ hname hd) hc hs ih
  | line hname hd hc hs _ ih => exact .line hname (hstands _ _ hname hd) hc hs ih
  | block hname hd hc hs hends _ ih => exact .block hname (hstands _ _ hname hd) hc hs hends ih

/-! ## Reading -/

namespace Reader

/-- A word at the start of a text is read together with the blank that ends it. -/
theorem nextWord_opening {w cs : List Char} {c : Char} (hw : IsWord w) (hc : isBlank c)
    (l : Location) : (⟨w ++ c :: cs, l⟩ : Reader).nextWord =
      (some ⟨String.ofList w, l⟩, ⟨cs, l.after (w ++ [c])⟩) :=
  nextWord_word (fun _ h => absurd h List.not_mem_nil) hw.ink hw.ne_nil hc l

theorem nextWord_alone {w : List Char} (hw : IsWord w) (l : Location) :
    (⟨w, l⟩ : Reader).nextWord = (some ⟨String.ofList w, l⟩, ⟨[], l.after w⟩) :=
  nextWord_last (fun _ h => absurd h List.not_mem_nil) hw.ink hw.ne_nil l

/-- A word is read, and the reader after it goes on like one right after the word. -/
theorem nextWord_of_isWord {w cs : List Char} (hw : IsWord w) (hcs : EndsWord cs) (l : Location) :
    ∃ s, (⟨w ++ cs, l⟩ : Reader).nextWord = (some ⟨String.ofList w, l⟩, s) ∧
      (⟨cs, l.after w⟩ : Reader).nextWord = s.nextWord := by
  cases cs with
  | nil =>
    rw [List.append_nil]
    exact ⟨_, nextWord_alone hw l, rfl⟩
  | cons c cs =>
    have hc : isBlank c := hcs c rfl
    refine ⟨_, nextWord_opening hw hc l, ?_⟩
    rw [nextWord_blank hc, Location.after_append]

theorem skipWordsTo_congr {r s : Reader} (h : r.nextWord = s.nextWord) (p : String → Bool) :
    r.skipWordsTo p = s.skipWordsTo p := by
  rw [skipWordsTo_eq, skipWordsTo_eq p s, h]

/-- A block comment is read, and the reader after it goes on like one right after the comment. -/
theorem skipWordsTo_of_commentWords {s cs : List Char} (hs : CommentWords s) (hcs : EndsWord cs)
    (l : Location) :
    ∃ r k, (⟨s ++ cs, l⟩ : Reader).skipWordsTo BuiltIn.endsComment = (true, r) ∧
      (⟨cs, k⟩ : Reader).nextWord = r.nextWord := by
  induction hs generalizing l with
  | @blank c s hc _ ih =>
    rw [List.cons_append, skipWordsTo_congr (nextWord_blank hc (s ++ cs) l)]
    exact ih _
  | @word w s c hw hgoes hc _ ih =>
    rw [List.append_assoc, List.cons_append, skipWordsTo_eq, nextWord_opening hw hc]
    dsimp only
    rw [if_neg (by rw [hgoes]; exact Bool.false_ne_true)]
    exact ih _
  | @last w hw hends =>
    obtain ⟨r, hr, hgoes⟩ := nextWord_of_isWord hw hcs l
    refine ⟨r, l.after w, ?_, hgoes⟩
    rw [skipWordsTo_eq, hr]
    dsimp only
    rw [if_pos hends]

end Reader

/-! ## Running -/

namespace Machine

/-- The machine with these readers, at this place and with these events. -/
def reading (m : Machine) (rs : List Reader) (l : Option Location) (es : List Event) : Machine :=
  { m with readers := rs, location := l, events := es }

theorem withActive_reading (m : Machine) (rs : List Reader) (l : Option Location)
    (es : List Event) (vs : List Value) :
    (m.reading rs l es).withActive vs = (m.withActive vs).reading rs l es := by
  unfold withActive reading
  cases m.mode <;> rfl

/-- Reading on from `m` comes to reading on in what is left of the text, from a machine that is
`n` but for what has been read and reported. -/
def Reaches (depth : Nat) (m n : Machine) (cs : List Char) (rs : List Reader) : Prop :=
  ∃ l k es, readOn (.nested depth) m = readOn (.nested depth) (n.reading (⟨cs, l⟩ :: rs) k es)

variable {depth : Nat} {m n : Machine} {cs : List Char} {l : Location} {rs : List Reader}
  {d : Dictionary} {b : BuiltIn}

theorem Reaches.refl (hm : m.readers = ⟨cs, l⟩ :: rs) : Reaches depth m m cs rs := by
  refine ⟨l, m.location, m.events, ?_⟩
  unfold reading
  rw [← hm]

theorem Reaches.trans {n' : Machine} {cs' : List Char} (h : Reaches depth m n cs rs)
    (hrest : ∀ l k es, Reaches depth (n.reading (⟨cs, l⟩ :: rs) k es) n' cs' rs) :
    Reaches depth m n' cs' rs := by
  obtain ⟨l, k, es, hread⟩ := h
  obtain ⟨l', k', es', hrest⟩ := hrest l k es
  exact ⟨l', k', es', hread.trans hrest⟩

/-- What it takes to come to a place right after a word. -/
theorem reaches_of_token {r s s' : Reader} {t : Token} {es : List Event} {k : Option Location}
    (hm : m.readers = r :: rs) (hr : r.nextWord = (some t, s))
    (hrun : runToken (.nested depth) t (m.reading (s :: rs) m.location m.events) =
      .ok () (n.reading (s' :: rs) k es))
    (hgoes : (⟨cs, l⟩ : Reader).nextWord = s'.nextWord) : Reaches depth m n cs rs := by
  have hread : readOn (.nested depth) m = readOn (.nested depth) (n.reading (s' :: rs) k es) := by
    rw [readOn_of_token depth hm hr]
    exact bind_ok hrun _
  exact ⟨l, k, es, hread.trans (readOn_congr depth rfl rfl hgoes).symm⟩

theorem reaches_blank {c : Char} (hc : isBlank c) (hm : m.readers = ⟨c :: cs, l⟩ :: rs) :
    Reaches depth m m cs rs := by
  refine ⟨l.after [c], m.location, m.events, ?_⟩
  exact (readOn_congr depth hm rfl (Reader.nextWord_blank hc cs l).symm).symm

variable {t : Token} {k : Option Location} {es : List Event}

theorem runToken_number {x : Float} (host : Host) (hd : m.dictionary.get? t.text = none)
    (hx : Number.parse? (Text.uppercase t.text) = some x) :
    runToken host t (m.reading rs k es) = .ok () ((m.withActive (.number x :: m.active)).reading rs
      (some t.location) (.pushedNumber m.mode t.text :: es)) := by
  rw [← m.dictionary.get?_uppercase] at hd
  unfold runToken
  rw [modify_bind, ← withActive_reading]
  exact bind_ok (resolve_of_number (m := m.reading rs (some t.location) es) hd hx) _

theorem runToken_word {u : Word} (host : Host) (hd : m.dictionary.get? t.text = some u)
    (rs : List Reader) (k : Option Location) (es : List Event) :
    runToken host t (m.reading rs k es) =
      (if u.isImmediate ∨ m.mode = .interpreting then execute host t.location u
        else modify fun m =>
          { m.note (.compiledReference u.name) with buffer := .word u :: m.buffer })
        (m.reading rs (some t.location) es) := by
  rw [← m.dictionary.get?_uppercase] at hd
  unfold runToken
  rw [modify_bind]
  exact bind_ok (resolve_of_word (m := m.reading rs (some t.location) es) hd) _

theorem runToken_executed {u : Word} (host : Host) (hd : m.dictionary.get? t.text = some u)
    (hexec : u.isImmediate ∨ m.mode = .interpreting) (rs : List Reader) (k : Option Location)
    (es : List Event) :
    runToken host t (m.reading rs k es) =
      execute host t.location u (m.reading rs (some t.location) es) := by
  rw [runToken_word host hd, if_pos hexec]

theorem runToken_collected {u : Word} (host : Host) (hd : m.dictionary.get? t.text = some u)
    (himm : u.isImmediate = false) (hmode : m.mode = .compiling) :
    runToken host t (m.reading rs k es) =
      .ok () ({ m with buffer := .word u :: m.buffer }.reading rs (some t.location)
        (.compiledReference u.name :: es)) := by
  have hcollect : ¬ (u.isImmediate ∨ m.mode = .interpreting) := by simp [himm, hmode]
  rw [runToken_word host hd, if_neg hcollect]
  rfl

/-- A name that still stands for an immediate built-in word. All that has to be known of the word
is what it does in a call. -/
theorem runToken_builtIn (host : Host) {rs' : List Reader} (hd : m.dictionary.Stands t.text b)
    (hb : b.isImmediate = true)
    (hrun : ∀ call es, ∃ es',
      b.run ({ m with calls := call :: m.calls }.reading rs (some t.location) es) =
        .ok () ({ n with calls := call :: n.calls }.reading rs' (some t.location) es')) :
    ∃ es', runToken host t (m.reading rs k es) = .ok () (n.reading rs' (some t.location) es') := by
  obtain ⟨u, hu, himm, hdefinition⟩ := hd
  obtain ⟨es', hrun⟩ := hrun ⟨u.name, t.location⟩ (.executedWord u.name :: es)
  refine ⟨es', ?_⟩
  have hcall : duringCall ⟨u.name, t.location⟩ b.run (m.reading rs (some t.location) es) =
      .ok () (n.reading rs' (some t.location) es') := by
    have hrun : b.run (enterCall ⟨u.name, t.location⟩ (m.reading rs (some t.location) es)) = _ :=
      hrun
    unfold duringCall between
    rw [hrun]
    rfl
  rw [runToken_executed host hu (.inl (himm.trans hb)), execute_eq, hdefinition]
  exact hcall

/-- A built-in word that reads on in the text after the blank that ends it. -/
theorem reaches_builtIn {w text : List Char} {c : Char} {s : Reader} (hw : IsWord w)
    (hc : isBlank c) (hd : m.dictionary.Stands (String.ofList w) b) (hb : b.isImmediate = true)
    {l' : Location} (hgoes : (⟨cs, l'⟩ : Reader).nextWord = s.nextWord)
    (hm : m.readers = ⟨w ++ c :: text, l⟩ :: rs)
    (hrun : ∀ call es, ∃ es',
      b.run ({ m with calls := call :: m.calls }.reading
        (⟨text, l.after (w ++ [c])⟩ :: rs) (some l) es) =
        .ok () ({ n with calls := call :: n.calls }.reading (s :: rs) (some l) es')) :
    Reaches depth m n cs rs := by
  obtain ⟨es', htoken⟩ := runToken_builtIn (.nested depth) (t := ⟨String.ofList w, l⟩) hd hb hrun
  exact reaches_of_token hm (Reader.nextWord_opening hw hc l) htoken hgoes

/-! ## The parts of a body -/

theorem reaches_number {w : List Char} {x : Float} (hw : IsWord w) (hends : EndsWord cs)
    (hd : m.dictionary.get? (String.ofList w) = none)
    (hx : Number.parse? (Text.uppercase (String.ofList w)) = some x)
    (hm : m.readers = ⟨w ++ cs, l⟩ :: rs) :
    Reaches depth m (m.withActive (.number x :: m.active)) cs rs := by
  obtain ⟨s, hs, hgoes⟩ := Reader.nextWord_of_isWord hw hends l
  exact reaches_of_token hm hs (runToken_number _ hd hx) hgoes

theorem reaches_collected {w : List Char} {u : Word} (hw : IsWord w) (hends : EndsWord cs)
    (hd : m.dictionary.get? (String.ofList w) = some u) (himm : u.isImmediate = false)
    (hmode : m.mode = .compiling) (hm : m.readers = ⟨w ++ cs, l⟩ :: rs) :
    Reaches depth m { m with buffer := .word u :: m.buffer } cs rs := by
  obtain ⟨s, hs, hgoes⟩ := Reader.nextWord_of_isWord hw hends l
  exact reaches_of_token hm hs (runToken_collected _ hd himm hmode) hgoes

theorem textUpTo_found {s : List Char} {e : Char} (he : e ∉ s)
    (hm : m.readers = ⟨s ++ e :: cs, l⟩ :: rs) :
    textUpTo e m =
      .ok (String.ofList s) { m with readers := ⟨cs, l.after (s ++ [e])⟩ :: rs } := by
  rw [textUpTo_of_cons hm, Reader.textUpTo_found he]

theorem reaches_text {c : Char} {s : List Char} (hd : m.dictionary.Stands "\"" .textLiteral)
    (hc : isBlank c) (hs : '"' ∉ s) (hm : m.readers = ⟨'"' :: c :: (s ++ '"' :: cs), l⟩ :: rs) :
    Reaches depth m (m.withActive (.text (String.ofList s) :: m.active)) cs rs := by
  refine reaches_builtIn (w := ['"']) (s := ⟨cs, (l.after ['"', c]).after (s ++ ['"'])⟩)
    (.of_all nofun rfl) hc hd rfl rfl hm fun call es => ⟨es, ?_⟩
  refine (bind_ok (textUpTo_found hs rfl) _).trans ?_
  rw [push_apply]
  congr 1
  unfold withActive active reading
  cases m.mode <;> rfl

theorem reaches_paren {c : Char} {s : List Char} (hd : m.dictionary.Stands "(" .parenComment)
    (hc : isBlank c) (hs : ')' ∉ s) (hm : m.readers = ⟨'(' :: c :: (s ++ ')' :: cs), l⟩ :: rs) :
    Reaches depth m m cs rs := by
  refine reaches_builtIn (w := ['(']) (s := ⟨cs, (l.after ['(', c]).after (s ++ [')'])⟩)
    (.of_all nofun rfl) hc hd rfl rfl hm fun call es => ⟨es, ?_⟩
  show discard (textUpTo ')') _ = _
  rw [discard_apply, textUpTo_found hs rfl]
  rfl

theorem reaches_line {c : Char} {s : List Char} (hd : m.dictionary.Stands "//" .lineComment)
    (hc : isBlank c) (hs : '\n' ∉ s)
    (hm : m.readers = ⟨'/' :: '/' :: c :: (s ++ '\n' :: cs), l⟩ :: rs) :
    Reaches depth m m cs rs := by
  refine reaches_builtIn (w := ['/', '/']) (s := ⟨cs, (l.after ['/', '/', c]).after (s ++ ['\n'])⟩)
    (.of_all nofun rfl) hc hd rfl rfl hm fun call es => ⟨es, ?_⟩
  show discard (textUpTo '\n') _ = _
  rw [discard_apply, textUpTo_found hs rfl]
  rfl

theorem reaches_block {c : Char} {s : List Char} (hd : m.dictionary.Stands "/*" .blockComment)
    (hc : isBlank c) (hs : CommentWords s) (hends : EndsWord cs)
    (hm : m.readers = ⟨'/' :: '*' :: c :: (s ++ cs), l⟩ :: rs) : Reaches depth m m cs rs := by
  obtain ⟨r, j, hr, hgoes⟩ := Reader.skipWordsTo_of_commentWords hs hends (l.after ['/', '*', c])
  refine reaches_builtIn (w := ['/', '*']) (.of_all nofun rfl) hc hd rfl hgoes hm
    fun call es => ⟨es, ?_⟩
  show skipWordsTo BuiltIn.endsComment _ = _
  rw [skipWordsTo_of_cons rfl]
  simp only [List.cons_append, List.nil_append, hr]
  rfl

/-- While compiling, the values that a body stands for are collected. -/
theorem reaches_body {name : String} {tail : List Char} {vs : List Value}
    (hbody : Body d name cs vs) (hd : m.dictionary = d) (hmode : m.mode = .compiling)
    (htail : EndsWord tail) (hm : m.readers = ⟨cs ++ tail, l⟩ :: rs) :
    Reaches depth m { m with buffer := vs.reverse ++ m.buffer } tail rs := by
  have hactive : ∀ (m : Machine) v, m.mode = .compiling →
      m.withActive (v :: m.active) = { m with buffer := v :: m.buffer } := by
    intro m v hmode
    rw [withActive_of_compiling hmode, active_of_compiling hmode]
  have hreverse : ∀ (v : Value) vs (buffer : List Value),
      (v :: vs).reverse ++ buffer = vs.reverse ++ v :: buffer := by
    intro v vs buffer
    rw [List.reverse_cons, List.append_assoc, List.singleton_append]
  induction hbody generalizing m l with
  | nil => exact .refl hm
  | blank hc _ ih =>
    exact (reaches_blank hc hm).trans fun l k es => ih hd hmode rfl
  | @number w cs x vs hw hends _ hnone hx _ ih =>
    subst hd
    rw [List.append_assoc] at hm
    rw [hreverse]
    refine (reaches_number hw (hends.append htail) hnone hx hm).trans fun l k es => ?_
    rw [hactive m _ hmode]
    exact ih rfl hmode rfl
  | @word w cs u vs hw hends _ hsome himm _ ih =>
    subst hd
    rw [List.append_assoc] at hm
    rw [hreverse]
    exact (reaches_collected hw (hends.append htail) hsome himm hmode hm).trans
      fun l k es => ih rfl hmode rfl
  | @text c s cs vs _ hstands hc hs _ ih =>
    subst hd
    simp only [List.cons_append, List.append_assoc] at hm
    rw [hreverse]
    refine (reaches_text hstands hc hs hm).trans fun l k es => ?_
    rw [hactive m _ hmode]
    exact ih rfl hmode rfl
  | paren _ hstands hc hs _ ih =>
    subst hd
    simp only [List.cons_append, List.append_assoc] at hm
    exact (reaches_paren hstands hc hs hm).trans fun l k es => ih rfl hmode rfl
  | line _ hstands hc hs _ ih =>
    subst hd
    simp only [List.cons_append, List.append_assoc] at hm
    exact (reaches_line hstands hc hs hm).trans fun l k es => ih rfl hmode rfl
  | block _ hstands hc hs hends _ ih =>
    subst hd
    simp only [List.cons_append, List.append_assoc] at hm
    exact (reaches_block hstands hc hs (hends.append htail) hm).trans fun l k es => ih rfl hmode rfl

end Machine
end WordStack
