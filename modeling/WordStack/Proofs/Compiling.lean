import WordStack.Proofs.Bodies
import WordStack.Proofs.Scripted

/-
  A definition does what its body does. Reading `: NAME BODY ;` adds one word, which holds the
  values that the body stands for (`run_definition`). Executing these values and reading the body
  take the same steps, since no word of the body changes the dictionary or the mode
  (`interpret_body`). So running the name and running the body come to the same outcome, a failure
  in the middle included, and leave the same machine but for places and reports
  (`compiled_body_agrees`).
-/
namespace WordStack

open Machine

/-- Both acts succeed, or both fail for the same cause, and what they leave is related by `R`. -/
inductive SameOutcome (R : Machine → Machine → Prop) :
    EStateM.Result Halt Machine Unit → EStateM.Result Halt Machine Unit → Prop
  | ok {m n : Machine} (left : R m n) : SameOutcome R (.ok () m) (.ok () n)
  | failed {e f : Error} {m n : Machine} (cause : e.cause = f.cause) (left : R m n) :
    SameOutcome R (.error (.failed e) m) (.error (.failed f) n)

/-- The machines differ in the place last read and in what they report at most. -/
def SameButReports (m n : Machine) : Prop :=
  n = { m with location := n.location, events := n.events }

variable {depth : Nat} {m n : Machine} {cs : List Char} {l : Location} {rs : List Reader}
  {d : Dictionary} {name : String} {vs : List Value}

theorem SameEffect.reading (h : SameEffect m n) (rs : List Reader) (l : Option Location)
    (es : List Event) : SameEffect (m.reading rs l es) n := by
  obtain ⟨rs', l', cs, es'⟩ := h
  exact .intro rs' l' cs es'

theorem SameEffect.push (h : SameEffect m n) (v : Value) :
    SameEffect (m.withActive (v :: m.active)) (n.withActive (v :: n.active)) := by
  rw [h.active_eq]
  exact h.withActive _

theorem SameEffect.sameButReports (h : SameEffect m n) (hcalls : m.calls = n.calls)
    (hreaders : m.readers = n.readers) : SameButReports m n := by
  obtain ⟨rs, l, cs, es⟩ := h
  obtain rfl : m.calls = cs := hcalls
  obtain rfl : m.readers = rs := hreaders
  exact rfl

theorem SameOutcome.of_reaches {y : EStateM.Result Halt Machine Unit}
    (h : Reaches depth m n cs rs)
    (hrest : ∀ l k es, SameOutcome SameEffect
      (readOn (.nested depth) (n.reading (⟨cs, l⟩ :: rs) k es)) y) :
    SameOutcome SameEffect (readOn (.nested depth) m) y := by
  obtain ⟨l, k, es, hread⟩ := h
  rw [hread]
  exact hrest l k es

theorem SameOutcome.restored {x y : EStateM.Result Halt Machine Unit}
    (h : SameOutcome SameEffect x y) (hcalls : (left x).calls = (left y).calls)
    (hreaders : (left x).readers = (left y).readers) : SameOutcome SameButReports x y := by
  cases h with
  | ok heffect => exact .ok (heffect.sameButReports hcalls hreaders)
  | failed cause heffect => exact .failed cause (heffect.sameButReports hcalls hreaders)

namespace Machine

/-! ## Reading a definition -/

theorem Reaches.readOn_eq (h : Reaches depth m n [] rs) :
    ∃ r k es, readOn (.nested depth) m = .ok () (n.reading (r :: rs) k es) := by
  obtain ⟨l, k, es, hread⟩ := h
  exact ⟨⟨[], l⟩, k, es, hread.trans (readOn_of_none _ rfl rfl)⟩

/-- The word that a definition makes. -/
def defined (m : Machine) (p : Pending) (vs : List Value) : Word :=
  (m.withWord ⟨p.name, false, p.location, "User defined word.", ""⟩ (.compiled vs)).1

/-- The machine with a word more. -/
def adding (m : Machine) (w : Word) : Machine :=
  { m with dictionary := m.dictionary.insert w, nextSerial := m.nextSerial + 1 }

theorem nextWordRequired_of_token {r s : Reader} {t : Token} (hm : m.readers = r :: rs)
    (hr : r.nextWord = (some t, s)) :
    nextWordRequired m = .ok t { m with readers := s :: rs } := by
  unfold nextWordRequired
  rw [bind_ok (nextWord_of_cons hm), hr]
  rfl

theorem reaches_open (hd : m.dictionary.Stands ":" .startDefinition) (hname : IsWord name.toList)
    (hm : m.readers = ⟨':' :: ' ' :: (name.toList ++ ' ' :: cs), l⟩ :: rs) :
    Reaches depth m { m with
      pending := some ⟨name, l.after [':', ' ']⟩, mode := .compiling } cs rs := by
  have hnext : (⟨name.toList ++ ' ' :: cs, l.after [':', ' ']⟩ : Reader).nextWord =
      (some ⟨name, l.after [':', ' ']⟩,
        ⟨cs, (l.after [':', ' ']).after (name.toList ++ [' '])⟩) := by
    rw [Reader.nextWord_opening hname rfl, String.ofList_toList]
  refine reaches_builtIn (w := [':']) (c := ' ')
    (s := ⟨cs, (l.after [':', ' ']).after (name.toList ++ [' '])⟩)
    (.of_all nofun rfl) rfl hd rfl rfl hm fun call es =>
      ⟨.startedCompiling (l.after [':', ' ']) name :: es, ?_⟩
  exact bind_ok (nextWordRequired_of_token rfl hnext) _

/-- Nothing but the end of the definition is left: what has been collected becomes a word. -/
theorem reaches_close (depth : Nat) {p : Pending} (hd : m.dictionary.Stands ";" .endDefinition)
    (hp : m.pending = some p) (hvs : m.buffer.reverse = vs) (hm : m.readers = ⟨[';'], l⟩ :: rs) :
    Reaches depth m ({ m with pending := none, mode := .interpreting, buffer := [] }.adding
      (m.defined p vs)) [] rs := by
  generalize hn : adding _ (m.defined p vs) = n
  have hword : IsWord [';'] := .of_all nofun rfl
  have hends : EndsWord [] := nofun
  obtain ⟨s, hs, hgoes⟩ := Reader.nextWord_of_isWord hword hends l
  have hrun : ∀ call es, ∃ es',
      BuiltIn.endDefinition.run
        ({ m with calls := call :: m.calls }.reading (s :: rs) (some l) es) =
        .ok () ({ n with calls := call :: n.calls }.reading (s :: rs) (some l) es') := by
    intro call es
    refine ⟨additionEvents (m.dictionary.get? (Text.uppercase p.name)) (m.defined p vs) ++
      .finishedCompiling m.buffer.length p.name :: es, ?_⟩
    have hstop := stopCompiling_of_some (p := p)
      (m := { m with calls := call :: m.calls }.reading (s :: rs) (some l) es) hp
    subst hn hvs
    show discard stopCompiling _ = _
    rw [discard_apply, hstop]
    rfl
  obtain ⟨es, htoken⟩ : ∃ es, runToken (.nested depth) ⟨";", l⟩
      (m.reading (s :: rs) m.location m.events) = .ok () (n.reading (s :: rs) (some l) es) :=
    runToken_builtIn _ hd rfl hrun
  exact reaches_of_token hm hs htoken hgoes

theorem reaches_definition (depth : Nat) {body : List Char} (hmode : m.mode = .interpreting)
    (hbuffer : m.buffer = []) (hpending : m.pending = none)
    (hopen : m.dictionary.Stands ":" .startDefinition)
    (hclose : m.dictionary.Stands ";" .endDefinition) (hname : IsWord name.toList)
    (hbody : Body m.dictionary name body vs)
    (hm : m.readers = ⟨':' :: ' ' :: (name.toList ++ ' ' :: (body ++ [' ', ';'])), l⟩ :: rs) :
    Reaches depth m (m.adding (m.defined ⟨name, l.after [':', ' ']⟩ vs)) [] rs := by
  have hends : EndsWord [' ', ';'] := .cons rfl _
  have hvalues : (vs.reverse ++ m.buffer).reverse = vs := by simp [hbuffer]
  have hclosed : { m with pending := none, mode := .interpreting, buffer := [] } = m := by
    rw [← hmode, ← hbuffer, ← hpending]
  refine .trans (reaches_open hopen hname hm) fun l' k es => ?_
  refine .trans (reaches_body hbody rfl rfl hends rfl) fun l' k es => ?_
  refine .trans (reaches_blank rfl rfl) fun l' k es => ?_
  obtain ⟨l', k, es, hread⟩ := reaches_close depth
    (m := { m with
      pending := some ⟨name, l.after [':', ' ']⟩
      mode := .compiling
      buffer := vs.reverse ++ m.buffer }.reading (⟨[';'], l'⟩ :: rs) k es) hclose rfl hvalues rfl
  refine ⟨l', k, es, hread.trans ?_⟩
  show readOn _ (({ m with pending := none, mode := .interpreting, buffer := [] }.adding
    (m.defined ⟨name, l.after [':', ' ']⟩ vs)).reading _ k es) = _
  rw [hclosed]

/-- A definition adds one word, which holds the values that its body stands for. -/
theorem run_definition {body : String} (hmode : m.mode = .interpreting) (hbuffer : m.buffer = [])
    (hpending : m.pending = none) (hopen : m.dictionary.Stands ":" .startDefinition)
    (hclose : m.dictionary.Stands ";" .endDefinition) (hname : IsWord name.toList)
    (hbody : Body m.dictionary name body.toList vs) (depth : Nat) (path : String) :
    ∃ l k es, run (.nested depth) path (": " ++ name ++ " " ++ body ++ " ;") m =
      .ok () ((m.adding (m.defined ⟨name, l⟩ vs)).reading m.readers k es) := by
  have htext : (": " ++ name ++ " " ++ body ++ " ;").toList =
      ':' :: ' ' :: (name.toList ++ ' ' :: (body.toList ++ [' ', ';'])) := by
    simp
  have hstart : (pushReader (.ofText path (": " ++ name ++ " " ++ body ++ " ;")) m).readers =
      ⟨':' :: ' ' :: (name.toList ++ ' ' :: (body.toList ++ [' ', ';'])), .start path⟩ ::
        m.readers := by
    rw [← htext]
    rfl
  have hread := reaches_definition depth (m := pushReader (.ofText path _) m) hmode hbuffer hpending
    hopen hclose hname hbody hstart
  obtain ⟨r, k, es, hread⟩ := hread.readOn_eq
  refine ⟨(Location.start path).after [':', ' '], k, es, ?_⟩
  rw [run_eq]
  unfold withReader between
  rw [hread]
  rfl

/-- While interpreting, a word of the dictionary is executed, and then the text is read on. -/
theorem readOn_of_word {r s : Reader} {t : Token} {u : Word} (hm : m.readers = r :: rs)
    (hr : r.nextWord = (some t, s)) (hd : m.dictionary.get? t.text = some u)
    (hmode : m.mode = .interpreting) :
    readOn (.nested depth) m = (do execute (.nested depth) t.location u; readOn (.nested depth))
      (m.reading (s :: rs) (some t.location) m.events) := by
  refine (readOn_of_token depth hm hr).trans ?_
  rw [bind_apply, bind_apply, ← runToken_executed _ hd (.inr hmode) _ m.location]
  rfl

/-! ## Reading a body and executing its values -/

variable {made : List Word}

theorem executeItems_word (host : Host) (k : Location) (u : Word) (vs : List Value) :
    executeItems host k (.word u :: vs) = (do execute host k u; executeItems host k vs) := rfl

/-- While interpreting, reading a body comes to executing the values that it stands for. -/
theorem interpret_body (depth : Nat) (hbody : Body d name cs vs) (h : m.Sound made)
    (hmode : m.mode = .interpreting) (hd : m.dictionary = d) (hm : m.readers = ⟨cs, l⟩ :: rs)
    (hmn : SameEffect m n) (k : Location) :
    SameOutcome SameEffect (readOn (.nested depth) m) (executeItems (.nested depth) k vs n) := by
  induction hbody generalizing m n l with
  | nil =>
    rw [readOn_of_none _ hm rfl]
    exact .ok (hmn.reading _ m.location m.events)
  | blank hc _ ih =>
    refine .of_reaches (reaches_blank hc hm) fun l j es => ?_
    exact ih (h.withContext _ _ _ _) hmode hd rfl (hmn.reading _ j es)
  | @number w cs x vs hw hends _ hnone hx _ ih =>
    subst hd
    refine .of_reaches (reaches_number hw hends hnone hx hm) fun l j es => ?_
    have hpush := h.push (v := .number x) (Value.within_number x)
    have heffect := hmn.push (.number x)
    rw [withActive_of_interpreting hmode] at hpush heffect ⊢
    exact ih (hpush.withContext _ _ _ _) hmode rfl rfl (heffect.reading _ j es)
  | @word w cs u vs hw hends _ hsome himm _ ih =>
    subst hd
    obtain ⟨s, hs, hgoes⟩ := Reader.nextWord_of_isWord hw hends l
    have hexecute := execute_alike (.nested depth) (fun w hw => Word.Portable.isOrdinary hw)
      (m := m.reading (s :: rs) (some l) m.events) hmode h.data h.cells
      (h.within_of_get? hsome himm) (hmn.reading (s :: rs) (some l) m.events) l k
    rw [readOn_of_word hm hs hsome hmode, executeItems_word, bind_apply, bind_apply]
    generalize execute (.nested depth) l u (m.reading (s :: rs) (some l) m.events) = x at hexecute
    generalize execute (.nested depth) k u n = y at hexecute
    cases hexecute with
    | error halt left =>
      obtain ⟨hcause⟩ := halt
      exact .failed hcause left.1
    | excused excuse => exact excuse.elim
    | @ok _ _ m₁ n₁ _ left =>
      obtain ⟨heffect, hworks⟩ := left
      have hm₁ : m₁.readers = s :: rs := by rw [hworks.frame]; rfl
      have hcongr := readOn_congr (n := m₁.reading (⟨cs, l.after w⟩ :: rs) m₁.location m₁.events)
        depth hm₁ rfl hgoes
      have hsound : Sound made (m.reading (s :: rs) (some l) m.events) := h.withContext _ _ _ _
      have hsound₁ : m₁.Sound made := hsound.of_works hmode hworks
      have hdictionary : m₁.dictionary = m.dictionary := by rw [hworks.frame]; rfl
      dsimp only
      rw [← hcongr]
      exact ih (hsound₁.withContext _ _ _ _) (hworks.mode_eq.trans hmode) hdictionary rfl
        (heffect.reading _ _ _)
  | @text c s cs vs _ hstands hc hs _ ih =>
    subst hd
    refine .of_reaches (reaches_text hstands hc hs hm) fun l j es => ?_
    have hpush := h.push (v := .text (String.ofList s)) (Value.within_text _)
    have heffect := hmn.push (.text (String.ofList s))
    rw [withActive_of_interpreting hmode] at hpush heffect ⊢
    exact ih (hpush.withContext _ _ _ _) hmode rfl rfl (heffect.reading _ j es)
  | paren _ hstands hc hs _ ih =>
    subst hd
    refine .of_reaches (reaches_paren hstands hc hs hm) fun l j es => ?_
    exact ih (h.withContext _ _ _ _) hmode rfl rfl (hmn.reading _ j es)
  | line _ hstands hc hs _ ih =>
    subst hd
    refine .of_reaches (reaches_line hstands hc hs hm) fun l j es => ?_
    exact ih (h.withContext _ _ _ _) hmode rfl rfl (hmn.reading _ j es)
  | block _ hstands hc hs hends _ ih =>
    subst hd
    refine .of_reaches (reaches_block hstands hc hs hends hm) fun l j es => ?_
    exact ih (h.withContext _ _ _ _) hmode rfl rfl (hmn.reading _ j es)

/-! ## Running a name and running a body -/

/-- A text of one word is run by doing what the word asks for. -/
theorem run_word (hname : IsWord name.toList) (depth : Nat) (path : String) (m : Machine) :
    run (.nested depth) path name m =
      withReader ⟨[], (Location.start path).after name.toList⟩
        (runToken (.nested depth) ⟨name, .start path⟩) m := by
  have hnext := Reader.nextWord_alone hname (.start path)
  rw [String.ofList_toList] at hnext
  obtain ⟨s, hadv, hs⟩ := readers_runToken
    (m := pushReader ⟨[], (Location.start path).after name.toList⟩ m) rfl depth ⟨name, .start path⟩
  rw [run_eq]
  unfold withReader between
  rw [readOn_of_token (m := pushReader (.ofText path name) m) depth rfl hnext, bind_apply,
    show { pushReader (.ofText path name) m with
      readers := ⟨[], (Location.start path).after name.toList⟩ :: m.readers } =
        pushReader ⟨[], (Location.start path).after name.toList⟩ m from rfl]
  cases hrun : runToken (.nested depth) ⟨name, .start path⟩
      (pushReader ⟨[], (Location.start path).after name.toList⟩ m) with
  | error halt m' => rfl
  | ok _ m' =>
    rw [hrun] at hs
    have hs : m'.readers = s :: m.readers := hs
    have hempty : s.rest = [] := List.length_eq_zero_iff.mp (Nat.le_zero.mp hadv.length_le)
    have hnone : s.nextWord = (none, s.skipBlanks) :=
      Reader.nextWord_of_blank (by rw [hempty]; rfl)
    dsimp only
    rw [readOn_of_none _ hs hnone]
    unfold dropReader
    rw [hs]
    rfl

theorem between_congr {before before' after : Machine → Machine} {x y : Act Unit}
    (h : x (before m) = y (before' n)) : between before after x m = between before' after y n := by
  unfold between
  rw [h]

/-- Running the name of a definition is executing the values it holds. -/
theorem run_name {w : Word} (hname : IsWord name.toList) (hd : m.dictionary.get? name = some w)
    (hw : w.definition = .compiled vs) (hmode : m.mode = .interpreting) (depth : Nat)
    (path : String) :
    run (.nested depth) path name m =
      withReader ⟨[], (Location.start path).after name.toList⟩
        (duringCall ⟨w.name, .start path⟩ (executeItems (.nested depth) (.start path) vs))
          { m with location := some (.start path) } := by
  have htoken := runToken_executed (t := ⟨name, .start path⟩) (.nested depth) hd (.inr hmode)
    (⟨[], (Location.start path).after name.toList⟩ :: m.readers) m.location m.events
  rw [execute_eq, hw] at htoken
  rw [run_word hname]
  exact between_congr (htoken.trans (between_congr rfl))

theorem run_body_agrees {w : Word} (h : m.Sound made) (hmode : m.mode = .interpreting)
    (hname : IsWord name.toList) (hd : m.dictionary.get? name = some w)
    (hw : w.definition = .compiled vs) {body : String}
    (hbody : Body m.dictionary name body.toList vs) (depth : Nat) (path path' : String) :
    SameOutcome SameButReports (run (.nested depth) path body m)
      (run (.nested depth) path' name m) := by
  have hread := run_left depth path body m
  have hcalled := run_left depth path' name m
  refine SameOutcome.restored ?_ (hread.1.trans hcalled.1.symm) (hread.2.trans hcalled.2.symm)
  rw [run_name hname hd hw hmode, run_eq]
  unfold withReader duringCall between
  have hsame := interpret_body depth (m := pushReader (.ofText path body) m)
    (n := enterCall ⟨w.name, .start path'⟩
      (pushReader ⟨[], (Location.start path').after name.toList⟩
        { m with location := some (.start path') }))
    hbody (h.withContext _ _ _ _) hmode rfl rfl (.intro _ _ _ _) (.start path')
  generalize readOn _ _ = x at hsame ⊢
  generalize executeItems _ _ _ _ = y at hsame ⊢
  cases hsame with
  | ok heffect =>
    obtain ⟨rs, l, cs, es⟩ := heffect
    exact .ok (.intro rs.tail l cs.tail es)
  | failed cause heffect =>
    obtain ⟨rs, l, cs, es⟩ := heffect
    exact .failed cause (.intro rs.tail l cs.tail es)

/-- After a definition, running its body and running its name come to the same outcome, and leave
machines that differ in the place last read and in the reports at most. -/
theorem compiled_body_agrees (h : Scripted m) (hmode : m.mode = .interpreting)
    (hopen : m.dictionary.Stands ":" .startDefinition)
    (hclose : m.dictionary.Stands ";" .endDefinition) {body : String}
    (hname : IsWord name.toList) (hbody : Body m.dictionary name body.toList vs)
    (depth : Nat) (path : String) :
    ∃ n, run (.nested depth) path (": " ++ name ++ " " ++ body ++ " ;") m = .ok () n ∧
      ∀ p q, SameOutcome SameButReports (run (.nested depth) p body n)
        (run (.nested depth) q name n) := by
  obtain ⟨made, hsound⟩ := h.sound
  have hpending : m.pending = none := by
    cases hp : m.pending with
    | none => rfl
    | some p =>
      have hcompiling := hsound.pending.mpr (by rw [hp]; rfl)
      rw [hmode] at hcompiling
      cases hcompiling
  obtain ⟨l, k, es, hrun⟩ := run_definition hmode (hsound.empty hmode) hpending hopen hclose hname
    hbody depth path
  refine ⟨_, hrun, fun p q => ?_⟩
  have hdefined := h.run depth path (": " ++ name ++ " " ++ body ++ " ;")
  rw [hrun] at hdefined
  obtain ⟨made, hsound⟩ := hdefined.sound
  have hsame : Text.uppercase (m.defined ⟨name, l⟩ vs).name = Text.uppercase name :=
    Text.uppercase_uppercase name
  exact run_body_agrees (w := m.defined ⟨name, l⟩ vs) hsound hmode hname
    (Dictionary.get?_insert_self hsame.symm) rfl (hbody.insert hsame) depth p q

/-- A definition with a comment in its body. -/
theorem compiled_body_agrees_square : ∃ vs,
    Body fresh.dictionary "SQ" "DUP ( twice ) *".toList vs ∧
    ∃ n, run (.nested 0) "s" (": " ++ "SQ" ++ " " ++ "DUP ( twice ) *" ++ " ;") .fresh = .ok () n ∧
      ∀ p q, SameOutcome SameButReports (run (.nested 0) p "DUP ( twice ) *" n)
        (run (.nested 0) q "SQ" n) := by
  obtain ⟨u, hdup, hudup, -⟩ := fresh_stands .dup "DUP" (by decide)
  obtain ⟨v, hmul, hvmul, -⟩ := fresh_stands .multiply "*" (by decide)
  have htext : "DUP ( twice ) *".toList = ['D', 'U', 'P'] ++ ' ' :: '(' :: ' ' ::
      (['t', 'w', 'i', 'c', 'e', ' '] ++ ')' :: ' ' :: (['*'] ++ [])) := by decide
  have hbody : Body fresh.dictionary "SQ" "DUP ( twice ) *".toList [.word u, .word v] := by
    rw [htext]
    refine .word (.of_all nofun rfl) (.cons rfl _) (by decide +kernel) hdup hudup ?_
    refine .blank rfl (.paren (by decide +kernel) (fresh_stands _ _ (by decide)) rfl (by decide) ?_)
    exact .blank rfl (.word (.of_all nofun rfl) nofun (by decide +kernel) hmul hvmul .nil)
  exact ⟨_, hbody, compiled_body_agrees .fresh rfl (fresh_stands _ _ (by decide))
    (fresh_stands _ _ (by decide)) (.of_all (by decide) (by decide)) hbody 0 "s"⟩

end Machine
end WordStack
