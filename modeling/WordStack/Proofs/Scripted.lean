import WordStack.Proofs.Sound
import WordStack.Session

/-
  The machines that running texts leads to, from the machine that has only the built-in words.
  A run may fail anywhere, and the output may begin or cease to fail between two runs.
  `Scripted.sound`: all of them are sound, and none is in the middle of a run or a call.
  `run_of_scripted`: as there is no host word among their words, a run is the same under any host.
-/
namespace WordStack

open Machine

/-- A machine that has only run texts, one after another. -/
inductive Scripted : Machine → Prop
  | fresh : Scripted .fresh
  | run {m : Machine} (h : Scripted m) (depth : Nat) (path text : String) :
    Scripted (left (Machine.run (.nested depth) path text m))
  | setOutputFails {m : Machine} (h : Scripted m) (fails : Bool) :
    Scripted { m with outputFails := fails }
  /-- What was written and reported may be taken away between two runs. -/
  | observe {m : Machine} (h : Scripted m) : Scripted (Session.beginStep m)

namespace Machine

theorem sound_blank : Sound [] blank where
  length := rfl
  data _ h := nomatch h
  buffer _ h := nomatch h
  cells i _ h := by cases h
  dictionary _ h := nomatch h
  pending := ⟨fun h => (nomatch h), fun h => (nomatch h)⟩
  empty _ := rfl

theorem Sound.install {made : List Word} {m : Machine} (h : m.Sound made) (name : String)
    (b : BuiltIn) : (m.install name b).SoundFrom made :=
  ⟨[_], h.insert rfl rfl nofun nofun⟩

/-- What is true without words, and stays true as built-in words are added, is true at the start. -/
theorem fresh_induction {p : Machine → Prop} (hblank : p blank)
    (hinstall : ∀ m name b, p m → p (m.install name b)) : p fresh :=
  List.foldlRecOn BuiltIn.named _ hblank fun m hm e _ => hinstall m e.1 e.2 hm

theorem soundFrom_fresh : SoundFrom [] fresh := by
  refine fresh_induction sound_blank.soundFrom fun m name b h => ?_
  obtain ⟨made, h⟩ := h
  exact (h.install name b).trans

theorem soundFrom_left_run {made : List Word} {m : Machine} (h : m.SoundFrom made) (depth : Nat)
    (path text : String) : (left (run (.nested depth) path text m)).SoundFrom made := by
  obtain ⟨more, h⟩ := h
  have hrun := sound_run depth h path text
  generalize run (.nested depth) path text m = x at hrun
  cases hrun with
  | ok h => exact h.trans
  | failed h => exact h.trans

end Machine

namespace Scripted

variable {m : Machine}

theorem soundFrom (h : Scripted m) : m.SoundFrom [] := by
  induction h with
  | fresh => exact soundFrom_fresh
  | run _ depth path text ih => exact soundFrom_left_run ih depth path text
  | setOutputFails _ _ ih | observe _ ih =>
    obtain ⟨made, ih⟩ := ih
    exact ⟨made, ih.length, ih.data, ih.buffer, ih.cells, ih.dictionary, ih.pending, ih.empty⟩

theorem sound (h : Scripted m) : ∃ made, m.Sound made := by
  obtain ⟨made, h⟩ := h.soundFrom
  exact ⟨made, h⟩

theorem atRest (h : Scripted m) : m.calls = [] ∧ m.readers = [] := by
  induction h with
  | fresh => exact ⟨rfl, rfl⟩
  | run _ depth path text ih =>
    obtain ⟨hcalls, hreaders⟩ := run_left depth path text _
    exact ⟨hcalls.trans ih.1, hreaders.trans ih.2⟩
  | setOutputFails _ _ ih | observe _ ih => exact ih

end Scripted

/-! ## Without host words -/

namespace Machine

variable {made : List Word} {m : Machine}

/-- The host makes no difference to a word that leads to no host word. -/
theorem execute_of_hostless (host host' : Host) {w : Word}
    (hw : w.Within fun v => ∀ body, v.definition ≠ .host body) (l : Location) :
    execute host l w = execute host' l w := by
  induction w using Word.uses_induction generalizing l with
  | h w ih =>
    have hhost := hw.self
    have hused : ∀ v, .word v ∈ w.definition.values → ∀ l, execute host l v = execute host' l v :=
      fun v hv l => ih v hv (hw.of_uses hv) l
    rw [execute_eq, execute_eq]
    revert hhost hused
    generalize w.definition = d
    intro hhost hused
    cases d with
    | builtIn | «variable» | constant => rfl
    | host body => exact absurd rfl (hhost body)
    | compiled body =>
      have hitems : ∀ l, executeItems host l body = executeItems host' l body := by
        intro l
        have hbody : ∀ v, .word v ∈ body → ∀ l, execute host l v = execute host' l v := hused
        clear hhost hused
        induction body with
        | nil => rfl
        | cons v vs ih =>
          have hvs := ih fun u hu => hbody u (List.mem_cons_of_mem _ hu)
          cases v with
          | word u =>
            unfold executeItems
            rw [hbody u List.mem_cons_self, hvs]
          | number | text | cell =>
            unfold executeItems
            rw [hvs]
      rw [executeDefinition_compiled, executeDefinition_compiled]
      unfold executeBody
      simp only [hitems]

theorem Sound.hostless (h : m.Sound made) {name : String} {w : Word}
    (hw : m.dictionary.get? name = some w) :
    w.Within fun v => ∀ body, v.definition ≠ .host body := by
  obtain ⟨hsound, hvalues⟩ := h.dictionary _ (Dictionary.mem_of_get? hw)
  refine Word.within_iff_values.mpr ⟨hsound.notHost, fun v hv => ?_⟩
  exact (hvalues v hv).mono fun u hu => hu.notHost

theorem Sound.runToken_eq (h : m.Sound made) (host host' : Host) (t : Token) :
    runToken host t m = runToken host' t m := by
  unfold runToken
  rw [modify_bind, modify_bind]
  cases hw : m.dictionary.get? (Text.uppercase t.text) with
  | none =>
    cases hx : Number.parse? (Text.uppercase t.text) with
    | none =>
      have hres := resolve_of_unknown (m := { m with location := some t.location }) hw hx
      rw [bind_error hres, bind_error hres]
    | some x =>
      have hres := resolve_of_number (m := { m with location := some t.location }) hw hx
      rw [bind_ok hres, bind_ok hres]
  | some w =>
    have hres := resolve_of_word (m := { m with location := some t.location }) hw
    rw [bind_ok hres, bind_ok hres]
    dsimp only
    rw [execute_of_hostless host host' (h.hostless hw)]

theorem Sound.runWords_eq (h : m.Sound made) (host host' : Host) (k : Nat) :
    runWords host k m = runWords host' k m := by
  induction k generalizing made m with
  | zero => rfl
  | succ k ih =>
    obtain ⟨t, rs, hnext⟩ := nextWord_ok m
    unfold runWords
    rw [bind_ok hnext, bind_ok hnext]
    have h : Sound made { m with readers := rs } := h.withContext _ _ _ _
    cases t with
    | none => rfl
    | some t =>
      have htoken := sound_runToken host h t
      dsimp only
      rw [bind_apply, bind_apply, ← h.runToken_eq host host' t]
      generalize runToken host t { m with readers := rs } = x at htoken
      cases htoken with
      | failed => rfl
      | ok h =>
        obtain ⟨more, h⟩ := h
        exact ih h

theorem Sound.run_eq (h : m.Sound made) (host host' : Host) (path text : String) :
    run host path text m = run host' path text m := by
  have hstart : Sound made (pushReader (.ofText path text) m) := h.withContext _ _ _ _
  unfold run withReader between
  rw [hstart.runWords_eq host host']

/-- What host words do makes no difference to a machine that has only run texts. -/
theorem run_of_scripted (h : Scripted m) (host host' : Host) (path text : String) :
    run host path text m = run host' path text m := by
  obtain ⟨made, hsound⟩ := h.sound
  exact hsound.run_eq host host' path text

end Machine
end WordStack
