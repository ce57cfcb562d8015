import WordStack.Proofs.Likeness

/-
  What an ordinary word can do: one that is not immediate, is no host word and uses ordinary words
  only. Executed while interpreting, it changes the data stack, the contents of the cells and the
  output (`execute_works`), and it puts no word there that was not there or in itself before.
  Where it is called from, by which words and what is left to read make no difference to what it
  does (`executable_working`).
-/
namespace WordStack

open Machine

/-- No word that reads on in the text, and no word of the host. -/
def Definition.IsOrdinary : Definition → Prop
  | .builtIn b => b.isImmediate = false
  | .host _ => False
  | .variable _ | .constant _ | .compiled _ => True

/-- A word that can stand in a body. -/
structure Word.IsOrdinary (w : Word) : Prop where
  isImmediate : w.isImmediate = false
  definition : w.definition.IsOrdinary

/-- What a word has to be compared on two machines, if it is ordinary: the values and the words
that it holds, and the listing of the dictionary if it prints it. -/
theorem Likeness.Ordinary.definitions {ι : Type} {K : Likeness ι} (hK : K.Ordinary) {host : Host}
    {d : Definition} (hd : d.IsOrdinary)
    (hlist : d = .builtIn .printWords → ∀ i m n, K.machines i m n →
      K.texts m.dictionary.listing n.dictionary.listing)
    (hvalues : ∀ x ∈ d.values, K.values x x) (hwords : ∀ w, .word w ∈ d.values → K.words w w) :
    K.Definitions host d d := by
  cases d with
  | builtIn b =>
    exact .builtIn fun i m n h => hK.run hd h fun hb => hlist (congrArg _ hb) i m n h
  | host body => exact hd.elim
  | «variable» c => exact .variable
  | constant x => exact .constant (hvalues x List.mem_cons_self)
  | compiled body =>
    refine .compiled ?_
    rw [List.forall₂_same]
    intro x hx
    cases x with
    | word u => exact .word (hwords u hx)
    | number | text | cell => exact .literal nofun nofun (hvalues _ hx)

variable {p : Word → Prop} {m₀ m n : Machine}

/-- The machine differs from the first in its data, its cells, its output, its events and its
calls at most, and `p` holds of the words that the data and the cells lead to. -/
structure Works (p : Word → Prop) (m₀ m : Machine) : Prop where
  frame : m = { m₀ with
    data := m.data, cells := m.cells, output := m.output, events := m.events, calls := m.calls }
  size : m.cells.size = m₀.cells.size
  data : ∀ v ∈ m.data, v.Within p
  cells : ∀ i v, m.cells.get? i = some v → v.Within p

theorem Works.mode_eq (h : Works p m₀ m) : m.mode = m₀.mode := by rw [h.frame]

theorem Works.nextSerial_eq (h : Works p m₀ m) : m.nextSerial = m₀.nextSerial := by rw [h.frame]

theorem Cells.size_set? {c d : Cells} {i : Nat} {v : Value} (h : c.set? i v = some d) :
    d.size = c.size := by
  unfold Cells.set? at h
  split at h
  · obtain rfl := Option.some.inj h
    exact Array.size_setIfInBounds
  · cases h

/-- The machines differ in their readers, their place, their calls and their events at most. -/
inductive SameEffect (m : Machine) : Machine → Prop
  | intro (rs : List Reader) (l : Option Location) (cs : List Call) (es : List Event) :
    SameEffect m { m with readers := rs, location := l, calls := cs, events := es }

namespace SameEffect

theorem refl (m : Machine) : SameEffect m m := .intro m.readers m.location m.calls m.events

theorem mode_eq (h : SameEffect m n) : n.mode = m.mode := by cases h; rfl

theorem data_eq (h : SameEffect m n) : n.data = m.data := by cases h; rfl

theorem cells_eq (h : SameEffect m n) : n.cells = m.cells := by cases h; rfl

theorem active_eq (h : SameEffect m n) : n.active = m.active := by cases h; rfl

theorem withActive (h : SameEffect m n) (vs : List Value) :
    SameEffect (m.withActive vs) (n.withActive vs) := by
  obtain ⟨rs, l, cs, es⟩ := h
  unfold Machine.withActive
  cases m.mode with
  | interpreting => exact .intro rs l cs es
  | compiling => exact .intro rs l cs es

end SameEffect

/-- Both acts failed, for the same cause. -/
inductive SameCause : Halt → Halt → Prop
  | failed {e f : Error} : e.cause = f.cause → SameCause (.failed e) (.failed f)

namespace Likeness

/-- Machines that differ in their surroundings at most, as long as the first works on from `m₀`
with words that have `p`. -/
def working (p : Word → Prop) (m₀ : Machine) : Likeness Unit where
  machines _ m n := SameEffect m n ∧ Works p m₀ m
  values v w := v = w ∧ v.Within p
  texts := Eq
  places _ _ := True
  words v w := v = w ∧ v.Within p
  halts := SameCause
  excused := unexcused

end Likeness

/-- An invariant of the values in a list, as a relation of the list with itself. -/
theorem forall₂_self {α : Type} {q : α → Prop} {xs : List α} (h : ∀ x ∈ xs, q x) :
    List.Forall₂ (fun x y => x = y ∧ q x) xs xs := by
  rw [List.forall₂_same]
  exact fun x hx => ⟨rfl, h x hx⟩

theorem eq_of_forall₂_self {α : Type} {q : α → Prop} {xs ys : List α}
    (h : List.Forall₂ (fun x y => x = y ∧ q x) xs ys) : xs = ys ∧ ∀ x ∈ xs, q x := by
  induction h with
  | nil => exact ⟨rfl, fun _ hx => nomatch hx⟩
  | cons hxy _ ih =>
    refine ⟨by rw [hxy.1, ih.1], fun x hx => ?_⟩
    rcases List.mem_cons.mp hx with rfl | hx
    · exact hxy.2
    · exact ih.2 x hx

section

variable {host : Host}

theorem ordinary_working (hmode : m₀.mode = .interpreting) :
    (Likeness.working p m₀).Ordinary where
  fail _ c := .failed rfl
  shape h := h.1 ▸ .refl _
  number x := ⟨rfl, Value.within_number x⟩
  cell c := ⟨rfl, Value.within_cell c⟩
  active {i m n} h := by
    have hm : m.mode = .interpreting := h.2.mode_eq.trans hmode
    rw [active_of_interpreting hm, active_of_interpreting (h.1.mode_eq.trans hm), h.1.data_eq]
    exact forall₂_self h.2.data
  withActive {i m n vs ws} h hvs := by
    obtain ⟨rfl, hv⟩ := eq_of_forall₂_self hvs
    have hm : m.mode = .interpreting := h.2.mode_eq.trans hmode
    refine ⟨h.1.withActive vs, ?_⟩
    rw [withActive_of_interpreting hm]
    exact ⟨by rw [h.2.frame], h.2.size, hv, h.2.cells⟩
  readCell h c :=
    Likeness.agree_readCell h h.1.cells_eq (fun _ => .error (.failed rfl) h)
      fun v hv => ⟨rfl, h.2.cells c v hv⟩
  writeCell h c hv := by
    obtain ⟨rfl, hv⟩ := hv
    refine Likeness.agree_writeCell h.1.cells_eq (fun _ => .error (.failed rfl) h)
      fun cells hc => ?_
    obtain ⟨⟨rs, l, cs, es⟩, hw⟩ := h
    refine ⟨.intro rs l cs es, ?_⟩
    refine ⟨by rw [hw.frame], (Cells.size_set? hc).trans hw.size, hw.data, ?_⟩
    intro j x hx
    rw [Cells.get?_set? hc] at hx
    split at hx
    · obtain rfl := Option.some.inj hx
      exact hv
    · exact hw.cells j x hx
  write {i m n s t} h hs := by
    obtain rfl : s = t := hs
    obtain ⟨⟨rs, l, cs, es⟩, hw⟩ := h
    refine Likeness.agree_write ⟨.intro rs l cs es, hw⟩ rfl (.failed rfl) ⟨.intro rs l cs es, ?_⟩
    exact ⟨by rw [hw.frame], hw.size, hw.data, hw.cells⟩
  line h := by rw [h.1]; rfl
  stackLine {i m n} h := by
    obtain ⟨⟨⟩, -⟩ := h
    rfl

theorem executable_working (hmode : m₀.mode = .interpreting) (hp : ∀ w, p w → w.IsOrdinary) :
    (Likeness.working p m₀).Executable host where
  toOrdinary := ordinary_working hmode
  word {v w} h := by
    obtain ⟨rfl, hv⟩ := h
    have hvalues := (Word.within_iff_values.mp hv).2
    refine ⟨rfl, (ordinary_working hmode).definitions (hp v hv.self).definition
      (fun _ i m n h => ?_) (fun x hx => ⟨rfl, hvalues x hx⟩) fun u hu => ⟨rfl, hv.of_uses hu⟩⟩
    obtain ⟨⟨⟩, -⟩ := h
    rfl
  here _ := trivial
  call {i m n l k} h _ name := by
    obtain ⟨⟨rs, j, cs, es⟩, hw⟩ := h
    refine ⟨i, ⟨.intro rs j (⟨name, k⟩ :: cs) (.executedWord name :: es),
      by rw [hw.frame]; rfl, hw.size, hw.data, hw.cells⟩, fun m n h => ?_⟩
    obtain ⟨⟨rs, j, cs, es⟩, hw⟩ := h
    exact ⟨.intro rs j cs.tail es, by rw [hw.frame]; rfl, hw.size, hw.data, hw.cells⟩

/-- An ordinary word does the same in other surroundings and from another place. -/
theorem execute_alike (host : Host) (hp : ∀ w, p w → w.IsOrdinary) (hmode : m.mode = .interpreting)
    (hdata : ∀ v ∈ m.data, v.Within p) (hcells : ∀ i v, m.cells.get? i = some v → v.Within p)
    {w : Word} (hw : w.Within p) (hmn : SameEffect m n) (l k : Location) :
    (Likeness.working p m).Agree () Eq (execute host l w m) (execute host k w n) := by
  have hexec : (Likeness.working p m).Executable host := executable_working hmode hp
  exact hexec.execute ⟨rfl, hw⟩ ⟨hmn, rfl, rfl, hdata, hcells⟩ trivial

/-- An ordinary word works on with what it finds and with what it holds. -/
theorem execute_works (hp : ∀ w, p w → w.IsOrdinary) (hmode : m.mode = .interpreting)
    (hdata : ∀ v ∈ m.data, v.Within p) (hcells : ∀ i v, m.cells.get? i = some v → v.Within p)
    {w : Word} (hw : w.Within p) (l : Location) : Ends (Works p m) (execute host l w m) := by
  have h := execute_alike host hp hmode hdata hcells hw (.refl m) l l
  generalize execute host l w m = x at h
  cases h with
  | ok _ left => exact .ok left.2
  | error halt left =>
    obtain ⟨-⟩ := halt
    exact .failed left.2
  | excused excuse => exact excuse.elim

end
end WordStack
