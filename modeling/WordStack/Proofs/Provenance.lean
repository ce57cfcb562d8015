import WordStack.Proofs.Executions
import WordStack.Proofs.Outcomes

/-
  The values that texts can bring up: numbers, references to cells, texts that end before a quote,
  and words whose bodies have such values in them. A built-in word leaves only values that were
  there before, numbers and what it has read up to a quote (`HoldsOnly.builtIn`). So what holds of
  all values that texts can bring up holds of every value on a stack, in a cell or in a definition,
  whatever texts a machine has run (`HoldsOnly.scripted`).
  `quoteless_of_scripted`: no text with a quote in it is ever among them.
-/
namespace WordStack

open Machine

/-- This holds of every value that a text can bring up. -/
structure HoldsOfBrought (P : Value → Prop) : Prop where
  number : ∀ x, P (.number x)
  cell : ∀ i, P (.cell i)
  text : ∀ s : String, '"' ∉ s.toList → P (.text s)
  word : ∀ w, P (.word w) ↔ ∀ v ∈ w.definition.values, P v

/-- `P` holds of every value on a stack, in a cell or in the definition of a word. -/
structure Machine.HoldsOnly (P : Value → Prop) (m : Machine) : Prop where
  data : ∀ v ∈ m.data, P v
  buffer : ∀ v ∈ m.buffer, P v
  cells : ∀ i v, m.cells.get? i = some v → P v
  dictionary : ∀ e ∈ m.dictionary.entries, ∀ v ∈ e.2.definition.values, P v

/-- The text is the value, or stands in the body of the word that the value is, however deep. -/
inductive Value.HasText (s : String) : Value → Prop
  | text : HasText s (.text s)
  | word {w : Word} {v : Value} (hv : v ∈ w.definition.values) (h : HasText s v) :
    HasText s (.word w)

/-- No text with a quote can be reached from the value. -/
def Value.Quoteless (v : Value) : Prop := ∀ s, v.HasText s → '"' ∉ s.toList

variable {P : Value → Prop} {m : Machine} {v : Value} {w : Word} {vs : List Value}

/-! ## One built-in word -/

namespace Machine.HoldsOnly

theorem mono {Q : Value → Prop} (h : m.HoldsOnly P) (hPQ : ∀ v, P v → Q v) : m.HoldsOnly Q :=
  ⟨fun v hv => hPQ v (h.data v hv), fun v hv => hPQ v (h.buffer v hv),
    fun i v hv => hPQ v (h.cells i v hv), fun e he v hv => hPQ v (h.dictionary e he v hv)⟩

theorem active (h : m.HoldsOnly P) : ∀ v ∈ m.active, P v := by
  unfold Machine.active
  cases m.mode with
  | interpreting => exact h.data
  | compiling => exact h.buffer

theorem withActive (h : m.HoldsOnly P) (hvs : ∀ v ∈ vs, P v) : (m.withActive vs).HoldsOnly P := by
  cases hm : m.mode with
  | interpreting =>
    rw [withActive_of_interpreting hm]
    exact ⟨hvs, h.buffer, h.cells, h.dictionary⟩
  | compiling =>
    rw [withActive_of_compiling hm]
    exact ⟨h.data, hvs, h.cells, h.dictionary⟩

theorem push (h : m.HoldsOnly P) (hv : P v) : (m.withActive (v :: m.active)).HoldsOnly P :=
  h.withActive (List.forall_mem_cons.mpr ⟨hv, h.active⟩)

/-- What does not hold values can be anything. -/
theorem withContext (h : m.HoldsOnly P) (mode : Mode) (pending : Option Pending)
    (readers : List Reader) (location : Option Location) (calls : List Call)
    (events : List Event) (output : String) (outputFails : Bool) (replies : List Reply) :
    HoldsOnly P
      { m with mode, pending, readers, location, calls, events, output, outputFails, replies } :=
  ⟨h.data, h.buffer, h.cells, h.dictionary⟩

theorem withWord (h : m.HoldsOnly P) (heading : Heading) {d : Definition}
    (hd : ∀ v ∈ d.values, P v) : (m.withWord heading d).2.HoldsOnly P := by
  refine ⟨h.data, h.buffer, h.cells, fun e he => ?_⟩
  rcases Dictionary.mem_insertEntry he with rfl | he
  · exact hd
  · exact h.dictionary e he

theorem setCell (h : m.HoldsOnly P) {i : Nat} {cells : Cells} (hv : P v)
    (hc : m.cells.set? i v = some cells) : { m with cells }.HoldsOnly P := by
  refine ⟨h.data, h.buffer, fun j x hx => ?_, h.dictionary⟩
  have hx : cells.get? j = some x := hx
  rw [Cells.get?_set? hc] at hx
  split at hx
  · obtain rfl := Option.some.inj hx
    exact hv
  · exact h.cells j x hx

theorem allocate (h : m.HoldsOnly P) (hv : P v) :
    { m with cells := (m.cells.allocate v).2 }.HoldsOnly P := by
  refine ⟨h.data, h.buffer, fun i x hx => ?_, h.dictionary⟩
  have hx : (m.cells.contents.push v)[i]? = some x := hx
  rw [Array.getElem?_push] at hx
  split at hx
  · obtain rfl := Option.some.inj hx
    exact hv
  · exact h.cells i x hx

end Machine.HoldsOnly

/-- What is read up to a character does not have it. -/
theorem Reader.delimiter_not_mem {d : Char} {r r' : Reader} {s : String}
    (h : r.textUpTo d = (.ok s, r')) : d ∉ s.toList := by
  unfold textUpTo at h
  dsimp only at h
  split at h
  · cases h
  · obtain rfl := Except.ok.inj (congrArg Prod.fst h)
    rw [String.toList_ofList]
    intro hd
    simpa using List.mem_takeWhile_imp hd

theorem Machine.delimiter_not_mem {d : Char} {s : String} {n : Machine}
    (h : textUpTo d m = .ok s n) : d ∉ s.toList := by
  cases hm : m.readers with
  | nil =>
    rw [textUpTo_of_nil hm] at h
    cases h
  | cons r rs =>
    rw [textUpTo_of_cons hm] at h
    rcases hr : r.textUpTo d with ⟨e | t, r'⟩ <;> rw [hr] at h <;> cases h
    exact Reader.delimiter_not_mem hr

/-- A built-in word leaves the values that were there, numbers, and a text without a quote. -/
theorem Machine.HoldsOnly.builtIn (h : m.HoldsOnly P) (hnumber : ∀ x, P (.number x))
    (htext : ∀ s : String, '"' ∉ s.toList → P (.text s)) (b : BuiltIn) :
    (left (b.run m)).HoldsOnly P := by
  have ho := BuiltIn.outcome b m
  generalize b.run m = x at ho
  have hactive := h.active
  cases ho with
  | underflow | notOpen => exact h
  | @mismatch _ vs _ v taken _ hm _ =>
    refine h.withActive fun x hx => hactive x ?_
    rw [hm]
    exact List.mem_append_right _ (List.mem_cons_of_mem _ hx)
  | rearranged hr =>
    refine h.withActive fun x hx => ?_
    rcases BuiltIn.mem_of_rearranged hr x hx with hx | ⟨y, rfl⟩
    · exact hactive x hx
    · exact hnumber y
  | @stored i v vs cells hm hc =>
    rw [hm] at hactive
    obtain ⟨-, hv, hvs⟩ := by simpa only [List.forall_mem_cons] using hactive
    exact (h.withActive hvs).setCell hv (withActive_cells m vs ▸ hc)
  | @storedNowhere i v vs hm _ =>
    refine h.withActive fun x hx => hactive x ?_
    rw [hm]
    exact List.mem_cons_of_mem _ (List.mem_cons_of_mem _ hx)
  | @fetched i v vs hm hc =>
    rw [hm] at hactive
    exact h.withActive (List.forall_mem_cons.mpr
      ⟨h.cells i v hc, fun x hx => hactive x (List.mem_cons_of_mem _ hx)⟩)
  | @fetchedNowhere i vs hm _ =>
    refine h.withActive fun x hx => hactive x ?_
    rw [hm]
    exact List.mem_cons_of_mem _ hx
  | wrote hw =>
    obtain ⟨vs, hvs, rfl⟩ := BuiltIn.machine_of_writing hw
    have hn := h.withActive fun x hx => hactive x (hvs x hx)
    rw [write_apply]
    split
    · exact hn
    · exact hn.withContext _ _ _ _ _ _ _ _ _
  | nameless | comment | unterminated | blockComment | unterminatedBlock | opened =>
    exact h.withContext _ _ _ _ _ _ _ _ _
  | «variable» =>
    refine HoldsOnly.withWord ?_ _ nofun
    exact (h.allocate (hnumber _)).withContext _ _ _ _ _ _ _ _ _
  | @constant t rs v vs hm _ =>
    rw [hm] at hactive
    obtain ⟨hv, hvs⟩ := List.forall_mem_cons.mp hactive
    have hread : HoldsOnly P { m with readers := rs } := h.withContext _ _ _ _ _ _ _ _ _
    refine (hread.withActive hvs).withWord _ fun x hx => ?_
    obtain rfl := List.mem_singleton.mp hx
    exact hv
  | @text s rs hread =>
    have hn : HoldsOnly P { m with readers := rs } := h.withContext _ _ _ _ _ _ _ _ _
    exact hn.push (htext s (delimiter_not_mem hread))
  | closed hp =>
    have hn : HoldsOnly P { m with buffer := [] } := ⟨h.data, nofun, h.cells, h.dictionary⟩
    refine (hn.withContext _ _ _ _ _ _ _ _ _).withWord _ fun x hx => ?_
    exact h.buffer x (List.mem_reverse.mp hx)

/-! ## Runs -/

theorem HoldsOfBrought.within (hP : HoldsOfBrought P) (hw : P (.word w)) :
    w.Within fun u => ∀ v ∈ u.definition.values, P v := by
  induction w using Word.uses_induction with
  | h w ih =>
    have hvalues := (hP.word w).mp hw
    exact Word.within_iff.mpr ⟨hvalues, fun u hu => ih u hu (hvalues _ hu)⟩

namespace Machine.HoldsOnly

theorem calls (hP : HoldsOfBrought P) :
    OutlastsCalls (fun _ m => m.HoldsOnly P) fun w => ∀ v ∈ w.definition.values, P v where
  enter _ h := h.withContext _ _ _ _ _ _ _ _ _
  leave h := h.withContext _ _ _ _ _ _ _ _ _
  builtIn _ _ h := h.builtIn hP.number hP.text _
  «variable» _ _ h := h.push (hP.cell _)
  value hw hv h := h.push (hw _ hv)

theorem runs (hP : HoldsOfBrought P) : OutlastsRuns fun _ m => m.HoldsOnly P where
  aside _ _ _ _ _ _ _ h := h.withContext _ _ _ _ _ _ _ _ _
  number x h := h.push (hP.number x)
  collect hw h := ⟨h.data, List.forall_mem_cons.mpr
    ⟨(hP.word _).mpr (h.dictionary _ hw), h.buffer⟩, h.cells, h.dictionary⟩
  execute l hw h :=
    -- The history is not in the property, so there is nothing to find it by.
    @OutlastsCalls.execute _ _ [] _ (calls hP) _ (hP.within ((hP.word _).mpr (h.dictionary _ hw)))
      h l

theorem install (h : m.HoldsOnly P) (name : String) (b : BuiltIn) :
    (m.install name b).HoldsOnly P := by
  refine ⟨h.data, h.buffer, h.cells, fun e he => ?_⟩
  rcases Dictionary.mem_insertEntry he with rfl | he
  · exact nofun
  · exact h.dictionary e he

theorem fresh (P : Value → Prop) : Machine.fresh.HoldsOnly P := by
  have hblank : blank.HoldsOnly P := ⟨nofun, nofun, fun i v hv => (nomatch hv), nofun⟩
  exact fresh_induction hblank fun m name b h => h.install name b

theorem scripted (hP : HoldsOfBrought P) (h : Scripted m) : m.HoldsOnly P := by
  obtain ⟨es, h⟩ := h.recorded
  exact (runs hP).recorded (fresh P) h

end Machine.HoldsOnly

/-! ## Quotes -/

theorem quoteless_of_brought : HoldsOfBrought Value.Quoteless where
  number x s h := by cases h
  cell i s h := by cases h
  text t ht s h := by
    cases h with
    | text => exact ht
  word w := by
    refine ⟨fun hw v hv s h => hw s (.word hv h), fun hvalues s h => ?_⟩
    cases h with
    | word hv h => exact hvalues _ hv s h

/-- Whatever texts a machine has run, it holds no text with a quote in it. -/
theorem quoteless_of_scripted (h : Scripted m) : m.HoldsOnly Value.Quoteless :=
  .scripted quoteless_of_brought h

end WordStack
