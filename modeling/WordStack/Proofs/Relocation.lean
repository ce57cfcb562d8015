import Mathlib.Data.List.Forall2
import WordStack.Machine.Hosting
import WordStack.Proofs.Uses

/-
  Moving every place that a machine has recorded: those of its words, wherever it holds them, of
  the definition in progress, of the calls, the readers and the events. Nothing else depends on
  a place, so every operation can be done before or after (`relocate_withWord` and the others).
  The actions of host words, and what was replied to them, keep the places in them.
-/
namespace WordStack

variable (f : Location → Location)

mutual

def Value.relocate : Value → Value
  | .number x => .number x
  | .text s => .text s
  | .cell i => .cell i
  | .word w => .word w.relocate
termination_by structural v => v

def Definition.relocate : Definition → Definition
  | .builtIn b => .builtIn b
  | .host body => .host body
  | .variable cell => .variable cell
  | .constant v => .constant v.relocate
  | .compiled body => .compiled (Value.relocateAll body)
termination_by structural d => d

def Word.relocate : Word → Word
  | ⟨serial, name, isImmediate, location, description, signature, definition⟩ =>
    ⟨serial, name, isImmediate, location.map f, description, signature, definition.relocate⟩
termination_by structural w => w

def Value.relocateAll : List Value → List Value
  | [] => []
  | v :: vs => v.relocate :: Value.relocateAll vs
termination_by structural vs => vs

end

def Call.relocate (c : Call) : Call := ⟨c.word, f c.location⟩

def Error.relocate (e : Error) : Error :=
  ⟨e.location.map f, e.cause, e.calls.map (·.map (Call.relocate f))⟩

def Halt.relocate : Halt → Halt
  | .failed e => .failed (e.relocate f)
  | .exhausted => .exhausted

def Event.relocate : Event → Event
  | .startedCompiling location name => .startedCompiling (f location) name
  | .pushedNumber mode token => .pushedNumber mode token
  | .compiledReference name => .compiledReference name
  | .executedWord name => .executedWord name
  | .finishedCompiling length name => .finishedCompiling length name
  | .redefinedBuiltIn name => .redefinedBuiltIn name
  | .definedWord name => .definedWord name

def Pending.relocate (p : Pending) : Pending := ⟨p.name, f p.location⟩

def Reader.relocate (r : Reader) : Reader := ⟨r.rest, f r.location⟩

def Heading.relocate (h : Heading) : Heading := { h with location := f h.location }

def Dictionary.relocate (d : Dictionary) : Dictionary :=
  ⟨d.entries.map fun (key, w) => (key, w.relocate f)⟩

def Cells.relocate (c : Cells) : Cells := ⟨c.contents.map (Value.relocate f)⟩

def Machine.relocate (m : Machine) : Machine where
  data := m.data.map (Value.relocate f)
  buffer := m.buffer.map (Value.relocate f)
  mode := m.mode
  pending := m.pending.map (Pending.relocate f)
  location := m.location.map f
  calls := m.calls.map (Call.relocate f)
  dictionary := m.dictionary.relocate f
  cells := m.cells.relocate f
  readers := m.readers.map (Reader.relocate f)
  output := m.output
  outputFails := m.outputFails
  nextSerial := m.nextSerial
  events := m.events.map (Event.relocate f)
  replies := m.replies

/-- The result of an act, with every place in it moved. -/
def Machine.relocated {α : Type} :
    EStateM.Result Halt Machine α → EStateM.Result Halt Machine α
  | .ok a m => .ok a (m.relocate f)
  | .error halt m => .error (halt.relocate f) (m.relocate f)

/-! ## Values and words -/

theorem Value.relocateAll_eq_map (vs : List Value) :
    Value.relocateAll f vs = vs.map (Value.relocate f) := by
  induction vs with
  | nil => rfl
  | cons v vs ih => rw [Value.relocateAll, ih, List.map_cons]

theorem Definition.relocate_compiled (body : List Value) :
    (compiled body).relocate f = .compiled (body.map (Value.relocate f)) :=
  congrArg compiled (Value.relocateAll_eq_map f body)

@[simp] theorem Word.relocate_name (w : Word) : (w.relocate f).name = w.name := by cases w; rfl

@[simp] theorem Word.relocate_isImmediate (w : Word) :
    (w.relocate f).isImmediate = w.isImmediate := by cases w; rfl

@[simp] theorem Word.relocate_description (w : Word) :
    (w.relocate f).description = w.description := by cases w; rfl

@[simp] theorem Word.relocate_definition (w : Word) :
    (w.relocate f).definition = w.definition.relocate f := by cases w; rfl

@[simp] theorem Definition.relocate_kind (d : Definition) : (d.relocate f).kind = d.kind := by
  cases d <;> rfl

@[simp] theorem Definition.relocate_isNative (d : Definition) :
    (d.relocate f).isNative = d.isNative := by
  cases d <;> rfl

@[simp] theorem Value.relocate_render (v : Value) : (v.relocate f).render = v.render := by
  cases v with
  | word w => exact w.relocate_name f
  | number | text | cell => rfl

@[simp] theorem Value.relocate_dump (v : Value) : (v.relocate f).dump = v.dump := by
  cases v with
  | word w => exact w.relocate_name f
  | number | text | cell => rfl

/-! ## The dictionary and the cells -/

theorem forall₂_iff_map {α β : Type} (g : α → β) {xs ys : List α} :
    List.Forall₂ (fun x y => g x = g y) xs ys ↔ xs.map g = ys.map g := by
  rw [← List.forall₂_eq_eq_eq, List.forall₂_map_left_iff, List.forall₂_map_right_iff]

theorem rel_of_map {α β : Type} {g : α → β} {x y : Option α} (h : x.map g = y.map g) :
    Option.Rel (fun x y => g x = g y) x y := by
  cases x <;> cases y
  · exact .none
  · cases h
  · cases h
  · exact .some (Option.some.inj h)

/-- The dictionary with every word replaced by its image. -/
def Dictionary.map (g : Word → Word) (d : Dictionary) : Dictionary :=
  ⟨d.entries.map fun (key, w) => (key, g w)⟩

theorem Dictionary.get?_map (g : Word → Word) (d : Dictionary) (name : String) :
    (d.map g).get? name = (d.get? name).map g := by
  unfold get? map
  induction d.entries with
  | nil => rfl
  | cons e rest ih =>
    obtain ⟨key, w⟩ := e
    simp only [List.map_cons, List.lookup_cons]
    rw [ih]
    split <;> rfl

theorem Dictionary.insertEntry_map (g : Word → Word) (key : String) (w : Word)
    (entries : List (String × Word)) :
    (insertEntry key w entries).map (fun e => (e.1, g e.2)) =
      insertEntry key (g w) (entries.map fun e => (e.1, g e.2)) := by
  induction entries with
  | nil => rfl
  | cons e rest ih =>
    obtain ⟨k, v⟩ := e
    by_cases hk : key = k
    · simp [insertEntry, hk]
    · by_cases hlt : key < k
      · simp [insertEntry, hk, hlt]
      · simp [insertEntry, hk, hlt, ih]

/-- The image has to go by the same name. -/
theorem Dictionary.insert_map {g : Word → Word} {w : Word} (h : (g w).name = w.name)
    (d : Dictionary) : (d.insert w).map g = (d.map g).insert (g w) := by
  unfold insert map
  rw [h]
  exact congrArg Dictionary.mk (insertEntry_map g _ _ _)

/-- Dictionaries with the same image have words with the same image. -/
theorem Dictionary.get?_of_map {g : Word → Word} {d e : Dictionary} (h : d.map g = e.map g)
    (name : String) : Option.Rel (fun v w => g v = g w) (d.get? name) (e.get? name) := by
  refine rel_of_map ?_
  rw [← get?_map, ← get?_map, h]

/-- The cells with every value replaced by its image. -/
def Cells.map (g : Value → Value) (c : Cells) : Cells := ⟨c.contents.map g⟩

theorem Cells.get?_map (g : Value → Value) (c : Cells) (i : Nat) :
    (c.map g).get? i = (c.get? i).map g :=
  Array.getElem?_map

theorem Cells.set?_map (g : Value → Value) (c : Cells) (i : Nat) (v : Value) :
    (c.map g).set? i (g v) = (c.set? i v).map (Cells.map g) := by
  unfold set? map size
  rw [Array.size_map]
  split
  · rw [Option.map_some, Array.map_setIfInBounds]
  · rfl

theorem Cells.allocate_map (g : Value → Value) (c : Cells) (v : Value) :
    (c.map g).allocate (g v) = ((c.allocate v).1, (c.allocate v).2.map g) := by
  unfold allocate map size
  rw [Array.size_map, Array.map_push]

theorem Dictionary.relocate_get? (d : Dictionary) (name : String) :
    (d.relocate f).get? name = (d.get? name).map (Word.relocate f) :=
  d.get?_map (Word.relocate f) name

theorem Dictionary.relocate_insert (d : Dictionary) (w : Word) :
    (d.insert w).relocate f = (d.relocate f).insert (w.relocate f) :=
  insert_map (w.relocate_name f) d

/-- The listing of the words does not say where they were defined. -/
theorem Dictionary.relocate_listing (d : Dictionary) : (d.relocate f).listing = d.listing := by
  have hkeys : (d.relocate f).keys = d.keys := by simp [keys, relocate]
  have hlines : ∀ width, ((d.relocate f).entries.map fun (key, w) => entryLine width key w) =
      d.entries.map fun (key, w) => entryLine width key w := by
    intro width
    simp [relocate, entryLine]
  unfold listing nameWidth size
  rw [hkeys, hlines]
  simp [relocate]

/-! ## Machines -/

namespace Machine

theorem relocate_active (m : Machine) :
    (m.relocate f).active = m.active.map (Value.relocate f) := by
  unfold active relocate
  cases m.mode <;> rfl

theorem relocate_withActive (m : Machine) (vs : List Value) :
    (m.withActive vs).relocate f = (m.relocate f).withActive (vs.map (Value.relocate f)) := by
  unfold withActive relocate
  cases m.mode <;> rfl

theorem relocate_additionEvents (replaced : Option Word) (w : Word) :
    (additionEvents replaced w).map (Event.relocate f) =
      additionEvents (replaced.map (Word.relocate f)) (w.relocate f) := by
  unfold additionEvents
  rw [Word.relocate_definition, Definition.relocate_isNative, Word.relocate_name]
  split
  · rfl
  · cases replaced with
    | none => rfl
    | some old =>
      rw [Option.map_some]
      dsimp only
      rw [Word.relocate_definition, Definition.relocate_isNative]
      split <;> rfl

theorem relocate_withWord (m : Machine) (h : Heading) (d : Definition) :
    (m.relocate f).withWord (h.relocate f) (d.relocate f) =
      ((m.withWord h d).1.relocate f, (m.withWord h d).2.relocate f) := by
  unfold withWord
  refine Prod.ext rfl ?_
  simp only [relocate, Dictionary.relocate_get?, Dictionary.relocate_insert, List.map_append,
    relocate_additionEvents]
  rfl

end Machine

/-! ## The places that are moved -/

mutual

/-- The places in a value, those of the words that it leads to. -/
def Value.places : Value → List Location
  | .number _ | .text _ | .cell _ => []
  | .word w => w.places
termination_by structural v => v

def Definition.places : Definition → List Location
  | .builtIn _ | .host _ | .variable _ => []
  | .constant v => v.places
  | .compiled body => Value.placesAll body
termination_by structural d => d

def Word.places : Word → List Location
  | ⟨_, _, _, location, _, _, definition⟩ => location.toList ++ definition.places
termination_by structural w => w

def Value.placesAll : List Value → List Location
  | [] => []
  | v :: vs => v.places ++ Value.placesAll vs
termination_by structural vs => vs

end

def Event.places : Event → List Location
  | .startedCompiling location _ => [location]
  | _ => []

/-- Every place that `Machine.relocate` moves. -/
def Machine.places (m : Machine) : List Location :=
  m.data.flatMap Value.places ++ m.buffer.flatMap Value.places ++
    m.pending.toList.map Pending.location ++ m.location.toList ++ m.calls.map Call.location ++
    m.dictionary.entries.flatMap (·.2.places) ++ m.cells.contents.toList.flatMap Value.places ++
    m.readers.map Reader.location ++ m.events.flatMap Event.places

theorem Value.placesAll_eq_flatMap (vs : List Value) :
    Value.placesAll vs = vs.flatMap Value.places := by
  induction vs with
  | nil => rfl
  | cons v vs ih => rw [Value.placesAll, ih, List.flatMap_cons]

theorem Definition.places_eq_flatMap (d : Definition) : d.places = d.values.flatMap Value.places := by
  cases d with
  | constant v => exact (List.append_nil _).symm
  | compiled body => exact Value.placesAll_eq_flatMap body
  | builtIn | host | «variable» => rfl

theorem Word.places_eq (w : Word) : w.places = w.location.toList ++ w.definition.places := by
  cases w; rfl

variable {f} {g : Location → Location}

theorem Definition.relocate_congr {d : Definition}
    (h : ∀ v ∈ d.values, v.relocate f = v.relocate g) : d.relocate f = d.relocate g := by
  cases d with
  | constant v => exact congrArg Definition.constant (h v List.mem_cons_self)
  | compiled body =>
    rw [relocate_compiled, relocate_compiled]
    exact congrArg Definition.compiled (List.map_congr_left h)
  | builtIn | host | «variable» => rfl

theorem Value.relocate_congr {v : Value} (h : ∀ l ∈ v.places, f l = g l) :
    v.relocate f = v.relocate g := by
  induction v using Value.induction with
  | hother v hv =>
    cases v with
    | word w => exact absurd rfl (hv w)
    | number | text | cell => rfl
  | hword w ih =>
    have hw : ∀ l ∈ w.places, f l = g l := h
    rw [Word.places_eq, Definition.places_eq_flatMap] at hw
    have hdefinition := Definition.relocate_congr fun v hv => ih v hv fun l hl =>
      hw l (List.mem_append_right _ (List.mem_flatMap.mpr ⟨v, hv, hl⟩))
    obtain ⟨serial, name, isImmediate, location, description, signature, definition⟩ := w
    have hlocation : location.map f = location.map g := by
      cases location with
      | none => rfl
      | some l => exact congrArg some (hw l List.mem_cons_self)
    unfold Value.relocate Word.relocate
    rw [hlocation, hdefinition]

theorem Word.relocate_congr {w : Word} (h : ∀ l ∈ w.places, f l = g l) :
    w.relocate f = w.relocate g :=
  Value.word.inj (Value.relocate_congr (v := .word w) h)

theorem Event.relocate_congr {e : Event} (h : ∀ l ∈ e.places, f l = g l) :
    e.relocate f = e.relocate g := by
  cases e with
  | startedCompiling l name => exact congrArg (startedCompiling · name) (h l List.mem_cons_self)
  | _ => rfl

theorem Value.map_relocate_congr {vs : List Value} (h : ∀ l ∈ vs.flatMap places, f l = g l) :
    vs.map (relocate f) = vs.map (relocate g) :=
  List.map_congr_left fun v hv =>
    relocate_congr fun l hl => h l (List.mem_flatMap.mpr ⟨v, hv, hl⟩)

/-- Only what becomes of the places in a machine matters. -/
theorem Machine.relocate_congr {m : Machine} (h : ∀ l ∈ m.places, f l = g l) :
    m.relocate f = m.relocate g := by
  simp only [places, List.forall_mem_append] at h
  obtain ⟨⟨⟨⟨⟨⟨⟨⟨hdata, hbuffer⟩, hpending⟩, hlocation⟩, hcalls⟩, hdictionary⟩, hcells⟩, hreaders⟩,
    hevents⟩ := h
  have hpending : m.pending.map (Pending.relocate f) = m.pending.map (Pending.relocate g) := by
    cases hp : m.pending with
    | none => rfl
    | some p =>
      have hl := hpending p.location (by rw [hp]; exact List.mem_cons_self)
      exact congrArg (fun l => some (Pending.mk p.name l)) hl
  have hlocation : m.location.map f = m.location.map g := by
    cases hl : m.location with
    | none => rfl
    | some l => exact congrArg some (hlocation l (by rw [hl]; exact List.mem_cons_self))
  have hcalls : m.calls.map (Call.relocate f) = m.calls.map (Call.relocate g) :=
    List.map_congr_left fun c hc =>
      congrArg (Call.mk c.word) (hcalls _ (List.mem_map.mpr ⟨c, hc, rfl⟩))
  have hdictionary : m.dictionary.relocate f = m.dictionary.relocate g := by
    refine congrArg Dictionary.mk (List.map_congr_left fun e he => ?_)
    exact congrArg (Prod.mk e.1) (Word.relocate_congr fun l hl =>
      hdictionary l (List.mem_flatMap.mpr ⟨e, he, hl⟩))
  have hcells : m.cells.relocate f = m.cells.relocate g := by
    refine congrArg Cells.mk (Array.toList_inj.mp ?_)
    rw [Array.toList_map, Array.toList_map, Value.map_relocate_congr hcells]
  have hreaders : m.readers.map (Reader.relocate f) = m.readers.map (Reader.relocate g) :=
    List.map_congr_left fun r hr =>
      congrArg (Reader.mk r.rest) (hreaders _ (List.mem_map.mpr ⟨r, hr, rfl⟩))
  have hevents : m.events.map (Event.relocate f) = m.events.map (Event.relocate g) :=
    List.map_congr_left fun e he =>
      Event.relocate_congr fun l hl => hevents l (List.mem_flatMap.mpr ⟨e, he, hl⟩)
  unfold relocate
  rw [Value.map_relocate_congr hdata, Value.map_relocate_congr hbuffer, hpending, hlocation, hcalls,
    hdictionary, hcells, hreaders, hevents]

/-! ## Moving twice, and not at all -/

theorem Definition.relocate_relocate {d : Definition}
    (h : ∀ v ∈ d.values, (v.relocate f).relocate g = v.relocate (g ∘ f)) :
    (d.relocate f).relocate g = d.relocate (g ∘ f) := by
  cases d with
  | constant v => exact congrArg Definition.constant (h v List.mem_cons_self)
  | compiled body =>
    rw [relocate_compiled, relocate_compiled, relocate_compiled, List.map_map]
    exact congrArg Definition.compiled (List.map_congr_left h)
  | builtIn | host | «variable» => rfl

theorem Value.relocate_relocate (v : Value) :
    (v.relocate f).relocate g = v.relocate (g ∘ f) := by
  induction v using Value.induction with
  | hother v hv =>
    cases v with
    | word w => exact absurd rfl (hv w)
    | number | text | cell => rfl
  | hword w ih =>
    have hdefinition := Definition.relocate_relocate ih
    obtain ⟨serial, name, isImmediate, location, description, signature, definition⟩ := w
    show Value.word ⟨_, _, _, (location.map f).map g, _, _, _⟩ = _
    rw [hdefinition, Option.map_map]
    rfl

theorem Word.relocate_relocate (w : Word) : (w.relocate f).relocate g = w.relocate (g ∘ f) :=
  Value.word.inj (Value.relocate_relocate (.word w))

theorem Event.relocate_relocate (e : Event) : (e.relocate f).relocate g = e.relocate (g ∘ f) := by
  cases e <;> rfl

theorem Machine.relocate_relocate (m : Machine) :
    (m.relocate f).relocate g = m.relocate (g ∘ f) := by
  unfold relocate Dictionary.relocate Cells.relocate
  simp only [List.map_map, Option.map_map, Array.map_map, Function.comp_def,
    Value.relocate_relocate, Word.relocate_relocate, Event.relocate_relocate]
  rfl

theorem Machine.relocated_relocated {α : Type} (x : EStateM.Result Halt Machine α) :
    relocated g (relocated f x) = relocated (g ∘ f) x := by
  cases x with
  | ok a m => exact congrArg (EStateM.Result.ok a) m.relocate_relocate
  | error halt m =>
    have hhalt : (halt.relocate f).relocate g = halt.relocate (g ∘ f) := by
      cases halt with
      | exhausted => rfl
      | failed e =>
        unfold Halt.relocate Error.relocate
        simp only [Option.map_map, List.map_map, Function.comp_def]
        rfl
    show EStateM.Result.error _ ((m.relocate f).relocate g) = _
    rw [hhalt, m.relocate_relocate]
    rfl

theorem Definition.relocate_id {d : Definition} (h : ∀ v ∈ d.values, v.relocate id = v) :
    d.relocate id = d := by
  cases d with
  | constant v => exact congrArg Definition.constant (h v List.mem_cons_self)
  | compiled body =>
    rw [relocate_compiled]
    exact congrArg Definition.compiled ((List.map_congr_left h).trans (List.map_id _))
  | builtIn | host | «variable» => rfl

theorem Value.relocate_id (v : Value) : v.relocate id = v := by
  induction v using Value.induction with
  | hother v hv =>
    cases v with
    | word w => exact absurd rfl (hv w)
    | number | text | cell => rfl
  | hword w ih =>
    have hdefinition := Definition.relocate_id ih
    obtain ⟨serial, name, isImmediate, location, description, signature, definition⟩ := w
    show Value.word ⟨_, _, _, location.map id, _, _, _⟩ = _
    rw [hdefinition, Option.map_id]
    rfl

theorem Word.relocate_id (w : Word) : w.relocate id = w :=
  Value.word.inj (Value.relocate_id (.word w))

theorem Event.relocate_id (e : Event) : e.relocate id = e := by
  cases e <;> rfl

theorem Machine.relocate_id (m : Machine) : m.relocate id = m := by
  have hvalues : Value.relocate id = id := funext Value.relocate_id
  have hevents : Event.relocate id = id := funext Event.relocate_id
  have hpending : Pending.relocate id = id := rfl
  have hcalls : Call.relocate id = id := rfl
  have hreaders : Reader.relocate id = id := rfl
  unfold relocate Dictionary.relocate Cells.relocate
  simp only [hvalues, hevents, hpending, hcalls, hreaders, Word.relocate_id, Array.map_id,
    List.map_id, List.map_id', Option.map_id, id_eq]

/-- Places that are kept keep the machine. -/
theorem Machine.relocate_of_fixed {m : Machine} (h : ∀ l ∈ m.places, f l = l) :
    m.relocate f = m :=
  (relocate_congr h).trans m.relocate_id

end WordStack
