import WordStack.Proofs.Bodies
import WordStack.Proofs.Failures
import WordStack.Proofs.Flattening

/-
  How many values a word needs on the stack, and by how many it changes the depth, read off its
  body without executing it (`Word.effect?`). Only the words that take the stack as a whole have no
  such effect (`exists_effect`).
  `Obeys` says that an act keeps to an effect, `Frames` that what lies below the values it needs is
  neither seen nor touched. Both hold of what is done one after the other as soon as they hold of
  each part (`Obeys.andThen`, `Frames.bind`), so every word obeys its effect (`obeys_execute`).
-/
namespace WordStack

open Machine

/-- A number of values that have to lie on the stack, and the change in its depth. -/
structure Effect where
  need : Nat
  net : Int
deriving DecidableEq

/-- The effect of the first act followed by the second. -/
def Effect.andThen (e f : Effect) : Effect :=
  ⟨max e.need (f.need - e.net).toNat, e.net + f.net⟩

def BuiltIn.effect? : BuiltIn → Option Effect
  | .dup => some ⟨1, 1⟩
  | .drop => some ⟨1, -1⟩
  | .swap => some ⟨2, 0⟩
  | .over => some ⟨2, 1⟩
  | .rot => some ⟨3, 0⟩
  | .add | .subtract | .multiply | .divide => some ⟨2, -1⟩
  | .sqrt => some ⟨1, 0⟩
  | .store => some ⟨2, -2⟩
  | .fetch => some ⟨1, 0⟩
  | .print => some ⟨1, -1⟩
  | .printWords => some ⟨0, 0⟩
  | .clear | .depth | .printStack => none
  | .defineVariable | .defineConstant | .textLiteral | .blockComment | .parenComment
  | .lineComment | .startDefinition | .endDefinition => none

mutual

/-- The effect of the value in a body. -/
def Value.effect? : Value → Option Effect
  | .word w => w.effect?
  | .number _ | .text _ | .cell _ => some ⟨0, 1⟩
termination_by structural v => v

def Definition.effect? : Definition → Option Effect
  | .builtIn b => b.effect?
  | .host _ => none
  | .variable _ | .constant _ => some ⟨0, 1⟩
  | .compiled body => Value.effectAll? body
termination_by structural d => d

def Word.effect? : Word → Option Effect
  | ⟨_, _, _, _, _, _, definition⟩ => definition.effect?
termination_by structural w => w

/-- The effect of a body. -/
def Value.effectAll? : List Value → Option Effect
  | [] => some ⟨0, 0⟩
  | v :: vs => do return (← v.effect?).andThen (← Value.effectAll? vs)
termination_by structural vs => vs

end

/-- The machine with these values below its data. -/
def Machine.onTopOf (below : List Value) (m : Machine) : Machine :=
  { m with data := m.data ++ below }

/-- A result with these values below the data of its machine. -/
def Machine.withBelow {α : Type} (below : List Value) :
    EStateM.Result Halt Machine α → EStateM.Result Halt Machine α
  | .ok a m => .ok a (m.onTopOf below)
  | .error halt m => .error halt (m.onTopOf below)

/-- Machines of which the second has more values below its data, as long as the first does not
run out of values. -/
def Likeness.framing : Likeness (List Value) where
  machines below m n := m.mode = .interpreting ∧ n = m.onTopOf below
  values := Eq
  texts := Eq
  places := Eq
  words := Eq
  halts := Eq
  excused halt := ∃ e, halt = .failed e ∧ e.cause = .stackUnderflow

variable {α β : Type} {m n : Machine} {e f : Effect} {b : BuiltIn} {w : Word} {host : Host}

theorem Word.effect?_eq (w : Word) : w.effect? = w.definition.effect? := by cases w; rfl

theorem BuiltIn.need_eq_operands (h : b.effect? = some e) : e.need = b.operands := by
  cases b <;> cases h <;> rfl

/-! ## What lies below -/

namespace Machine

/-- Values below the data make no difference to the act, as long as it does not run out of
values. -/
def Frames (x : Act α) : Prop :=
  ∀ m below, m.mode = .interpreting →
    Likeness.framing.Agree below Eq (x m) (x (m.onTopOf below))

namespace Frames

theorem bind {x : Act α} {g : α → Act β} (hx : Frames x) (hg : ∀ a, Frames (g a)) :
    Frames (x >>= g) := by
  intro m below hmode
  refine (hx m below hmode).bind fun a _ m n ha h => ?_
  obtain ⟨hm, rfl⟩ := h
  subst ha
  exact hg a m below hm

theorem discard {x : Act α} (hx : Frames x) : Frames (discard x) :=
  fun m below hmode => (hx m below hmode).discard

theorem pure (a : α) : Frames (pure a : Act α) := fun _ _ hmode => .ok rfl ⟨hmode, rfl⟩

theorem fail (c : Cause) : Frames (fail c : Act α) := fun _ _ hmode => .error rfl ⟨hmode, rfl⟩

theorem push (v : Value) : Frames (push v) := by
  intro m below hmode
  have hmode' : (m.onTopOf below).mode = .interpreting := hmode
  rw [push_apply, push_apply, withActive_of_interpreting hmode, withActive_of_interpreting hmode',
    active_of_interpreting hmode, active_of_interpreting hmode']
  exact .ok rfl ⟨hmode, rfl⟩

theorem pop : Frames pop := by
  intro m below hmode
  have hmode' : (m.onTopOf below).mode = .interpreting := hmode
  cases hdata : m.data with
  | nil =>
    rw [pop_of_nil ((active_of_interpreting hmode).trans hdata)]
    exact .excused ⟨_, rfl, rfl⟩
  | cons v vs =>
    have hdata' : (m.onTopOf below).data = v :: (vs ++ below) := congrArg (· ++ below) hdata
    rw [pop_of_cons ((active_of_interpreting hmode).trans hdata),
      pop_of_cons ((active_of_interpreting hmode').trans hdata'),
      withActive_of_interpreting hmode, withActive_of_interpreting hmode']
    exact .ok rfl ⟨hmode, rfl⟩

theorem require (k : Nat) : Frames (require k) := by
  intro m below hmode
  have hmode' : (m.onTopOf below).mode = .interpreting := hmode
  by_cases hshort : m.active.length < k
  · rw [require_of_short hshort]
    exact .excused ⟨_, rfl, rfl⟩
  · have hlength : m.active.length ≤ (m.onTopOf below).active.length := by
      rw [active_of_interpreting hmode, active_of_interpreting hmode']
      show m.data.length ≤ (m.data ++ below).length
      rw [List.length_append]
      exact Nat.le_add_right _ _
    rw [require_of_deep (Nat.not_lt.mp hshort),
      require_of_deep ((Nat.not_lt.mp hshort).trans hlength)]
    exact .ok rfl ⟨hmode, rfl⟩

theorem popNumber : Frames popNumber :=
  pop.bind fun v => by
    cases v with
    | number x => exact pure x
    | text | cell | word => exact fail _

theorem popCell : Frames popCell :=
  pop.bind fun v => by
    cases v with
    | cell i => exact pure i
    | number | text | word => exact fail _

theorem readCell (i : Nat) : Frames (readCell i) := fun m below hmode =>
  Likeness.agree_readCell ⟨hmode, rfl⟩ rfl (fun c => fail c m below hmode) fun _ _ => rfl

theorem writeCell (i : Nat) (v : Value) : Frames (writeCell i v) := fun m below hmode =>
  Likeness.agree_writeCell rfl (fun c => fail c m below hmode) fun _ _ => ⟨hmode, rfl⟩

theorem write (s : String) : Frames (write s) := fun _ _ hmode =>
  Likeness.agree_write ⟨hmode, rfl⟩ rfl rfl ⟨hmode, rfl⟩

theorem arithmetic (g : Float → Float → Float) : Frames (BuiltIn.arithmetic g) :=
  (require 2).bind fun _ => popNumber.bind fun _ => popNumber.bind fun _ => push _

/-- The built-in words that have an effect do not look below the values they need. -/
theorem builtIn (h : b.effect?.isSome) : Frames b.run := by
  cases b with
  | dup => exact pop.bind fun v => (push v).bind fun _ => push v
  | drop => exact pop.discard
  | swap =>
    exact (require 2).bind fun _ => pop.bind fun b => pop.bind fun a =>
      (push b).bind fun _ => push a
  | «over» =>
    exact (require 2).bind fun _ => pop.bind fun b => pop.bind fun a =>
      (push a).bind fun _ => (push b).bind fun _ => push a
  | rot =>
    exact (require 3).bind fun _ => pop.bind fun c => pop.bind fun b => pop.bind fun a =>
      (push b).bind fun _ => (push c).bind fun _ => push a
  | add | subtract | multiply | divide => exact arithmetic _
  | sqrt => exact popNumber.bind fun _ => push _
  | store =>
    exact (require 2).bind fun _ => popCell.bind fun c => pop.bind fun v => writeCell c v
  | fetch => exact popCell.bind fun c => (readCell c).bind fun v => push v
  | print => exact pop.bind fun _ => write _
  | printWords => exact fun m below hmode => write m.dictionary.listing m below hmode
  | _ => cases h

theorem duringCall {c : Call} {x : Act Unit} (hx : Frames x) : Frames (duringCall c x) :=
  fun m below hmode => Likeness.agree_between (hx (enterCall c m) below hmode) fun m n h => by
    obtain ⟨hm, rfl⟩ := h
    exact ⟨hm, rfl⟩

end Frames

/-! ## Keeping to an effect -/

/-- The act succeeds only with the values that the effect needs, and then changes the depth by as
much as the effect says; with these values it does not run out of values, and values below them
make no difference. -/
structure Obeys (e : Effect) (x : Act Unit) : Prop where
  depth : ∀ {m n}, m.mode = .interpreting → x m = .ok () n →
    e.need ≤ m.data.length ∧ (n.data.length : Int) = m.data.length + e.net
  enough : ∀ {m}, m.mode = .interpreting → e.need ≤ m.data.length →
    ¬ FailsFor .stackUnderflow (x m)
  frames : Frames x

theorem Frames.mode_eq {x : Act Unit} (hx : Frames x) (hmode : m.mode = .interpreting)
    (h : x m = .ok () n) : n.mode = .interpreting := by
  have hagree := hx m [] hmode
  rw [h] at hagree
  generalize x (m.onTopOf []) = y at hagree
  cases hagree with
  | ok _ left => exact left.1

/-- With enough values, an act does the same on top of others. -/
theorem Obeys.on_top {x : Act Unit} (hx : Obeys e x) (hmode : m.mode = .interpreting)
    (hdepth : e.need ≤ m.data.length) (below : List Value) :
    x (m.onTopOf below) = withBelow below (x m) := by
  have hframe := hx.frames m below hmode
  have henough := hx.enough hmode hdepth
  generalize x m = y at hframe henough
  generalize x (m.onTopOf below) = z at hframe
  cases hframe with
  | ok _ left =>
    obtain ⟨-, rfl⟩ := left
    rfl
  | error halt left =>
    obtain ⟨-, rfl⟩ := left
    obtain rfl := halt
    rfl
  | @excused _ n _ excuse =>
    obtain ⟨e, rfl, hcause⟩ := excuse
    exact absurd ⟨e, n, rfl, hcause⟩ henough

theorem not_failsFor_ok (c : Cause) (m : Machine) : ¬ FailsFor c (.ok () m) := by
  rintro ⟨e, n, h, -⟩
  cases h

/-- Two acts succeed together only by succeeding one after the other. -/
theorem exists_of_then_ok {x y : Act Unit} (h : (do x; y : Act Unit) m = .ok () n) :
    ∃ k, x m = .ok () k ∧ y k = .ok () n := by
  rw [bind_apply] at h
  cases hk : x m with
  | ok _ k =>
    rw [hk] at h
    exact ⟨k, rfl, h⟩
  | error halt k =>
    rw [hk] at h
    cases h

/-- If two acts fail together, one of them fails. -/
theorem failsFor_of_then {x y : Act Unit} {c : Cause} (h : FailsFor c ((do x; y : Act Unit) m)) :
    FailsFor c (x m) ∨ ∃ k, x m = .ok () k ∧ FailsFor c (y k) := by
  obtain ⟨e, n, h, hcause⟩ := h
  rw [bind_apply] at h
  cases hk : x m with
  | ok _ k =>
    rw [hk] at h
    exact .inr ⟨k, rfl, e, n, h, hcause⟩
  | error halt k =>
    rw [hk] at h
    exact .inl ⟨e, n, h, hcause⟩

namespace Obeys

variable {x y : Act Unit}

theorem nothing : Obeys ⟨0, 0⟩ (pure ()) where
  depth hmode h := by
    cases h
    exact ⟨Nat.zero_le _, (Int.add_zero _).symm⟩
  enough _ _ := not_failsFor_ok _ _
  frames := .pure ()

theorem push (v : Value) : Obeys ⟨0, 1⟩ (push v) where
  depth hmode h := by
    rw [push_apply, withActive_of_interpreting hmode, active_of_interpreting hmode] at h
    cases h
    exact ⟨Nat.zero_le _, rfl⟩
  enough _ _ := not_failsFor_ok _ _
  frames := .push v

theorem andThen (hx : Obeys e x) (hy : Obeys f y) : Obeys (e.andThen f) (do x; y) where
  depth hmode h := by
    obtain ⟨k, hk, hn⟩ := exists_of_then_ok h
    obtain ⟨hneed, hnet⟩ := hx.depth hmode hk
    obtain ⟨hneed', hnet'⟩ := hy.depth (hx.frames.mode_eq hmode hk) hn
    unfold Effect.andThen
    dsimp only
    omega
  enough {m} hmode hdepth h := by
    have hneed : e.need ≤ m.data.length := (Nat.le_max_left _ _).trans hdepth
    have hneed' : (f.need - e.net).toNat ≤ m.data.length := (Nat.le_max_right _ _).trans hdepth
    rcases failsFor_of_then h with h | ⟨k, hk, h⟩
    · exact hx.enough hmode hneed h
    · obtain ⟨-, hnet⟩ := hx.depth hmode hk
      exact hy.enough (hx.frames.mode_eq hmode hk) (by omega) h
  frames := hx.frames.bind fun _ => hy.frames

theorem duringCall (hx : Obeys e x) (c : Call) : Obeys e (duringCall c x) where
  depth {m n} hmode h := by
    unfold Machine.duringCall between at h
    cases hk : x (enterCall c m) with
    | error halt k =>
      rw [hk] at h
      cases h
    | ok _ k =>
      rw [hk] at h
      cases h
      exact hx.depth (m := enterCall c m) (n := k) hmode hk
  enough {m} hmode hdepth h := by
    obtain ⟨err, n, h, hcause⟩ := h
    unfold Machine.duringCall between at h
    cases hk : x (enterCall c m) with
    | ok _ k =>
      rw [hk] at h
      cases h
    | error halt k =>
      rw [hk] at h
      obtain ⟨rfl, -⟩ := EStateM.Result.error.inj h
      exact hx.enough (m := enterCall c m) hmode hdepth ⟨err, k, hk, hcause⟩
  frames := hx.frames.duringCall

end Obeys

/-! ## The effects of words -/

theorem effect_of_operation {g : Float → Float → Float} (hb : b.operation? = some g)
    (he : b.effect? = some e) : e = ⟨2, -1⟩ := by
  cases b <;> cases hb <;> exact (Option.some.inj he).symm

theorem length_of_rearranged {vs ws : List Value} (h : b.rearranged? vs = some ws)
    (he : b.effect? = some e) :
    e.need ≤ vs.length ∧ (ws.length : Int) = vs.length + e.net := by
  unfold BuiltIn.rearranged? at h
  split at h
  case h_6 | h_7 => cases he
  case h_9 =>
    obtain ⟨g, hg, rfl⟩ := Option.map_eq_some_iff.mp h
    obtain rfl := effect_of_operation hg he
    simp only [List.length_cons]
    omega
  case h_10 => cases h
  all_goals
    cases h
    cases he
    simp only [List.length_cons]
    omega

theorem length_of_writing {s : String} {k : Machine} (h : b.writing? m = some (s, k))
    (he : b.effect? = some e) (hmode : m.mode = .interpreting) :
    e.need ≤ m.data.length ∧ (k.data.length : Int) = m.data.length + e.net := by
  cases b with
  | print =>
    cases he
    obtain ⟨v, hv, hpair⟩ := Option.map_eq_some_iff.mp h
    obtain rfl : m.withActive m.active.tail = k := congrArg Prod.snd hpair
    obtain ⟨vs, hactive⟩ := List.head?_eq_some_iff.mp hv
    have hdata : m.data = v :: vs := (active_of_interpreting hmode).symm.trans hactive
    rw [withActive_of_interpreting hmode, hactive, hdata]
    simp only [List.length_cons, List.tail_cons]
    omega
  | printWords =>
    cases he
    obtain rfl : m = k := congrArg Prod.snd (Option.some.inj h)
    exact ⟨Nat.zero_le _, (Int.add_zero _).symm⟩
  | printStack => cases he
  | _ => cases h

theorem data_of_write {s : String} {k : Machine} (h : write s k = .ok () n) : n.data = k.data := by
  rw [write_apply] at h
  split at h
  · cases h
  · cases h
    rfl

theorem depth_builtIn (he : b.effect? = some e) (hmode : m.mode = .interpreting)
    (h : b.run m = .ok () n) :
    e.need ≤ m.data.length ∧ (n.data.length : Int) = m.data.length + e.net := by
  have ho := BuiltIn.outcome b m
  rw [h] at ho
  generalize hx : EStateM.Result.ok () n = x at ho
  have hactive := active_of_interpreting hmode
  cases ho with
  | rearranged hr =>
    obtain rfl : n = _ := (EStateM.Result.ok.inj hx).2
    rw [hactive] at hr
    rw [withActive_of_interpreting hmode]
    exact length_of_rearranged hr he
  | stored hstack | fetched hstack =>
    obtain rfl : n = _ := (EStateM.Result.ok.inj hx).2
    rw [hactive] at hstack
    cases he
    rw [withActive_of_interpreting hmode, hstack]
    simp only [List.length_cons]
    omega
  | wrote hw =>
    rw [data_of_write hx.symm]
    exact length_of_writing hw he hmode
  | comment hb => rcases hb with ⟨rfl, -⟩ | ⟨rfl, -⟩ <;> cases he
  | «variable» | constant | opened | text | blockComment | closed => cases he
  | underflow | mismatch | storedNowhere | fetchedNowhere | nameless | unterminated
  | unterminatedBlock | notOpen => cases hx

theorem obeys_builtIn (he : b.effect? = some e) : Obeys e b.run where
  depth hmode h := depth_builtIn he hmode h
  enough {m} hmode hdepth h := by
    have hshort : m.active.length < b.operands := (BuiltIn.failsFor_iff b m _).mp h
    rw [active_of_interpreting hmode, ← BuiltIn.need_eq_operands he] at hshort
    omega
  frames := .builtIn (by rw [he]; rfl)

/-- What is called from the place last read keeps to an effect if it does so from everywhere. -/
theorem obeys_here {g : Location → Act Unit} (h : ∀ l, Obeys e (g l)) :
    Obeys e (do g ((← get).location.getD .unspecified)) where
  depth {m _} := (h (m.location.getD .unspecified)).depth
  enough {m} := (h (m.location.getD .unspecified)).enough
  frames m := (h (m.location.getD .unspecified)).frames m

theorem obeys_items {xs : List Value} {l : Location}
    (hwords : ∀ v, .word v ∈ xs → ∀ e, v.effect? = some e → Obeys e (execute host l v))
    (he : Value.effectAll? xs = some e) : Obeys e (executeItems host l xs) := by
  induction xs generalizing e with
  | nil =>
    cases he
    exact .nothing
  | cons x xs ih =>
    obtain ⟨f, hf, hrest⟩ := Option.bind_eq_some_iff.mp he
    obtain ⟨g, hg, hsum⟩ := Option.bind_eq_some_iff.mp hrest
    obtain rfl : f.andThen g = e := Option.some.inj hsum
    have hxs := ih (fun v hv => hwords v (List.mem_cons_of_mem _ hv)) hg
    cases x with
    | word w => exact (hwords w List.mem_cons_self f hf).andThen hxs
    | number | text | cell =>
      cases hf
      exact (Obeys.push _).andThen hxs

/-- Every word keeps to its effect. -/
theorem obeys_execute (host : Host) (l : Location) (he : w.effect? = some e) :
    Obeys e (execute host l w) := by
  induction w using Word.uses_induction generalizing e l with
  | h w ih =>
    have hused : ∀ v, .word v ∈ w.definition.values → w.Uses v := fun v hv => hv
    rw [Word.effect?_eq] at he
    rw [execute_eq]
    refine Obeys.duringCall ?_ _
    generalize w.definition = d at he hused
    cases d with
    | builtIn b => exact obeys_builtIn he
    | host body => cases he
    | «variable» c =>
      cases he
      exact .push _
    | constant v =>
      cases he
      exact .push v
    | compiled body =>
      exact obeys_here fun k => obeys_items (fun v hv e he => ih v (hused v hv) k he) he

end Machine

/-! ## Which words have an effect -/

theorem Value.exists_effectAll {xs : List Value} (h : ∀ x ∈ xs, ∃ e, x.effect? = some e) :
    ∃ e, Value.effectAll? xs = some e := by
  induction xs with
  | nil => exact ⟨_, rfl⟩
  | cons x xs ih =>
    obtain ⟨e, he⟩ := h x List.mem_cons_self
    obtain ⟨f, hf⟩ := ih fun y hy => h y (List.mem_cons_of_mem _ hy)
    refine ⟨e.andThen f, ?_⟩
    rw [Value.effectAll?, he, hf]
    rfl

theorem BuiltIn.exists_effect (himm : b.isImmediate = false)
    (hb : b ∉ [.clear, .depth, .printStack]) : ∃ e, b.effect? = some e := by
  cases b with
  | clear | depth | printStack => simp at hb
  | defineVariable | defineConstant | textLiteral | blockComment | parenComment | lineComment
  | startDefinition | endDefinition => cases himm
  | _ => exact ⟨_, rfl⟩

/-- An ordinary word has an effect unless it comes to a word that takes the stack as a whole. -/
theorem Word.exists_effect (hw : w.Within Word.IsOrdinary)
    (hflat : ∀ v, .word v ∈ w.flat →
      ∀ b ∈ [BuiltIn.clear, .depth, .printStack], v.definition ≠ .builtIn b) :
    ∃ e, w.effect? = some e := by
  induction w using Word.uses_induction with
  | h w ih =>
    have hordinary := hw.self.definition
    rw [Word.effect?_eq]
    rcases w.flat_cases with ⟨body, hbody, hbodyflat⟩ | ⟨hnot, hself⟩
    · rw [hbody]
      refine Value.exists_effectAll fun x hx => ?_
      cases x with
      | word u =>
        have hu := Word.uses_of_compiled hbody hx
        refine ih u hu (hw.of_uses hu) fun v hv => hflat v ?_
        rw [hbodyflat]
        exact List.mem_flatMap.mpr ⟨.word u, hx, hv⟩
      | number | text | cell => exact ⟨_, rfl⟩
    · have hwhole := hflat w (by rw [hself]; exact List.mem_cons_self)
      generalize w.definition = d at hordinary hwhole hnot
      cases d with
      | builtIn b => exact BuiltIn.exists_effect hordinary fun hb => hwhole b hb rfl
      | host body => exact hordinary.elim
      | «variable» | constant => exact ⟨_, rfl⟩
      | compiled body => exact absurd rfl (hnot body)

namespace Machine

/-- While interpreting, a word that is not immediate and comes to no word that takes the stack as
a whole has an effect, and keeps to it. On a stack of the depth that it needs it never runs out of
values, on a stack that is less deep it never succeeds, and when it succeeds it has changed the
depth by as much as its effect says. Whatever lies below the values that it needs stays there, and
the outcome is the same but for it, errors and all that is left included. -/
theorem static_effect (h : Scripted m) (hmode : m.mode = .interpreting) (hw : m.Holds w)
    (himm : w.isImmediate = false)
    (hflat : ∀ v, .word v ∈ w.flat →
      ∀ b ∈ [BuiltIn.clear, .depth, .printStack], v.definition ≠ .builtIn b) :
    ∃ e, w.effect? = some e ∧ ∀ depth l,
      (∀ vs, e.need ≤ vs.length →
        ¬ FailsFor .stackUnderflow (execute (.nested depth) l w { m with data := vs })) ∧
      (∀ vs n, vs.length < e.need →
        execute (.nested depth) l w { m with data := vs } ≠ .ok () n) ∧
      (∀ vs n, execute (.nested depth) l w { m with data := vs } = .ok () n →
        (n.data.length : Int) = vs.length + e.net) ∧
      ∀ top below, e.need ≤ top.length →
        execute (.nested depth) l w { m with data := top ++ below } =
          withBelow below (execute (.nested depth) l w { m with data := top }) := by
  obtain ⟨made, hsound⟩ := h.sound
  have hordinary := (hsound.within_of_not_immediate hw himm).mono fun v hv => hv.isOrdinary
  obtain ⟨e, he⟩ := Word.exists_effect hordinary hflat
  refine ⟨e, he, fun depth l => ?_⟩
  have hobeys := obeys_execute (.nested depth) l he
  have hstack : ∀ vs, { m with data := vs }.mode = .interpreting := fun _ => hmode
  refine ⟨fun vs hdeep => hobeys.enough (hstack vs) hdeep, fun vs n hshort hn => ?_,
    fun vs n hn => (hobeys.depth (hstack vs) hn).2,
    fun top below hdeep => hobeys.on_top (hstack top) hdeep below⟩
  exact absurd (hobeys.depth (hstack vs) hn).1 (Nat.not_le.mpr hshort)

/-- The length of a vector, from its two sides. -/
theorem static_effect_length : ∃ m w,
    m = left (run (.nested 0) "s" ": SQ DUP * ; : LEN SQ SWAP SQ + SQRT ;" .fresh) ∧
    m.dictionary.get? "LEN" = some w ∧ w.effect? = some ⟨2, -1⟩ ∧ ∀ l,
      (∀ vs, 2 ≤ vs.length →
        ¬ FailsFor .stackUnderflow (execute (.nested 0) l w { m with data := vs })) ∧
      ∀ top below, 2 ≤ top.length →
        execute (.nested 0) l w { m with data := top ++ below } =
          withBelow below (execute (.nested 0) l w { m with data := top }) := by
  generalize hm : left (run (.nested 0) "s" ": SQ DUP * ; : LEN SQ SWAP SQ + SQRT ;" .fresh) = m
  have hscripted : Scripted m :=
    hm ▸ .run .fresh 0 "s" ": SQ DUP * ; : LEN SQ SWAP SQ + SQRT ;"
  obtain ⟨hmode, hfound⟩ : m.mode = .interpreting ∧
      (m.dictionary.get? "LEN").any (fun w => decide (w.isImmediate = false ∧
        w.effect? = some ⟨2, -1⟩ ∧ w.Within fun v =>
          ∀ b ∈ [BuiltIn.clear, .depth, .printStack], v.definition ≠ .builtIn b)) = true := by
    subst hm
    decide +kernel
  obtain ⟨w, hw, hfound⟩ := (Option.any_eq_true _ _).mp hfound
  obtain ⟨himm, heffect, hwithin⟩ := of_decide_eq_true hfound
  have hholds : m.Holds w := .entry (Dictionary.mem_of_get? hw)
  obtain ⟨e, he, hkeeps⟩ := static_effect hscripted hmode hholds himm
    fun v hv => (hwithin.of_mem_flat hv).self
  obtain rfl : (⟨2, -1⟩ : Effect) = e := Option.some.inj (heffect.symm.trans he)
  refine ⟨m, w, rfl, hw, heffect, fun l => ?_⟩
  obtain ⟨henough, -, -, hbelow⟩ := hkeeps 0 l
  exact ⟨henough, hbelow⟩

end Machine
end WordStack
