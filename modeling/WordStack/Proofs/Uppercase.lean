import Mathlib.Data.List.Basic
import WordStack.Dictionary

/-
  Upper case stays as it is: `uppercase_uppercase`. The upper case of a character is made of
  characters that no entry of the tables changes. That is checked on the tables, for the
  expansions one by one and for the runs by pairs: the images of a run are not among the
  characters that another run, or an expansion, changes (`Run.clear`).
-/
namespace WordStack.Text

namespace Uppercase

/-- Is the character of this code its own upper case? -/
def isUpper (code : Nat) : Bool :=
  decide code.isValidChar && !(Nat.ble 0x61 code && Nat.ble code 0x7A) &&
    expansions.all (fun e => !e.1.beq code) && runs.all (fun r => !r.covers code)

/-- Is no image of the first run covered by the second? Where both go up by two, they may lie
between each other. -/
def Run.clear (r s : Run) : Bool :=
  (r.target + (r.last - r.first)).blt s.first || s.last.blt r.target ||
    (s.step.beq 2 && (r.step.beq 2 || r.first.beq r.last) && !(r.target % 2).beq (s.first % 2))

/-- Do the images of a run lie outside these codes? -/
def Run.outside (r : Run) (first last : Nat) : Bool :=
  (r.target + (r.last - r.first)).blt first || last.blt r.target

theorem expansions_isUpper : expansions.all (fun e => e.2.all isUpper) = true := by
  decide +kernel

theorem runs_clear : runs.all (fun r => runs.all r.clear) = true := by
  decide +kernel

theorem runs_outside :
    runs.all (fun r => (r.target + (r.last - r.first)).blt 0x110000 && r.outside 0xD800 0xDFFF &&
      r.outside 0x61 0x7A && expansions.all fun e => r.outside e.1 e.1) = true := by
  decide +kernel

theorem Run.image_le {r : Run} {code : Nat} (hc : r.covers code = true) :
    r.image code ≤ r.target + (r.last - r.first) := by
  simp only [covers, Bool.and_eq_true, decide_eq_true_eq] at hc
  unfold image
  omega

theorem Run.outside_image {r : Run} {first last code : Nat} (h : r.outside first last = true)
    (hc : r.covers code = true) : r.image code < first ∨ last < r.image code := by
  simp only [outside, Nat.blt_eq, Bool.or_eq_true] at h
  simp only [covers, Bool.and_eq_true, decide_eq_true_eq] at hc
  unfold image
  omega

theorem Run.not_covers_image {r s : Run} {code : Nat} (h : r.clear s = true)
    (hc : r.covers code = true) : s.covers (r.image code) = false := by
  simp only [clear, Nat.blt_eq, Nat.beq_eq, Bool.or_eq_true, Bool.and_eq_true,
    Bool.not_eq_true', ← Bool.not_eq_true] at h
  simp only [covers, Bool.and_eq_true, decide_eq_true_eq, beq_iff_eq] at hc
  rw [Bool.eq_false_iff]
  intro hs
  simp only [covers, Bool.and_eq_true, decide_eq_true_eq, beq_iff_eq] at hs
  unfold image at hs
  rcases h with (h | h) | ⟨⟨hstep, h⟩, hparity⟩
  · omega
  · omega
  · rw [hstep] at hs
    rcases h with h | h
    · rw [h] at hc
      omega
    · omega

theorem isUpper_image {r : Run} (hr : r ∈ runs) {code : Nat} (hc : r.covers code = true) :
    isUpper (r.image code) = true := by
  have hclear := List.all_eq_true.mp (List.all_eq_true.mp runs_clear r hr)
  have houtside := List.all_eq_true.mp runs_outside r hr
  simp only [Bool.and_eq_true, List.all_eq_true, Nat.blt_eq] at houtside
  obtain ⟨⟨⟨hlast, hsurrogate⟩, hlower⟩, hexpansions⟩ := houtside
  have hlower := Run.outside_image hlower hc
  have hsurrogate := Run.outside_image hsurrogate hc
  have hle := Run.image_le hc
  simp only [isUpper, Bool.and_eq_true, decide_eq_true_eq, List.all_eq_true, Bool.not_eq_true',
    ← Bool.not_eq_true, Nat.ble_eq, Nat.beq_eq]
  refine ⟨⟨⟨?_, ?_⟩, fun e he => ?_⟩, fun s hs => ?_⟩
  · unfold Nat.isValidChar
    omega
  · omega
  · have hne := Run.outside_image (hexpansions e he) hc
    omega
  · rw [Run.not_covers_image (hclear s hs) hc]
    exact Bool.false_ne_true

end Uppercase

open Uppercase

theorem toUpper_of_ascii {c : Char} (h : c.toNat < 0x80) :
    c.toUpper.toNat < 0x80 ∧ c.toUpper.toUpper = c.toUpper := by
  have hall : ∀ n < 0x80, (Char.ofNat n).toUpper.toNat < 0x80 ∧
      (Char.ofNat n).toUpper.toUpper = (Char.ofNat n).toUpper := by
    decide +kernel
  have hc := hall c.toNat h
  rwa [Char.ofNat_toNat] at hc

theorem uppercaseChar_of_isUpper {code : Nat} (h : isUpper code = true) :
    uppercaseChar (Char.ofNat code) = [Char.ofNat code] := by
  simp only [isUpper, Bool.and_eq_true, decide_eq_true_eq, List.all_eq_true, Bool.not_eq_true',
    ← Bool.not_eq_true, Nat.ble_eq, Nat.beq_eq] at h
  obtain ⟨⟨⟨hvalid, hlower⟩, hexpansions⟩, hruns⟩ := h
  have hcode : (Char.ofNat code).toNat = code := by
    rw [Char.ofNat, dif_pos hvalid]
    rfl
  unfold uppercaseChar
  rw [hcode]
  split
  · have hkeep : ¬ ('a'.val ≤ (Char.ofNat code).val ∧ (Char.ofNat code).val ≤ 'z'.val) := by
      have hval : (Char.ofNat code).val.toNat = code := hcode
      rw [UInt32.le_iff_toNat_le, UInt32.le_iff_toNat_le, hval]
      exact hlower
    have hupper : (Char.ofNat code).toUpper = Char.ofNat code := dif_neg hkeep
    rw [hupper]
  · have hlookup : expansions.lookup code = none := by
      rw [List.lookup_eq_none_iff]
      intro e he
      simpa using fun heq => hexpansions e he heq.symm
    have hfind : runs.find? (·.covers code) = none := by
      rw [List.find?_eq_none]
      exact hruns
    rw [hlookup, hfind]

/-- The upper case of a character is made of characters that are their own upper case. -/
theorem uppercaseChar_of_mem {c d : Char} (h : d ∈ uppercaseChar c) : uppercaseChar d = [d] := by
  have hc := h
  unfold uppercaseChar at h
  split at h
  · next hascii =>
    obtain rfl := List.mem_singleton.mp h
    obtain ⟨hlt, htwice⟩ := toUpper_of_ascii hascii
    rw [uppercaseChar_of_ascii hlt, htwice]
  · split at h
    · next codes hlookup =>
      obtain ⟨code, hcode, rfl⟩ := List.mem_map.mp h
      obtain ⟨before, after, hentries, -⟩ := List.lookup_eq_some_iff.mp hlookup
      have hmem : (c.toNat, codes) ∈ expansions := by
        rw [hentries]
        exact List.mem_append_right _ List.mem_cons_self
      have hall := List.all_eq_true.mp expansions_isUpper _ hmem
      exact uppercaseChar_of_isUpper (List.all_eq_true.mp hall code hcode)
    · split at h
      · next r hr =>
        obtain rfl := List.mem_singleton.mp h
        exact uppercaseChar_of_isUpper
          (isUpper_image (List.mem_of_find?_eq_some hr) (List.find?_eq_some_iff_append.mp hr).1)
      · obtain rfl := List.mem_singleton.mp h
        unfold uppercaseChar
        simp only [*, if_false]

theorem uppercase_uppercase (s : String) : uppercase (uppercase s) = uppercase s := by
  rw [← String.toList_inj, toList_uppercase (uppercase s), toList_uppercase s,
    List.flatMap_assoc]
  refine List.flatMap_congr fun c _ => ?_
  have hall : ∀ d ∈ uppercaseChar c, uppercaseChar d = [d] := fun d hd => uppercaseChar_of_mem hd
  rw [List.flatMap_congr hall, List.flatMap_singleton']

end WordStack.Text

namespace WordStack.Dictionary

/-- A name can be looked up as it is written or in upper case. -/
theorem get?_uppercase (d : Dictionary) (name : String) :
    d.get? (Text.uppercase name) = d.get? name := by
  unfold get?
  rw [Text.uppercase_uppercase]

end WordStack.Dictionary
