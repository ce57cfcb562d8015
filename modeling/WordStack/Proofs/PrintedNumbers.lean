import Mathlib
import WordStack.Proofs.NumberGrammar
import WordStack.Proofs.Rounding
import WordStack.Proofs.TextWords
import WordStack.Proofs.Written

/-
  Printed numbers read back. The digits that are written for a magnitude are rounded back to it
  (`Expansion.nearest_shortest`); here they are followed from the text to the digits again, with
  the zeros and the point that put them in place (`decimal?_positional`), through the upper case
  in which a text is looked up. A number is its sign and its magnitude, and what is no number is
  one and the same (`eq_notANumber`), so nothing is lost (`parse?_render`).
  `printed_number_reads_back`: the line that is printed for a number, run as a text, is one word
  and pushes that number.
-/
namespace WordStack.Number

variable {cs ds fs : List Char} {x : Float} {d k n m places p : Nat}

/-! ## Digits -/

theorem ofDigits_eq (cs : List Char) : ofDigits cs = Nat.ofDigitChars 10 cs 0 := rfl

theorem ofDigits_toDigits (d : Nat) : ofDigits (Nat.toDigits 10 d) = d :=
  Nat.ofDigitChars_ten_toDigits

/-- Zeros after the digits multiply the number. -/
theorem ofDigits_append_zeros (cs : List Char) (k : Nat) :
    ofDigits (cs ++ List.replicate k '0') = ofDigits cs * tenTo k := by
  rw [ofDigits_eq, Nat.ofDigitChars_append, Nat.ofDigitChars_replicate_zero, Nat.mul_comm]
  rfl

/-- Zeros before the digits make no difference. -/
theorem ofDigits_zeros_append (k : Nat) (cs : List Char) :
    ofDigits (List.replicate k '0' ++ cs) = ofDigits cs := by
  rw [ofDigits_eq, Nat.ofDigitChars_append, Nat.ofDigitChars_replicate_zero, Nat.mul_zero]
  rfl

theorem digits_toDigits (d : Nat) : Digits (Nat.toDigits 10 d) := fun _ hc =>
  Nat.isDigit_of_mem_toDigits (by decide) (by decide) hc

theorem digits_zeros (k : Nat) : Digits (List.replicate k '0') := fun c hc => by
  rw [List.eq_of_mem_replicate hc]
  rfl

theorem Digits.append (hds : Digits ds) (hfs : Digits fs) : Digits (ds ++ fs) := fun c hc => by
  rcases List.mem_append.mp hc with hc | hc
  · exact hds c hc
  · exact hfs c hc

/-- Digits with nothing after them are read to their end. -/
theorem Digits.span_self (hds : Digits ds) :
    ds.takeWhile Char.isDigit = ds ∧ ds.dropWhile Char.isDigit = [] :=
  ⟨List.takeWhile_eq_self_iff.mpr hds, List.dropWhile_eq_nil_iff.mpr hds⟩

/-! ## Decimals without an exponent -/

theorem decimal?_whole (hds : Digits ds) (hne : ds ≠ []) :
    decimal? ds = some (scaled (ofDigits ds) 0) := by
  obtain ⟨htake, hdrop⟩ := hds.span_self
  unfold decimal?
  rw [htake, hdrop]
  simp [fraction, exponent?, hne]

theorem decimal?_pointed (hds : Digits ds) (hne : ds ≠ []) (hfs : Digits fs) :
    decimal? (ds ++ '.' :: fs) = some (scaled (ofDigits (ds ++ fs)) (-(fs.length : Int))) := by
  have hstop : ('.' :: fs).takeWhile Char.isDigit = [] := rfl
  have hdot : ('.' :: fs).dropWhile Char.isDigit = '.' :: fs := rfl
  obtain ⟨htake, hdrop⟩ := hds.span hstop
  obtain ⟨htake', hdrop'⟩ := hfs.span_self
  unfold decimal?
  rw [htake, hdrop, hdot]
  simp [fraction, exponent?, hne, htake', hdrop']

/-- Less than half of the least magnitude is rounded to zero. -/
theorem nearest_eq_zero {num den : Nat} (h : 2 * (num * twoTo 1074) < den) :
    nearest num den = 0 := by
  have hdiv : num * twoTo 1074 / den = 0 := Nat.div_eq_of_lt (by omega)
  have hmod : num * twoTo 1074 % den = num * twoTo 1074 := Nat.mod_eq_of_lt (by omega)
  unfold nearest divHalfEven
  dsimp only
  rw [hdiv, Nat.log2_zero, Nat.zero_sub, twoTo_zero, Nat.mul_one, hdiv, hmod, if_pos h,
    Nat.zero_mul, Nat.zero_min]

/-- Only a decimal that is rounded to zero is below the bound that keeps the powers of ten
small. -/
theorem le_log2_of_nearest (h : nearest m (tenTo k) ≠ 0) : m ≠ 0 ∧ k ≤ m.log2 + 400 := by
  have hle : tenTo k ≤ 2 * (m * twoTo 1074) := Nat.not_lt.mp fun hlt => h (nearest_eq_zero hlt)
  have hm : m ≠ 0 := by
    rintro rfl
    have := tenTo_pos k
    omega
  have hdouble : ∀ i j : Nat, 2 * (2 ^ (i + 1) * twoTo j) = 2 ^ (i + (j + 2)) := by
    intro i j
    show 2 * (2 ^ (i + 1) * 2 ^ j) = _
    ring
  have hpow : 2 ^ (3 * k) < 2 ^ (m.log2 + 1076) := by
    calc 2 ^ (3 * k) = 8 ^ k := Nat.pow_mul 2 3 k
      _ ≤ tenTo k := Nat.pow_le_pow_left (by decide) k
      _ ≤ 2 * (m * twoTo 1074) := hle
      _ < 2 * (2 ^ (m.log2 + 1) * twoTo 1074) := by
        have := Nat.mul_lt_mul_of_pos_right (Nat.lt_log2_self (n := m)) (twoTo_pos 1074)
        omega
      _ = 2 ^ (m.log2 + 1076) := hdouble m.log2 1074
  have hlt := (Nat.pow_lt_pow_iff_right (by decide)).mp hpow
  exact ⟨hm, by omega⟩

theorem scaled_of_nearest (h : nearest m (tenTo k) ≠ 0) :
    scaled m (-(k : Int)) = nearest m (tenTo k) := by
  obtain ⟨hm, hk⟩ := le_log2_of_nearest h
  have hsmall : ¬ (m = 0 ∨ -(k : Int) + m.log2 < -400) := by omega
  have hlarge : ¬ 400 < -(k : Int) := by omega
  unfold scaled
  rw [if_neg hsmall, if_neg hlarge]
  cases k with
  | zero =>
    show nearest (m * tenTo 0) 1 = _
    rw [tenTo_zero, Nat.mul_one]
  | succ k => rfl

/-! ## Positional notation -/

theorem decimal?_positional (h : nearest (d * tenTo n) (tenTo places) ≠ 0) :
    decimal? (positional places d n) = some (nearest (d * tenTo n) (tenTo places)) := by
  unfold positional
  dsimp only
  by_cases hle : places ≤ n
  · have hsame : nearest (d * tenTo (n - places)) (tenTo 0) =
        nearest (d * tenTo n) (tenTo places) := by
      refine nearest_congr (tenTo_pos 0) (tenTo_pos places) ?_
      rw [tenTo_zero, Nat.mul_one, Nat.mul_assoc, ← tenTo_add, Nat.sub_add_cancel hle]
    rw [if_pos hle, decimal?_whole ((digits_toDigits d).append (digits_zeros _)) (by simp),
      ofDigits_append_zeros, ofDigits_toDigits, ← hsame]
    rw [← hsame] at h
    exact congrArg some (scaled_of_nearest h)
  · have hsame : nearest d (tenTo (places - n)) = nearest (d * tenTo n) (tenTo places) := by
      refine nearest_congr (tenTo_pos _) (tenTo_pos places) ?_
      rw [Nat.mul_assoc, ← tenTo_add, Nat.add_sub_cancel' (Nat.le_of_not_le hle)]
    rw [if_neg hle]
    generalize hpadded : List.replicate (places - n + 1 - (Nat.toDigits 10 d).length) '0' ++
      Nat.toDigits 10 d = padded
    have hdigits : Digits padded := hpadded ▸ (digits_zeros _).append (digits_toDigits d)
    have hlength : places - n < padded.length := by
      rw [← hpadded, List.length_append, List.length_replicate]
      omega
    have hvalue : ofDigits padded = d := by
      rw [← hpadded, ofDigits_zeros_append, ofDigits_toDigits]
    have hwhole : padded.take (padded.length - (places - n)) ≠ [] := by
      intro hnil
      have hzero := congrArg List.length hnil
      rw [List.length_take, List.length_nil] at hzero
      omega
    have hplaces : padded.length - (padded.length - (places - n)) = places - n := by omega
    rw [← hsame] at h ⊢
    rw [decimal?_pointed (fun c hc => hdigits c (List.mem_of_mem_take hc)) hwhole
      (fun c hc => hdigits c (List.mem_of_mem_drop hc)), List.take_append_drop, hvalue,
      List.length_drop, hplaces, scaled_of_nearest h]

/-! ## Upper case -/

/-- The characters of a finite number that is written out. -/
def IsNumeric (c : Char) : Prop := c.isDigit = true ∨ c = '.'

theorem numeric_positional (places d n : Nat) : ∀ c ∈ positional places d n, IsNumeric c := by
  have hdigits : Digits (Nat.toDigits 10 d) := digits_toDigits d
  intro c hc
  unfold positional at hc
  dsimp only at hc
  split at hc
  · exact .inl (hdigits.append (digits_zeros _) c hc)
  · have hpadded := (digits_zeros (places - n + 1 - (Nat.toDigits 10 d).length)).append hdigits
    rcases List.mem_append.mp hc with hc | hc
    · exact .inl (hpadded c (List.mem_of_mem_take hc))
    · rcases List.mem_cons.mp hc with rfl | hc
      · exact .inr rfl
      · exact .inl (hpadded c (List.mem_of_mem_drop hc))

theorem toNat_of_isDigit {c : Char} (h : c.isDigit = true) : 48 ≤ c.toNat ∧ c.toNat ≤ 57 := by
  simp only [Char.isDigit, Bool.and_eq_true, decide_eq_true_eq] at h
  exact ⟨UInt32.le_iff_toNat_le.mp h.1, UInt32.le_iff_toNat_le.mp h.2⟩

theorem uppercaseChar_of_isNumeric {c : Char} (h : IsNumeric c) : Text.uppercaseChar c = [c] := by
  rcases h with h | rfl
  · have hbounds := toNat_of_isDigit h
    have hkeep : c.toUpper = c := by
      refine dif_neg fun hlower => ?_
      have ha : 97 ≤ c.toNat := UInt32.le_iff_toNat_le.mp hlower.1
      omega
    rw [Text.uppercaseChar_of_ascii (by omega), hkeep]
  · rfl

theorem uppercase_numeric {cs : List Char} (h : ∀ c ∈ cs, IsNumeric c) :
    cs.flatMap Text.uppercaseChar = cs := by
  rw [List.flatMap_congr fun c hc => uppercaseChar_of_isNumeric (h c hc), List.flatMap_singleton']

theorem scaled_zero (e : Int) : scaled 0 e = 0 := if_pos (.inl rfl)

theorem magnitude?_zero : magnitude? ['0'] = some 0 := by
  have hzero : ofDigits ['0'] = 0 := by decide
  have hdigits : Digits ['0'] := digits_zeros 1
  unfold magnitude?
  rw [decimal?_whole hdigits (by simp), hzero, scaled_zero, Option.some_or]

theorem magnitude?_infinity : magnitude? ['I', 'N', 'F'] = some infinity := by
  have hword : String.ofList (['I', 'N', 'F'].map Char.toUpper) = "INF" := by decide
  have hdecimal : decimal? ['I', 'N', 'F'] = none := by decide
  unfold magnitude? named?
  dsimp only
  rw [hdecimal, hword, if_pos (.inl rfl), Option.none_or]

theorem magnitude?_notANumber : magnitude? ['N', 'A', 'N'] = some notANumber := by
  have hword : String.ofList (['N', 'A', 'N'].map Char.toUpper) = "NAN" := by decide
  have hdecimal : decimal? ['N', 'A', 'N'] = none := by decide
  have hne : ¬ ("NAN" = "INF" ∨ "NAN" = "INFINITY") := by decide
  unfold magnitude? named?
  dsimp only
  rw [hdecimal, hword, if_neg hne, if_pos rfl, Option.none_or]

theorem renderMagnitude_of_finite (hne : p ≠ 0) (h : p < infinity)
    (hd : (Expansion.ofPattern p).shortest = (d, n)) :
    renderMagnitude p = positional (Expansion.ofPattern p).places d n := by
  unfold renderMagnitude
  rw [if_neg hne, if_pos h]
  -- the digits are named first: in place of a pair the search itself would be evaluated
  extract_lets e
  have he : e.shortest = (d, n) := hd
  rw [he]

theorem renderMagnitude_of_infinite (hne : p ≠ 0) (h : ¬ p < infinity) :
    renderMagnitude p = "inf".toList := by
  unfold renderMagnitude
  rw [if_neg hne, if_neg h]

/-- A written magnitude is read back, also in upper case. -/
theorem magnitude?_renderMagnitude (h : p ≤ infinity) :
    magnitude? ((renderMagnitude p).flatMap Text.uppercaseChar) = some p := by
  by_cases hzero : p = 0
  · have hupper : (renderMagnitude 0).flatMap Text.uppercaseChar = ['0'] := by decide
    rw [hzero, hupper, magnitude?_zero]
  · by_cases hfinite : p < infinity
    · have hread := Expansion.nearest_shortest hfinite
      rcases hd : (Expansion.ofPattern p).shortest with ⟨d, n⟩
      rw [hd] at hread
      have hpositional := decimal?_positional (hread.trans_ne hzero)
      rw [renderMagnitude_of_finite hzero hfinite hd, uppercase_numeric (numeric_positional _ _ _),
        magnitude?, hpositional, hread, Option.some_or]
    · have hupper : "inf".toList.flatMap Text.uppercaseChar = ['I', 'N', 'F'] := by decide
      rw [renderMagnitude_of_infinite hzero hfinite, hupper, magnitude?_infinity,
        Nat.le_antisymm h (Nat.not_lt.mp hfinite)]

/-! ## Bits -/

theorem toNat_toBits_lt (x : Float) : x.toBits.toNat < 2 * signBit := by
  have hsize : 2 * signBit = 2 ^ 64 := by decide
  rw [hsize]
  exact UInt64.toNat_lt x.toBits

/-- A number is its sign and its magnitude. -/
theorem ofPattern_magnitude (x : Float) : ofPattern (isNegative x) (magnitude x) = x := by
  have hlt := toNat_toBits_lt x
  have hbits : (if isNegative x = true then signBit + magnitude x else magnitude x) =
      x.toBits.toNat := by
    unfold isNegative magnitude
    by_cases h : signBit ≤ x.toBits.toNat
    · rw [if_pos (decide_eq_true h), Nat.mod_eq_sub_mod h, Nat.mod_eq_of_lt (by omega),
        Nat.add_sub_cancel' h]
    · rw [if_neg (by simpa using h), Nat.mod_eq_of_lt (Nat.not_le.mp h)]
  unfold ofPattern
  rw [hbits, UInt64.ofNat_toNat, Float.ofBits_toBits]

open Float.Model Float.Model.UnpackedFloat in
/-- There is one number that is no number. -/
theorem eq_notANumber (h : infinity < magnitude x) : x = ofPattern false notANumber := by
  have hinfinity : infinity = 0x7ff0000000000000 := by decide
  have hsign : signBit = 0x8000000000000000 := by decide
  have hbits : x.toBits.toNat = x.toModel.toBits.toBitVec.toNat := rfl
  unfold magnitude at h
  rw [hinfinity, hsign, hbits] at h
  have hexponent : @unpackExponent .binary64 x.toModel.toBits.toBitVec = -1#11 := by
    refine (unpackExponent_def _).trans (BitVec.eq_of_toNat_eq ?_)
    rw [BitVec.extractLsb'_toNat, Nat.shiftRight_eq_div_pow]
    show _ / 2 ^ 52 % 2 ^ 11 = 2047
    omega
  have hmantissa : @unpackMantissa .binary64 x.toModel.toBits.toBitVec ≠ 0#52 := by
    intro hzero
    have hmod := congrArg BitVec.toNat ((unpackMantissa_def _).symm.trans hzero)
    rw [BitVec.extractLsb'_toNat, Nat.shiftRight_eq_div_pow] at hmod
    have hmod : x.toModel.toBits.toBitVec.toNat / 2 ^ 0 % 2 ^ 52 = 0 := hmod
    omega
  have hpacked : packedNaN .binary64 = (UInt64.ofNat notANumber).toBitVec := by decide
  have hsame : x.toBits = UInt64.ofNat notANumber :=
    UInt64.toBitVec_inj.mp ((x.toModel.valid.eq_packedNaN hexponent hmantissa).trans hpacked)
  rw [← Float.ofBits_toBits x, hsame]
  rfl

/-! ## Texts -/

theorem toList_render_of_nan (h : infinity < magnitude x) : (render x).toList = ['N', 'a', 'N'] := by
  unfold render
  rw [if_pos h]
  rfl

theorem toList_render (h : ¬ infinity < magnitude x) :
    (render x).toList =
      (if isNegative x then ['-'] else []) ++ renderMagnitude (magnitude x) := by
  unfold render
  rw [if_neg h, String.toList_ofList]

/-- A number with a sign in front is its magnitude with that sign. -/
theorem parse?_signed {s : String} (negative : Bool) (h : magnitude? cs = some p)
    (hs : s.toList = (if negative then ['-'] else []) ++ cs) :
    parse? s = some (ofPattern negative p) := by
  have hmagnitude : Magnitude cs := magnitude?_isSome_iff.mp (by rw [h]; rfl)
  unfold parse?
  rw [hs]
  cases negative with
  | true => exact congrArg (Option.map _) h
  | false =>
    simp only [Bool.false_eq_true, if_false, List.nil_append]
    split
    · exact absurd hmagnitude (not_magnitude_of_sign (.inr rfl))
    · exact absurd hmagnitude (not_magnitude_of_sign (.inl rfl))
    · rw [h, Option.map_some]

/-- A written number is read back, also in upper case. -/
theorem parse?_render (x : Float) : parse? (Text.uppercase (render x)) = some x := by
  by_cases h : infinity < magnitude x
  · have hupper : ['N', 'a', 'N'].flatMap Text.uppercaseChar = ['N', 'A', 'N'] := by decide
    rw [eq_notANumber h]
    refine parse?_signed false magnitude?_notANumber ?_
    rw [Text.toList_uppercase, ← eq_notANumber h, toList_render_of_nan h, hupper]
    rfl
  · have hsign : ∀ b : Bool, (if b then ['-'] else []).flatMap Text.uppercaseChar =
        if b then ['-'] else [] := by decide
    have hread := magnitude?_renderMagnitude (Nat.not_lt.mp h)
    have hparse := parse?_signed (s := Text.uppercase (render x)) (isNegative x) hread
    rw [hparse, ofPattern_magnitude]
    rw [Text.toList_uppercase, toList_render h, List.flatMap_append, hsign]

/-- Different numbers are written differently. -/
theorem render_injective : Function.Injective render := fun x y h => by
  have hy := parse?_render y
  rw [← h, parse?_render] at hy
  exact Option.some.inj hy

/-- The characters of a written number. -/
def InNumbers (c : Char) : Prop := IsNumeric c ∨ c ∈ ['-', 'i', 'n', 'f', 'N', 'a']

theorem mem_renderMagnitude (p : Nat) : ∀ c ∈ renderMagnitude p, InNumbers c := by
  intro c hc
  by_cases hzero : p = 0
  · rw [hzero] at hc
    exact .inl (.inl (List.mem_singleton.mp hc ▸ rfl))
  · by_cases hfinite : p < infinity
    · rcases hd : (Expansion.ofPattern p).shortest with ⟨d, n⟩
      rw [renderMagnitude_of_finite hzero hfinite hd] at hc
      exact .inl (numeric_positional _ _ _ c hc)
    · have hword : "inf".toList ⊆ ['-', 'i', 'n', 'f', 'N', 'a'] := by decide
      rw [renderMagnitude_of_infinite hzero hfinite] at hc
      exact .inr (hword hc)

theorem mem_render (x : Float) : ∀ c ∈ (render x).toList, InNumbers c := by
  intro c hc
  by_cases h : infinity < magnitude x
  · have hword : ['N', 'a', 'N'] ⊆ ['-', 'i', 'n', 'f', 'N', 'a'] := by decide
    rw [toList_render_of_nan h] at hc
    exact .inr (hword hc)
  · have hsign : ∀ b : Bool, (if b then ['-'] else []) ⊆ ['-', 'i', 'n', 'f', 'N', 'a'] := by decide
    rw [toList_render h] at hc
    rcases List.mem_append.mp hc with hc | hc
    · exact .inr (hsign _ hc)
    · exact mem_renderMagnitude _ c hc

theorem ne_of_inNumbers {c d : Char} (h : InNumbers c)
    (hd : d ∉ ['.', '-', 'i', 'n', 'f', 'N', 'a'] ∧ d.isDigit = false) : c ≠ d := by
  rintro rfl
  rcases h with (h | rfl) | h
  · rw [hd.2] at h
    cases h
  · exact hd.1 List.mem_cons_self
  · exact hd.1 (List.mem_cons_of_mem _ h)

theorem isInk_of_inNumbers {c : Char} (h : InNumbers c) : isInk c = true := by
  unfold isInk isBlank
  simp only [Bool.not_eq_true', Bool.or_eq_false_iff, decide_eq_false_iff_not]
  exact ⟨⟨⟨ne_of_inNumbers h (by decide), ne_of_inNumbers h (by decide)⟩,
    ne_of_inNumbers h (by decide)⟩, ne_of_inNumbers h (by decide)⟩

/-- A number is written as one word. -/
theorem isWord_render (x : Float) : IsWord (render x).toList := by
  refine ⟨fun hnil => ?_, fun c hc => isInk_of_inNumbers (mem_render x c hc)⟩
  have hread := parse?_render x
  rw [String.toList_eq_nil_iff.mp hnil] at hread
  cases hread

end WordStack.Number

namespace WordStack

open Machine BuiltIn

/-! ## Running what was printed -/

theorem BuiltIn.run_print {m : Machine} {v : Value} {vs : List Value}
    (hactive : m.active = v :: vs) (hwrites : m.outputFails = false) :
    BuiltIn.print.run m =
      .ok () { m.withActive vs with output := m.output ++ (v.render ++ "\n") } := by
  have hwriting : BuiltIn.print.writing? m = some (v.render ++ "\n", m.withActive vs) := by
    unfold BuiltIn.writing?
    rw [hactive]
    rfl
  have hfails : (m.withActive vs).outputFails ≠ true := by
    rw [outputFails_of_writing hwriting, hwrites]
    exact Bool.false_ne_true
  rw [run_of_writing hwriting, write_apply, if_neg fun h => hfails h.1, withActive_output]

namespace Reader

/-- One word and a newline. -/
theorem nextWord_line {word : List Char} (hw : IsWord word) (l : Location) :
    (⟨word ++ ['\n'], l⟩ : Reader).nextWord =
      (some ⟨String.ofList word, l⟩, ⟨[], l.after (word ++ ['\n'])⟩) :=
  nextWord_opening hw rfl l

theorem nextWord_nil (l : Location) : (⟨[], l⟩ : Reader).nextWord = (none, ⟨[], l⟩) := rfl

end Reader

/-- A number that stands alone in a line is pushed. -/
theorem Machine.run_number_line {m : Machine} {word : List Char} {x : Float} (hw : IsWord word)
    (hname : m.dictionary.get? (String.ofList word) = none)
    (hx : Number.parse? (Text.uppercase (String.ofList word)) = some x) (depth : Nat)
    (path : String) :
    run (.nested depth) path (String.ofList (word ++ ['\n'])) m =
      .ok () { m.withActive (.number x :: m.active) with
        location := some (.start path)
        events := .pushedNumber m.mode (String.ofList word) :: m.events } := by
  have htext : Reader.ofText path (String.ofList (word ++ ['\n'])) =
      ⟨word ++ ['\n'], .start path⟩ := by
    unfold Reader.ofText
    rw [String.toList_ofList]
  have hfirst := Reader.nextWord_line hw (.start path)
  generalize hend : (Location.start path).after (word ++ ['\n']) = k at hfirst
  have hread : readOn (.nested depth) (pushReader ⟨word ++ ['\n'], .start path⟩ m) =
      .ok () ((m.withActive (.number x :: m.active)).reading (⟨[], k⟩ :: m.readers)
        (some (.start path)) (.pushedNumber m.mode (String.ofList word) :: m.events)) := by
    rw [readOn_of_token depth rfl hfirst]
    refine (bind_ok (runToken_number (t := ⟨String.ofList word, .start path⟩) _ hname hx) _).trans ?_
    exact readOn_of_none _ rfl (Reader.nextWord_nil k)
  rw [run_eq, htext]
  unfold withReader between
  rw [hread]
  dsimp only [dropReader, reading]
  unfold withActive
  cases m.mode <;> rfl

/-- For every number, what is printed for it is a line of one word. Run as a text by a machine
that is interpreting and has no word of that name, it pushes the number again, bit for bit, and
nothing else changes but the place and the events. -/
theorem printed_number_reads_back (x : Float) :
    (∀ (m : Machine) (vs : List Value), m.active = .number x :: vs → m.outputFails = false →
      BuiltIn.print.run m = .ok ()
        { m.withActive vs with output := m.output ++ (Number.render x ++ "\n") }) ∧
    ∀ path, (Reader.ofText path (Number.render x ++ "\n")).words.1 =
        [⟨Number.render x, .start path⟩] ∧
      ∀ (m : Machine) (depth : Nat), m.mode = .interpreting →
        m.dictionary.get? (Number.render x) = none →
        run (.nested depth) path (Number.render x ++ "\n") m = .ok ()
          { m with
            data := .number x :: m.data
            location := some (.start path)
            events := .pushedNumber .interpreting (Number.render x) :: m.events } := by
  have hword := Number.isWord_render x
  have hline : Number.render x ++ "\n" = String.ofList ((Number.render x).toList ++ ['\n']) := by
    rw [String.ofList_append, String.ofList_toList]
  have htoken : String.ofList (Number.render x).toList = Number.render x := String.ofList_toList
  refine ⟨fun m vs hactive hwrites => BuiltIn.run_print hactive hwrites, fun path => ⟨?_, ?_⟩⟩
  · have hfirst := Reader.nextWord_line hword (.start path)
    rw [htoken] at hfirst
    have hwords := Reader.words_of_some hfirst
    rw [hline]
    unfold Reader.ofText
    rw [String.toList_ofList, hwords]
    rfl
  · intro m depth hmode hname
    rw [← htoken] at hname
    have hx := Number.parse?_render x
    rw [← htoken] at hx
    have hrun := run_number_line hword hname hx depth path
    rw [hline, hrun, htoken, withActive_of_interpreting hmode, active_of_interpreting hmode, hmode]

/-- A number that takes seventeen digits is printed on one machine and read by another. -/
theorem printed_number_reads_back_digits : ∃ (x : Float) (m n : Machine),
    BuiltIn.print.run (fresh.withActive [.number x]) = .ok () m ∧
      m.output = "0.30000000000000004\n" ∧
      (Reader.ofText "s" m.output).words.1 = [⟨"0.30000000000000004", ⟨"s", 1, 1⟩⟩] ∧
      run (.nested 0) "s" m.output fresh = .ok () n ∧ n.data = [.number x] := by
  obtain ⟨hprint, hread⟩ := printed_number_reads_back (Number.ofPattern false 0x3FD3333333333334)
  have hrender : Number.render (Number.ofPattern false 0x3FD3333333333334) =
      "0.30000000000000004" := by decide +kernel
  rw [hrender] at hprint hread
  generalize Number.ofPattern false 0x3FD3333333333334 = x at hprint hread
  have hmode : fresh.mode = .interpreting := rfl
  have hempty : fresh.data = [] := rfl
  have hwrites : (fresh.withActive [.number x]).outputFails = false := rfl
  have hname : fresh.dictionary.get? "0.30000000000000004" = none := by
    rw [← Option.isNone_iff_eq_none]
    decide +kernel
  have hline : fresh.output ++ ("0.30000000000000004" ++ "\n") = "0.30000000000000004\n" := by
    decide +kernel
  obtain ⟨hwords, hrun⟩ := hread "s"
  have hprinted := hprint _ [] (active_withActive fresh [.number x]) hwrites
  have hread := hrun fresh 0 hmode hname
  rw [withActive_output, hline] at hprinted
  rw [hempty] at hread
  exact ⟨x, _, _, hprinted, rfl, hwords, hread, rfl⟩

end WordStack
