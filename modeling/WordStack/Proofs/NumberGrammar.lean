import Mathlib.Data.List.TakeWhile
import WordStack.Number.Decimal

/-
  The texts that are numbers, as a grammar: an optional sign, and then a decimal with an optional
  exponent or one of the words `inf`, `infinity` and `nan` in any case. A decimal has a digit
  before its point or after it, and need not have a point.
  `parse?_isSome_iff`: the texts of the grammar are those that are read as a number.
-/
namespace WordStack.Number

/-- Any number of digits. -/
def Digits (cs : List Char) : Prop := ∀ c ∈ cs, c.isDigit = true

/-- What may have a sign in front of it. -/
inductive Signed (p : List Char → Prop) : List Char → Prop
  | plain {cs : List Char} (h : p cs) : Signed p cs
  | plus {cs : List Char} (h : p cs) : Signed p ('+' :: cs)
  | minus {cs : List Char} (h : p cs) : Signed p ('-' :: cs)

/-- Nothing, or `e` and a whole number. -/
inductive Exponent : List Char → Prop
  | none : Exponent []
  | some {e : Char} {cs : List Char} (he : e = 'e' ∨ e = 'E')
    (h : Signed (fun ds => ds ≠ [] ∧ Digits ds) cs) : Exponent (e :: cs)

inductive Decimal : List Char → Prop
  | whole {ds es : List Char} (hds : Digits ds) (hne : ds ≠ []) (hes : Exponent es) :
    Decimal (ds ++ es)
  | pointed {ds fs es : List Char} (hds : Digits ds) (hfs : Digits fs) (hne : ds ≠ [] ∨ fs ≠ [])
    (hes : Exponent es) : Decimal (ds ++ '.' :: (fs ++ es))

inductive Magnitude : List Char → Prop
  | decimal {cs : List Char} (h : Decimal cs) : Magnitude cs
  | named {cs : List Char}
    (h : String.ofList (cs.map Char.toUpper) ∈ ["INF", "INFINITY", "NAN"]) : Magnitude cs

/-- The text is a number. -/
def IsNumeral (s : String) : Prop := Signed Magnitude s.toList

variable {cs ds es : List Char}

/-! ## Whole numbers and exponents -/

theorem natural?_isSome_iff : (natural? cs).isSome ↔ cs ≠ [] ∧ Digits cs := by
  unfold natural?
  by_cases h : cs ≠ [] ∧ cs.all Char.isDigit
  · rw [if_pos h]
    exact iff_of_true rfl ⟨h.1, List.all_eq_true.mp h.2⟩
  · rw [if_neg h]
    exact iff_of_false nofun fun h' => h ⟨h'.1, List.all_eq_true.mpr h'.2⟩

/-- The characters after the sign, if there is one. -/
def unsigned : List Char → List Char
  | '-' :: cs => cs
  | '+' :: cs => cs
  | cs => cs

theorem unsigned_of_plain (hminus : ∀ ds, cs = '-' :: ds → False)
    (hplus : ∀ ds, cs = '+' :: ds → False) : unsigned cs = cs := by
  unfold unsigned
  split
  · exact absurd rfl (hminus _)
  · exact absurd rfl (hplus _)
  · rfl

/-- Where nothing begins with a sign, the sign is told by the first character. -/
theorem signed_iff {p : List Char → Prop} (hplus : ∀ cs, ¬ p ('+' :: cs))
    (hminus : ∀ cs, ¬ p ('-' :: cs)) : Signed p cs ↔ p (unsigned cs) := by
  unfold unsigned
  constructor
  · rintro (h | h | h)
    · split
      · exact absurd h (hminus _)
      · exact absurd h (hplus _)
      · exact h
    · exact h
    · exact h
  · intro h
    split at h
    · exact .minus h
    · exact .plus h
    · exact .plain h

theorem integer?_isSome : (integer? cs).isSome = (natural? (unsigned cs)).isSome := by
  have hcast : ∀ (r : Option Nat) (f : Int → Int),
      ((do let n ← r; pure (n : Int) : Option Int).map f).isSome = r.isSome := by
    intro r f
    cases r <;> rfl
  unfold integer?
  split
  · exact hcast _ _
  · exact hcast _ _
  · next hminus hplus =>
    rw [unsigned_of_plain hminus hplus]
    exact hcast _ _

theorem integer?_isSome_iff : (integer? cs).isSome ↔ Signed (fun ds => ds ≠ [] ∧ Digits ds) cs := by
  have hsign : ∀ c : Char, c.isDigit = false → ∀ ds, ¬ (c :: ds ≠ [] ∧ Digits (c :: ds)) := by
    intro c hc ds h
    have hdigit := h.2 c List.mem_cons_self
    rw [hc] at hdigit
    cases hdigit
  rw [signed_iff (hsign '+' rfl) (hsign '-' rfl), integer?_isSome]
  exact natural?_isSome_iff

theorem exponent?_isSome_iff : (exponent? cs).isSome ↔ Exponent cs := by
  cases cs with
  | nil => exact iff_of_true rfl .none
  | cons c cs =>
    unfold exponent?
    dsimp only
    by_cases hc : c = 'e' ∨ c = 'E'
    · rw [if_pos hc, integer?_isSome_iff]
      refine ⟨fun h => .some hc h, fun h => ?_⟩
      cases h with
      | some _ h => exact h
    · rw [if_neg hc]
      refine iff_of_false nofun fun h => ?_
      cases h with
      | some he _ => exact hc he

/-! ## Decimals -/

/-- An exponent does not begin with a digit or a point. -/
theorem Exponent.head (h : Exponent es) :
    es.takeWhile Char.isDigit = [] ∧ es.dropWhile Char.isDigit = es ∧ fraction es = ([], es) := by
  cases h with
  | none => exact ⟨rfl, rfl, rfl⟩
  | some he _ => rcases he with rfl | rfl <;> exact ⟨rfl, rfl, rfl⟩

/-- Digits up to a text that begins with none. -/
theorem Digits.span (hds : Digits ds) (hes : es.takeWhile Char.isDigit = []) :
    (ds ++ es).takeWhile Char.isDigit = ds ∧ (ds ++ es).dropWhile Char.isDigit =
      es.dropWhile Char.isDigit := by
  refine ⟨?_, List.dropWhile_append_of_pos hds⟩
  rw [List.takeWhile_append_of_pos hds, hes, List.append_nil]

theorem digits_takeWhile (cs : List Char) : Digits (cs.takeWhile Char.isDigit) :=
  fun _ hc => List.mem_takeWhile_imp hc

theorem decimal?_isSome_iff_exponent : (decimal? cs).isSome ↔
    (cs.takeWhile Char.isDigit ≠ [] ∨ (fraction (cs.dropWhile Char.isDigit)).1 ≠ []) ∧
      Exponent (fraction (cs.dropWhile Char.isDigit)).2 := by
  unfold decimal?
  rcases fraction (cs.dropWhile Char.isDigit) with ⟨places, rest⟩
  dsimp only
  by_cases h : cs.takeWhile Char.isDigit = [] ∧ places = []
  · rw [if_pos h]
    exact iff_of_false nofun fun h' => h'.1.elim (fun hne => hne h.1) fun hne => hne h.2
  · rw [if_neg h, Option.isSome_map, exponent?_isSome_iff]
    exact (and_iff_right (not_and_or.mp h)).symm

theorem decimal?_isSome_iff : (decimal? cs).isSome ↔ Decimal cs := by
  rw [decimal?_isSome_iff_exponent]
  constructor
  · rintro ⟨hne, hes⟩
    have hds := digits_takeWhile cs
    have hcs : cs.takeWhile Char.isDigit ++ cs.dropWhile Char.isDigit = cs :=
      List.takeWhile_append_dropWhile
    generalize cs.takeWhile Char.isDigit = ds at hne hds hcs
    generalize cs.dropWhile Char.isDigit = rest at hne hes hcs
    subst hcs
    unfold fraction at hne hes
    split at hes
    · next rest =>
      have hrest : rest.takeWhile Char.isDigit ++ rest.dropWhile Char.isDigit = rest :=
        List.takeWhile_append_dropWhile
      have hpointed := Decimal.pointed hds (digits_takeWhile rest) hne hes
      rwa [hrest] at hpointed
    · next hpoint =>
      refine .whole hds (hne.resolve_right ?_) hes
      split
      · exact absurd rfl (hpoint _)
      · exact fun h => h rfl
  · rintro (⟨hds, hne, hes⟩ | @⟨ds, fs, es, hds, hfs, hne, hes⟩)
    · obtain ⟨htake, hdrop, hfraction⟩ := hes.head
      obtain ⟨hwhole, hrest⟩ := hds.span htake
      rw [hwhole, hrest, hdrop, hfraction]
      exact ⟨.inl hne, hes⟩
    · obtain ⟨htake, hdrop, -⟩ := hes.head
      have hpoint : ('.' :: (fs ++ es)).takeWhile Char.isDigit = [] := rfl
      obtain ⟨hwhole, hrest⟩ := hds.span hpoint
      obtain ⟨hplaces, hafter⟩ := hfs.span htake
      have hfraction : fraction (('.' :: (fs ++ es)).dropWhile Char.isDigit) =
          ((fs ++ es).takeWhile Char.isDigit, (fs ++ es).dropWhile Char.isDigit) := rfl
      rw [hwhole, hrest, hfraction, hplaces, hafter, hdrop]
      exact ⟨hne, hes⟩

/-! ## Numbers -/

theorem named?_isSome_iff :
    (named? cs).isSome ↔ String.ofList (cs.map Char.toUpper) ∈ ["INF", "INFINITY", "NAN"] := by
  unfold named?
  generalize String.ofList (cs.map Char.toUpper) = word
  dsimp only
  split
  · next h => exact iff_of_true rfl (by grind)
  · split
    · next h => exact iff_of_true rfl (by grind)
    · exact iff_of_false nofun (by grind)

theorem magnitude?_isSome_iff : (magnitude? cs).isSome ↔ Magnitude cs := by
  unfold magnitude?
  rw [Option.isSome_or, Bool.or_eq_true, decimal?_isSome_iff, named?_isSome_iff]
  constructor
  · rintro (h | h)
    · exact .decimal h
    · exact .named h
  · rintro (h | h)
    · exact .inl h
    · exact .inr h

/-- What can be read without its sign begins with a digit, with a point or with a letter. -/
theorem not_magnitude_of_head {c : Char} (hdigit : c.isDigit = false) (hpoint : c ≠ '.')
    (hletter : c.toUpper ≠ 'I' ∧ c.toUpper ≠ 'N') : ¬ Magnitude (c :: cs) := by
  have hneg : ¬ c.isDigit = true := by rw [hdigit]; nofun
  have htake : (c :: cs).takeWhile Char.isDigit = [] := List.takeWhile_cons_of_neg hneg
  have hdrop : (c :: cs).dropWhile Char.isDigit = c :: cs := List.dropWhile_cons_of_neg hneg
  have hfraction : fraction (c :: cs) = ([], c :: cs) := by
    unfold fraction
    split
    · next heq => exact absurd (List.cons.inj heq).1 hpoint
    · rfl
  rintro (h | h)
  · rw [← decimal?_isSome_iff, decimal?_isSome_iff_exponent, htake, hdrop, hfraction] at h
    exact h.1.elim (fun h => h rfl) fun h => h rfl
  · simp only [List.mem_cons, List.not_mem_nil, or_false, ← String.toList_inj,
      String.toList_ofList, List.map_cons] at h
    rcases h with h | h | h
    · exact hletter.1 (List.cons.inj h).1
    · exact hletter.1 (List.cons.inj h).1
    · exact hletter.2 (List.cons.inj h).1

theorem not_magnitude_of_sign {c : Char} (hc : c = '+' ∨ c = '-') : ¬ Magnitude (c :: cs) := by
  rcases hc with rfl | rfl <;> exact not_magnitude_of_head rfl (by decide) (by decide)

theorem parse?_isSome (s : String) :
    (parse? s).isSome = (magnitude? (unsigned s.toList)).isSome := by
  unfold parse?
  generalize s.toList = cs
  split
  · exact Option.isSome_map
  · exact Option.isSome_map
  · next hminus hplus =>
    rw [unsigned_of_plain hminus hplus]
    exact Option.isSome_map

/-- A text is read as a number exactly if it is one by the grammar. -/
theorem parse?_isSome_iff (s : String) : (parse? s).isSome ↔ IsNumeral s := by
  rw [parse?_isSome, magnitude?_isSome_iff]
  exact (signed_iff (fun _ => not_magnitude_of_sign (.inl rfl))
    fun _ => not_magnitude_of_sign (.inr rfl)).symm

end WordStack.Number
