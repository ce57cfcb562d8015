import Mathlib.Algebra.Group.Nat.Defs

/-
  Texts by their bytes. A character is written with one to four bytes: the first one tells how many
  follow, and each of those has six bits of the code (`encode_leads`). A greater code has a greater
  first byte, or the same one and greater bits, whatever comes after the two characters
  (`encode_append_lt`). So texts are in the same order by their bytes as by their characters
  (`bytes_lt_bytes`), and a text has no more characters than bytes.
-/
namespace WordStack.Text

/-- The bytes of a text in UTF-8. -/
def bytes (s : String) : List UInt8 := s.toUTF8.data.toList

/-- The last bytes of the character with this code, six bits of the code in each. -/
def continuation (code : Nat) : Nat → List UInt8
  | 0 => []
  | j + 1 => UInt8.ofNat (code / 64 ^ j % 64 + 128) :: continuation code j

/-- The first byte of the character with this code, and how many bytes follow it. -/
inductive Leads (code : Nat) : Nat → Nat → Prop
  | one (h : code ≤ 0x7f) : Leads code code 0
  | two (h : 0x7f < code) (h' : code ≤ 0x7ff) : Leads code (code / 64 + 0xc0) 1
  | three (h : 0x7ff < code) (h' : code ≤ 0xffff) : Leads code (code / 64 ^ 2 + 0xe0) 2
  | four (h : 0xffff < code) (h' : code < 0x110000) : Leads code (code / 64 ^ 3 + 0xf0) 3

variable {s t : String} {c d : Char} {cs ds : List Char} {n k a b i j : Nat} {xs ys : List UInt8}

theorem bytes_eq_flatMap (s : String) : bytes s = s.toList.flatMap String.utf8EncodeChar := by
  have hbytes : s.toUTF8 = s.toList.utf8Encode := by
    rw [← String.toByteArray_ofList, String.ofList_toList]
    rfl
  unfold bytes
  rw [hbytes]
  simp [List.utf8Encode]

theorem length_bytes (s : String) : (bytes s).length = s.utf8ByteSize := Array.length_toList

/-- A text has no more characters than bytes. -/
theorem length_le_length_bytes (s : String) : s.length ≤ (bytes s).length := by
  rw [bytes_eq_flatMap, ← String.length_toList]
  induction s.toList with
  | nil => exact Nat.le_refl 0
  | cons c cs ih =>
    have hpos := c.utf8Size_pos
    rw [List.flatMap_cons, List.length_append, String.length_utf8EncodeChar, List.length_cons]
    omega

/-! ## One character -/

theorem cons_ofNat_lt (ha : a < 256) (hb : b < 256) (h : a < b ∨ a = b ∧ xs < ys) :
    UInt8.ofNat a :: xs < UInt8.ofNat b :: ys := by
  rw [List.cons_lt_cons_iff, UInt8.lt_iff_toNat_lt, ← UInt8.toNat_inj, UInt8.toNat_ofNat',
    UInt8.toNat_ofNat', Nat.mod_eq_of_lt ha, Nat.mod_eq_of_lt hb]
  exact h

theorem continuation_append_lt (h : n % 64 ^ j < k % 64 ^ j) :
    continuation n j ++ xs < continuation k j ++ ys := by
  induction j with
  | zero =>
    rw [Nat.pow_zero, Nat.mod_one, Nat.mod_one] at h
    exact absurd h (Nat.lt_irrefl 0)
  | succ j ih =>
    have hn : n / 64 ^ j % 64 < 64 := Nat.mod_lt _ (by decide)
    have hk : k / 64 ^ j % 64 < 64 := Nat.mod_lt _ (by decide)
    have hrest : k % 64 ^ j < 64 ^ j := Nat.mod_lt _ (Nat.pow_pos (by decide))
    rw [Nat.mod_pow_succ, Nat.mod_pow_succ] at h
    refine cons_ofNat_lt (by omega) (by omega) ?_
    rcases Nat.lt_trichotomy (n / 64 ^ j % 64) (k / 64 ^ j % 64) with hlt | heq | hgt
    · exact .inl (Nat.add_lt_add_right hlt _)
    · rw [heq] at h ⊢
      exact .inr ⟨rfl, ih (Nat.lt_of_add_lt_add_right h)⟩
    · have hmul := Nat.mul_le_mul_left (64 ^ j) hgt
      rw [Nat.mul_succ] at hmul
      omega

/-- A character is its first byte and then the rest of its code. -/
theorem encode_leads (c : Char) : ∃ a j, Leads c.toNat a j ∧
    String.utf8EncodeChar c = UInt8.ofNat a :: continuation c.toNat j := by
  have hvalid : c.toNat < 0x110000 :=
    c.valid.elim (fun h => Nat.lt_trans h (by decide)) fun h => h.2
  have hcode : c.val.toNat = c.toNat := rfl
  unfold String.utf8EncodeChar
  rw [hcode]
  generalize c.toNat = n at hvalid
  dsimp only
  split
  · next h => exact ⟨_, _, .one h, rfl⟩
  split
  · next h h' =>
    refine ⟨_, _, .two (Nat.not_le.mp h) h', ?_⟩
    rw [Nat.mod_eq_of_lt (a := n / 64) (by omega)]
    simp [continuation]
  split
  · next _ h h' =>
    refine ⟨_, _, .three (Nat.not_le.mp h) h', ?_⟩
    rw [Nat.mod_eq_of_lt (a := n / 4096) (by omega)]
    simp [continuation]
  · next _ _ h =>
    refine ⟨_, _, .four (Nat.not_le.mp h) hvalid, ?_⟩
    rw [Nat.mod_eq_of_lt (a := n / 262144) (by omega)]
    simp [continuation]

theorem Leads.lt_byte (h : Leads n a j) : a < 256 := by
  cases h <;> omega

/-- Two codes are told apart by their first bytes or by the bits in the others. -/
theorem Leads.lt_or (hn : Leads n a i) (hk : Leads k b j) (h : n < k) :
    a < b ∨ a = b ∧ i = j ∧ n % 64 ^ j < k % 64 ^ j := by
  cases hn <;> cases hk <;> omega

theorem encode_append_lt (h : c < d) (xs ys : List UInt8) :
    String.utf8EncodeChar c ++ xs < String.utf8EncodeChar d ++ ys := by
  obtain ⟨a, i, hc, hcode⟩ := encode_leads c
  obtain ⟨b, j, hd, hcode'⟩ := encode_leads d
  rw [hcode, hcode']
  refine cons_ofNat_lt hc.lt_byte hd.lt_byte ?_
  rcases hc.lt_or hd h with hlt | ⟨hab, rfl, hlt⟩
  · exact .inl hlt
  · exact .inr ⟨hab, continuation_append_lt hlt⟩

/-! ## Texts -/

theorem flatMap_encode_lt (h : cs < ds) :
    cs.flatMap String.utf8EncodeChar < ds.flatMap String.utf8EncodeChar := by
  induction cs generalizing ds with
  | nil =>
    cases ds with
    | nil => exact absurd h (List.lt_irrefl _)
    | cons d ds =>
      obtain ⟨b, j, -, hcode⟩ := encode_leads d
      rw [List.flatMap_cons, hcode]
      exact List.nil_lt_cons _ _
  | cons c cs ih =>
    cases ds with
    | nil => exact absurd h (List.not_lt_nil _)
    | cons d ds =>
      rw [List.flatMap_cons, List.flatMap_cons]
      rcases List.cons_lt_cons_iff.mp h with hlt | ⟨rfl, hlt⟩
      · exact encode_append_lt hlt _ _
      · exact List.append_left_lt (ih hlt)

theorem ne_of_lt (h : s < t) : s ≠ t := by
  rintro rfl
  exact String.lt_irrefl s h

/-- Texts in order are in order byte by byte. -/
theorem bytes_lt_bytes (h : s < t) : bytes s < bytes t := by
  rw [bytes_eq_flatMap, bytes_eq_flatMap]
  exact flatMap_encode_lt (String.lt_iff.mp h)

end WordStack.Text
