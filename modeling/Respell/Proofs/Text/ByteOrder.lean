/-!
# The order of texts is the order of their bytes

Texts are compared character by character. The form of a character in bytes begins with a byte that
grows with its length, and goes on with the digits of the character from the highest to the lowest, so
comparing the bytes of two texts comes to the same.
-/

namespace Respell.Text

theorem toList_toByteArray (s : String) :
    s.toByteArray.data.toList = s.toList.flatMap String.utf8EncodeChar := by
  rw [← String.utf8Encode_toList, List.utf8Encode, List.data_toByteArray]

/-! ## Forms of characters -/

section Forms

variable {v w : Nat} {xs ys : List UInt8}

theorem byte_cons_lt {m n : Nat} (hm : m < 256) (hn : n < 256) (h : m < n ∨ m = n ∧ xs < ys) :
    UInt8.ofNat m :: xs < UInt8.ofNat n :: ys := by
  rw [List.cons_lt_cons_iff]
  rcases h with hlt | ⟨rfl, hrest⟩
  · refine .inl ?_
    rw [UInt8.lt_iff_toNat_lt, UInt8.toNat_ofNat_of_lt' hm, UInt8.toNat_ofNat_of_lt' hn]
    exact hlt
  · exact .inr ⟨rfl, hrest⟩

/-- Two numbers that agree in all digits but the last. -/
theorem digit_lt (hlt : v < w) (heq : v / 64 = w / 64) :
    UInt8.ofNat (v % 64 + 128) :: xs < UInt8.ofNat (w % 64 + 128) :: ys :=
  byte_cons_lt (by omega) (by omega) (.inl (by omega))

theorem two_digits_lt (hlt : v < w) (heq : v / 4096 = w / 4096) :
    UInt8.ofNat (v / 64 % 64 + 128) :: UInt8.ofNat (v % 64 + 128) :: xs <
      UInt8.ofNat (w / 64 % 64 + 128) :: UInt8.ofNat (w % 64 + 128) :: ys := by
  refine byte_cons_lt (by omega) (by omega) ?_
  by_cases hdigit : v / 64 = w / 64
  · exact .inr ⟨by rw [hdigit], digit_lt hlt hdigit⟩
  · exact .inl (by omega)

theorem three_digits_lt (hlt : v < w) (heq : v / 262144 = w / 262144) :
    UInt8.ofNat (v / 4096 % 64 + 128) :: UInt8.ofNat (v / 64 % 64 + 128) ::
        UInt8.ofNat (v % 64 + 128) :: xs <
      UInt8.ofNat (w / 4096 % 64 + 128) :: UInt8.ofNat (w / 64 % 64 + 128) ::
        UInt8.ofNat (w % 64 + 128) :: ys := by
  refine byte_cons_lt (by omega) (by omega) ?_
  by_cases hdigit : v / 4096 = w / 4096
  · exact .inr ⟨by rw [hdigit], two_digits_lt hlt hdigit⟩
  · exact .inl (by omega)

/-- The forms of a character, by their length. -/
inductive CharForm (v : Nat) : List UInt8 → Prop
  | one (h : v ≤ 127) : CharForm v [UInt8.ofNat v]
  | two (h : 127 < v) (hmax : v ≤ 2047) :
      CharForm v [UInt8.ofNat (v / 64 % 32 + 192), UInt8.ofNat (v % 64 + 128)]
  | three (h : 2047 < v) (hmax : v ≤ 65535) :
      CharForm v [UInt8.ofNat (v / 4096 % 16 + 224), UInt8.ofNat (v / 64 % 64 + 128),
        UInt8.ofNat (v % 64 + 128)]
  | four (h : 65535 < v) (hmax : v < 1114112) :
      CharForm v [UInt8.ofNat (v / 262144 % 8 + 240), UInt8.ofNat (v / 4096 % 64 + 128),
        UInt8.ofNat (v / 64 % 64 + 128), UInt8.ofNat (v % 64 + 128)]

theorem charForm_utf8EncodeChar (c : Char) : CharForm c.val.toNat (String.utf8EncodeChar c) := by
  have hmax : c.val.toNat < 1114112 := by
    have hvalid : c.val.toNat < 55296 ∨ 57343 < c.val.toNat ∧ c.val.toNat < 1114112 := c.valid
    omega
  unfold String.utf8EncodeChar
  dsimp only
  split
  · next h => exact .one h
  split
  · next h => exact .two (by omega) h
  split
  · next h => exact .three (by omega) h
  · exact .four (by omega) hmax

/-- A longer form begins with a higher byte; forms of one length are compared digit by digit. -/
theorem CharForm.lt {as bs : List UInt8} (hv : CharForm v as) (hw : CharForm w bs) (hlt : v < w) :
    as ++ xs < bs ++ ys := by
  cases hv with
  | one h =>
      cases hw with
      | one => exact byte_cons_lt (by omega) (by omega) (.inl hlt)
      | two => exact byte_cons_lt (by omega) (by omega) (.inl (by omega))
      | three => exact byte_cons_lt (by omega) (by omega) (.inl (by omega))
      | four => exact byte_cons_lt (by omega) (by omega) (.inl (by omega))
  | two h =>
      cases hw with
      | one => omega
      | two =>
          refine byte_cons_lt (by omega) (by omega) ?_
          by_cases hdigit : v / 64 = w / 64
          · exact .inr ⟨by rw [hdigit], digit_lt hlt hdigit⟩
          · exact .inl (by omega)
      | three => exact byte_cons_lt (by omega) (by omega) (.inl (by omega))
      | four => exact byte_cons_lt (by omega) (by omega) (.inl (by omega))
  | three h =>
      cases hw with
      | one => omega
      | two => omega
      | three =>
          refine byte_cons_lt (by omega) (by omega) ?_
          by_cases hdigit : v / 4096 = w / 4096
          · exact .inr ⟨by rw [hdigit], two_digits_lt hlt hdigit⟩
          · exact .inl (by omega)
      | four => exact byte_cons_lt (by omega) (by omega) (.inl (by omega))
  | four h =>
      cases hw with
      | one => omega
      | two => omega
      | three => omega
      | four =>
          refine byte_cons_lt (by omega) (by omega) ?_
          by_cases hdigit : v / 262144 = w / 262144
          · exact .inr ⟨by rw [hdigit], three_digits_lt hlt hdigit⟩
          · exact .inl (by omega)

end Forms

/-! ## Texts -/

theorem flatMap_utf8EncodeChar_lt {cs ds : List Char} (h : cs < ds) :
    cs.flatMap String.utf8EncodeChar < ds.flatMap String.utf8EncodeChar := by
  induction cs generalizing ds with
  | nil =>
      cases ds with
      | nil => exact absurd h (List.not_lt_nil _)
      | cons d ds =>
          rw [List.flatMap_nil, List.flatMap_cons]
          cases hform : String.utf8EncodeChar d with
          | nil => exact absurd hform String.utf8EncodeChar_ne_nil
          | cons b bs => exact List.nil_lt_cons _ _
  | cons c cs ih =>
      cases ds with
      | nil => exact absurd h (List.not_lt_nil _)
      | cons d ds =>
          rw [List.flatMap_cons, List.flatMap_cons]
          rcases List.cons_lt_cons_iff.mp h with hlt | ⟨rfl, hrest⟩
          · exact (charForm_utf8EncodeChar c).lt (charForm_utf8EncodeChar d) (UInt32.lt_iff_toNat_lt.mp hlt)
          · exact List.append_left_lt (ih hrest)

/-- A lower text has lower bytes. -/
theorem bytes_lt_of_lt {s t : String} (h : s < t) : s.toByteArray.data.toList < t.toByteArray.data.toList := by
  rw [toList_toByteArray, toList_toByteArray]
  exact flatMap_utf8EncodeChar_lt (String.lt_iff.mp h)

end Respell.Text
