import Respell.Text.Place
import Respell.Text.Span

/-!
# Measures of texts

Two numbers are taken of texts all over the theory: their length in bytes and their number of line
feeds. Both are sums over the characters, so both split over concatenation.
-/

namespace Respell.Text

/-! ## Bytes -/

theorem size_utf8Encode (cs : List Char) : cs.utf8Encode.size = byteLength cs := by
  induction cs with
  | nil => simp
  | cons c cs ih =>
      rw [List.utf8Encode_cons, ByteArray.size_append, ih, byteLength_cons,
        List.utf8Encode_singleton, List.size_toByteArray, String.length_utf8EncodeChar]

/-- The length in bytes of a text is the sum over its characters. -/
theorem byteLength_toList (s : String) : byteLength s.toList = s.utf8ByteSize := by
  rw [← size_utf8Encode, String.utf8Encode_toList, String.size_toByteArray]

theorem byteLength_eq_zero {cs : List Char} (h : byteLength cs = 0) : cs = [] := by
  cases cs with
  | nil => rfl
  | cons c cs =>
      have hpos := c.utf8Size_pos
      rw [byteLength_cons] at h
      omega

/-- The length in bytes of the text that a place belongs to. -/
def Place.extent (p : Place) : Nat := p.offset + byteLength p.rest

theorem Place.extent_advance (p : Place) (n : Nat) : (p.advance n).extent = p.extent := by
  have hrest := congrArg byteLength (List.take_append_drop n p.rest)
  rw [byteLength_append] at hrest
  rw [extent, extent, offset_advance, rest_advance]
  omega

/-- In a text shorter than 4 GiB the position that is kept for a place is its offset. -/
theorem Place.toNat_pos {p : Place} (hshort : p.extent < UInt32.size) : p.pos.toNat = p.offset :=
  UInt32.toNat_ofNat_of_lt' (Nat.lt_of_le_of_lt (Nat.le_add_right _ _) hshort)

/-- Where a text shorter than 4 GiB is cut, the offset is kept as it is. -/
theorem toNat_ofNat_byteLength {before rest : List Char} (h : byteLength (before ++ rest) < UInt32.size) :
    (UInt32.ofNat (byteLength before)).toNat = byteLength before := by
  rw [byteLength_append] at h
  exact UInt32.toNat_ofNat_of_lt' (Nat.lt_of_le_of_lt (Nat.le_add_right _ _) h)

/-! ## Line feeds -/

/-- The number of line feeds in a text. -/
def lineFeeds (s : String) : Nat := s.toList.count '\n'

@[simp] theorem lineFeeds_empty : lineFeeds "" = 0 := rfl

@[simp] theorem lineFeeds_append (s t : String) :
    lineFeeds (s ++ t) = lineFeeds s + lineFeeds t := by
  simp [lineFeeds]

/-- A text without a line feed counts none. -/
theorem lineFeeds_eq_zero {s : String} : lineFeeds s = 0 ↔ '\n' ∉ s.toList := by
  simp [lineFeeds, List.count_eq_zero]

/-- A number is written in digits. -/
theorem lineFeeds_toString (n : Nat) : lineFeeds (toString n) = 0 := by
  rw [lineFeeds_eq_zero]
  intro hmem
  have hdigit : '\n'.isDigit = true :=
    Nat.isDigit_of_mem_toDigits (b := 10) (by decide) (by decide) (by simpa using hmem)
  exact absurd hdigit (by decide)

/-- The line feeds before the offset at which a text is cut are those of its first part. -/
theorem lineFeedsBefore_append (before rest : List Char) :
    lineFeedsBefore (before ++ rest) (byteLength before) = before.count '\n' := by
  induction before with
  | nil => cases rest <;> simp [lineFeedsBefore]
  | cons c cs ih =>
      obtain ⟨n, hn⟩ := Nat.exists_eq_add_of_lt c.utf8Size_pos
      have hsize : byteLength (c :: cs) = (n + byteLength cs) + 1 := by simp [hn]; omega
      have hrest : (n + byteLength cs) + 1 - c.utf8Size = byteLength cs := by omega
      rw [hsize, List.cons_append, lineFeedsBefore, hrest, ih, List.count_cons, Nat.add_comm]
      simp

end Respell.Text
