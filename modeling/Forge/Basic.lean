import Mathlib

/-!
# Shared vocabulary

File contents and byte buffers are `Bytes := List UInt8`. A C++ `std::string`
that the program treats as text is a Lean `String` with one `Char` per byte;
`textBytes` is the content of a file such a string is written to.
-/

namespace Forge

abbrev Bytes := List UInt8

/-- The bytes of a text. -/
def textBytes (s : String) : Bytes := s.toList.map fun c => UInt8.ofNat c.toNat

@[simp] theorem textBytes_append (s t : String) : textBytes (s ++ t) = textBytes s ++ textBytes t := by
  simp [textBytes]

/-- The text of a file: a character for each byte. -/
def fileText (data : Bytes) : String := String.ofList (data.map fun b => Char.ofNat b.toNat)

/-- A text of bytes is read as it was written. -/
theorem fileText_textBytes {s : String} (h : ∀ c ∈ s.toList, c.toNat < 256) :
    fileText (textBytes s) = s := by
  have hchar : ∀ c ∈ s.toList, Char.ofNat (UInt8.ofNat c.toNat).toNat = c := by
    intro c hc
    rw [UInt8.toNat_ofNat', Nat.mod_eq_of_lt (h c hc), Char.ofNat_toNat]
  rw [fileText, textBytes, List.map_map, ← String.toList_inj, String.toList_ofList]
  exact (List.map_congr_left hchar).trans (List.map_id _)

end Forge
