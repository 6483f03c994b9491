import Mathlib.Data.List.Basic

/-!
Texts as bytes.
-/
namespace Utf8

abbrev bytes (s : String) : List UInt8 := s.toUTF8.data.toList

theorem fromUTF8?_bytes (s : String) : String.fromUTF8? (bytes s).toByteArray = some s := by
  have hbytes : (bytes s).toByteArray = s.toByteArray := by
    apply ByteArray.ext
    rw [List.data_toByteArray,Array.toArray_toList,String.toUTF8_eq_toByteArray]
  rw [hbytes,String.fromUTF8?,dif_pos s.isValidUTF8]
  rfl

theorem bytes_injective : Function.Injective bytes := by
  intro s t h
  have hs := fromUTF8?_bytes s
  rw [h,fromUTF8?_bytes] at hs
  exact (Option.some.inj hs).symm

/-- The UTF-8 of a text that is given by its characters. -/
abbrev encode (cs : List Char) : List UInt8 := bytes (String.ofList cs)

theorem encode_injective : Function.Injective encode :=
  fun _ _ h => String.ofList_injective (bytes_injective h)

end Utf8
