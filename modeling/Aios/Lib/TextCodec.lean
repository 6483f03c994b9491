import Mathlib.Data.Nat.Digits.Defs
import Mathlib.Data.List.Basic

/-!
Texts of printable ASCII: their UTF-8, hexadecimal bytes, and decimal numbers as a lenient parser
reads them.
-/
namespace TextCodec

open List String
variable {b : UInt8} {bytes : List UInt8} {n d : ℕ} {cs : List Char} {c : Char}

def Printable (b : UInt8) : Prop := 0x20 ≤ b ∧ b < 0x7f

instance (b : UInt8) : Decidable (Printable b) := inferInstanceAs (Decidable (_ ∧ _))

def chars (bytes : List UInt8) : List Char := bytes.map fun b => Char.ofNat b.toNat

theorem toNat_char (h : Printable b) : (Char.ofNat b.toNat).toNat = b.toNat := by
  have hlt : b.toNat < 0x7f := UInt8.lt_iff_toNat_lt.mp h.2
  have hvalid : b.toNat.isValidChar := .inl (by omega)
  rw [Char.ofNat,dif_pos hvalid]
  rfl

theorem utf8Encode_chars (h : ∀ b ∈ bytes, Printable b) :
    (chars bytes).utf8Encode = bytes.toByteArray := by
  have hflat : (chars bytes).flatMap utf8EncodeChar = bytes := by
    induction bytes with
    | nil => rfl
    | cons b bytes ih =>
      obtain ⟨hb,hbytes⟩ := forall_mem_cons.mp h
      have hlt : b.toNat < 0x7f := UInt8.lt_iff_toNat_lt.mp hb.2
      have hval : (Char.ofNat b.toNat).val.toNat = b.toNat := toNat_char hb
      have hone : utf8EncodeChar (Char.ofNat b.toNat) = [b] := by
        rw [utf8EncodeChar,hval,if_pos (by omega),UInt8.ofNat_toNat]
      rw [chars,map_cons,flatMap_cons,hone]
      exact congrArg (b::·) (ih hbytes)
  rw [utf8Encode,hflat]

theorem fromUTF8?_printable (h : ∀ b ∈ bytes, Printable b) :
    fromUTF8? bytes.toByteArray = some (ofList (chars bytes)) := by
  have hbytes : bytes.toByteArray = (ofList (chars bytes)).toByteArray := by
    rw [toByteArray_ofList,utf8Encode_chars h]
  rw [hbytes,fromUTF8?,dif_pos (isValidUTF8 _)]
  rfl

def hexDigit (n : ℕ) : UInt8 := if n < 10 then UInt8.ofNat (48+n) else UInt8.ofNat (87+n)

def encodeHex (bytes : List UInt8) : List UInt8 :=
  bytes.flatMap fun b => [hexDigit (b.toNat/16),hexDigit (b.toNat%16)]

/-- The value of a hexadecimal digit in either case. -/
def hexValue (b : UInt8) : Option ℕ :=
  if 48 ≤ b ∧ b ≤ 57 then some (b.toNat-48)
  else if 97 ≤ b ∧ b ≤ 102 then some (b.toNat-87)
  else if 65 ≤ b ∧ b ≤ 70 then some (b.toNat-55)
  else none

def decodeHex : List UInt8 → Option (List UInt8)
  | [] => some []
  | [_] => none
  | hi::lo::rest => do
    let hi ← hexValue hi
    let lo ← hexValue lo
    let rest ← decodeHex rest
    return UInt8.ofNat (hi*16+lo)::rest

theorem hexValue_hexDigit (h : n < 16) : hexValue (hexDigit n) = some n := by
  have hall : ∀ n < 16, hexValue (hexDigit n) = some n := by decide
  exact hall n h

theorem decodeHex_encodeHex : decodeHex (encodeHex bytes) = some bytes := by
  induction bytes with
  | nil => rfl
  | cons b bytes ih =>
    have hlt := b.toNat_lt
    have hhigh := hexValue_hexDigit (n := b.toNat/16) (by omega)
    have hlow := hexValue_hexDigit (n := b.toNat%16) (by omega)
    have hbyte : b.toNat/16*16+b.toNat%16 = b.toNat := by omega
    have hsplit : encodeHex (b::bytes) =
        hexDigit (b.toNat/16)::hexDigit (b.toNat%16)::encodeHex bytes := rfl
    rw [hsplit,decodeHex,hhigh,hlow,ih]
    show some (UInt8.ofNat (b.toNat/16*16+b.toNat%16)::bytes) = _
    rw [hbyte,UInt8.ofNat_toNat]

theorem printable_hexDigit (h : n < 16) : Printable (hexDigit n) := by
  have hall : ∀ n < 16, Printable (hexDigit n) := by decide
  exact hall n h

theorem printable_encodeHex (bytes : List UInt8) : ∀ b ∈ encodeHex bytes, Printable b := by
  intro b hb
  obtain ⟨c,-,hc⟩ := mem_flatMap.mp hb
  have hlt := c.toNat_lt
  simp only [mem_cons,not_mem_nil,or_false] at hc
  obtain rfl | rfl := hc
  · exact printable_hexDigit (by omega)
  · exact printable_hexDigit (by omega)

/-- One character that is no digit spoils the text. -/
theorem decodeHex_eq_none (hb : b ∈ bytes) (h : hexValue b = none) : decodeHex bytes = none := by
  fun_induction decodeHex bytes with
  | case1 => cases hb
  | case2 => rfl
  | case3 hi lo rest ih =>
    simp only [mem_cons] at hb
    obtain rfl | rfl | hb := hb
    · simp [h]
    · simp [h]
    · simp [ih hb]

def digits (n : ℕ) : List ℕ := if n = 0 then [0] else (Nat.digits 10 n).reverse

def printDecimal (n : ℕ) : List UInt8 := (digits n).map fun d => UInt8.ofNat (48+d)

def digitValue (c : Char) : Option ℕ :=
  if 48 ≤ c.toNat ∧ c.toNat ≤ 57 then some (c.toNat-48) else none

def parseDecimal (cs : List Char) : Option ℕ :=
  (cs.mapM digitValue).map fun ds => ds.foldl (fun n d => n*10+d) 0

def withoutPlus : List Char → List Char
  | '+'::rest => rest
  | cs => cs

/-- A decimal number of 64 bits: at least one digit, a plus sign allowed, no overflow. -/
def parseU64 (cs : List Char) : Option UInt64 :=
  if withoutPlus cs = [] then none
  else
    (parseDecimal (withoutPlus cs)).bind fun n =>
      if n < 2^64 then some (UInt64.ofNat n) else none

/-- A decimal number of 32 bits, in the same way. -/
def parseU32 (cs : List Char) : Option UInt32 :=
  if withoutPlus cs = [] then none
  else
    (parseDecimal (withoutPlus cs)).bind fun n =>
      if n < 2^32 then some (UInt32.ofNat n) else none

/-- The characters with the Unicode property White_Space. -/
def isWhitespace (c : Char) : Bool :=
  let n := c.toNat
  (9 ≤ n && n ≤ 13) || n = 0x20 || n = 0x85 || n = 0xa0 || n = 0x1680 ||
    (0x2000 ≤ n && n ≤ 0x200a) || n = 0x2028 || n = 0x2029 || n = 0x202f || n = 0x205f ||
    n = 0x3000

def trim (cs : List Char) : List Char :=
  ((cs.dropWhile isWhitespace).reverse.dropWhile isWhitespace).reverse

theorem digits_lt : ∀ d ∈ digits n, d < 10 := by
  intro d hd
  unfold digits at hd
  split at hd
  · simp_all
  · exact Nat.digits_lt_base (by omega) (mem_reverse.mp hd)

theorem digits_ne_nil : digits n ≠ [] := by
  unfold digits
  split
  · simp
  · next h => simpa [Nat.digits_eq_nil_iff_eq_zero] using h

theorem foldl_digits : (digits n).foldl (fun n d => n*10+d) 0 = n := by
  have hfold (ds : List ℕ) : ds.reverse.foldl (fun n d => n*10+d) 0 = Nat.ofDigits 10 ds := by
    rw [foldl_reverse,Nat.ofDigits_eq_foldr]
    simp [Nat.mul_comm,Nat.add_comm]
  unfold digits
  split
  · next h => simp [h]
  · rw [hfold,Nat.ofDigits_digits]

/-- The byte of a digit, and what the parser makes of it. -/
theorem digit_byte (h : d < 10) : Printable (UInt8.ofNat (48+d)) ∧
      digitValue (Char.ofNat (UInt8.ofNat (48+d)).toNat) = some d := by
  have hall : ∀ d < 10, Printable (UInt8.ofNat (48+d)) ∧
      digitValue (Char.ofNat (UInt8.ofNat (48+d)).toNat) = some d := by decide
  exact hall d h

theorem printable_printDecimal : ∀ b ∈ printDecimal n, Printable b := by
  intro b hb
  obtain ⟨d,hd,rfl⟩ := mem_map.mp hb
  exact (digit_byte (digits_lt d hd)).1

theorem mapM_digitValue {ds : List ℕ} (h : ∀ d ∈ ds, d < 10) :
    (chars (ds.map fun d => UInt8.ofNat (48+d))).mapM digitValue = some ds := by
  induction ds with
  | nil => rfl
  | cons d ds ih =>
    obtain ⟨hd,hds⟩ := forall_mem_cons.mp h
    have hrest := ih hds
    rw [chars,List.map_map] at hrest ⊢
    rw [map_cons,mapM_cons,hrest]
    simp only [Function.comp_apply,(digit_byte hd).2]
    rfl

theorem mapM_digitValue_eq_none (hc : c ∈ cs) (h : digitValue c = none) :
    cs.mapM digitValue = none := by
  induction cs with
  | nil => cases hc
  | cons a cs ih =>
    rw [mapM_cons]
    obtain rfl | hc := mem_cons.mp hc
    · rw [h]
      rfl
    · rw [ih hc]
      cases digitValue a <;> rfl

/-- One character that is neither a digit nor a plus sign spoils the number. -/
theorem parseU64_eq_none (hc : c ∈ cs) (hplus : c ≠ '+') (h : digitValue c = none) :
    parseU64 cs = none := by
  have hmem : c ∈ withoutPlus cs := by
    unfold withoutPlus
    split
    · exact (mem_cons.mp hc).resolve_left hplus
    · exact hc
  unfold parseU64
  split
  · rfl
  · rw [parseDecimal,mapM_digitValue_eq_none hmem h]
    rfl

theorem withoutPlus_printDecimal :
    withoutPlus (chars (printDecimal n)) = chars (printDecimal n) := by
  unfold withoutPlus
  split
  · next rest hcs =>
    -- A plus sign is no digit.
    have hplus : '+' ∈ chars (printDecimal n) := by simp [hcs]
    have hnone := mapM_digitValue_eq_none hplus (by decide)
    rw [printDecimal,mapM_digitValue digits_lt] at hnone
    cases hnone
  · rfl

theorem parseDecimal_printDecimal : parseDecimal (chars (printDecimal n)) = some n := by
  rw [parseDecimal,printDecimal,mapM_digitValue digits_lt,Option.map_some,foldl_digits]

theorem chars_printDecimal_ne_nil : chars (printDecimal n) ≠ [] := by
  simp [chars,printDecimal,digits_ne_nil]

theorem parseU64_printDecimal (x : UInt64) : parseU64 (chars (printDecimal x.toNat)) = some x := by
  have hlt : x.toNat < 2^64 := x.toNat_lt
  rw [parseU64,withoutPlus_printDecimal,if_neg chars_printDecimal_ne_nil,
    parseDecimal_printDecimal,Option.bind_some,if_pos hlt,UInt64.ofNat_toNat]

theorem parseU32_printDecimal (x : UInt32) : parseU32 (chars (printDecimal x.toNat)) = some x := by
  have hlt : x.toNat < 2^32 := x.toNat_lt
  rw [parseU32,withoutPlus_printDecimal,if_neg chars_printDecimal_ne_nil,
    parseDecimal_printDecimal,Option.bind_some,if_pos hlt,UInt32.ofNat_toNat]

theorem trim_eq_self (h : ∀ c ∈ cs, isWhitespace c = false) : trim cs = cs := by
  have hdrop (cs : List Char) (h : ∀ c ∈ cs, isWhitespace c = false) :
      cs.dropWhile isWhitespace = cs := by
    cases cs with
    | nil => rfl
    | cons c cs => simp [h c mem_cons_self]
  rw [trim,hdrop cs h,hdrop _ fun c hc => h c (mem_reverse.mp hc),reverse_reverse]

theorem mem_trim (hc : c ∈ cs) (h : isWhitespace c = false) : c ∈ trim cs := by
  have hdrop (cs : List Char) (hc : c ∈ cs) : c ∈ cs.dropWhile isWhitespace := by
    induction cs with
    | nil => cases hc
    | cons a cs ih =>
      rw [dropWhile_cons]
      split
      · next ha =>
        obtain rfl | hc := mem_cons.mp hc
        · simp [h] at ha
        · exact ih hc
      · exact hc
  exact mem_reverse.mpr (hdrop _ (mem_reverse.mpr (hdrop cs hc)))

theorem isWhitespace_digit (h : d < 10) :
    isWhitespace (Char.ofNat (UInt8.ofNat (48+d)).toNat) = false := by
  have hall : ∀ d < 10, isWhitespace (Char.ofNat (UInt8.ofNat (48+d)).toNat) = false := by decide
  exact hall d h

theorem trim_printDecimal : trim (chars (printDecimal n)) = chars (printDecimal n) := by
  refine trim_eq_self fun c hc => ?_
  rw [chars,printDecimal,List.map_map] at hc
  obtain ⟨d,hd,rfl⟩ := mem_map.mp hc
  exact isWhitespace_digit (digits_lt d hd)

end TextCodec
