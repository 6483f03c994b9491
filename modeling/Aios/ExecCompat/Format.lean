import Aios.Lib.Bincode

/-! The headers of executable files. A slice or a sum out of range is a panic, `none` here. -/
namespace Aios.ExecCompat

open List Bincode

inductive ExecutableType where
  | aiosNative | linuxElf | windowsPe | unknown

def ExecutableType.fromBytes (data : List UInt8) : ExecutableType :=
  if data.length < 4 then .unknown
  else if data.take 4 = [0x7f,0x45,0x4c,0x46] then .linuxElf
  else if data.take 2 = [0x4d,0x5a] then .windowsPe
  else if data.take 4 = [0x41,0x49,0x4f,0x53] then .aiosNative
  else .unknown

structure BinaryHeader where
  executableType : ExecutableType
  entryPointOffset : ℕ
  imageBase : ℕ
  is64bit : Bool
  subsystem : ℕ
  machineArch : ℕ

def addUsize (a b : ℕ) : Option ℕ := if a+b < 2^64 then some (a+b) else none

section
variable (data : List UInt8)

/-- `from_le_bytes` of the slice from `a` to `b`. -/
def fromLeBytes (a b : ℕ) : Option ℕ :=
  if b ≤ data.length then some (leValue ((data.take b).drop a)) else none

def elfIs64bit : Bool := data[4]? == some 2

def parseElf : Option BinaryHeader := do
  let is64bit := elfIs64bit data
  let entryPointOffset ← (if 24 ≤ data.length then
    if is64bit then fromLeBytes data 24 32 else fromLeBytes data 24 28
    else some 0)
  return ⟨.linuxElf,entryPointOffset,0,is64bit,0,if is64bit then 0x3E else 0x03⟩

def peOffset : Option ℕ := if 64 ≤ data.length then fromLeBytes data 60 64 else some 0

def parsePe : Option BinaryHeader := do
  let offset ← peOffset data
  let is64bit := data[← addUsize offset 24]? == some 0x20
  let at40 ← addUsize offset 40
  let entryPointOffset ←
    (if at40 < data.length then (addUsize offset 44).bind (fromLeBytes data at40) else some 0)
  let at2 ← addUsize offset 2
  let machineArch ← (if at2 < data.length then fromLeBytes data offset at2 else some 0)
  return ⟨.windowsPe,entryPointOffset,0,is64bit,3,machineArch⟩

def parseAios : Option BinaryHeader := do
  let entryPointOffset ← (if 16 ≤ data.length then fromLeBytes data 8 16 else some 0)
  return ⟨.aiosNative,entryPointOffset,0,5 < data.length && data[4]? == some 1,0xFF,0xA05⟩

def BinaryHeader.parse : Option BinaryHeader :=
  match ExecutableType.fromBytes data with
  | .linuxElf => parseElf data
  | .windowsPe => parsePe data
  | .aiosNative => parseAios data
  | .unknown => some ⟨.unknown,0,0,false,0,0⟩

def elfWidth : ℕ := if elfIs64bit data then 8 else 4

/-- Where a format has its entry point, and in how many bytes. -/
def entryField : ℕ × ℕ :=
  match ExecutableType.fromBytes data with
  | .linuxElf => (24,elfWidth data)
  | .windowsPe => ((peOffset data).getD 0+40,4)
  | .aiosNative => (8,8)
  | .unknown => (0,0)

def fieldAt (field : ℕ × ℕ) : ℕ := (fromLeBytes data field.1 (field.1+field.2)).getD 0

def ParsesExactly : Prop :=
  ∃ h, BinaryHeader.parse data = some h ∧ h.entryPointOffset = fieldAt data (entryField data)

/-- The data ends inside of the entry point, or right before that of an ELF file. -/
def EndsInEntry : Prop :=
  data.length < (entryField data).1+(entryField data).2 ∧
    match ExecutableType.fromBytes data with
    | .linuxElf => 24 ≤ data.length
    | .windowsPe => (entryField data).1 < data.length
    | _ => False

end

variable {data : List UInt8} {offset : ℕ}

theorem leValue_lt (bytes : List UInt8) : leValue bytes < 256^bytes.length := by
  induction bytes with
  | nil => decide
  | cons b bytes ih =>
    have hb := b.toNat_lt
    rw [leValue,length_cons,Nat.pow_succ]
    omega

theorem peOffset_spec (data : List UInt8) :
    ∃ offset, peOffset data = some offset ∧ offset < 2^32 := by
  unfold peOffset fromLeBytes
  split
  next h =>
    refine ⟨_,rfl,(leValue_lt _).trans_eq ?_⟩
    rw [length_drop,length_take,min_eq_left h]
    rfl
  next => exact ⟨0,rfl,by decide⟩

/-- A guard is right if the whole field passes it and no part of the field does. -/
theorem guarded_iff {p : Prop} [Decidable p] {e : ℕ × ℕ} {f : ℕ → BinaryHeader}
    (hf : ∀ v, (f v).entryPointOffset = v) (h : e.1+e.2 ≤ data.length → p) :
    (∃ b, ((if p then fromLeBytes data e.1 (e.1+e.2) else some 0).bind fun v => some (f v)) =
        some b ∧ b.entryPointOffset = fieldAt data e) ↔ ¬ (data.length < e.1+e.2 ∧ p) := by
  unfold fieldAt fromLeBytes
  by_cases hin : e.1+e.2 ≤ data.length
  · simp [hin,h hin,hf]
  · by_cases hp : p <;> simp [hp,hin,hf,Nat.lt_of_not_le]

theorem parseElf_iff :
    (∃ h, parseElf data = some h ∧ h.entryPointOffset = fieldAt data (24,elfWidth data)) ↔
      ¬ (data.length < 24+elfWidth data ∧ 24 ≤ data.length) := by
  have hread : (if elfIs64bit data then fromLeBytes data 24 32 else fromLeBytes data 24 28) =
      fromLeBytes data 24 (24+elfWidth data) := by
    unfold elfWidth
    split <;> rfl
  unfold parseElf
  dsimp only
  rw [hread]
  exact guarded_iff (e := (24,elfWidth data)) (fun _ => rfl) (by simp; omega)

theorem parsePe_iff (hoffset : peOffset data = some offset) (hlt : offset < 2^32) :
    (∃ h, parsePe data = some h ∧ h.entryPointOffset = fieldAt data (offset+40,4)) ↔
      ¬ (data.length < offset+44 ∧ offset+40 < data.length) := by
  have hadd (n : ℕ) (hn : n ≤ 44) : addUsize offset n = some (offset+n) := if_pos (by omega)
  obtain ⟨arch,harch⟩ : ∃ n, (if offset+2 < data.length then fromLeBytes data offset (offset+2)
      else some 0) = some n := by
    split
    next h => exact ⟨_,if_pos h.le⟩
    next => exact ⟨0,rfl⟩
  simp only [parsePe,hoffset,hadd,harch,Nat.reduceLeDiff,Option.bind_eq_bind,Option.bind_some]
  exact guarded_iff (e := (offset+40,4)) (f := (⟨.windowsPe,·,0,_,3,arch⟩)) (fun _ => rfl)
    (by simp; omega)

/-- Parsing returns, with the entry point that the format stores, exactly if the data does not end
inside of it. -/
theorem parse_exact_iff (data : List UInt8) : ParsesExactly data ↔ ¬ EndsInEntry data := by
  unfold ParsesExactly BinaryHeader.parse EndsInEntry entryField
  cases ExecutableType.fromBytes data with
  | linuxElf => exact parseElf_iff
  | windowsPe =>
    obtain ⟨offset,hoffset,hlt⟩ := peOffset_spec data
    rw [hoffset]
    exact parsePe_iff hoffset hlt
  | aiosNative =>
    refine (guarded_iff (e := (8,8)) (fun _ => rfl) fun h => h).trans ?_
    simp
  | unknown => simp [fieldAt,fromLeBytes,leValue]

theorem short_elf_panics : BinaryHeader.parse ([0x7f,0x45,0x4c,0x46] ++ replicate 20 0) = none := by
  decide

end Aios.ExecCompat
