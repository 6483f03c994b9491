import Aios.Lib.Bincode
import Aios.Lib.TextCodec
import Mathlib.Data.Finset.Sort
import Mathlib.Data.String.Basic

/-!
JSON text in the layout of a pretty printer: strings, numbers and arrays of strings, with readers
that give back what was printed.
-/
namespace JsonText

open Bincode TextCodec List Utf8

variable {α : Type} {d : Decoder α} {bytes rest : List UInt8} {a : α} {b : UInt8}

def literal (s : String) : Decoder Unit := fun input =>
  if Utf8.bytes s <+: input then some ((),input.drop (Utf8.bytes s).length) else none

theorem decodes_literal (s : String) : Decodes (literal s) (Utf8.bytes s) () := by
  intro rest
  rw [literal,if_pos (prefix_append _ rest),drop_left]

theorem rejects_literal {s : String} (h : ∀ rest, ¬ Utf8.bytes s <+: bytes ++ rest) :
    Rejects (literal s) bytes :=
  fun rest => if_neg (h rest)

/-- The bytes with an escape of two characters, and its second character. -/
def escapes : List (UInt8 × UInt8) :=
  [(0x22,0x22),(0x5c,0x5c),(0x08,0x62),(0x09,0x74),(0x0a,0x6e),(0x0c,0x66),(0x0d,0x72)]

def escape (b : UInt8) : List UInt8 :=
  match escapes.find? (·.1 = b) with
  | some (_,c) => [0x5c,c]
  | none => if b < 0x20 then [0x5c,0x75,0x30,0x30] ++ encodeHex [b] else [b]

def quote (cs : List Char) : List UInt8 := 0x22::((encode cs).flatMap escape ++ [0x22])

/-- The bytes of a string up to its closing quote, and what follows it. -/
def unescape : List UInt8 → Option (List UInt8 × List UInt8)
  | [] => none
  | b::rest =>
    if b = 0x22 then some ([],rest)
    else if b = 0x5c then
      match rest with
      | 0x75::_::_::hi::lo::rest => do
        let code ← decodeHex [hi,lo]
        let (bytes,left) ← unescape rest
        return (code ++ bytes,left)
      | c::rest => do
        let (b,_) ← escapes.find? (·.2 = c)
        let (bytes,left) ← unescape rest
        return (b::bytes,left)
      | [] => none
    else do
      let (bytes,left) ← unescape rest
      return (b::bytes,left)

theorem unescape_escape (b : UInt8) :
    unescape (escape b ++ rest) = (unescape rest).map fun r => (b::r.1,r.2) := by
  unfold escape
  split
  · next b' c hfind =>
    have hmem := mem_of_find?_eq_some hfind
    have hb : b' = b := by simpa using find?_some hfind
    subst hb
    simp only [escapes,mem_cons,Prod.mk.injEq,not_mem_nil,or_false] at hmem
    rcases hmem with ⟨rfl,rfl⟩ | ⟨rfl,rfl⟩ | ⟨rfl,rfl⟩ | ⟨rfl,rfl⟩ | ⟨rfl,rfl⟩ | ⟨rfl,rfl⟩ |
      ⟨rfl,rfl⟩ <;> cases h : unescape rest <;> simp [unescape,escapes,h]
  · next hfind =>
    have hne : b ≠ 0x22 ∧ b ≠ 0x5c := by
      constructor <;> rintro rfl <;> cases hfind
    split
    · have hhex : encodeHex [b] = [hexDigit (b.toNat/16),hexDigit (b.toNat%16)] := rfl
      have hcode : decodeHex [hexDigit (b.toNat/16),hexDigit (b.toNat%16)] = some [b] :=
        hhex ▸ decodeHex_encodeHex
      rw [hhex]
      cases h : unescape rest <;> simp [unescape,hcode,h]
    · rw [singleton_append,unescape.eq_def]
      cases h : unescape rest <;> simp [hne.1,hne.2,h]

theorem unescape_flatMap (bytes : List UInt8) :
    unescape (bytes.flatMap escape ++ 0x22::rest) = some (bytes,rest) := by
  induction bytes with
  | nil =>
    rw [flatMap_nil,nil_append,unescape.eq_def]
    exact if_pos rfl
  | cons b bytes ih =>
    rw [flatMap_cons,append_assoc,unescape_escape,ih]
    rfl

def string : Decoder (List Char) := do
  literal "\""
  let bytes ← unescape
  match String.fromUTF8? bytes.toByteArray with
  | some s => return s.toList
  | none => failure

theorem decodes_string (cs : List Char) : Decodes string (quote cs) cs := by
  refine (decodes_literal "\"").bind (.finish (a := encode cs) ?_ ?_)
  · intro rest
    show unescape ((encode cs).flatMap escape ++ [0x22] ++ rest) = _
    rw [append_assoc]
    exact unescape_flatMap _
  · simp only [fromUTF8?_bytes,String.toList_ofList]
    exact .pure cs

/-- A number and the byte that ends it. -/
def numberThen (stop : UInt8) : Decoder UInt64 := fun input =>
  (parseU64 (chars (input.takeWhile (· ≠ stop)))).map fun n =>
    (n,(input.dropWhile (· ≠ stop)).tail)

def number (n : UInt64) (stop : UInt8) : List UInt8 := printDecimal n.toNat ++ [stop]

theorem decodes_number (n : UInt64) {stop : UInt8}
    (h : stop < 0x30 ∨ 0x39 < stop) :
    Decodes (numberThen stop) (number n stop) n := by
  intro rest
  have hdigit : ∀ d < 10, 0x30 ≤ UInt8.ofNat (48+d) ∧ UInt8.ofNat (48+d) ≤ 0x39 := by decide
  have hall : ∀ b ∈ printDecimal n.toNat, (b ≠ stop : Bool) = true := by
    intro b hb
    obtain ⟨d,hd,rfl⟩ := mem_map.mp hb
    have hbounds := hdigit d (digits_lt d hd)
    apply decide_eq_true
    rintro rfl
    rcases h with h | h
    · exact UInt8.not_lt.mpr hbounds.1 h
    · exact UInt8.not_lt.mpr hbounds.2 h
  rw [numberThen,number,append_assoc,takeWhile_append_of_pos hall,dropWhile_append_of_pos hall]
  simp [parseU64_printDecimal]

def nullable (d : Decoder α) : Decoder (Option α) :=
  (do literal "null"; return none) <|> some <$> d

def orNull (enc : α → List UInt8) : Option α → List UInt8
  | none => Utf8.bytes "null"
  | some a => enc a

theorem decodes_nullable {enc : α → List UInt8} (h : ∀ a, Decodes d (enc a) a)
    (hstart : ∀ a, ∃ b more, enc a = b::more ∧ b ≠ 0x6e) (o : Option α) :
    Decodes (nullable d) (orNull enc o) o := by
  cases o with
  | none => exact .orElse_left ((decodes_literal "null").finish (.pure none))
  | some a =>
    refine .orElse_right (.bind_left (rejects_literal fun rest hp => ?_) _) ((h a).map some)
    obtain ⟨b,more,heq,hb⟩ := hstart a
    rw [orNull,heq] at hp
    exact hb ((cons_prefix_cons.mp hp).1.symm)

def inOrder (s : Finset (List Char)) : List (List Char) := s.sort (· ≤ ·)

theorem toFinset_inOrder (s : Finset (List Char)) : (inOrder s).toFinset = s :=
  s.sort_toFinset (· ≤ ·)

/-- The strings after the first one, each on a line of its own. -/
def laterStrings (ss : List (List Char)) : List UInt8 :=
  ss.flatMap (fun s => Utf8.bytes ",\n    " ++ quote s) ++ Utf8.bytes "\n  ]"

def strings : List (List Char) → List UInt8
  | [] => Utf8.bytes "[]"
  | s::ss => Utf8.bytes "[\n    " ++ (quote s ++ laterStrings ss)

def readLater : ℕ → Decoder (List (List Char))
  | 0 => failure
  | fuel+1 =>
    (do literal "\n  ]"; return []) <|> do
      literal ",\n    "
      let s ← string
      (s::·) <$> readLater fuel

def readStrings : Decoder (List (List Char)) :=
  (do literal "[]"; return []) <|> do
    literal "[\n    "
    let s ← string
    (s::·) <$> fun input => readLater input.length input

theorem decodes_later {ss : List (List Char)} {fuel : ℕ} (h : ss.length < fuel) :
    Decodes (readLater fuel) (laterStrings ss) ss := by
  induction ss generalizing fuel with
  | nil =>
    cases fuel with
    | zero => cases h
    | succ fuel => exact .orElse_left ((decodes_literal "\n  ]").finish (.pure []))
  | cons s ss ih =>
    cases fuel with
    | zero => cases h
    | succ fuel =>
      have hlater : laterStrings (s::ss) =
          Utf8.bytes ",\n    " ++ (quote s ++ laterStrings ss) := by
        simp [laterStrings]
      rw [hlater]
      refine .orElse_right (.bind_left (rejects_literal fun rest hp => ?_) _)
        ((decodes_literal ",\n    ").bind ((decodes_string s).bind
          ((ih (Nat.lt_of_succ_lt_succ h)).map (s::·))))
      exact absurd (cons_prefix_cons.mp hp).1 (by decide)

theorem decodes_strings (ss : List (List Char)) : Decodes readStrings (strings ss) ss := by
  cases ss with
  | nil => exact .orElse_left ((decodes_literal "[]").finish (.pure []))
  | cons s ss =>
    have hlater : Decodes (fun input => readLater input.length input) (laterStrings ss) ss := by
      intro rest
      have hlong : ss.length ≤ (ss.flatMap fun s => Utf8.bytes ",\n    " ++ quote s).length := by
        induction ss with
        | nil => exact Nat.zero_le _
        | cons s ss ih =>
          rw [flatMap_cons,length_append,length_append,quote,length_cons,length_cons]
          omega
      refine decodes_later ?_ rest
      simp only [laterStrings,length_append]
      have hend : (Utf8.bytes "\n  ]").length = 4 := by decide
      omega
    refine .orElse_right (.bind_left (rejects_literal fun rest hp => ?_) _)
      ((decodes_literal "[\n    ").bind ((decodes_string s).bind (hlater.map (s::·))))
    exact absurd (cons_prefix_cons.mp (cons_prefix_cons.mp hp).2).1 (by decide)

end JsonText
