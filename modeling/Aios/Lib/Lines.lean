import Mathlib.Data.List.Induction

/-!
Streams of lines, each ended by a separator. What follows the last separator is not a line yet; the
next bytes continue it.
-/
namespace Lines

open List
variable {β ρ : Type*} [DecidableEq β] (sep : β)

/-- The complete lines of a stream with their offsets, when the bytes `line` from `offset` on have
been read already. -/
def linesFrom : ℕ → List β → List β → List (ℕ × List β)
  | _, _, [] => []
  | offset, line, b::bs =>
    if b = sep then (offset,line)::linesFrom (offset+line.length+1) [] bs
    else linesFrom offset (line ++ [b]) bs

/-- The line that the stream leaves unfinished, with the offset at which it starts. -/
def unfinished : ℕ → List β → List β → ℕ × List β
  | offset, line, [] => (offset,line)
  | offset, line, b::bs =>
    if b = sep then unfinished (offset+line.length+1) [] bs
    else unfinished offset (line ++ [b]) bs

def lines (bytes : List β) : List (ℕ × List β) := linesFrom sep 0 [] bytes

/-- What follows the last separator. -/
def tail (bytes : List β) : List β := (unfinished sep 0 [] bytes).2

variable {sep} {offset : ℕ} {line bytes more text : List β}

theorem linesFrom_append : linesFrom sep offset line (bytes ++ more) =
      linesFrom sep offset line bytes ++ linesFrom sep (unfinished sep offset line bytes).1
          (unfinished sep offset line bytes).2 more := by
  induction bytes generalizing offset line with
  | nil => simp [linesFrom,unfinished]
  | cons b bytes ih =>
    by_cases hb : b = sep
    · simp [linesFrom,unfinished,hb,ih]
    · simp [linesFrom,unfinished,hb,ih]

theorem unfinished_append : unfinished sep offset line (bytes ++ more) =
      unfinished sep (unfinished sep offset line bytes).1
        (unfinished sep offset line bytes).2 more := by
  induction bytes generalizing offset line with
  | nil => simp [unfinished]
  | cons b bytes ih =>
    by_cases hb : b = sep
    · simp [unfinished,hb,ih]
    · simp [unfinished,hb,ih]

theorem linesFrom_of_notMem (h : sep ∉ bytes) : linesFrom sep offset line bytes = [] := by
  induction bytes generalizing offset line with
  | nil => rfl
  | cons b bytes ih =>
    obtain ⟨hb,hbytes⟩ := not_or.mp (mt mem_cons.mpr h)
    rw [linesFrom,if_neg (Ne.symm hb),ih hbytes]

theorem unfinished_of_notMem (h : sep ∉ bytes) :
    unfinished sep offset line bytes = (offset,line ++ bytes) := by
  induction bytes generalizing offset line with
  | nil => simp [unfinished]
  | cons b bytes ih =>
    obtain ⟨hb,hbytes⟩ := not_or.mp (mt mem_cons.mpr h)
    rw [unfinished,if_neg (Ne.symm hb),ih hbytes,append_assoc,singleton_append]

theorem unfinished_length (sep : β) (offset : ℕ) (line bytes : List β) :
    (unfinished sep offset line bytes).1+(unfinished sep offset line bytes).2.length =
      offset+line.length+bytes.length := by
  induction bytes generalizing offset line with
  | nil => rfl
  | cons b bytes ih =>
    unfold unfinished
    split
    · rw [ih]
      simp
      omega
    · rw [ih]
      simp
      omega

theorem linesFrom_end_lt {p : ℕ × List β} (h : p ∈ linesFrom sep offset line bytes) :
    p.1+p.2.length < offset+line.length+bytes.length := by
  induction bytes generalizing offset line with
  | nil => cases h
  | cons b bytes ih =>
    unfold linesFrom at h
    rw [length_cons]
    split at h
    · obtain rfl | h := mem_cons.mp h
      · show offset+line.length < _
        omega
      · have hlt := ih h
        simp only [length_nil] at hlt
        omega
    · have hlt := ih h
      simp only [length_append,length_singleton] at hlt
      omega

theorem mem_of_mem_unfinished {b : β} (h : b ∈ (unfinished sep offset line bytes).2) :
    b ∈ line ∨ b ∈ bytes := by
  induction bytes generalizing offset line with
  | nil => exact .inl h
  | cons c bytes ih =>
    unfold unfinished at h
    split at h
    · have hb := ih h
      simp_all
    · have hb := ih h
      simp only [mem_append,mem_singleton,or_assoc] at hb
      simpa only [mem_cons] using hb

theorem mem_of_mem_tail {b : β} (h : b ∈ tail sep bytes) : b ∈ bytes := by
  simpa using mem_of_mem_unfinished h

theorem sep_notMem_unfinished (h : sep ∉ line) : sep ∉ (unfinished sep offset line bytes).2 := by
  induction bytes generalizing offset line with
  | nil => exact h
  | cons b bytes ih =>
    unfold unfinished
    split
    · exact ih (by simp)
    · next hb => exact ih (by simp [h,Ne.symm hb])

theorem sep_notMem_tail : sep ∉ tail sep bytes := sep_notMem_unfinished not_mem_nil

theorem lines_append_line (h : sep ∉ text) : lines sep (bytes ++ (text ++ [sep])) =
      lines sep bytes ++ [((unfinished sep 0 [] bytes).1,tail sep bytes ++ text)] := by
  unfold lines tail
  rw [linesFrom_append,linesFrom_append,linesFrom_of_notMem h,unfinished_of_notMem h]
  simp [linesFrom]

theorem tail_append_line (h : sep ∉ text) : tail sep (bytes ++ (text ++ [sep])) = [] := by
  unfold tail
  rw [unfinished_append,unfinished_append,unfinished_of_notMem h]
  simp [unfinished]

/-- Nothing is left unfinished precisely if the stream is empty or ends with a separator. -/
theorem tail_eq_nil_iff : tail sep bytes = [] ↔ ∀ b, bytes.getLast? = some b → b = sep := by
  induction bytes using List.reverseRecOn with
  | nil => simp [tail,unfinished]
  | append_singleton bytes b _ =>
    unfold tail
    rw [unfinished_append]
    by_cases hb : b = sep
    · simp [unfinished,hb]
    · simp [unfinished,hb]

section
variable (sep) (parse : List β → Option ρ)

/-- The records that a parser finds in the complete lines. -/
def records (bytes : List β) : List ρ := (lines sep bytes).filterMap fun p => parse p.2

/-- The line around an offset is one in which the parser finds the record `r`. -/
def Recognised (bytes : List β) (offset : ℕ) (r : ρ) : Prop :=
  ∃ p ∈ lines sep bytes, p.1 ≤ offset ∧ offset ≤ p.1+p.2.length ∧ parse p.2 = some r

variable {sep parse} {r : ρ}

theorem records_append_line (h : sep ∉ text) : records sep parse (bytes ++ (text ++ [sep])) =
      records sep parse bytes ++ (parse (tail sep bytes ++ text)).toList := by
  unfold records
  rw [lines_append_line h,filterMap_append]
  cases hparse : parse (tail sep bytes ++ text) <;> simp [hparse]

/-- What is appended does not touch the lines that are complete. -/
theorem Recognised.append (h : Recognised sep parse bytes offset r) (more : List β) :
    Recognised sep parse (bytes ++ more) offset r := by
  obtain ⟨p,hp,hspan⟩ := h
  refine ⟨p,?_,hspan⟩
  rw [lines,linesFrom_append]
  exact mem_append_left _ hp

/-- The record appended last is found precisely if the parser finds it in its line behind
what was left unfinished before. -/
theorem recognised_append_line_iff (h : sep ∉ text) :
    Recognised sep parse (bytes ++ (text ++ [sep])) bytes.length r ↔
      parse (tail sep bytes ++ text) = some r := by
  have hend := unfinished_length sep 0 [] bytes
  unfold Recognised
  rw [lines_append_line h]
  constructor
  · rintro ⟨p,hp,-,hle,hparse⟩
    obtain hold | hnew := mem_append.mp hp
    · have hlt := linesFrom_end_lt hold
      simp only [length_nil] at hlt
      omega
    · rw [mem_singleton.mp hnew] at hparse
      exact hparse
  · intro hparse
    refine ⟨_,mem_append_right _ (mem_singleton_self _),?_,?_,hparse⟩
    · simp only [length_nil] at hend
      omega
    · simp only [tail,length_append] at hend ⊢
      omega

end
end Lines
