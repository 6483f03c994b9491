import Aios.Persistence.Recovery
import Aios.Lib.Transition

/-!
Crashes in the middle of an append to the recovery log. The first record after the restart continues
the torn line, and the parser finds neither.
-/
namespace Aios.Persistence

open Bincode Lines TextCodec Transition List

def Record.tag : Record → List UInt8
  | .entry _ => entryTag
  | .completed _ => completedTag

theorem Record.tag_prefix_text (r : Record) : r.tag <+: r.text := by
  cases r with
  | entry | completed => exact prefix_append _ _

/-- The letter `T`, which both tags have, is no digit of any kind. -/
theorem Record.letter_mem_text (r : Record) : 84 ∈ r.text := by
  refine r.tag_prefix_text.subset ?_
  cases r with
  | entry e => exact (by decide : 84 ∈ entryTag)
  | completed id => exact (by decide : 84 ∈ completedTag)

/-- A tag never starts inside of `tag`. -/
def Separate (tag other : List UInt8) : Prop :=
  ∀ k < tag.length, 0 < k → ¬ tag.drop k <+: other ∧ ¬ other <+: tag.drop k

instance (tag other : List UInt8) : Decidable (Separate tag other) :=
  inferInstanceAs (Decidable (∀ k < tag.length, 0 < k → _))

variable {r : Record}

theorem separate_tags : Separate completedTag r.tag ∧ Separate entryTag r.tag := by
  have hentry : Separate completedTag entryTag ∧ Separate entryTag entryTag := by decide
  have hcompleted : Separate completedTag completedTag ∧ Separate entryTag completedTag := by decide
  cases r with
  | entry e => exact hentry
  | completed id => exact hcompleted

variable {torn bytes : List UInt8} {s t : CrashRun}

/-- A tag in front of a torn line and a text lies within the torn line. -/
theorem stripTag_glued {tag other text : List UInt8} (hsep : Separate tag other)
    (hother : other <+: text) (htorn : torn ≠ []) (h : stripTag tag (torn ++ text) = some bytes) :
    ∃ rest, bytes = rest ++ text ∧ rest ⊆ torn := by
  obtain ⟨hstart,hbytes⟩ := Option.ite_none_right_eq_some.mp h
  have hdrop : (torn ++ text).drop tag.length = bytes := Option.some.inj hbytes
  have hlength : tag.length ≤ torn.length := by
    by_contra hshort
    -- The rest of the tag would be the beginning of the text, next to the other tag.
    have htake : torn <+: tag := by
      refine prefix_of_prefix_length_le (prefix_append torn text) hstart ?_
      omega
    obtain ⟨rest,rfl⟩ := htake
    have hrest : rest <+: text := (prefix_append_right_inj torn).mp hstart
    have hpos := length_pos_iff.mpr htorn
    have hapart := hsep torn.length (by omega) hpos
    rw [drop_left] at hapart
    obtain hle | hle := prefix_or_prefix_of_prefix hrest hother
    · exact hapart.1 hle
    · exact hapart.2 hle
  refine ⟨torn.drop tag.length,?_,drop_subset _ _⟩
  rw [← hdrop,drop_append_of_le_length hlength]

theorem parseCompleted_eq_none (hprint : ∀ b ∈ bytes, Printable b) (h : 84 ∈ bytes) :
    parseCompleted bytes = none := by
  have hmem : Char.ofNat 84 ∈ trim (chars bytes) := mem_trim (mem_map.mpr ⟨84,h,rfl⟩) (by decide)
  simp [parseCompleted,fromUTF8?_printable hprint,parseU64_eq_none hmem (by decide) (by decide)]

theorem parseEntry_eq_none (hprint : ∀ b ∈ bytes, Printable b) (h : 84 ∈ bytes) :
    parseEntry bytes = none := by
  simp [parseEntry,fromUTF8?_printable hprint,decodeHex_eq_none h (by decide)]

/-- A record behind a torn line is not found. -/
theorem parseLine_glued (htorn : torn ≠ []) (hprint : ∀ b ∈ torn, Printable b) :
    parseLine (torn ++ r.text) = none := by
  have hall : ∀ b ∈ torn ++ r.text, Printable b := by
    intro b hb
    obtain hb | hb := mem_append.mp hb
    · exact hprint b hb
    · exact printable_text r b hb
  have hstripped (tag bytes : List UInt8) (hsep : Separate tag r.tag)
      (h : stripTag tag (torn ++ r.text) = some bytes) :
      (∀ b ∈ bytes, Printable b) ∧ 84 ∈ bytes := by
    obtain ⟨rest,rfl,hsub⟩ := stripTag_glued hsep r.tag_prefix_text htorn h
    refine ⟨fun b hb => hall b ?_,mem_append_right _ r.letter_mem_text⟩
    obtain hb | hb := mem_append.mp hb
    · exact mem_append_left _ (hsub hb)
    · exact mem_append_right _ hb
  unfold parseLine
  split
  · next bytes h =>
    obtain ⟨hbytes,hletter⟩ := hstripped _ _ separate_tags.1 h
    exact parseCompleted_eq_none hbytes hletter
  · split
    · next bytes h =>
      obtain ⟨hbytes,hletter⟩ := hstripped _ _ separate_tags.2 h
      exact parseEntry_eq_none hbytes hletter
    · rw [RecoveryEntry.deserialize_printable hall]
      rfl

/-- A log whose process may be down, with the records whose append returned, and the offsets
at which they were appended. -/
structure CrashRun where
  log : RecoveryLog
  up : Bool
  /-- The number of calls of `log_entry` in all processes. -/
  entries : ℕ
  appended : List (ℕ × Record)

inductive CrashOp where
  | logEntry (op target : Text) (now : UInt64)
  | markCompleted (id : UInt64)
  /-- The process dies in `log_entry` when `n` bytes of the line are in the file. -/
  | crashLogEntry (op target : Text) (now : UInt64) (n : ℕ)
  /-- The process dies in `mark_completed` when `n` bytes of the line are in the file. -/
  | crashMarkCompleted (id : UInt64) (n : ℕ)
  | reopen

namespace CrashRun

def start (max : UInt64) : CrashRun := ⟨.new none max,true,0,[]⟩

def append (s : CrashRun) (log : RecoveryLog) (r : Record) : CrashRun :=
  { s with log, appended := (s.log.content.length,r)::s.appended }

def tear (s : CrashRun) (r : Record) (n : ℕ) : CrashRun :=
  { s with log := s.log.append (r.line.take n), up := false }

/-- There is room for one more entry below the limit of the log. -/
def CanLog (s : CrashRun) : Prop := s.up = true ∧ s.entries+1 < s.log.maxEntries.toNat

instance (s : CrashRun) : Decidable s.CanLog := inferInstanceAs (Decidable (_ ∧ _))

def step (s : CrashRun) : CrashOp → Option CrashRun
  | .logEntry op target now =>
    if s.CanLog then
      some { s.append (s.log.logEntry op target now) (.entry (s.log.newEntry op target now)) with
        entries := s.entries+1 }
    else none
  | .markCompleted id =>
    if s.up then some (s.append (s.log.markCompleted id) (.completed id)) else none
  | .crashLogEntry op target now n =>
    if s.CanLog then
      some { s.tear (.entry (s.log.newEntry op target now)) n with entries := s.entries+1 }
    else none
  | .crashMarkCompleted id n => if s.up then some (s.tear (.completed id) n) else none
  | .reopen => some { s with log := .new s.log.file s.log.maxEntries, up := true }

theorem step_logEntry (h : s.CanLog) (op target : Text) (now : UInt64) :
    s.step (.logEntry op target now) = some { s.append (s.log.logEntry op target now)
        (.entry (s.log.newEntry op target now)) with entries := s.entries+1 } :=
  if_pos h

theorem step_crashLogEntry (h : s.CanLog) (op target : Text) (now : UInt64) (n : ℕ) :
    s.step (.crashLogEntry op target now n) =
      some { s.tear (.entry (s.log.newEntry op target now)) n with entries := s.entries+1 } :=
  if_pos h

/-- Every record whose append returned is found at its place in the file. -/
def AllRecognised (s : CrashRun) : Prop :=
  ∀ p ∈ s.appended, Recognised newline parseLine s.log.content p.1 p.2

/-- An append that returns was made to an empty file, or behind a newline. -/
def CleanEnd (s : CrashRun) (op : CrashOp) (_ : CrashRun) : Prop :=
  match op with
  | .logEntry _ _ _ | .markCompleted _ => ∀ b, s.log.content.getLast? = some b → b = newline
  | .crashLogEntry _ _ _ _ | .crashMarkCompleted _ _ | .reopen => True

structure Sane (s : CrashRun) : Prop where
  printable : ∀ b ∈ s.log.content, Printable b ∨ b = newline
  nextId : s.log.nextId.toNat ≤ s.entries

theorem logEntry_eq_append (h : s.Sane) (hcan : s.CanLog) (op target : Text) (now : UInt64) :
    s.log.logEntry op target now =
      { s.log.append (Record.entry (s.log.newEntry op target now)).line with
        nextId := s.log.nextId+1 } ∧
      (s.log.nextId+1).toNat = s.log.nextId.toNat+1 := by
  have hlimit := hcan.2
  have hnext := h.nextId
  have hmax := s.log.maxEntries.toNat_lt
  have hadd : (s.log.nextId+1).toNat = s.log.nextId.toNat+1 := by
    exact Nat.mod_eq_of_lt (by simp; omega)
  refine ⟨if_neg fun hlt => ?_,hadd⟩
  change s.log.maxEntries.toNat < (s.log.nextId+1).toNat at hlt
  omega

/-- What one event does: an append that returned, a torn one, or a restart. -/
inductive Outcome (s t : CrashRun) : CrashOp → Prop
  | returned (op : CrashOp) (r : Record) (content : t.log.content = s.log.content ++ r.line)
      (appended : t.appended = (s.log.content.length,r)::s.appended)
      (clean : ∀ u, CleanEnd s op u ↔ ∀ b, s.log.content.getLast? = some b → b = newline) :
      Outcome s t op
  | torn (op : CrashOp) (r : Record) (n : ℕ)
      (content : t.log.content = s.log.content ++ r.line.take n)
      (appended : t.appended = s.appended) (clean : ∀ u, CleanEnd s op u) : Outcome s t op
  | reopened (content : t.log.content = s.log.content) (appended : t.appended = s.appended) :
      Outcome s t .reopen

theorem step_outcome (h : s.Sane) {op : CrashOp} (ht : s.step op = some t) :
    Outcome s t op ∧ t.log.nextId.toNat ≤ t.entries := by
  have hnext := h.nextId
  cases op with
  | logEntry op target now =>
    obtain ⟨hcan,hsome⟩ := Option.ite_none_right_eq_some.mp ht
    cases hsome
    obtain ⟨hlog,hadd⟩ := logEntry_eq_append h hcan op target now
    refine ⟨.returned _ (.entry (s.log.newEntry op target now)) ?_ rfl fun _ => Iff.rfl,?_⟩
    · rw [hlog]
      rfl
    · rw [hlog]
      show (s.log.nextId+1).toNat ≤ s.entries+1
      omega
  | markCompleted id =>
    obtain ⟨-,hsome⟩ := Option.ite_none_right_eq_some.mp ht
    cases hsome
    exact ⟨.returned _ (.completed id) rfl rfl fun _ => Iff.rfl,hnext⟩
  | crashLogEntry op target now n =>
    obtain ⟨-,hsome⟩ := Option.ite_none_right_eq_some.mp ht
    cases hsome
    exact ⟨.torn _ (.entry (s.log.newEntry op target now)) n rfl rfl fun _ => trivial,
      hnext.trans (Nat.le_succ _)⟩
  | crashMarkCompleted id n =>
    obtain ⟨-,hsome⟩ := Option.ite_none_right_eq_some.mp ht
    cases hsome
    exact ⟨.torn _ (.completed id) n rfl rfl fun _ => trivial,hnext⟩
  | reopen =>
    cases ht
    exact ⟨.reopened rfl rfl,Nat.zero_le _⟩

theorem printable_line : ∀ b ∈ r.line, Printable b ∨ b = newline := by
  intro b hb
  obtain hb | hb := mem_append.mp hb
  · exact .inl (printable_text r b hb)
  · exact .inr (mem_singleton.mp hb)

theorem Sane.step (h : s.Sane) (op : CrashOp) (ht : s.step op = some t) : t.Sane := by
  obtain ⟨houtcome,hnext⟩ := step_outcome h ht
  refine ⟨fun b hb => ?_,hnext⟩
  cases houtcome with
  | returned _ r hcontent =>
    rw [hcontent] at hb
    exact (mem_append.mp hb).elim (h.printable b) (printable_line b)
  | torn _ r n hcontent =>
    rw [hcontent] at hb
    exact (mem_append.mp hb).elim (h.printable b)
      fun hb => printable_line b (mem_of_mem_take hb)
  | reopened hcontent =>
    rw [hcontent] at hb
    exact h.printable b hb

/-- The record appended last is found precisely if no torn line is in front of it. -/
theorem recognised_iff_clean (h : ∀ b ∈ bytes, Printable b ∨ b = newline) (r : Record) :
    Recognised newline parseLine (bytes ++ r.line) bytes.length r ↔
      ∀ b, bytes.getLast? = some b → b = newline := by
  rw [Record.line,recognised_append_line_iff (newline_notMem_text r),← tail_eq_nil_iff]
  constructor
  · intro hparse
    by_contra htorn
    have hprint : ∀ b ∈ tail newline bytes, Printable b := by
      intro b hb
      refine (h b (mem_of_mem_tail hb)).resolve_right fun hnew => ?_
      exact sep_notMem_tail (hnew ▸ hb)
    rw [parseLine_glued htorn hprint] at hparse
    cases hparse
  · intro hclean
    rw [hclean,nil_append,parseLine_text]

theorem step_recognised_iff (h : s.Sane) (hall : s.AllRecognised) (op : CrashOp)
    (ht : s.step op = some t) : t.AllRecognised ↔ CleanEnd s op t := by
  have hkept (more : List UInt8) : ∀ p ∈ s.appended,
      Recognised newline parseLine (s.log.content ++ more) p.1 p.2 :=
    fun p hp => (hall p hp).append more
  unfold AllRecognised
  obtain ⟨houtcome,-⟩ := step_outcome h ht
  cases houtcome with
  | returned _ r hcontent happended hclean =>
    rw [hclean,happended,hcontent,forall_mem_cons,recognised_iff_clean h.printable]
    exact and_iff_left (hkept r.line)
  | torn _ r n hcontent happended hclean =>
    rw [happended,hcontent]
    exact iff_of_true (hkept _) (hclean t)
  | reopened hcontent happended =>
    rw [happended,hcontent]
    exact iff_of_true hall trivial

theorem start_sane (max : UInt64) : (start max).Sane :=
  ⟨fun _ hb => absurd hb not_mem_nil,Nat.le_refl 0⟩

/-- No record is lost in a run precisely if none was appended behind a torn line. -/
theorem recognised_iff_clean_ends (max : UInt64) (ops : List CrashOp) :
    Always step AllRecognised (start max) ops ↔ EachStep step CleanEnd (start max) ops :=
  always_iff_eachStep (J := Sane) (fun _ op _ h => h.step op)
    (fun _ op _ h hall => step_recognised_iff h hall op) (start_sane max)
    (fun _ hp => absurd hp not_mem_nil) ops

/-- The first byte of a line is written, the process dies, and the next one logs an entry. -/
theorem entry_after_torn_line_is_lost : ¬ Always step AllRecognised (start 100)
      [.crashLogEntry swapText swapText 7 1,.reopen,.logEntry swapText swapText 8] := by
  intro h
  have hcan : (start 100).CanLog := by decide
  have htorn := step_crashLogEntry hcan swapText swapText 7 1
  have hsane := ((start_sane 100).step _ htorn).step .reopen rfl
  obtain ⟨hall,hlast⟩ := (h.2 _ htorn).2 _ rfl
  have hlogged := hlast _ (step_logEntry ⟨rfl,by decide⟩ swapText swapText 8)
  have hclean := (step_recognised_iff hsane hall _
    (step_logEntry ⟨rfl,by decide⟩ swapText swapText 8)).mp hlogged
  exact absurd (hclean 69 rfl) (by decide)

end CrashRun
end Aios.Persistence
