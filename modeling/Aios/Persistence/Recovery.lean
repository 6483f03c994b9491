import Aios.Lib.Bincode
import Aios.Lib.Lines
import Aios.Lib.TextCodec

/-!
The recovery log: a file with one line for every entry and every completion, modelled byte by byte,
as is the parser that reads it back.
-/
namespace Aios.Persistence

open Bincode Lines TextCodec List Option

structure RecoveryEntry where
  id : UInt64
  timestampMs : UInt64
  operation : Text
  target : Text
  status : Text
  metadata : Option (Vec UInt8)
  deriving DecidableEq

def pending : Text := ⟨"pending",by decide⟩

namespace RecoveryEntry

def serialize (e : RecoveryEntry) : List UInt8 :=
  encodeU64 e.id ++ (encodeU64 e.timestampMs ++ (encodeText e.operation ++
    (encodeText e.target ++ (encodeText e.status ++ encodeOption (encodeVec encodeU8) e.metadata))))

def decoder : Decoder RecoveryEntry := do
  let id ← u64
  let timestampMs ← u64
  let operation ← str
  let target ← str
  let status ← str
  let metadata ← option (vec u8)
  return ⟨id,timestampMs,operation,target,status,metadata⟩

/-- `bincode::deserialize`, which ignores bytes behind the value. -/
def deserialize (bytes : List UInt8) : Option RecoveryEntry := (decoder bytes).map Prod.fst

theorem decoder_decodes (e : RecoveryEntry) : Decodes decoder e.serialize e := by
  refine (u64_decodes e.id).bind ?_
  refine (u64_decodes e.timestampMs).bind ?_
  refine (str_decodes e.operation).bind ?_
  refine (str_decodes e.target).bind ?_
  refine (str_decodes e.status).bind ?_
  exact (option_decodes (vec_decodes u8_decodes) e.metadata).finish (Decodes.pure e)

theorem deserialize_serialize (e : RecoveryEntry) : deserialize e.serialize = some e := by
  have hread := decoder_decodes e []
  rw [append_nil] at hread
  rw [deserialize,hread]
  rfl

/-- The metadata of an entry start with a byte that no text has. -/
theorem deserialize_printable {bytes : List UInt8} (h : ∀ b ∈ bytes, Printable b) :
    deserialize bytes = none := by
  rw [deserialize,map_eq_none_iff]
  by_contra hsome
  obtain ⟨⟨e,rest⟩,hread⟩ := ne_none_iff_exists'.mp hsome
  obtain ⟨⟨_,r₁⟩,h₁,hread⟩ := bind_eq_some_iff.mp hread
  obtain ⟨⟨_,r₂⟩,h₂,hread⟩ := bind_eq_some_iff.mp hread
  obtain ⟨⟨_,r₃⟩,h₃,hread⟩ := bind_eq_some_iff.mp hread
  obtain ⟨⟨_,r₄⟩,h₄,hread⟩ := bind_eq_some_iff.mp hread
  obtain ⟨⟨_,r₅⟩,h₅,hread⟩ := bind_eq_some_iff.mp hread
  obtain ⟨⟨_,r₆⟩,h₆,-⟩ := bind_eq_some_iff.mp hread
  have hsuffix : r₅ <:+ bytes :=
    (str_leavesSuffix _ _ _ h₅).trans <| (str_leavesSuffix _ _ _ h₄).trans <|
      (str_leavesSuffix _ _ _ h₃).trans <| (u64_leavesSuffix _ _ _ h₂).trans
        (u64_leavesSuffix _ _ _ h₁)
  obtain ⟨tag,hmem,htag⟩ := option_eq_some h₆
  have hprintable := (h tag (hsuffix.subset hmem)).1
  obtain rfl | rfl := htag <;> exact absurd hprintable (by decide)

end RecoveryEntry

def newline : UInt8 := 10

def entryTag : List UInt8 := [69,78,84,82,89,58]

def completedTag : List UInt8 := [67,79,77,80,76,69,84,69,68,58]

inductive Record where
  | entry (e : RecoveryEntry)
  | completed (id : UInt64)
  deriving DecidableEq

def Record.text : Record → List UInt8
  | .entry e => entryTag ++ encodeHex e.serialize
  | .completed id => completedTag ++ printDecimal id.toNat

variable (rs : List Record) (r : Record)

def Record.line : List UInt8 := r.text ++ [newline]

def stripTag (tag line : List UInt8) : Option (List UInt8) :=
  if tag <+: line then some (line.drop tag.length) else none

/-- `COMPLETED:` lines: UTF-8, then `trim().parse::<u64>()`. -/
def parseCompleted (bytes : List UInt8) : Option Record := do
  let s ← String.fromUTF8? bytes.toByteArray
  let id ← parseU64 (trim s.toList)
  return .completed id

/-- `ENTRY:` lines: UTF-8, then hexadecimal, then the entry. -/
def parseEntry (bytes : List UInt8) : Option Record := do
  let _ ← String.fromUTF8? bytes.toByteArray
  let data ← decodeHex bytes
  let e ← RecoveryEntry.deserialize data
  return .entry e

/-- The body of the loop of `get_pending_entries`. A line without a tag is an entry in the
older format. -/
def parseLine (line : List UInt8) : Option Record :=
  match stripTag completedTag line with
  | some bytes => parseCompleted bytes
  | none =>
    match stripTag entryTag line with
    | some bytes => parseEntry bytes
    | none => (RecoveryEntry.deserialize line).map .entry

theorem printable_text : ∀ b ∈ r.text, Printable b := by
  have hall : (entryTag ++ completedTag).all (fun b => Printable b) = true := by decide
  have htag : ∀ b ∈ entryTag ++ completedTag, Printable b :=
    fun b hb => of_decide_eq_true (all_eq_true.mp hall b hb)
  intro b hb
  cases r with
  | entry e =>
    obtain hb | hb := mem_append.mp hb
    · exact htag b (mem_append_left _ hb)
    · exact printable_encodeHex _ b hb
  | completed id =>
    obtain hb | hb := mem_append.mp hb
    · exact htag b (mem_append_right _ hb)
    · exact printable_printDecimal b hb

theorem not_printable_newline : ¬ Printable newline := by decide

theorem newline_notMem_text : newline ∉ r.text := fun h =>
  not_printable_newline (printable_text r newline h)

theorem parseCompleted_printDecimal (id : UInt64) :
    parseCompleted (printDecimal id.toNat) = some (.completed id) := by
  simp [parseCompleted,fromUTF8?_printable printable_printDecimal,trim_printDecimal,
    parseU64_printDecimal]

theorem parseEntry_encodeHex (e : RecoveryEntry) :
    parseEntry (encodeHex e.serialize) = some (.entry e) := by
  simp [parseEntry,fromUTF8?_printable (printable_encodeHex _),decodeHex_encodeHex,
    RecoveryEntry.deserialize_serialize]

theorem parseLine_text : parseLine r.text = some r := by
  cases r with
  | entry e =>
    exact parseEntry_encodeHex e
  | completed id =>
    exact parseCompleted_printDecimal id

def Record.entry? : Record → Option RecoveryEntry
  | .entry e => some e
  | .completed _ => none

def Record.completedId? : Record → Option UInt64
  | .entry _ => none
  | .completed id => some id

def rawEntries : List RecoveryEntry := rs.filterMap Record.entry?

def completedIds : List UInt64 := rs.filterMap Record.completedId?

/-- The entries that `get_pending_entries` returns for the records that it has read. -/
def pendingOf : List RecoveryEntry :=
  (rawEntries rs).filter fun e => e.status = pending ∧ e.id ∉ completedIds rs

theorem pendingOf_append_entry (e : RecoveryEntry) : pendingOf (rs ++ [.entry e]) =
      pendingOf rs ++ if e.status = pending ∧ e.id ∉ completedIds rs then [e] else [] := by
  have hids : completedIds (rs ++ [.entry e]) = completedIds rs := by
    simp [completedIds,Record.completedId?]
  rw [pendingOf,hids,rawEntries,filterMap_append,filter_append]
  simp [Record.entry?,filter_cons,pendingOf,rawEntries]

theorem pendingOf_append_completed (id : UInt64) :
    pendingOf (rs ++ [.completed id]) = (pendingOf rs).filter fun e => e.id ≠ id := by
  have hids : completedIds (rs ++ [.completed id]) = completedIds rs ++ [id] := by
    simp [completedIds,Record.completedId?]
  have hentries : rawEntries (rs ++ [.completed id]) = rawEntries rs := by
    simp [rawEntries,Record.entry?]
  rw [pendingOf,hids,hentries,pendingOf,List.filter_filter]
  refine filter_congr fun e _ => ?_
  simp only [mem_append,mem_singleton,not_or,← Bool.decide_and,decide_eq_decide]
  rw [← and_assoc,and_comm]

theorem pendingOf_append_completions (es : List RecoveryEntry) :
    pendingOf (rs ++ es.map fun e => .completed e.id) =
      (pendingOf rs).filter fun e => e.id ∉ es.map RecoveryEntry.id := by
  induction es using reverseRecOn with
  | nil => simp
  | append_singleton es e ih =>
    rw [map_append,← append_assoc,map_singleton,pendingOf_append_completed,ih,List.filter_filter]
    refine filter_congr fun e' _ => ?_
    rw [← Bool.decide_and,decide_eq_decide,map_append,mem_append,not_or,
      map_singleton,mem_singleton,and_comm]

theorem notMem_completedIds_of_mem_pendingOf {rs : List Record} {e : RecoveryEntry}
    (h : e ∈ pendingOf rs) : e.status = pending ∧ e.id ∉ completedIds rs := by
  simpa using (mem_filter.mp h).2

theorem pendingOf_map_entry {es : List RecoveryEntry} (h : ∀ e ∈ es, e.status = pending) :
    pendingOf (es.map .entry) = es := by
  have hids : completedIds (es.map Record.entry) = [] := by simp [completedIds,Record.completedId?]
  have hentries : rawEntries (es.map Record.entry) = es := by
    simp [rawEntries,Function.comp_def,Record.entry?]
  rw [pendingOf,hids,hentries]
  simpa using h

/-- A process with an open log, and the file (if there is one) that it appends to. -/
structure RecoveryLog where
  file : Option (List UInt8)
  maxEntries : UInt64
  nextId : UInt64

namespace RecoveryLog

/-- `RecoveryLog::new` on a path where `file` is found. -/
def new (file : Option (List UInt8)) (maxEntries : UInt64) : RecoveryLog := ⟨file,maxEntries,0⟩

def content (l : RecoveryLog) : List UInt8 := l.file.getD []

def records (l : RecoveryLog) : List Record := Lines.records newline parseLine l.content

def getPendingEntries (l : RecoveryLog) : List RecoveryEntry :=
  match l.file with
  | none => []
  | some content => pendingOf (Lines.records newline parseLine content)

/-- `write_all` on the file, opened with `create` and `append`. -/
def append (l : RecoveryLog) (bytes : List UInt8) : RecoveryLog :=
  { l with file := some (l.content ++ bytes) }

def clear (l : RecoveryLog) : RecoveryLog := { l with file := none }

/-- The loop of `cleanup`: the entry is written as it was, and counted. -/
def rewrite (l : RecoveryLog) (e : RecoveryEntry) : RecoveryLog :=
  { l.append (Record.entry e).line with nextId := l.nextId+1 }

def cleanup (l : RecoveryLog) : RecoveryLog :=
  let entries := l.getPendingEntries
  if l.maxEntries.toNat < entries.length then
    (entries.drop (entries.length-l.maxEntries.toNat)).foldl rewrite { l.clear with nextId := 0 }
  else l

def newEntry (l : RecoveryLog) (op target : Text) (now : UInt64) : RecoveryEntry :=
  ⟨l.nextId,now,op,target,pending,none⟩

/-- The log after `log_entry`; the id that it returns is `nextId`. -/
def logEntry (l : RecoveryLog) (op target : Text) (now : UInt64) : RecoveryLog :=
  let logged := { l.append (Record.entry (l.newEntry op target now)).line with
    nextId := l.nextId+1 }
  if logged.maxEntries < logged.nextId then logged.cleanup else logged

def markCompleted (l : RecoveryLog) (id : UInt64) : RecoveryLog :=
  l.append (Record.completed id).line

variable {l : RecoveryLog}

theorem getPendingEntries_eq (l : RecoveryLog) : l.getPendingEntries = pendingOf l.records := by
  unfold getPendingEntries records content
  split
  · next h => simp [h,Lines.records,lines,linesFrom,pendingOf,rawEntries]
  · next h => simp [h]

/-- Nothing is left of an interrupted append. -/
def Clean (l : RecoveryLog) : Prop := tail newline l.content = []

@[simp] theorem append_content (bytes : List UInt8) :
    (l.append bytes).content = l.content ++ bytes := rfl

theorem records_append_line (h : l.Clean) (r : Record) :
    (l.append r.line).records = l.records ++ [r] := by
  rw [records,append_content,Record.line,Lines.records_append_line (newline_notMem_text r),
    h,nil_append,parseLine_text]
  rfl

theorem clean_append_line (l : RecoveryLog) (r : Record) : (l.append r.line).Clean := by
  exact tail_append_line (newline_notMem_text r)

end RecoveryLog
/-- The operation and the target of the sample entries. -/
def swapText : Text := ⟨"swap",by decide⟩

end Aios.Persistence
