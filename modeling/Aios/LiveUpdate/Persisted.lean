import Aios.LiveUpdate.Engine
import Aios.Persistence.CowStorage
import Aios.Persistence.Recovery

/-!
The live update engine with its files. The start record and the end record of a call are not
connected: a recovery reports every start record whose block has a state file, also those of swaps
that have ended.
-/
namespace Aios.LiveUpdate

open Aios.Core Aios.Persistence Bincode TextCodec List Option RecoveryLog
open Aios.Ipc (IpcBus)

def displayU32 (x : UInt32) : String := String.ofList (chars (printDecimal x.toNat))

variable (blockId : UInt32) {x y : UInt32} {f : String} {l : RecoveryLog} {es : List RecoveryEntry}

def blockTarget : String := "block_" ++ displayU32 blockId

def stateFile : String := "block_" ++ displayU32 blockId ++ "_state.bin"

def binaryFile : String := "block_" ++ displayU32 blockId ++ "_old.bin"

/-- A string of the source, which has at most `isize::MAX` bytes. -/
def text? (s : String) : Option Text :=
  if h : s.toUTF8.data.toList.length < maxLen then some ⟨s,h⟩ else none

structure PersistedLiveUpdateEngine where
  engine : LiveUpdateEngine
  storage : Storage
  recoveryLog : RecoveryLog

/-- `new`, on a directory with the given files. -/
def PersistedLiveUpdateEngine.new (storage : Storage) (log : Option (List UInt8)) :
    PersistedLiveUpdateEngine :=
  ⟨.new,storage,.new log 10000⟩

/-- The steps on files that a call is made of; `atomic_write` takes two. -/
inductive FileOp where
  | logEntry (operation target : String) (now : UInt64)
  | writeShadow (fileName : String) (data : List UInt8)
  | renameShadow (fileName : String)
  | delete (fileName : String)
  deriving DecidableEq

namespace FileOp

def run (p : PersistedLiveUpdateEngine) : FileOp → Option PersistedLiveUpdateEngine
  | .logEntry operation target now => do
    let operation ← text? operation
    let target ← text? target
    return { p with recoveryLog := p.recoveryLog.logEntry operation target now }
  | .writeShadow fileName data =>
    some { p with storage := Files.write p.storage (.shadow fileName) data }
  | .renameShadow fileName =>
    (Files.rename p.storage (.shadow fileName) (.base fileName)).map
      fun storage => { p with storage := storage }
  | .delete fileName => some { p with storage := p.storage.delete fileName }

def runAll (p : PersistedLiveUpdateEngine) (ops : List FileOp) :
    Option PersistedLiveUpdateEngine :=
  ops.foldlM run p

def atomicWrite (fileName : String) (data : List UInt8) : List FileOp :=
  [.writeShadow fileName data,.renameShadow fileName]

theorem runAll_atomicWrite (p : PersistedLiveUpdateEngine) (f : String) (data : List UInt8) :
    runAll p (atomicWrite f data) =
      (p.storage.atomicWrite f data).map fun storage => { p with storage := storage } := by
  simp [runAll,atomicWrite,run,Storage.atomicWrite]

end FileOp

open FileOp

structure Times where
  start : UInt64
  now : Clock
  finish : UInt64

/-- The files of `perform_swap`: the engine swaps before the last record is written. -/
def performSwapOps (a : SwapRequest) (t : Times) (result : Except AIOSException Unit) :
    List FileOp :=
  .logEntry "hotswap_start" (blockTarget a.blockId) t.start ::
    (atomicWrite (stateFile a.blockId) a.oldState ++
      (atomicWrite (binaryFile a.blockId) a.oldBinary ++ [match result with
          | .ok () => .logEntry "hotswap_complete" (blockTarget a.blockId) t.finish
          | .error err =>
            .logEntry "hotswap_failed" (blockTarget a.blockId ++ ": " ++ err.display) t.finish]))

/-- The files of `rollback`: the engine rolls back after the first record. -/
def rollbackOps (t : Times) (result : Except AIOSException HotSwapEntry) :
    List FileOp :=
  .logEntry "rollback_start" (blockTarget blockId) t.start ::
    match result with
    | .ok _ =>
      [.delete (stateFile blockId),.delete (binaryFile blockId),
        .logEntry "rollback_complete" (blockTarget blockId) t.finish]
    | .error err =>
      [.logEntry "rollback_failed" (blockTarget blockId ++ ": " ++ err.display) t.finish]

def stripText (tag s : String) : Option (List Char) :=
  if tag.toList <+: s.toList then some (s.toList.drop tag.toList.length) else none

def startedBlock (operation target : String) : Option UInt32 :=
  if operation = "hotswap_start" then (stripText "block_" target).bind parseU32 else none

namespace PersistedLiveUpdateEngine

/-- The block that an entry reports: one that has a state file. -/
def recoverable (p : PersistedLiveUpdateEngine) (entry : RecoveryEntry) : Option UInt32 :=
  (startedBlock entry.operation.1 entry.target.1).filter
    fun blockId => p.storage.isPresent (stateFile blockId)

def recoverEntries (p : PersistedLiveUpdateEngine) (recovered : List UInt32) :
    List RecoveryEntry → PersistedLiveUpdateEngine × List UInt32
  | [] => (p,recovered)
  | entry::entries =>
    match p.recoverable entry with
    | none => recoverEntries p recovered entries
    | some blockId =>
      recoverEntries { p with recoveryLog := p.recoveryLog.markCompleted entry.id }
        (recovered ++ [blockId]) entries

def recoverFromCrash (p : PersistedLiveUpdateEngine) : PersistedLiveUpdateEngine × List UInt32 :=
  p.recoverEntries [] p.recoveryLog.getPendingEntries

end PersistedLiveUpdateEngine

open PersistedLiveUpdateEngine

theorem parseU32_displayU32 (x : UInt32) : parseU32 (displayU32 x).toList = some x := by
  rw [displayU32,String.toList_ofList,parseU32_printDecimal]

theorem displayU32_injective (h : displayU32 x = displayU32 y) : x = y := by
  have hparsed := congrArg (fun s => parseU32 s.toList) h
  rwa [parseU32_displayU32,parseU32_displayU32,some.injEq] at hparsed

@[simp] theorem stateFile_inj : stateFile x = stateFile y ↔ x = y := by
  refine ⟨fun h => ?_,fun h => h ▸ rfl⟩
  have hlist := congrArg String.toList h
  simp only [stateFile,String.toList_append,append_cancel_left_eq,append_cancel_right_eq] at hlist
  exact displayU32_injective (String.toList_inj.mp hlist)

@[simp] theorem stateFile_ne_binaryFile (x y : UInt32) : stateFile x ≠ binaryFile y := by
  intro h
  have hlist := congrArg (fun s => s.toList.reverse.take 5) h
  simp [stateFile,binaryFile] at hlist

@[simp] theorem startedBlock_blockTarget (x : UInt32) :
    startedBlock "hotswap_start" (blockTarget x) = some x := by
  have hstrip : stripText "block_" (blockTarget x) = some (displayU32 x).toList := by
    simp [stripText,blockTarget]
  rw [startedBlock,if_pos rfl,hstrip,bind_some,parseU32_displayU32]

theorem blockTarget_injective (h : blockTarget x = blockTarget y) : x = y := by
  have hsame := congrArg (startedBlock "hotswap_start") h
  rwa [startedBlock_blockTarget,startedBlock_blockTarget,some.injEq] at hsame

section
variable {p p' : PersistedLiveUpdateEngine} {op : FileOp} {ops : List FileOp}

/-- A step makes a file appear by renaming its shadow, and disappear by deleting it. -/
theorem isPresent_run (h : op.run p = some p') (f : String) : p'.storage.isPresent f = true ↔
      op = .renameShadow f ∨ p.storage.isPresent f = true ∧ op ≠ .delete f := by
  cases op with
  | logEntry operation target now =>
    simp only [run,bind_eq_bind,bind_eq_some_iff] at h
    obtain ⟨_,-,_,-,h⟩ := h
    cases h
    simp
  | writeShadow g data =>
    cases h
    simp [Storage.isPresent,Files.write]
  | renameShadow g =>
    simp only [run,Files.rename,Option.map_map,map_eq_some_iff] at h
    obtain ⟨data,-,h⟩ := h
    cases h
    by_cases hg : f = g
    · simp [Storage.isPresent,Files.write,hg]
    · simp [Storage.isPresent,Files.write,hg,Ne.symm hg]
  | delete g =>
    cases h
    rw [Storage.isPresent_delete,and_comm]
    simp only [reduceCtorEq,false_or,ne_eq,delete.injEq,eq_comm]

theorem runAll_cons_eq_some (h : runAll p (op::ops) = some p') :
    ∃ q, op.run p = some q ∧ runAll q ops = some p' := by
  simpa only [runAll,foldlM_cons,bind_eq_bind,bind_eq_some_iff] using h

theorem isPresent_runAll_of_present (h : runAll p ops = some p') (hkept : .delete f ∉ ops)
    (hp : p.storage.isPresent f = true) : p'.storage.isPresent f = true := by
  induction ops generalizing p with
  | nil => cases h; exact hp
  | cons op ops ih =>
    obtain ⟨q,hop,hops⟩ := runAll_cons_eq_some h
    obtain ⟨hne,hkept⟩ := not_or.mp (mt mem_cons.mpr hkept)
    exact ih hops hkept ((isPresent_run hop f).mpr (.inr ⟨hp,Ne.symm hne⟩))

theorem isPresent_runAll_of_mem (h : runAll p ops = some p') (hkept : .delete f ∉ ops)
    (hmem : .renameShadow f ∈ ops) : p'.storage.isPresent f = true := by
  induction ops generalizing p with
  | nil => cases hmem
  | cons op ops ih =>
    obtain ⟨q,hop,hops⟩ := runAll_cons_eq_some h
    obtain ⟨-,hrest⟩ := not_or.mp (mt mem_cons.mpr hkept)
    obtain rfl | hmem := mem_cons.mp hmem
    · exact isPresent_runAll_of_present hops hrest ((isPresent_run hop f).mpr (.inl rfl))
    · exact ih hops hrest hmem

theorem mem_of_isPresent_runAll (h : runAll p ops = some p')
    (hp : p.storage.isPresent f = false) (hp' : p'.storage.isPresent f = true) :
    .renameShadow f ∈ ops := by
  induction ops generalizing p with
  | nil => cases h; simp [hp] at hp'
  | cons op ops ih =>
    obtain ⟨q,hop,hops⟩ := runAll_cons_eq_some h
    cases hq : q.storage.isPresent f with
    | false => exact mem_cons_of_mem _ (ih hops hq)
    | true =>
      obtain rfl | ⟨hp'',-⟩ := (isPresent_run hop f).mp hq
      · exact mem_cons_self
      · simp [hp] at hp''

end

section
variable {p p' : PersistedLiveUpdateEngine} {op : FileOp} {ops : List FileOp}

structure Logged (l : RecoveryLog) (es : List RecoveryEntry) : Prop where
  clean : l.Clean
  records : l.records = es.map .entry
  pending : ∀ e ∈ es, e.status = pending
  nextId : l.nextId.toNat = es.length
  maxEntries : l.maxEntries = 10000

theorem logged_new : Logged (.new none 10000) [] := ⟨rfl,rfl,by simp,rfl,rfl⟩

theorem Logged.getPendingEntries (h : Logged l es) : l.getPendingEntries = es := by
  rw [getPendingEntries_eq,h.records,pendingOf_map_entry h.pending]

/-- Nothing is cleaned up before there are 10000 entries. -/
theorem Logged.logEntry (h : Logged l es) (hfew : es.length < 10000) (operation target : Text)
    (now : UInt64) :
    Logged (l.logEntry operation target now) (es ++ [l.newEntry operation target now]) := by
  have hid : (l.nextId+1).toNat = es.length+1 := by
    rw [UInt64.toNat_add,h.nextId]
    exact Nat.mod_eq_of_lt (by simp; omega)
  have hmax : ¬ l.maxEntries < l.nextId+1 := by
    rw [h.maxEntries,UInt64.lt_iff_toNat_lt,hid]
    simp
    omega
  have hlog : l.logEntry operation target now =
      { l.append (Record.entry (l.newEntry operation target now)).line with
        nextId := l.nextId+1 } :=
    if_neg hmax
  rw [hlog]
  refine ⟨l.clean_append_line _,?_,?_,?_,h.maxEntries⟩
  · have hrecords := records_append_line h.clean (Record.entry (l.newEntry operation target now))
    rw [h.records] at hrecords
    rw [map_append]
    exact hrecords
  · intro e he
    obtain he | he := mem_append.mp he
    · exact h.pending e he
    · rw [mem_singleton.mp he]
      rfl
  · simpa using hid

def FileOp.logged? : FileOp → Option (String × String)
  | .logEntry operation target _ => some (operation,target)
  | _ => none

def logged (ops : List FileOp) : List (String × String) := ops.filterMap logged?

theorem text?_eq_some {s : String} {t : Text} (h : text? s = some t) : t.1 = s := by
  unfold text? at h
  split at h
  · cases h
    rfl
  · cases h

theorem run_recoveryLog (h : op.run p = some p') (hlog : Logged p.recoveryLog es)
    (hfew : es.length < 10000 ∨ op.logged? = none) :
    ∃ es', Logged p'.recoveryLog (es ++ es') ∧
      es'.map (fun e => (e.operation.1,e.target.1)) = op.logged?.toList := by
  cases op with
  | logEntry operation target now =>
    simp only [run,bind_eq_bind,bind_eq_some_iff] at h
    obtain ⟨operation',hoperation,target',htarget,h⟩ := h
    cases h
    refine ⟨_,hlog.logEntry (by simpa [logged?] using hfew) _ _ _,?_⟩
    simp [logged?,newEntry,text?_eq_some hoperation,text?_eq_some htarget]
  | writeShadow | delete =>
    cases h
    exact ⟨[],by simpa using hlog,rfl⟩
  | renameShadow f =>
    simp only [run,map_eq_some_iff] at h
    obtain ⟨storage,-,h⟩ := h
    cases h
    exact ⟨[],by simpa using hlog,rfl⟩

theorem runAll_recoveryLog (h : runAll p ops = some p') (hlog : Logged p.recoveryLog es)
    (hfew : es.length+(logged ops).length ≤ 10000) :
    ∃ es', Logged p'.recoveryLog (es ++ es') ∧
      es'.map (fun e => (e.operation.1,e.target.1)) = logged ops := by
  induction ops generalizing p es with
  | nil =>
    cases h
    exact ⟨[],by simpa using hlog,rfl⟩
  | cons op ops ih =>
    obtain ⟨q,hop,hops⟩ := runAll_cons_eq_some h
    have hsplit : logged (op::ops) = op.logged?.toList ++ logged ops := by
      cases hlogged : op.logged? <;> simp [logged,hlogged]
    rw [hsplit,length_append] at hfew
    have hnow : es.length < 10000 ∨ op.logged? = none := by
      cases hlogged : op.logged? with
      | none => exact .inr rfl
      | some record =>
        simp only [hlogged,toList_some,length_singleton] at hfew
        exact .inl (by omega)
    obtain ⟨es₁,hlog₁,hes₁⟩ := run_recoveryLog hop hlog hnow
    have hlength := congrArg length hes₁
    rw [length_map] at hlength
    obtain ⟨es₂,hlog₂,hes₂⟩ := ih hops hlog₁ (by rw [length_append]; omega)
    refine ⟨es₁ ++ es₂,by rwa [← append_assoc],?_⟩
    rw [map_append,hes₁,hes₂,hsplit]

end

namespace PersistedLiveUpdateEngine

variable (p : PersistedLiveUpdateEngine)

theorem recoverEntries_spec (recovered : List UInt32) (entries : List RecoveryEntry) :
    (p.recoverEntries recovered entries).2 = recovered ++ entries.filterMap p.recoverable ∧
      (p.recoverEntries recovered entries).1.storage = p.storage ∧
      (p.recoveryLog.Clean →
        (p.recoverEntries recovered entries).1.recoveryLog.records = p.recoveryLog.records ++
          (entries.filter fun e => (p.recoverable e).isSome).map fun e => .completed e.id) := by
  induction entries generalizing p recovered with
  | nil => simp [recoverEntries]
  | cons entry entries ih =>
    cases h : p.recoverable entry with
    | none =>
      simp only [recoverEntries,h,filterMap_cons,filter_cons]
      exact ih p recovered
    | some blockId =>
      obtain ⟨hrecovered,hstorage,hrecords⟩ :=
        ih { p with recoveryLog := p.recoveryLog.markCompleted entry.id } (recovered ++ [blockId])
      simp only [recoverEntries,h,filterMap_cons,filter_cons]
      refine ⟨?_,hstorage,fun hclean => ?_⟩
      · rw [hrecovered,append_assoc,singleton_append]
        rfl
      · have hmarked : (p.recoveryLog.markCompleted entry.id).records =
            p.recoveryLog.records ++ [.completed entry.id] :=
          records_append_line hclean _
        rw [hrecords (clean_append_line _ _),hmarked,append_assoc]
        rfl

theorem recoverFromCrash_snd :
    p.recoverFromCrash.2 = p.recoveryLog.getPendingEntries.filterMap p.recoverable :=
  (p.recoverEntries_spec [] _).1

/-- What was reported is completed and is not reported again. -/
theorem recoverFromCrash_twice (h : p.recoveryLog.Clean) :
    p.recoverFromCrash.1.recoverFromCrash.2 = [] := by
  obtain ⟨-,hstorage,hrecords⟩ := p.recoverEntries_spec [] p.recoveryLog.getPendingEntries
  have hsame : p.recoverFromCrash.1.recoverable = p.recoverable := by
    funext e
    rw [recoverable,recoverFromCrash,hstorage,recoverable]
  rw [recoverFromCrash_snd,hsame,filterMap_eq_nil_iff]
  intro e he
  rw [getPendingEntries_eq,recoverFromCrash,hrecords h,pendingOf_append_completions] at he
  obtain ⟨hpending,hid⟩ := mem_filter.mp he
  by_contra hsome
  refine of_decide_eq_true hid (mem_map.mpr ⟨e,mem_filter.mpr ⟨?_,?_⟩,rfl⟩)
  · rwa [getPendingEntries_eq]
  · exact isSome_iff_ne_none.mpr hsome

end PersistedLiveUpdateEngine

inductive Call where
  | performSwap (a : SwapRequest) (t : Times)
  | rollback (blockId : UInt32) (t : Times)

def Call.swaps : Call → Bool
  | .performSwap a _ => a.blockId = blockId
  | .rollback _ _ => false

structure Attempt where
  call : Call
  ops : List FileOp

structure Session where
  engine : LiveUpdateEngine
  queue : IpcBus
  attempts : List Attempt

namespace Session

section
variable (computeSha256Bytes : List UInt8 → Digest) (s : Session)

/-- The engine and the bus after a call, and its steps. -/
def outcome : Call → LiveUpdateEngine × IpcBus × List FileOp
  | .performSwap a t =>
    let r := s.engine.performSwap computeSha256Bytes a t.now s.queue
    (r.1,r.2.1,performSwapOps a t r.2.2)
  | .rollback blockId t =>
    let r := s.engine.rollback blockId t.now s.queue
    (r.1,r.2.1,rollbackOps blockId t r.2.2)

def perform (c : Call) : Session :=
  let r := s.outcome computeSha256Bytes c
  ⟨r.1,r.2.1,s.attempts ++ [⟨c,r.2.2⟩]⟩

def performAll (calls : List Call) : Session :=
  calls.foldl (fun s c => s.perform computeSha256Bytes c) s

/-- What was done if the process stops after `n` steps of its last call. -/
def stopped (last : Call) (n : ℕ) : List Attempt :=
  s.attempts ++ [⟨last,(s.outcome computeSha256Bytes last).2.2.take n⟩]

end
end Session

/-- The swap has written its start record and the old state, but no record of its end. -/
structure Attempt.Unfinished (a : Attempt) (blockId : UInt32) : Prop where
  started : ∃ t, .logEntry "hotswap_start" (blockTarget blockId) t ∈ a.ops
  saved : .renameShadow (stateFile blockId) ∈ a.ops
  notCompleted : ∀ target t, .logEntry "hotswap_complete" target t ∉ a.ops
  notFailed : ∀ target t, .logEntry "hotswap_failed" target t ∉ a.ops

/-- The last swap of the block is unfinished. -/
def Interrupted (history : List Attempt) : Prop :=
  ∃ a, (history.filter (·.call.swaps blockId)).getLast? = some a ∧ a.Unfinished blockId

def steps (history : List Attempt) : List FileOp := history.flatMap Attempt.ops

namespace Session

section
variable {sha256 : List UInt8 → Digest} {s : Session} {c : Call} {op : FileOp} {b : UInt32}

/-- What the steps of a call can be, as far as start records and state files are concerned. -/
theorem mem_outcome (h : op ∈ (s.outcome sha256 c).2.2) :
    (∀ target t, op = .logEntry "hotswap_start" target t →
        ∃ b, c.swaps b = true ∧ target = blockTarget b) ∧
      (∀ b, op = .renameShadow (stateFile b) → c.swaps b = true) ∧
      ∀ f, op = .delete f → ∀ b, c.swaps b = false := by
  cases c with
  | performSwap a t =>
    simp only [outcome,performSwapOps,atomicWrite,mem_cons,mem_append,not_mem_nil,or_false] at h
    obtain rfl | (rfl | rfl) | (rfl | rfl) | h := h
    · simp [Call.swaps]
    · simp
    · simp [Call.swaps]
    · simp
    · simp [Ne.symm (stateFile_ne_binaryFile _ _)]
    · subst h
      split <;> simp
  | rollback blockId t =>
    simp only [outcome,rollbackOps,mem_cons] at h
    obtain rfl | h := h
    · simp
    · split at h
      · simp only [mem_cons,not_mem_nil,or_false] at h
        obtain rfl | rfl | rfl := h <;> simp [Call.swaps]
      · simp only [mem_cons,not_mem_nil,or_false] at h
        subst h
        simp

/-- The state is saved after the start record is written. -/
theorem start_mem_take {n : ℕ} (hswaps : c.swaps b = true)
    (h : op ∈ (s.outcome sha256 c).2.2.take n) :
    ∃ t, .logEntry "hotswap_start" (blockTarget b) t ∈ (s.outcome sha256 c).2.2.take n := by
  cases n with
  | zero => simp at h
  | succ n =>
    cases c with
    | performSwap a t =>
      simp only [Call.swaps,decide_eq_true_eq] at hswaps
      exact ⟨t.start,by simp [outcome,performSwapOps,hswaps]⟩
    | rollback blockId t => cases hswaps

theorem not_unfinished {b' : UInt32} (hswaps : c.swaps b = true) :
    ¬ (Attempt.mk c (s.outcome sha256 c).2.2).Unfinished b' := by
  intro h
  cases c with
  | performSwap a t =>
    cases hresult : (s.engine.performSwap sha256 a t.now s.queue).2.2 with
    | ok u =>
      refine h.notCompleted (blockTarget a.blockId) t.finish ?_
      simp [outcome,performSwapOps,hresult]
    | error err =>
      refine h.notFailed (blockTarget a.blockId ++ ": " ++ err.display) t.finish ?_
      simp [outcome,performSwapOps,hresult]
  | rollback blockId t => cases hswaps

end

section
variable {sha256 : List UInt8 → Digest} {s : Session} {last : Call} {n : ℕ} {b : UInt32}

/-- Every call so far has taken all of its steps. -/
def Settled (sha256 : List UInt8 → Digest) (s : Session) : Prop :=
  ∀ a ∈ s.attempts, ∃ s' : Session, a.ops = (s'.outcome sha256 a.call).2.2

section
variable (h : s.Settled sha256)
include h

theorem Settled.perform (c : Call) : (s.perform sha256 c).Settled sha256 := by
  intro a ha
  obtain ha | ha := mem_append.mp ha
  · exact h a ha
  · rw [mem_singleton.mp ha]
    exact ⟨s,rfl⟩

theorem Settled.performAll (calls : List Call) : (s.performAll sha256 calls).Settled sha256 := by
  induction calls generalizing s with
  | nil => exact h
  | cons c calls ih => exact ih (h.perform c)

theorem Settled.stopped {a : Attempt} (ha : a ∈ s.stopped sha256 last n) :
    ∃ (s' : Session) (n' : ℕ), a.ops = (s'.outcome sha256 a.call).2.2.take n' := by
  obtain ha | ha := mem_append.mp ha
  · obtain ⟨s',hops⟩ := h a ha
    exact ⟨s',_,hops.trans (take_length).symm⟩
  · rw [mem_singleton.mp ha]
    exact ⟨s,n,rfl⟩

/-- Only the last call can be an unfinished swap. -/
theorem Settled.unfinished_of_interrupted (hb : Interrupted b (s.stopped sha256 last n)) :
    last.swaps b = true ∧
      (Attempt.mk last ((s.outcome sha256 last).2.2.take n)).Unfinished b := by
  obtain ⟨⟨c,ops⟩,hlast,ha⟩ := hb
  rw [Session.stopped,filter_append] at hlast
  cases hswaps : last.swaps b with
  | true =>
    simp only [filter_cons,hswaps,if_true,filter_nil,getLast?_concat,some.injEq] at hlast
    exact ⟨rfl,hlast ▸ ha⟩
  | false =>
    simp only [filter_cons,hswaps,Bool.false_eq_true,if_false,filter_nil,append_nil] at hlast
    obtain ⟨hmem,hswaps'⟩ := mem_filter.mp (mem_of_getLast? hlast)
    obtain ⟨s',hops⟩ := h _ hmem
    dsimp only at hops hswaps'
    rw [hops] at ha
    exact absurd ha (not_unfinished hswaps')

theorem Settled.target_of_started {target : String}
    (hmem : ("hotswap_start",target) ∈ logged (steps (s.stopped sha256 last n))) :
    ∃ b, target = blockTarget b := by
  obtain ⟨op,hop,hlogged⟩ := mem_filterMap.mp hmem
  obtain ⟨a,ha,hops⟩ := mem_flatMap.mp hop
  obtain ⟨s',n',htake⟩ := h.stopped ha
  cases op with
  | logEntry operation target' t =>
    cases hlogged
    obtain ⟨b,-,htarget⟩ := (mem_outcome (mem_of_mem_take (htake ▸ hops))).1 _ _ rfl
    exact ⟨b,htarget⟩
  | writeShadow | renameShadow | delete => cases hlogged

theorem Settled.started_of_saved
    (hmem : .renameShadow (stateFile b) ∈ steps (s.stopped sha256 last n)) :
    ("hotswap_start",blockTarget b) ∈ logged (steps (s.stopped sha256 last n)) := by
  obtain ⟨a,ha,hops⟩ := mem_flatMap.mp hmem
  obtain ⟨s',n',htake⟩ := h.stopped ha
  rw [htake] at hops
  have hswaps := (mem_outcome (mem_of_mem_take hops)).2.1 b rfl
  obtain ⟨t,hstart⟩ := start_mem_take hswaps hops
  rw [← htake] at hstart
  exact mem_filterMap.mpr ⟨_,mem_flatMap.mpr ⟨a,ha,hstart⟩,rfl⟩

/-- The interrupted block has a state file: its state was saved last, and nothing was deleted
since. -/
theorem Settled.isPresent_of_interrupted {p q : PersistedLiveUpdateEngine}
    (hfiles : runAll p (steps (s.stopped sha256 last n)) = some q)
    (hb : Interrupted b (s.stopped sha256 last n)) : q.storage.isPresent (stateFile b) = true := by
  obtain ⟨hswaps,hunfinished⟩ := h.unfinished_of_interrupted hb
  rw [steps,Session.stopped,flatMap_append,flatMap_singleton,runAll,foldlM_append] at hfiles
  obtain ⟨r,-,hlast⟩ := bind_eq_some_iff.mp hfiles
  refine isPresent_runAll_of_mem hlast (fun hdelete => ?_) hunfinished.saved
  have hnone := (mem_outcome (mem_of_mem_take hdelete)).2.2 _ rfl b
  rw [hswaps] at hnone
  cases hnone

end
end
end Session

def startedBlocks (records : List (String × String)) : List UInt32 :=
  records.filterMap fun r => startedBlock r.1 r.2

/-- A recovery after the steps reports the start records of the blocks that have a state file. -/
theorem recoverFromCrash_of_runAll {ops : List FileOp} {p : PersistedLiveUpdateEngine}
    (hops : runAll (.new ∅ none) ops = some p) (hfew : (logged ops).length ≤ 10000) :
    p.recoveryLog.Clean ∧
      (new p.storage p.recoveryLog.file).recoverFromCrash.2 =
        (startedBlocks (logged ops)).filter fun b => p.storage.isPresent (stateFile b) := by
  obtain ⟨es,hlog,hes⟩ := runAll_recoveryLog hops logged_new (by simpa using hfew)
  -- The file alone decides which entries are pending.
  have hpending : (new p.recoveryLog.file 10000).getPendingEntries = es := hlog.getPendingEntries
  refine ⟨hlog.clean,?_⟩
  rw [recoverFromCrash_snd,startedBlocks,← hes,filterMap_map,filter_filterMap]
  exact congrArg _ hpending

theorem count_startedBlocks (records : List (String × String))
    (h : ∀ target, ("hotswap_start",target) ∈ records → ∃ b, target = blockTarget b)
    (b : UInt32) :
    (startedBlocks records).count b = records.count ("hotswap_start",blockTarget b) := by
  rw [startedBlocks,count,countP_filterMap,count]
  refine countP_congr fun r hr => ?_
  obtain ⟨operation,target⟩ := r
  by_cases hstart : operation = "hotswap_start"
  · subst hstart
    obtain ⟨b',rfl⟩ := h target hr
    simpa using ⟨fun hb => congrArg blockTarget hb,blockTarget_injective⟩
  · simp [startedBlock,hstart]

structure ReportsInterrupted (p : PersistedLiveUpdateEngine) (history : List Attempt) : Prop where
  nodup : p.recoverFromCrash.2.Nodup
  mem_iff : ∀ b, b ∈ p.recoverFromCrash.2 ↔ Interrupted b history
  once : p.recoverFromCrash.1.recoverFromCrash.2 = []

/-- The process performs the calls, stops after `n` steps of the last one, and restarts on its
files. The recovery is right exactly if only the interrupted block has a state file and this was its
first swap. -/
theorem recovery_reports_interrupted_iff (computeSha256Bytes : List UInt8 → Digest)
    (queue : IpcBus) (calls : List Call) (last : Call) (n : ℕ) (p : PersistedLiveUpdateEngine)
    (history : List Attempt)
    (hhistory : history = ((Session.mk .new queue []).performAll computeSha256Bytes calls).stopped
      computeSha256Bytes last n)
    (hfiles : runAll (.new ∅ none) (steps history) = some p)
    (hfew : (logged (steps history)).length ≤ 10000) :
    ReportsInterrupted (.new p.storage p.recoveryLog.file) history ↔
      ∀ b, p.storage.isPresent (stateFile b) = true →
        Interrupted b history ∧
          (logged (steps history)).count ("hotswap_start",blockTarget b) ≤ 1 := by
  obtain ⟨hclean,hrecovered⟩ := recoverFromCrash_of_runAll hfiles hfew
  generalize hsession : (Session.mk .new queue []).performAll computeSha256Bytes calls = s
    at hhistory
  have hsettled : s.Settled computeSha256Bytes := by
    rw [← hsession]
    exact Session.Settled.performAll (fun a ha => by cases ha) calls
  have hcount := count_startedBlocks (logged (steps history))
    fun target hmem => hsettled.target_of_started (hhistory ▸ hmem)
  have hcountReported {b : UInt32} (hb : p.storage.isPresent (stateFile b) = true) :
      ((startedBlocks (logged (steps history))).filter
        fun b => p.storage.isPresent (stateFile b)).count b =
          (logged (steps history)).count ("hotswap_start",blockTarget b) :=
    (count_filter (p := fun b => p.storage.isPresent (stateFile b)) hb).trans (hcount b)
  -- A block with a state file has a start record, and is therefore reported.
  have hreported (b : UInt32) : b ∈ (startedBlocks (logged (steps history))).filter
      (fun b => p.storage.isPresent (stateFile b)) ↔ p.storage.isPresent (stateFile b) = true := by
    rw [mem_filter,and_iff_right_iff_imp]
    intro hb
    have hsaved := mem_of_isPresent_runAll hfiles rfl hb
    have hstarted := hsettled.started_of_saved (hhistory ▸ hsaved)
    rw [← count_pos_iff,hcount,count_pos_iff,hhistory]
    exact hstarted
  have hinterrupted (b : UInt32) (hb : Interrupted b history) :
      p.storage.isPresent (stateFile b) = true := by
    rw [hhistory] at hb hfiles
    exact hsettled.isPresent_of_interrupted hfiles hb
  constructor
  · intro hreports b hb
    have hmem := (hreported b).mpr hb
    rw [← hrecovered] at hmem
    refine ⟨(hreports.mem_iff b).mp hmem,?_⟩
    have hnodup := nodup_iff_count_le_one.mp hreports.nodup b
    rwa [hrecovered,hcountReported hb] at hnodup
  · intro hcond
    refine ⟨?_,fun b => ?_,?_⟩
    · rw [hrecovered,nodup_iff_count_le_one]
      intro b
      by_cases hb : p.storage.isPresent (stateFile b) = true
      · rw [hcountReported hb]
        exact (hcond b hb).2
      · rw [count_eq_zero.mpr (mt (hreported b).mp hb)]
        exact Nat.zero_le 1
    · rw [hrecovered,hreported]
      exact ⟨fun hb => (hcond b hb).1,hinterrupted b⟩
    · exact recoverFromCrash_twice _ hclean

def sampleHistory (n : ℕ) : List Attempt :=
  (Session.mk .new (.new 10) []).stopped Sha256.sha256
    (.performSwap sampleSwap ⟨0,⟨0,0⟩,0⟩) n

def sampleSteps : List FileOp :=
  [.logEntry "hotswap_start" (blockTarget 1) 0,
    .writeShadow (stateFile 1) [],.renameShadow (stateFile 1),
    .writeShadow (binaryFile 1) emptyModule,.renameShadow (binaryFile 1),
    .logEntry "hotswap_complete" (blockTarget 1) 0]

theorem runAll_sampleSteps : (runAll (.new ∅ none) (sampleSteps.take 3)).isSome = true ∧
      (runAll (.new ∅ none) sampleSteps).isSome = true := by
  decide +kernel

theorem sampleHistory_eq (n : ℕ) : sampleHistory n =
    [⟨.performSwap sampleSwap ⟨0,⟨0,0⟩,0⟩,sampleSteps.take n⟩] := by
  have hok : (LiveUpdateEngine.new.performSwap Sha256.sha256 sampleSwap ⟨0,0⟩ (.new 10)).2.2 =
      .ok () := by decide +kernel
  have hops : performSwapOps sampleSwap ⟨0,⟨0,0⟩,0⟩ (.ok ()) = sampleSteps := rfl
  simp only [sampleHistory,Session.stopped,Session.outcome,hok,hops,nil_append]

theorem interrupted_sampleHistory : Interrupted 1 (sampleHistory 3) := by
  rw [sampleHistory_eq]
  exact ⟨_,rfl,⟨0,by simp [sampleSteps]⟩,by simp [sampleSteps],by simp [sampleSteps],
    by simp [sampleSteps]⟩

theorem interrupted_swap_is_reported :
    ∃ p, runAll (.new ∅ none) (steps (sampleHistory 3)) = some p ∧
      ReportsInterrupted (.new p.storage p.recoveryLog.file) (sampleHistory 3) := by
  obtain ⟨p,hp⟩ := isSome_iff_exists.mp runAll_sampleSteps.1
  have hlogged : logged (steps (sampleHistory 3)) = [("hotswap_start",blockTarget 1)] := by rfl
  refine ⟨p,hp,(recovery_reports_interrupted_iff Sha256.sha256 (.new 10) []
    (.performSwap sampleSwap ⟨0,⟨0,0⟩,0⟩) 3 p (sampleHistory 3) rfl hp
    (by simp [hlogged])).mpr fun b hb => ?_⟩
  have hsaved := mem_of_isPresent_runAll hp rfl hb
  have hone : b = 1 := by simpa [sampleSteps] using hsaved
  subst hone
  exact ⟨interrupted_sampleHistory,by simp [hlogged]⟩

/-- A swap that has ended is reported too. -/
theorem ended_swap_is_reported : ∃ p, runAll (.new ∅ none) (steps (sampleHistory 6)) = some p ∧
      (new p.storage p.recoveryLog.file).recoverFromCrash.2 = [1] ∧
      ¬ Interrupted 1 (sampleHistory 6) := by
  rw [sampleHistory_eq]
  obtain ⟨p,hp⟩ := isSome_iff_exists.mp runAll_sampleSteps.2
  have hlogged : logged sampleSteps =
      [("hotswap_start",blockTarget 1),("hotswap_complete",blockTarget 1)] := rfl
  obtain ⟨-,hrecovered⟩ := recoverFromCrash_of_runAll hp (by simp [hlogged])
  have hpresent : p.storage.isPresent (stateFile 1) = true :=
    isPresent_runAll_of_mem hp (by simp [sampleSteps]) (by simp [sampleSteps])
  refine ⟨p,?_,?_,?_⟩
  · exact hp
  · rw [hrecovered,hlogged]
    have hended : startedBlock "hotswap_complete" (blockTarget 1) = none := if_neg (by decide)
    simp [startedBlocks,hended,hpresent]
  · rintro ⟨a,ha,hunfinished⟩
    cases ha
    exact hunfinished.notCompleted (blockTarget 1) 0 (by decide)

end Aios.LiveUpdate
