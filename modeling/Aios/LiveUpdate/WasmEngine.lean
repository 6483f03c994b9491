import Aios.BlockMgr.Registry
import Aios.LiveUpdate.Engine

/-!
The live update of WASM blocks. A swap records the success before it builds the new instance, which
may fail; a rollback drops the running block before it looks for an entry. The old version is read
from the registry, which a swap does not update.
-/
namespace Aios.LiveUpdate

open Aios.Core Aios.BlockMgr LiveUpdateEngine
open Aios.Ipc (IpcBus)

abbrev Linear := Option (List UInt8)

/-- What the WASM runtime makes of a binary: whether it compiles, gets a store and an instance (with
its memory), and what its `init` and `start` do to the memory. -/
structure Guest where
  compiled : Except AIOSException Unit
  store : Except AIOSException Unit
  instantiated : Except AIOSException Linear
  init : Option (Linear → Linear × Bool)
  start : Option (Linear → Linear × Bool)

namespace Guest

/-- `WasmBlock::new`, `create_store` and `instantiate`. -/
def load (g : Guest) : Except AIOSException Linear := do
  g.compiled
  g.store
  g.instantiated

/-- An exported function is called; its name is noted if the call succeeds. -/
def call (f : Option (Linear → Linear × Bool)) (name : String) (memory : Linear) :
    Linear × List String :=
  match f with
  | none => (memory,[])
  | some f => ((f memory).1,if (f memory).2 then [name] else [])

end Guest

structure WasmBlock where
  name : String
  version : String
  binary : List UInt8
  memory : Linear
  deriving DecidableEq

namespace WasmBlock

def extractLinearMemory (block : WasmBlock) : Option (List UInt8) :=
  block.memory.filter fun data => !data.isEmpty

/-- The memory after `restore_linear_memory`, which fails if the data does not fit. -/
def restoreLinearMemory (memory : Linear) (data : List UInt8) : Linear :=
  memory.map fun current =>
    if current.length < data.length then current else data ++ current.drop data.length

end WasmBlock

open WasmBlock

structure WasmLiveUpdateEngine where
  inner : LiveUpdateEngine
  activeBlocks : Finmap fun _ : BlockId => WasmBlock

structure SwapParams where
  newBinary : List UInt8
  newVersion : String
  healthCheck : Option (List UInt8 → Bool)

structure DeployResult where
  blockId : BlockId
  name : String
  version : String
  functionsCalled : List String
  deriving DecidableEq

structure SwapResult where
  blockId : BlockId
  oldVersion : String
  newVersion : String
  functionsCalled : List String
  memoryMigrated : Bool
  deriving DecidableEq

structure RollbackResult where
  blockId : BlockId
  restoredVersion : String
  restoredBinaryLen : ℕ
  deriving DecidableEq

variable {oldEntry : BlockEntry} {result : SwapResult}

namespace WasmLiveUpdateEngine

def new : WasmLiveUpdateEngine := ⟨.new,∅⟩

def deployBlock (w : WasmLiveUpdateEngine) (registry : BlockRegistry) (id : BlockId)
    (guest : Guest) : WasmLiveUpdateEngine × Except AIOSException DeployResult :=
  match registry.get id with
  | .error err => (w,.error err)
  | .ok entry =>
    match guest.load with
    | .error err => (w,.error err)
    | .ok memory =>
      let r := Guest.call guest.init "init" memory
      let r' := Guest.call guest.start "start" r.1
      ({ w with
         activeBlocks := w.activeBlocks.insert id
           ⟨entry.manifest.name,entry.manifest.version,entry.binary,r'.1⟩ },
        .ok ⟨id,entry.manifest.name,entry.manifest.version,r.2 ++ r'.2⟩)

/-- The memory that `init` is called with: what was extracted has been restored into it. -/
def handOver (extracted : Option (List UInt8)) (memory : Linear) : Linear :=
  extracted.elim memory (restoreLinearMemory memory)

/-- The request that `swap_block` makes of the inner engine; the state is `b"state"`. -/
def swapRequest (computeSha256Bytes : List UInt8 → Digest) (id : BlockId) (oldEntry : BlockEntry)
    (params : SwapParams) : SwapRequest where
  blockId := id
  oldBinary := oldEntry.binary
  oldVersion := oldEntry.manifest.version
  oldState := [115,116,97,116,101]
  newBinary := params.newBinary
  newVersion := params.newVersion
  newSha256 := computeSha256Bytes params.newBinary
  healthCheck := params.healthCheck

def swapBlock (computeSha256Bytes : List UInt8 → Digest) (w : WasmLiveUpdateEngine)
    (registry : BlockRegistry) (id : BlockId) (params : SwapParams) (guest : Guest) (now : Clock)
    (queue : IpcBus) : WasmLiveUpdateEngine × IpcBus × Except AIOSException SwapResult :=
  match registry.get id with
  | .error err => (w,queue,.error err)
  | .ok oldEntry =>
    let oldMemory := (w.activeBlocks.lookup id).bind extractLinearMemory
    let swapped := w.inner.performSwap computeSha256Bytes
      (swapRequest computeSha256Bytes id oldEntry params) now queue
    let w := { w with inner := swapped.1 }
    match swapped.2.2 with
    | .error err => (w,swapped.2.1,.error err)
    | .ok () =>
      match guest.load with
      | .error err => (w,swapped.2.1,.error err)
      | .ok memory =>
        let memory := handOver oldMemory memory
        let r := Guest.call guest.init "init" memory
        ({ w with
           activeBlocks := w.activeBlocks.insert id
             ⟨oldEntry.manifest.name,params.newVersion,params.newBinary,r.1⟩ },
          swapped.2.1,
          .ok ⟨id,oldEntry.manifest.version,params.newVersion,r.2,oldMemory.isSome⟩)

def rollbackBlock (w : WasmLiveUpdateEngine) (id : BlockId) (now : Clock) (queue : IpcBus) :
    WasmLiveUpdateEngine × IpcBus × Except AIOSException RollbackResult :=
  let w := { w with activeBlocks := w.activeBlocks.erase id }
  let r := w.inner.rollback id now queue
  ({ w with inner := r.1 },r.2.1,
    r.2.2.map fun entry => ⟨id,entry.oldVersion,entry.oldBinary.length⟩)

/-- The new binary does not pass the health check of the parameters. -/
def unhealthy (params : SwapParams) : Bool :=
  params.healthCheck.elim false fun check => !check params.newBinary

/-- The inner engine after a swap of a block that the registry has as `oldEntry`. -/
def swapped (computeSha256Bytes : List UInt8 → Digest) (w : WasmLiveUpdateEngine) (id : BlockId)
    (oldEntry : BlockEntry) (params : SwapParams) (now : Clock) : LiveUpdateEngine :=
  let a := swapRequest computeSha256Bytes id oldEntry params
  ⟨w.inner.rollbackEntries.insert id (a.entry now),w.inner.swapHistory ++ [a.record now]⟩

variable (computeSha256Bytes : List UInt8 → Digest) (w : WasmLiveUpdateEngine)
  (registry : BlockRegistry) (id : BlockId) (params : SwapParams) (guest : Guest) (now : Clock)
  (queue : IpcBus)

/-- The hash that is passed is that of the new binary, so only the health check can stop the
inner engine. -/
theorem performSwap_swapRequest (oldEntry : BlockEntry) :
    let r := w.inner.performSwap computeSha256Bytes
      (swapRequest computeSha256Bytes id oldEntry params) now queue
    (unhealthy params = true ∧ r.1 = w.inner ∧ ∃ err, r.2.2 = .error err) ∨
      unhealthy params = false ∧ r.2.2 = .ok () ∧
        r.1 = swapped computeSha256Bytes w id oldEntry params now := by
  have hhash : ¬ computeSha256Bytes (swapRequest computeSha256Bytes id oldEntry params).newBinary ≠
      (swapRequest computeSha256Bytes id oldEntry params).newSha256 := not_not.mpr rfl
  have hsame : (swapRequest computeSha256Bytes id oldEntry params).unhealthy = unhealthy params :=
    rfl
  unfold performSwap
  rw [if_neg hhash,hsame]
  cases h : unhealthy params with
  | true =>
    exact .inl ⟨rfl,rfl,_,rfl⟩
  | false =>
    exact .inr ⟨rfl,rfl,rfl⟩

/-- The ways out of `swap_block`. Between the last two the inner engine has changed already. -/
theorem swapBlock_cases :
    let r := w.swapBlock computeSha256Bytes registry id params guest now queue
    (registry.blocks.lookup id = none ∧ r.1 = w ∧ ∃ err, r.2.2 = .error err) ∨
      ∃ oldEntry, registry.blocks.lookup id = some oldEntry ∧
        ((unhealthy params = true ∧ r.1 = w ∧ ∃ err, r.2.2 = .error err) ∨
          unhealthy params = false ∧
            ((∃ err, guest.load = .error err ∧ r.2.2 = .error err ∧
              r.1 = { w with inner := swapped computeSha256Bytes w id oldEntry params now }) ∨
            ∃ memory block result, guest.load = .ok memory ∧ r.2.2 = .ok result ∧
              r.1 = ⟨swapped computeSha256Bytes w id oldEntry params now,
                w.activeBlocks.insert id block⟩)) := by
  unfold swapBlock BlockRegistry.get
  cases hid : registry.blocks.lookup id with
  | none => exact .inl ⟨rfl,rfl,_,rfl⟩
  | some oldEntry =>
    refine .inr ⟨oldEntry,rfl,?_⟩
    dsimp only
    obtain ⟨hsick,hinner,err,hr⟩ | ⟨hwell,hr,hinner⟩ := performSwap_swapRequest
      computeSha256Bytes w id params now queue oldEntry
    · rw [hr]
      exact .inl ⟨hsick,by rw [hinner],err,rfl⟩
    · rw [hr,hinner]
      refine .inr ⟨hwell,?_⟩
      cases hload : guest.load with
      | error err => exact .inl ⟨err,rfl,rfl,rfl⟩
      | ok memory => exact .inr ⟨memory,_,_,rfl,rfl,rfl⟩

/-- An error leaves the engine as it was. -/
def Harmless {α : Type} (w : WasmLiveUpdateEngine)
    (r : WasmLiveUpdateEngine × IpcBus × Except AIOSException α) : Prop :=
  ∀ err, r.2.2 = .error err → r.1 = w

/-- The history grows with the swap that is then given up. -/
theorem swapped_ne (oldEntry : BlockEntry) :
    { w with inner := swapped computeSha256Bytes w id oldEntry params now } ≠ w := by
  intro h
  have hlength := congrArg (fun w : WasmLiveUpdateEngine => w.inner.swapHistory.length) h
  simp [swapped] at hlength

theorem harmless_swapBlock_iff :
    Harmless w (w.swapBlock computeSha256Bytes registry id params guest now queue) ↔
      registry.blocks.lookup id = none ∨ unhealthy params = true ∨
        ∃ memory, guest.load = .ok memory := by
  unfold Harmless
  obtain ⟨hnone,hw,err,hr⟩ | ⟨oldEntry,hsome,⟨hsick,hw,err,hr⟩ | ⟨hwell,hload⟩⟩ :=
    swapBlock_cases computeSha256Bytes w registry id params guest now queue
  · simp [hw,hnone]
  · simp [hw,hsick]
  · obtain ⟨err,herror,hr,hw⟩ | ⟨memory,block,result,hok,hr,hw⟩ := hload
    · have hne := swapped_ne computeSha256Bytes w id params now oldEntry
      simp [hr,hw,hne,hsome,hwell,herror]
    · simp [hr,hok]

theorem harmless_rollbackBlock_iff : Harmless w (w.rollbackBlock id now queue) ↔
      w.inner.rollbackEntries.lookup id ≠ none ∨ id ∉ w.activeBlocks := by
  unfold Harmless rollbackBlock
  cases hentry : w.inner.rollbackEntries.lookup id with
  | some entry => simp [rollback,hentry,Except.map]
  | none =>
    have herase : ({ w with activeBlocks := w.activeBlocks.erase id } = w) ↔
        id ∉ w.activeBlocks := by
      constructor
      · intro h
        rw [← h]
        exact Finmap.notMem_erase_self
      · intro h
        rw [Finmap.erase_of_lookup_eq_none (Finmap.lookup_eq_none.mpr h)]
    simpa [rollback,hentry,Except.map] using herase

/-- A failed call leaves nothing behind exactly in these cases: the block is not registered, its new
binary is unhealthy or loads, and there is an entry to roll back to or no block to drop. -/
theorem all_or_nothing_iff :
    (Harmless w (w.swapBlock computeSha256Bytes registry id params guest now queue) ↔
      registry.blocks.lookup id = none ∨ unhealthy params = true ∨
        ∃ memory, guest.load = .ok memory) ∧
    (Harmless w (w.rollbackBlock id now queue) ↔
      w.inner.rollbackEntries.lookup id ≠ none ∨ id ∉ w.activeBlocks) :=
  ⟨harmless_swapBlock_iff computeSha256Bytes w registry id params guest now queue,
    harmless_rollbackBlock_iff w id now queue⟩

def plainGuest : Guest := ⟨.ok (),.ok (),.ok none,none,none⟩

/-- A module that ends in its header, and what compiling it gives. -/
def cutModule : List UInt8 := emptyModule.take 4

def brokenGuest : Guest := { plainGuest with compiled := .error (.generic "WASM compile") }

def sampleRegistry : BlockRegistry :=
  (BlockRegistry.new.registerBlock Sha256.sha256 "math" "1.0.0" emptyModule).1

def sampleEngine : WasmLiveUpdateEngine := (new.deployBlock sampleRegistry 1 plainGuest).1

theorem failed_calls_leave_traces :
    ¬ Harmless sampleEngine (sampleEngine.swapBlock Sha256.sha256 sampleRegistry 1
        ⟨cutModule,"2.0.0",none⟩ brokenGuest ⟨0,0⟩ (.new 10)) ∧
      ¬ Harmless sampleEngine (sampleEngine.rollbackBlock 1 ⟨0,0⟩ (.new 10)) := by
  constructor
  · intro h
    have herror : (sampleEngine.swapBlock Sha256.sha256 sampleRegistry 1
        ⟨cutModule,"2.0.0",none⟩ brokenGuest ⟨0,0⟩ (.new 10)).2.2 =
        .error (.generic "WASM compile") := by decide +kernel
    have hsame := congrArg (fun w : WasmLiveUpdateEngine => w.inner.swapHistory) (h _ herror)
    exact absurd hsame (by decide +kernel)
  · intro h
    have hsame := congrArg (fun w : WasmLiveUpdateEngine => w.activeBlocks.lookup 1) (h _ rfl)
    exact absurd hsame (by decide)

structure Swap where
  params : SwapParams
  guest : Guest
  now : Clock

def Swap.version (s : Swap) : String × List UInt8 := (s.params.newVersion,s.params.newBinary)

/-- One swap of the block after the other, as long as they succeed. -/
def swapAll (w : WasmLiveUpdateEngine) (queue : IpcBus) :
    List Swap → Option (WasmLiveUpdateEngine × IpcBus)
  | [] => some (w,queue)
  | s::swaps =>
    let r := w.swapBlock computeSha256Bytes registry id s.params s.guest s.now queue
    match r.2.2 with
    | .error _ => none
    | .ok _ => swapAll r.1 r.2.1 swaps

/-- The next rollback reports the version and consumes an entry with the binary. -/
def GoesBackTo (version : String × List UInt8) : Prop :=
  ∃ entry, w.inner.rollbackEntries.lookup id = some entry ∧ entry.oldBinary = version.2 ∧
    (w.rollbackBlock id now queue).2.2 = .ok ⟨id,version.1,version.2.length⟩

theorem lookup_of_swapBlock_ok (hid : registry.blocks.lookup id = some oldEntry)
    (h : (w.swapBlock computeSha256Bytes registry id params guest now queue).2.2 = .ok result) :
    let r := w.swapBlock computeSha256Bytes registry id params guest now queue
    r.1.inner.rollbackEntries.lookup id = some ⟨id,oldEntry.binary,oldEntry.manifest.version,
      [115,116,97,116,101],now.instant⟩ := by
  obtain ⟨-,-,err,hr⟩ | ⟨entry,hsome,⟨-,-,err,hr⟩ | ⟨-,hload⟩⟩ :=
    swapBlock_cases computeSha256Bytes w registry id params guest now queue
  · cases hr.symm.trans h
  · cases hr.symm.trans h
  · cases hid.symm.trans hsome
    obtain ⟨err,-,hr,-⟩ | ⟨memory,block,result',-,-,hw⟩ := hload
    · cases hr.symm.trans h
    · dsimp only
      rw [hw]
      exact Finmap.lookup_insert _

theorem lookup_of_swapAll (hid : registry.blocks.lookup id = some oldEntry) (swaps : List Swap)
    {last : Swap} {w' : WasmLiveUpdateEngine} {queue' : IpcBus}
    (h : swapAll computeSha256Bytes registry id w queue (swaps ++ [last]) = some (w',queue')) :
    w'.inner.rollbackEntries.lookup id = some ⟨id,oldEntry.binary,oldEntry.manifest.version,
      [115,116,97,116,101],last.now.instant⟩ := by
  induction swaps generalizing w queue with
  | nil =>
    unfold swapAll at h
    dsimp only [List.nil_append] at h
    split at h
    · cases h
    next result hr =>
      cases h
      exact lookup_of_swapBlock_ok computeSha256Bytes w registry id last.params last.guest last.now
        queue hid hr
  | cons s swaps ih =>
    unfold swapAll at h
    dsimp only [List.cons_append] at h
    split at h
    · cases h
    · exact ih _ _ h

theorem goesBackTo_iff {entry : HotSwapEntry} (h : w.inner.rollbackEntries.lookup id = some entry)
    (version : String × List UInt8) :
    GoesBackTo w id now queue version ↔ version = (entry.oldVersion,entry.oldBinary) := by
  unfold GoesBackTo rollbackBlock
  simp only [h,rollback,Option.some.injEq,exists_eq_left',Except.map,
    Except.ok.injEq,RollbackResult.mk.injEq,true_and]
  constructor
  · rintro ⟨hbinary,hversion,-⟩
    exact Prod.ext hversion.symm hbinary.symm
  · rintro rfl
    exact ⟨rfl,rfl,rfl⟩

theorem deployBlock_ok {deployed : DeployResult}
    (h : (w.deployBlock registry id guest).2 = .ok deployed) :
    ∃ entry memory, registry.blocks.lookup id = some entry ∧
      (w.deployBlock registry id guest).1.activeBlocks.lookup id =
        some ⟨entry.manifest.name,entry.manifest.version,entry.binary,memory⟩ := by
  unfold deployBlock BlockRegistry.get at *
  cases hid : registry.blocks.lookup id with
  | none => simp [hid] at h
  | some entry =>
    cases hload : guest.load with
    | error err => simp [hid,hload] at h
    | ok memory => exact ⟨entry,_,rfl,Finmap.lookup_insert _⟩

/-- The version before the last of the swaps; the first one is that of the deployed block. -/
def previous (first : WasmBlock) (earlier : List Swap) : String × List UInt8 :=
  (earlier.getLast?.map Swap.version).getD (first.version,first.binary)

/-- A rollback after some swaps of a deployed block goes back one version exactly if that is the
deployed version, as it is after a single swap. -/
theorem rollback_goes_back_iff (deployed : DeployResult) (first : WasmBlock)
    (earlier : List Swap) {last : Swap} {w' : WasmLiveUpdateEngine} {queue' : IpcBus}
    (hdeploy : (w.deployBlock registry id guest).2 = .ok deployed)
    (hfirst : (w.deployBlock registry id guest).1.activeBlocks.lookup id = some first)
    (hswaps : swapAll computeSha256Bytes registry id (w.deployBlock registry id guest).1 queue
      (earlier ++ [last]) = some (w',queue')) :
    GoesBackTo w' id now queue' (previous first earlier) ↔
      previous first earlier = (first.version,first.binary) := by
  obtain ⟨entry,memory,hid,hactive⟩ := deployBlock_ok w registry id guest hdeploy
  cases hfirst.symm.trans hactive
  have hentry := lookup_of_swapAll computeSha256Bytes _ registry id queue hid earlier hswaps
  exact goesBackTo_iff w' id now queue' hentry _

def toSecond : Swap := ⟨⟨memoryModule 1,"2.0.0",none⟩,plainGuest,⟨0,0⟩⟩
def toThird : Swap := ⟨⟨memoryModule 2,"3.0.0",none⟩,plainGuest,⟨1,1⟩⟩

def sampleBlock : WasmBlock := ⟨"math","1.0.0",emptyModule,none⟩

theorem exists_swapAll_sample (swaps : List Swap)
    (h : (swapAll Sha256.sha256 sampleRegistry 1 sampleEngine (.new 10) swaps).isSome) :
    ∃ w' queue', swapAll Sha256.sha256 sampleRegistry 1 sampleEngine (.new 10) swaps =
      some (w',queue') := by
  obtain ⟨⟨w',queue'⟩,hr⟩ := Option.isSome_iff_exists.mp h
  exact ⟨w',queue',hr⟩

theorem first_rollback_goes_back :
    ∃ w' queue', swapAll Sha256.sha256 sampleRegistry 1 sampleEngine (.new 10) [toSecond] =
        some (w',queue') ∧
      GoesBackTo w' 1 ⟨2,2⟩ queue' (sampleBlock.version,sampleBlock.binary) := by
  obtain ⟨w',queue',h⟩ := exists_swapAll_sample [toSecond] (by decide +kernel)
  have hiff := rollback_goes_back_iff Sha256.sha256 new sampleRegistry 1 plainGuest ⟨2,2⟩
    (.new 10) ⟨1,"math","1.0.0",[]⟩ sampleBlock [] (by decide) (by decide) h
  exact ⟨w',queue',h,hiff.mpr rfl⟩

/-- After the second swap a rollback skips the second version: it reports the first. -/
theorem second_rollback_skips_a_version :
    ∃ w' queue', swapAll Sha256.sha256 sampleRegistry 1 sampleEngine (.new 10)
        [toSecond,toThird] = some (w',queue') ∧
      GoesBackTo w' 1 ⟨2,2⟩ queue' ("1.0.0",emptyModule) ∧
      ¬ GoesBackTo w' 1 ⟨2,2⟩ queue' (previous sampleBlock [toSecond]) := by
  obtain ⟨w',queue',h⟩ := exists_swapAll_sample [toSecond,toThird] (by decide +kernel)
  obtain ⟨entry,hid,hmanifest,hbinary⟩ : ∃ entry, sampleRegistry.blocks.lookup 1 = some entry ∧
      entry.manifest.version = "1.0.0" ∧ entry.binary = emptyModule := ⟨_,rfl,rfl,rfl⟩
  have hentry := lookup_of_swapAll _ sampleEngine sampleRegistry 1 _ hid [toSecond] h
  have hback := goesBackTo_iff w' 1 ⟨2,2⟩ queue' hentry
  refine ⟨w',queue',h,?_,?_⟩
  · rw [hback,hmanifest,hbinary]
  · rw [hback,hmanifest,hbinary]
    decide

def oldMemory : Linear := (w.activeBlocks.lookup id).bind memory

/-- The memory of the new instance when its `init` is called. -/
def handedOver : Except AIOSException Linear :=
  guest.load.map (handOver ((w.activeBlocks.lookup id).bind extractLinearMemory))

/-- A migration that is reported has taken place, and one that is possible is reported. -/
def ReportsMigration (result : SwapResult) : Prop :=
  (result.memoryMigrated = true → ∃ old new, oldMemory w id = some old ∧
    handedOver w id guest = .ok (some new) ∧ old <+: new) ∧
  ∀ old current, oldMemory w id = some old → old ≠ [] → guest.load = .ok (some current) →
    old.length ≤ current.length → result.memoryMigrated = true

theorem extractLinearMemory_eq : (w.activeBlocks.lookup id).bind extractLinearMemory =
      (oldMemory w id).filter fun data => !data.isEmpty := by
  unfold oldMemory
  cases w.activeBlocks.lookup id <;> rfl

/-- What a swap that succeeds has handed to `init`, and what it reports. -/
theorem swapBlock_ok
    (h : (w.swapBlock computeSha256Bytes registry id params guest now queue).2.2 = .ok result) :
    ∃ memory block, handedOver w id guest = .ok memory ∧
      (w.swapBlock computeSha256Bytes registry id params guest now queue).1.activeBlocks.lookup id =
        some block ∧ block.memory = (Guest.call guest.init "init" memory).1 ∧
      result.functionsCalled = (Guest.call guest.init "init" memory).2 ∧
      result.memoryMigrated = ((oldMemory w id).filter fun data => !data.isEmpty).isSome := by
  rw [← extractLinearMemory_eq]
  unfold handedOver
  revert h
  fun_cases swapBlock computeSha256Bytes w registry id params guest now queue with
  | case1 | case2 | case3 => intro h; cases h
  | case4 entry hentry oldMemory swapped w' hswapped loaded hload memory r =>
    intro h
    cases h
    rw [hload]
    exact ⟨memory,_,rfl,Finmap.lookup_insert _,rfl,rfl,rfl⟩

theorem handedOver_of_ne_nil {old : List UInt8} (hold : oldMemory w id = some old)
    (hne : old ≠ []) :
    handedOver w id guest = guest.load.map (restoreLinearMemory · old) := by
  have hkept : (some old).filter (fun data => !data.isEmpty) = some old := by simp [hne]
  unfold handedOver
  rw [extractLinearMemory_eq,hold,hkept]
  rfl

/-- A swap that succeeds calls `init` with the memory handed over, and tells the truth exactly if
the old memory, unless there is none, fits into the new one. -/
theorem migration_reported_iff {result : SwapResult}
    (h : (w.swapBlock computeSha256Bytes registry id params guest now queue).2.2 = .ok result) :
    (∃ memory block, handedOver w id guest = .ok memory ∧
      (w.swapBlock computeSha256Bytes registry id params guest now queue).1.activeBlocks.lookup id =
        some block ∧ block.memory = (Guest.call guest.init "init" memory).1) ∧
    (ReportsMigration w id guest result ↔ ∀ old, oldMemory w id = some old → old ≠ [] →
      ∃ current, guest.load = .ok (some current) ∧ old.length ≤ current.length) := by
  obtain ⟨memory,block,hmemory,hblock,hcalled,-,hmigrated⟩ :=
    swapBlock_ok computeSha256Bytes w registry id params guest now queue h
  refine ⟨⟨memory,block,hmemory,hblock,hcalled⟩,?_⟩
  constructor
  · rintro ⟨htold,-⟩ old hold hne
    obtain ⟨old',new,hold',hnew, hprefix⟩ := htold (by simp [hmigrated,hold,hne])
    cases hold.symm.trans hold'
    rw [handedOver_of_ne_nil w id guest hold hne] at hnew
    cases hload : guest.load with
    | error err => simp [hload,Except.map] at hnew
    | ok memory =>
      cases memory with
      | none => simp [hload,Except.map,restoreLinearMemory] at hnew
      | some current =>
        refine ⟨current,rfl,?_⟩
        by_contra hshort
        simp only [hload,Except.map,restoreLinearMemory,Option.map_some,
          if_pos (not_le.mp hshort),Except.ok.injEq,Option.some.injEq] at hnew
        exact hshort (hnew ▸ hprefix.length_le)
  · intro hfits
    refine ⟨fun hreported => ?_,fun old current hold hne _ _ => by simp [hmigrated,hold,hne]⟩
    obtain ⟨old,hkept⟩ := Option.isSome_iff_exists.mp (hmigrated.symm.trans hreported)
    obtain ⟨hold,hne⟩ := Option.filter_eq_some_iff.mp hkept
    obtain ⟨current,hload,hfit⟩ := hfits old hold (by simpa using hne)
    refine ⟨old,_,hold,?_,List.prefix_append old (current.drop old.length)⟩
    rw [handedOver_of_ne_nil w id guest hold (by simpa using hne),hload]
    simp [Except.map,restoreLinearMemory,not_lt.mpr hfit]

def guestWith (memory : Linear) : Guest := { plainGuest with instantiated := .ok memory }

def pages (n : ℕ) (b : UInt8) : List UInt8 := List.replicate (n*65536) b

/-- A block with one page of memory. -/
def pageEngine : WasmLiveUpdateEngine :=
  (new.deployBlock sampleRegistry 1 (guestWith (some (pages 1 7)))).1

theorem larger_memory_is_migrated :
    ReportsMigration pageEngine 1 (guestWith (some (pages 2 0))) ⟨1,"1.0.0","2.0.0",[],true⟩ := by
  refine (migration_reported_iff Sha256.sha256 pageEngine sampleRegistry 1 toSecond.params
    (guestWith (some (pages 2 0))) ⟨0,0⟩ (.new 10) (by decide +kernel)).2.mpr ?_
  rintro old ⟨⟩ -
  refine ⟨pages 2 0,rfl,?_⟩
  show (pages 1 7).length ≤ (pages 2 0).length
  rw [pages,pages,List.length_replicate,List.length_replicate]
  decide

/-- The new module exports no memory, and the swap reports a migration. -/
theorem lost_memory_is_reported :
    (pageEngine.swapBlock Sha256.sha256 sampleRegistry 1 toSecond.params plainGuest ⟨0,0⟩
        (.new 10)).2.2 = .ok ⟨1,"1.0.0","2.0.0",[],true⟩ ∧
      ¬ ReportsMigration pageEngine 1 plainGuest ⟨1,"1.0.0","2.0.0",[],true⟩ := by
  refine ⟨by decide +kernel,fun h => ?_⟩
  obtain ⟨_,_,-,⟨⟩,-⟩ := h.1 rfl

end WasmLiveUpdateEngine
end Aios.LiveUpdate
