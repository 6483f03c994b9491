import Aios.Core.Error
import Aios.Core.IpcProtocol
import Aios.Lib.Precedence
import Aios.Lib.Transition

/-!
The watchdog over the orchestrator: signed heartbeats reset it, and a missing one makes it escalate
from a warning to suspension, a kill and the safe-mode shell.
-/
namespace Aios

open Aios.Core Precedence List

/-- The three fields of a heartbeat, `source_hmac` being a digest of the other two. -/
structure Heartbeat where
  sequence : UInt64
  timestampMs : UInt64
  sourceHmac : Digest

namespace Heartbeat

section
variable (sha256 : List UInt8 → Digest)

def computeHmac (sequence timestampMs : UInt64) (secret : List UInt8) : Digest :=
  sha256 (secret ++ Bincode.encodeU64 sequence ++ Bincode.encodeU64 timestampMs)

/-- `Heartbeat::new`, made when the clock shows `nowMs`. -/
def new (nowMs sequence : UInt64) (secret : List UInt8) : Heartbeat :=
  { sequence, timestampMs := nowMs, sourceHmac := computeHmac sha256 sequence nowMs secret }

def verify (hb : Heartbeat) (secret : List UInt8) : Bool :=
  hb.sourceHmac = computeHmac sha256 hb.sequence hb.timestampMs secret

theorem verify_new (nowMs sequence : UInt64) (secret : List UInt8) :
    (new sha256 nowMs sequence secret).verify sha256 secret = true := by
  simp [verify,new]

end

/-- `age_ms`: a saturating difference, so that a heartbeat from the future has age zero. -/
def ageMs (hb : Heartbeat) (nowMs : UInt64) : UInt64 :=
  if hb.timestampMs ≤ nowMs then nowMs-hb.timestampMs else 0

end Heartbeat

inductive WatchdogState where
  | monitoring
  | warned
  | suspended
  | recovering
  | safeMode
  deriving DecidableEq

structure WatchdogConfig where
  heartbeatIntervalMs : UInt64
  maxMissedHeartbeats : UInt32
  warnThreshold : UInt32
  recoveryTimeoutMs : UInt64
  secret : List UInt8

def WatchdogConfig.default : WatchdogConfig where
  heartbeatIntervalMs := 1000
  maxMissedHeartbeats := 3
  warnThreshold := 2
  recoveryTimeoutMs := 10000
  secret := Utf8.bytes "default_aios_secret"

inductive WatchdogEventType where
  | heartbeatReceived (sequence : UInt64)
  | heartbeatMissed (missed : UInt32)
  | warned
  | suspended
  | recovering
  | enteredSafeMode
  | recovered

structure WatchdogEvent where
  timestampMs : UInt64
  eventType : WatchdogEventType

inductive WatchdogAction where
  | none
  | warnOrchestrator
  | suspendOrchestrator
  | attemptRecovery
  | waitForRecovery
  | enterSafeMode
  | inSafeMode
  | killProcess (pid : UInt32)
  | dumpState (name : String)
  | safeModeShell
  deriving DecidableEq

structure Watchdog where
  config : WatchdogConfig
  state : WatchdogState
  lastHeartbeat : Option Heartbeat
  missedCount : UInt32
  totalReceived : UInt64
  totalMissed : UInt64
  stateLog : List WatchdogEvent

/-- The successive readings of the system clock during one call; the calls of a run may read
anything. -/
abbrev Clock := ℕ → UInt64

namespace Watchdog

def new (config : WatchdogConfig) : Watchdog :=
  { config, state := .monitoring, lastHeartbeat := none, missedCount := 0, totalReceived := 0,
    totalMissed := 0, stateLog := [] }

@[simp] theorem new_config (config : WatchdogConfig) : (new config).config = config := rfl

def logEvent (w : Watchdog) (nowMs : UInt64) (eventType : WatchdogEventType) : Watchdog :=
  { w with stateLog := w.stateLog ++ [{ timestampMs := nowMs, eventType }] }

section
variable (sha256 : List UInt8 → Digest)

def receiveHeartbeat (w : Watchdog) (heartbeat : Heartbeat) (clock : Clock) :
    Watchdog × Except AIOSException Unit :=
  if !heartbeat.verify sha256 w.config.secret then
    (w,.error (.integrityCheckFailed "Heartbeat HMAC verification failed"))
  else
    let w := { w with
      totalReceived := w.totalReceived+1
      missedCount := 0
      lastHeartbeat := some heartbeat }
    let w := w.logEvent (clock 0) (.heartbeatReceived heartbeat.sequence)
    if w.state = .recovering ∨ w.state = .safeMode ∨ w.state = .warned then
      ({ w with state := .monitoring }.logEvent (clock 1) .recovered,.ok ())
    else (w,.ok ())

/-- The first reading of the clock is the one for the age of the last heartbeat. -/
def checkTimeout (w : Watchdog) (clock : Clock) : Watchdog × WatchdogAction :=
  match w.state with
  | .monitoring | .warned =>
    let overdue := w.lastHeartbeat.all fun hb => w.config.heartbeatIntervalMs < hb.ageMs (clock 0)
    if overdue then
      let w := { w with missedCount := w.missedCount+1, totalMissed := w.totalMissed+1 }
      let w := w.logEvent (clock 1) (.heartbeatMissed w.missedCount)
      if w.config.maxMissedHeartbeats ≤ w.missedCount then
        ({ w with state := .suspended }.logEvent (clock 2) .suspended,.suspendOrchestrator)
      else if w.config.warnThreshold ≤ w.missedCount ∧ w.state = .monitoring then
        ({ w with state := .warned }.logEvent (clock 2) .warned,.warnOrchestrator)
      else (w,.none)
    else (w,.none)
  | .suspended =>
    ({ w with state := .recovering }.logEvent (clock 1) .recovering,.killProcess 0)
  | .recovering =>
    let elapsed := w.lastHeartbeat.elim (UInt64.ofNat (2^64-1)) fun hb => hb.ageMs (clock 0)
    if w.config.recoveryTimeoutMs < elapsed then
      ({ w with state := .safeMode }.logEvent (clock 1) .enteredSafeMode,.safeModeShell)
    else (w,.waitForRecovery)
  | .safeMode => (w,.inSafeMode)

end

/-! ### What one call does -/

section
variable {sha256 : List UInt8 → Digest} {w : Watchdog} {hb : Heartbeat} {clock : Clock}

variable (nowMs : UInt64) (eventType : WatchdogEventType)

@[simp] theorem logEvent_state : (w.logEvent nowMs eventType).state = w.state := rfl

@[simp] theorem logEvent_config : (w.logEvent nowMs eventType).config = w.config := rfl

@[simp] theorem logEvent_missedCount :
    (w.logEvent nowMs eventType).missedCount = w.missedCount := rfl

theorem receiveHeartbeat_invalid (h : hb.verify sha256 w.config.secret = false) :
    (w.receiveHeartbeat sha256 hb clock).1 = w := by
  simp [receiveHeartbeat,h]

theorem receiveHeartbeat_valid (h : hb.verify sha256 w.config.secret = true) :
    (w.receiveHeartbeat sha256 hb clock).1.state =
        (if w.state = .suspended then .suspended else .monitoring) ∧
      (w.receiveHeartbeat sha256 hb clock).1.missedCount = 0 := by
  cases hs : w.state <;> simp [receiveHeartbeat,h,hs]

@[simp] theorem receiveHeartbeat_config :
    (w.receiveHeartbeat sha256 hb clock).1.config = w.config := by
  unfold receiveHeartbeat
  dsimp only
  split_ifs <;> rfl

@[simp] theorem checkTimeout_config : (w.checkTimeout clock).1.config = w.config := by
  cases hs : w.state
  case suspended | safeMode => simp [checkTimeout,hs]
  all_goals
    simp only [checkTimeout,hs]
    split_ifs <;> rfl

variable (w clock) in
theorem checkTimeout_cases : ((w.state = .monitoring ∨ w.state = .warned) ∧
      ((w.checkTimeout clock).1.state = .suspended ∧
          (w.checkTimeout clock).2 = .suspendOrchestrator ∨
        ((w.checkTimeout clock).1.state = .monitoring ∨
            (w.checkTimeout clock).1.state = .warned) ∧
          ((w.checkTimeout clock).2 = .warnOrchestrator ∨ (w.checkTimeout clock).2 = .none) ∧
          ((w.checkTimeout clock).1.missedCount = w.missedCount ∨
            (w.checkTimeout clock).1.missedCount < w.config.maxMissedHeartbeats))) ∨
    (w.state = .suspended ∧ (w.checkTimeout clock).1.state = .recovering ∧
      (w.checkTimeout clock).2 = .killProcess 0) ∨
    (w.state = .recovering ∧
      ((w.checkTimeout clock).1.state = .safeMode ∧ (w.checkTimeout clock).2 = .safeModeShell ∨
        (w.checkTimeout clock).1.state = .recovering ∧
          (w.checkTimeout clock).2 = .waitForRecovery)) ∨
    (w.state = .safeMode ∧ (w.checkTimeout clock).1.state = .safeMode ∧
      (w.checkTimeout clock).2 = .inSafeMode) := by
  cases hs : w.state
  case monitoring | warned =>
    left
    simp only [checkTimeout,hs]
    split_ifs <;> simp_all
  case suspended => simp [checkTimeout,hs]
  case recovering =>
    simp only [checkTimeout,hs]
    split_ifs <;> simp_all
  case safeMode => simp [checkTimeout,hs]

end

/-! ### Runs -/

inductive Call where
  | receiveHeartbeat (hb : Heartbeat) (clock : Clock)
  | checkTimeout (clock : Clock)

inductive Answer where
  | received (hb : Heartbeat) (result : Except AIOSException Unit)
  | action (a : WatchdogAction)

variable (sha256 : List UInt8 → Digest) {calls : List Call} {w : Watchdog}

def call (w : Watchdog) : Call → Watchdog × Answer
  | .receiveHeartbeat hb clock =>
    let r := w.receiveHeartbeat sha256 hb clock
    (r.1,.received hb r.2)
  | .checkTimeout clock =>
    let r := w.checkTimeout clock
    (r.1,.action r.2)

/-- The watchdog after the calls, and their answers in order. -/
def run (w : Watchdog) (calls : List Call) : Watchdog × List Answer :=
  Transition.answers (call sha256) w calls

theorem run_concat (w : Watchdog) (calls : List Call) (c : Call) : w.run sha256 (calls ++ [c]) =
      (((w.run sha256 calls).1.call sha256 c).1,
        (w.run sha256 calls).2 ++ [((w.run sha256 calls).1.call sha256 c).2]) :=
  Transition.answers_concat (call sha256) w calls c

theorem call_config (w : Watchdog) (c : Call) : (w.call sha256 c).1.config = w.config := by
  cases c <;> simp [call]

theorem run_config (w : Watchdog) (calls : List Call) :
    (w.run sha256 calls).1.config = w.config :=
  Transition.answers_unchanged (call sha256) (call_config sha256) w calls

/-- In the states in which misses are counted the count is below its bound, so that
`missed_count += 1` does not overflow. -/
theorem missedCount_lt (config : WatchdogConfig) (calls : List Call)
    (h : ((new config).run sha256 calls).1.state = .monitoring ∨
      ((new config).run sha256 calls).1.state = .warned) :
    ((new config).run sha256 calls).1.missedCount = 0 ∨
      ((new config).run sha256 calls).1.missedCount < config.maxMissedHeartbeats := by
  induction calls using reverseRecOn with
  | nil => exact .inl rfl
  | append_singleton calls c ih =>
    rw [run_concat] at h ⊢
    have hconfig := run_config sha256 (new config) calls
    generalize (new config).run sha256 calls = r at h ih hconfig ⊢
    cases c with
    | receiveHeartbeat hb clock =>
      simp only [call] at h ⊢
      cases hv : hb.verify sha256 r.1.config.secret
      · rw [receiveHeartbeat_invalid hv] at h ⊢
        exact ih h
      · exact .inl (receiveHeartbeat_valid hv).2
    | checkTimeout clock =>
      simp only [call] at h ⊢
      obtain ⟨hs,⟨hsusp,-⟩ | ⟨-,-,hcount⟩⟩ | ⟨-,hrec,-⟩ | ⟨-,⟨hsafe,-⟩ | ⟨hrec,-⟩⟩ |
        ⟨-,hsafe,-⟩ := checkTimeout_cases r.1 clock
      · simp [hsusp] at h
      · rcases hcount with hcount | hcount
        · rw [hcount]
          exact ih hs
        · rw [hconfig] at hcount
          exact .inr hcount
      · simp [hrec] at h
      · simp [hsafe] at h
      · simp [hrec] at h
      · simp [hsafe] at h

/-! ### Heartbeats and escalation -/

/-- The answer is to a heartbeat that carries the right digest. -/
def Answer.Beat (secret : List UInt8) : Answer → Prop
  | .received hb _ => hb.verify sha256 secret = true
  | .action _ => False

def Answer.Is (a : WatchdogAction) (answer : Answer) : Prop := answer = .action a

def Answer.Kills (answer : Answer) : Prop := ∃ pid, answer = .action (.killProcess pid)

/-- The process is killed only with no valid heartbeat since the suspension, and the safe-mode shell
is entered only with none since the kill. -/
def KillsOnlySilent (secret : List UInt8) (answers : List Answer) : Prop :=
  Justified (fun before answer =>
    (answer.Kills →
      QuietSince (Answer.Is .suspendOrchestrator) (Answer.Beat sha256 secret) before) ∧
      (answer.Is .safeModeShell → QuietSince Answer.Kills (Answer.Beat sha256 secret) before))
    answers

/-- A valid heartbeat came while the watchdog was suspended, and no timeout was checked
after it. -/
def HeardSuspended (w : Watchdog) (calls : List Call) : Prop :=
  ∃ before hb clock after, calls = before ++ .receiveHeartbeat hb clock::after ∧
    (w.run sha256 before).1.state = .suspended ∧ hb.verify sha256 w.config.secret = true ∧
    ∀ c ∈ after, ∀ clock, c ≠ .checkTimeout clock

/-- No timeout is checked after a valid heartbeat that came while the watchdog was suspended. -/
def LeavesSuspendedUnheard (w : Watchdog) (calls : List Call) : Prop :=
  Justified (fun before c => (∃ clock, c = .checkTimeout clock) → ¬ w.HeardSuspended sha256 before)
    calls

section
variable {sha256} {w : Watchdog} {calls : List Call} {hb : Heartbeat} {clock : Clock}

theorem not_heardSuspended_nil : ¬ w.HeardSuspended sha256 [] := by
  rintro ⟨before,hb,clock,after,h,-⟩
  simp at h

theorem not_heardSuspended_checkTimeout :
    ¬ w.HeardSuspended sha256 (calls ++ [.checkTimeout clock]) := by
  rintro ⟨before,hb,clock',after,h,-,-,hafter⟩
  rcases eq_nil_or_concat after with rfl | ⟨front,last,rfl⟩
  · obtain ⟨-,hlast⟩ := append_inj' h rfl
    simp at hlast
  · have hsplit : calls ++ [.checkTimeout clock] =
        (before ++ .receiveHeartbeat hb clock'::front) ++ [last] := by simpa using h
    obtain ⟨-,hlast⟩ := append_inj' hsplit rfl
    exact hafter last (by simp) clock (by simpa using hlast.symm)

theorem heardSuspended_receiveHeartbeat :
    w.HeardSuspended sha256 (calls ++ [.receiveHeartbeat hb clock]) ↔
      ((w.run sha256 calls).1.state = .suspended ∧ hb.verify sha256 w.config.secret = true) ∨
        w.HeardSuspended sha256 calls := by
  constructor
  · rintro ⟨before,hb',clock',after,h,hs,hv,hafter⟩
    rcases eq_nil_or_concat after with rfl | ⟨front,last,rfl⟩
    · obtain ⟨rfl,hlast⟩ := append_inj' h rfl
      obtain ⟨rfl,-⟩ : hb = hb' ∧ clock = clock' := by simpa using hlast
      exact .inl ⟨hs,hv⟩
    · have hsplit : calls ++ [.receiveHeartbeat hb clock] =
          (before ++ .receiveHeartbeat hb' clock'::front) ++ [last] := by simpa using h
      obtain ⟨hfront,-⟩ := append_inj' hsplit rfl
      refine .inr ⟨before,hb',clock',front,hfront,hs,hv,fun c hc => hafter c ?_⟩
      simp [hc]
  · rintro (⟨hs,hv⟩ | ⟨before,hb',clock',after,rfl,hs,hv,hafter⟩)
    · exact ⟨calls,hb,clock,[],rfl,hs,hv,by simp⟩
    · refine ⟨before,hb',clock',after ++ [.receiveHeartbeat hb clock],by simp,hs,hv,fun c hc => ?_⟩
      rcases mem_append.mp hc with hc | hc
      · exact hafter c hc
      · simp [mem_singleton.mp hc]

end

section
variable {sha256} {secret : List UInt8} {a : WatchdogAction} {hb : Heartbeat}
  {result : Except AIOSException Unit}

@[simp] theorem received_beat :
    (Answer.received hb result).Beat sha256 secret ↔ hb.verify sha256 secret = true := Iff.rfl

@[simp] theorem not_action_beat : ¬ (Answer.action a).Beat sha256 secret := id

@[simp] theorem received_is : ¬ (Answer.received hb result).Is a := by simp [Answer.Is]

@[simp] theorem action_is {b : WatchdogAction} : (Answer.action b).Is a ↔ b = a := by
  simp [Answer.Is]

@[simp] theorem received_kills : ¬ (Answer.received hb result).Kills := by simp [Answer.Kills]

@[simp] theorem action_kills : (Answer.action a).Kills ↔ ∃ pid, a = .killProcess pid := by
  simp [Answer.Kills]

end

/-- What a state of the watchdog tells about the answers so far: quiet since the suspension unless a
heartbeat was heard, and while it is recovering quiet since the kill. -/
structure Tracks (w : Watchdog) (calls : List Call) : Prop where
  suspended : (w.run sha256 calls).1.state = .suspended →
    (QuietSince (Answer.Is .suspendOrchestrator) (Answer.Beat sha256 w.config.secret)
      (w.run sha256 calls).2 ↔ ¬ w.HeardSuspended sha256 calls)
  heard : w.HeardSuspended sha256 calls → (w.run sha256 calls).1.state = .suspended
  recovering : (w.run sha256 calls).1.state = .recovering →
    QuietSince Answer.Kills (Answer.Beat sha256 w.config.secret) (w.run sha256 calls).2

theorem Tracks.receiveHeartbeat (h : w.Tracks sha256 calls) (hb : Heartbeat) (clock : Clock) :
    w.Tracks sha256 (calls ++ [.receiveHeartbeat hb clock]) := by
  have hconfig := run_config sha256 w calls
  obtain ⟨hsusp,hheard,hrec⟩ := h
  cases hv : hb.verify sha256 w.config.secret with
  | false =>
    have hsame : ((w.run sha256 calls).1.receiveHeartbeat sha256 hb clock).1 =
        (w.run sha256 calls).1 := receiveHeartbeat_invalid (by rw [hconfig]; exact hv)
    constructor <;> simp only [run_concat,call,hsame,heardSuspended_receiveHeartbeat,hv]
    · intro hs
      rw [quietSince_concat (by simp)]
      simpa [hv] using hsusp hs
    · simpa using hheard
    · intro hs
      rw [quietSince_concat (by simp)]
      simpa [hv] using hrec hs
  | true =>
    have hnext : ((w.run sha256 calls).1.receiveHeartbeat sha256 hb clock).1.state =
        if (w.run sha256 calls).1.state = .suspended then .suspended else .monitoring :=
      (receiveHeartbeat_valid (by rw [hconfig]; exact hv)).1
    constructor <;> simp only [run_concat,call,hnext,heardSuspended_receiveHeartbeat]
    · intro hs
      rw [quietSince_concat (by simp)]
      have hstate : (w.run sha256 calls).1.state = .suspended := by
        by_contra hne
        simp [hne] at hs
      simp [hv,hstate]
    · rintro (⟨hs,-⟩ | hs)
      · simp [hs]
      · simp [hheard hs]
    · intro hs
      split_ifs at hs

theorem Tracks.checkTimeout (h : w.Tracks sha256 calls)
    (clock : Clock) : w.Tracks sha256 (calls ++ [.checkTimeout clock]) := by
  obtain ⟨-,-,hrec⟩ := h
  have hcases := checkTimeout_cases (w.run sha256 calls).1 clock
  refine ⟨?_,fun hheard => absurd hheard not_heardSuspended_checkTimeout,?_⟩
  · simp only [run_concat,call]
    intro hs
    rw [hs] at hcases
    have hmoves : ((w.run sha256 calls).1.state = .monitoring ∨
          (w.run sha256 calls).1.state = .warned) ∧
        ((w.run sha256 calls).1.checkTimeout clock).2 = .suspendOrchestrator := by
      simpa using hcases
    refine iff_of_true (quietSince_concat_of_opening ?_) not_heardSuspended_checkTimeout
    simp [hmoves.2]
  · simp only [run_concat,call]
    intro hs
    rw [hs] at hcases
    have hmoves : (w.run sha256 calls).1.state = .suspended ∧
          ((w.run sha256 calls).1.checkTimeout clock).2 = .killProcess 0 ∨
        (w.run sha256 calls).1.state = .recovering ∧
          ((w.run sha256 calls).1.checkTimeout clock).2 = .waitForRecovery := by
      simpa using hcases
    rcases hmoves with ⟨-,hkill⟩ | ⟨hstate,hwait⟩
    · exact quietSince_concat_of_opening (by simp [hkill])
    · rw [quietSince_concat (by simp [hwait])]
      exact ⟨not_action_beat,hrec hstate⟩

theorem tracks (config : WatchdogConfig) (calls : List Call) :
    (new config).Tracks sha256 calls := by
  induction calls using reverseRecOn with
  | nil =>
    refine ⟨fun h => ?_,fun h => absurd h not_heardSuspended_nil,fun h => ?_⟩ <;>
      simp [run,Transition.answers,new] at h
  | append_singleton calls c ih =>
    cases c with
    | receiveHeartbeat hb clock => exact ih.receiveHeartbeat sha256 hb clock
    | checkTimeout clock => exact ih.checkTimeout sha256 clock

/-- In every run the watchdog escalates over silence only, if and only if no timeout is checked
after a valid heartbeat that came while it was suspended. -/
theorem killsOnlySilent_iff (config : WatchdogConfig) (calls : List Call) :
    KillsOnlySilent sha256 config.secret ((new config).run sha256 calls).2 ↔
      (new config).LeavesSuspendedUnheard sha256 calls := by
  induction calls using reverseRecOn with
  | nil => exact iff_of_true justified_nil justified_nil
  | append_singleton calls c ih =>
    have htracks := tracks sha256 config calls
    unfold KillsOnlySilent LeavesSuspendedUnheard at ih ⊢
    rw [run_concat,justified_concat,justified_concat,ih]
    refine and_congr_right fun _ => ?_
    cases c with
    | receiveHeartbeat hb clock => simp [call]
    | checkTimeout clock =>
      have hcases := checkTimeout_cases ((new config).run sha256 calls).1 clock
      have hunheard (hs : ((new config).run sha256 calls).1.state ≠ .suspended) :
          ¬ (new config).HeardSuspended sha256 calls := fun h => hs (htracks.heard h)
      simp only [call]
      rcases hcases with ⟨hs,⟨-,ha⟩ | ⟨-,ha | ha,-⟩⟩ | ⟨hs,-,ha⟩ | ⟨hs,⟨-,ha⟩ | ⟨-,ha⟩⟩ | ⟨hs,-,ha⟩
      -- nothing is killed before the suspension, and nothing was heard during it
      iterate 3
        · have hne : ((new config).run sha256 calls).1.state ≠ .suspended := by
            rcases hs with hs | hs <;> simp [hs]
          simp [ha,hunheard hne]
      · simpa [ha] using htracks.suspended hs
      · have hquiet := htracks.recovering hs
        simpa [ha,hunheard (by simp [hs])] using hquiet
      · simp [ha,hunheard (by simp [hs])]
      · simp [ha,hunheard (by simp [hs])]

/-- Three checks without a heartbeat suspend the orchestrator of the default configuration; the
heartbeat that comes then does not keep the next check from killing it. -/
theorem default_kills_after_heartbeat :
    let sha256 : List UInt8 → Digest := fun _ => .zeros
    let beat := Heartbeat.new sha256 0 1 WatchdogConfig.default.secret
    let calls := [.checkTimeout fun _ => 0,.checkTimeout fun _ => 0,.checkTimeout fun _ => 0,
      .receiveHeartbeat beat fun _ => 0,.checkTimeout fun _ => 0]
    let answers := ((new .default).run sha256 calls).2
    answers = [.action .none,.action .warnOrchestrator,.action .suspendOrchestrator,
        .received beat (.ok ()),.action (.killProcess 0)] ∧
      ¬ KillsOnlySilent sha256 WatchdogConfig.default.secret answers := by
  intro sha256 beat calls answers
  have hbeat : beat.verify sha256 WatchdogConfig.default.secret = true :=
    Heartbeat.verify_new sha256 0 1 _
  have hanswers : answers = [.action .none,.action .warnOrchestrator,
      .action .suspendOrchestrator,.received beat (.ok ()),.action (.killProcess 0)] := by
    simp only [WatchdogConfig.default] at hbeat
    simp [answers,calls,run,Transition.answers,call,receiveHeartbeat,checkTimeout,logEvent,new,
      WatchdogConfig.default,hbeat]
  refine ⟨hanswers,fun h => ?_⟩
  have hquiet := (h (.action .none::.action .warnOrchestrator::.action .suspendOrchestrator ::
    [.received beat (.ok ())]) (.action (.killProcess 0)) [] hanswers).1 ⟨0,rfl⟩
  change QuietSince _ _ ([Answer.action .none,.action .warnOrchestrator,
    .action .suspendOrchestrator] ++ [.received beat (.ok ())]) at hquiet
  rw [quietSince_concat received_is] at hquiet
  exact hquiet.1 hbeat

theorem missedCount_lt_default :
    let w := ((new .default).run (fun _ => .zeros) [.checkTimeout fun _ => 0]).1
    w.missedCount = 0 ∨ w.missedCount < 3 :=
  missedCount_lt _ .default _ (by decide)

end Watchdog
end Aios
