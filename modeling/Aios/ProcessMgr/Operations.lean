import Aios.Lib.Transition
import Aios.ProcessMgr.Dispatch

/-!
Runs of the host scheduler: every public operation that can change its state, with all arguments,
clock readings and iteration orders, and what the task threads do on their own.
-/
namespace Aios.ProcessMgr

inductive Op where
  | forcePreempt (clk : Clock)
  | setSchedulingMode (mode : SchedulingMode)
  | setRtDeadline (pid : ProcessId) (deadlineMs : UInt64)
  | clearRtDeadline (pid : ProcessId)
  | clearJitterLog
  | setLastScheduled (pid : ProcessId) (ms : UInt64)
  | spawnProcess (clk : Clock) (name : String) (priority : Priority) (ramMb : UInt64)
  | spawnRealProcess (clk : Clock) (os : Except String Unit) (name : String)
      (priority : Priority) (ramMb : UInt64)
  | spawnChild (parentPid : ProcessId) (name : String) (priority : Priority) (ramMb : UInt64)
  | killProcess (pid : ProcessId)
  | setPriority (pid : ProcessId) (priority : Priority)
  | suspendProcess (pid : ProcessId)
  | resumeProcess (pid : ProcessId)
  | reportCrash (clk : Clock) (pid : ProcessId)
  | pollFaults (order : List ProcessId) (clk : Clock)
  | takeFaults
  | resolveFault (pid : ProcessId) (action : RecoveryAction)
  | scheduleNext (order : List ProcessId) (clk : Clock)
  | tick (order : List ProcessId) (clk later : Clock)
  | registerMemoryPressureCallback (name : String)
  | createGroup (clk : Clock) (name : String) (priority : Priority)
  | createSession (clk : Clock) (name : String) (priority : Priority)
  | addToGroup (pid : ProcessId) (groupId : ℕ)
  | removeFromGroup (pid : ProcessId)
  | checkRealThreads (order : List ProcessId)
  | setCpuAffinity (pid : ProcessId) (cores : List ℕ)
  | killGroup (groupId : ℕ)
  | suspendGroup (groupId : ℕ)
  | resumeGroup (groupId : ℕ)
  | setGroupPriority (groupId : ℕ) (priority : Priority)
  | recordPanic (pid : ProcessId) (message : String)
  | finishThread (pid : ProcessId)

namespace Scheduler

/-- The state after one operation. An iteration order visits every key of the map exactly once. -/
def step (s : Scheduler) : Op → Option Scheduler
  | .forcePreempt clk => some (s.forcePreempt clk)
  | .setSchedulingMode mode => some (s.setSchedulingMode mode)
  | .setRtDeadline pid ms => some (s.setRtDeadline pid ms)
  | .clearRtDeadline pid => some (s.clearRtDeadline pid)
  | .clearJitterLog => some s.clearJitterLog
  | .setLastScheduled pid ms => some (s.setLastScheduled pid ms)
  | .spawnProcess clk name priority ramMb => some (s.spawnProcess clk name priority ramMb).1
  | .spawnRealProcess clk os name priority ramMb =>
    some (s.spawnRealProcess clk os name priority ramMb).1
  | .spawnChild parent name priority ramMb => some (s.spawnChild parent name priority ramMb).1
  | .killProcess pid => some (s.killProcess pid).1
  | .setPriority pid priority => some (s.setPriority pid priority).1
  | .suspendProcess pid => some (s.suspendProcess pid).1
  | .resumeProcess pid => some (s.resumeProcess pid).1
  | .reportCrash clk pid => some (s.reportCrash clk pid).1
  | .pollFaults order clk =>
    if Finmap.Enumerates order s.realThreads then some (s.pollFaults order clk).1 else none
  | .takeFaults => some s.takeFaults.1
  | .resolveFault pid action => some (s.resolveFault pid action).1
  | .scheduleNext order clk =>
    if Finmap.Enumerates order s.processes then (s.scheduleNext order clk).map Prod.fst else none
  | .tick order clk later =>
    if Finmap.Enumerates order s.processes then (s.tick order clk later).map Prod.fst else none
  | .registerMemoryPressureCallback name => some (s.registerMemoryPressureCallback name)
  | .createGroup clk name priority => some (s.createGroup clk name priority).1
  | .createSession clk name priority => some (s.createSession clk name priority).1
  | .addToGroup pid groupId => some (s.addToGroup pid groupId).1
  | .removeFromGroup pid => some (s.removeFromGroup pid).1
  | .checkRealThreads order =>
    if Finmap.Enumerates order s.realThreads then some (s.checkRealThreads order).1 else none
  | .setCpuAffinity pid cores => some (s.setCpuAffinity pid cores).1
  | .killGroup groupId => some (s.killGroup groupId).1
  | .suspendGroup groupId => some (s.suspendGroup groupId).1
  | .resumeGroup groupId => some (s.resumeGroup groupId).1
  | .setGroupPriority groupId priority => some (s.setGroupPriority groupId priority).1
  | .recordPanic pid message => s.recordPanic pid message
  | .finishThread pid => s.finishThread pid

structure Config where
  totalRamMb : UInt64
  timeSliceMs : UInt64
  agingThresholdMs : UInt64
  maxRestarts : UInt32

def init (cfg : Config) : Scheduler :=
  (((new cfg.totalRamMb).withTimeSlice cfg.timeSliceMs).withAgingThreshold
    cfg.agingThresholdMs).withMaxRestarts cfg.maxRestarts

end Scheduler
end Aios.ProcessMgr
