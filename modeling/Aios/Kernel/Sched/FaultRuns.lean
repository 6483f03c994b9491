import Aios.Kernel.Sched.FaultQueue

/-!
The fault queue along runs. An observer knows which tasks a fault or a hang has stopped, whatever
the queue says.
-/
namespace Aios.Kernel.Sched

open Transition

structure Watched where
  machine : Machine
  stopped : Fin maxTasks → Bool

namespace Watched

def start (ticks : UInt64) : Watched := ⟨.init ticks,fun _ => false⟩

def step (w : Watched) (e : Event) : Option Watched :=
  (w.machine.respond e).map fun r =>
    ⟨r.machine,fun i => decide ((i ∈ r.frozen ∨ w.stopped i = true) ∧
      (r.machine.tasks i).present = true ∧ (r.machine.tasks i).sleepUntil = never)⟩

/-- A task has one record at most and does not run meanwhile; a stopped one has one; and the flag
for the dialog says whether there is any. -/
structure Consistent (w : Watched) : Prop where
  unique : w.machine.faults.pids.Nodup
  frozen : ∀ i ∈ w.machine.faults.pids, w.machine.current ≠ some i ∧
    (w.machine.tasks i).present = true ∧ (w.machine.tasks i).sleepUntil = never
  recorded : ∀ i, w.stopped i = true → i ∈ w.machine.faults.pids
  pending : w.machine.faults.pending = true ↔ w.machine.faults.queue ≠ []

structure Accounted (w : Watched) : Prop where
  sound : w.machine.Sound
  recorded : ∀ i, w.stopped i = true → i ∈ w.machine.faults.pids

theorem Accounted.consistent {w : Watched} (h : w.Accounted) : w.Consistent where
  unique := h.sound.unique
  frozen i hi := ⟨fun hc => h.sound.free i hc hi,(h.sound.frozen i hi).2⟩
  recorded := h.recorded
  pending := h.sound.pending

theorem Accounted.step {w : Watched} (h : w.Accounted) {e : Event} (hC : w.machine.Calm e)
    {w' : Watched} (hstep : w.step e = some w') : w'.Accounted := by
  obtain ⟨r,hr,rfl⟩ := Option.map_eq_some_iff.mp hstep
  have hlead := h.sound.respond hC hr
  refine ⟨hlead.sound,fun i hi => ?_⟩
  simp only [decide_eq_true_eq] at hi
  obtain ⟨hstopped,hpresent,hnever⟩ := hi
  exact hlead.recorded i (hstopped.imp_right (h.recorded i)) hpresent hnever

/-- Along a run in which no exception finds the watchdog due for its task, the queue is the
list of the stopped tasks. -/
theorem consistent_of_calm (ticks : UInt64) (es : List Event)
    (h : EachStep step (fun w e _ => w.machine.Calm e) (start ticks) es) :
    Always step Consistent (start ticks) es := by
  have hstart : (start ticks).Accounted := ⟨Machine.sound_init ticks,fun _ hi => nomatch hi⟩
  have haccounted : Always step Accounted (start ticks) es :=
    h.always (fun _ _ _ hw hC hstep => hw.step hC hstep) hstart
  exact haccounted.mono fun _ => Accounted.consistent

/-- A user task is registered, and gets the CPU after boot. -/
def launch : List Event :=
  [.spawnUser 0x400000 0x500000 0 0,.bootFinished 0x100000 0x200000,
    .trap 250 kernelCs 0x100000 [],.trap 250 kernelCs 0x100000 []]

theorem consistent_of_calm_launch : EachStep step (fun w e _ => w.machine.Calm e) (start 0)
      (launch ++ [.trap 14 userCs 0x401000 [],.resolve .terminate]) ∧
    Always step Consistent (start 0)
      (launch ++ [.trap 14 userCs 0x401000 [],.resolve .terminate]) :=
  ⟨by decide +kernel,consistent_of_calm 0 _ (by decide +kernel)⟩

/-- The task sleeps for the ten seconds of the watchdog, which pass in the idle task, and
faults where it left off. -/
def relapse : List Event :=
  launch ++ [.trap 128 userCs 0x401000 [(.rax,sysSleep),(.rdi,hangWatchdogTicks)]] ++
    List.replicate hangWatchdogTicks.toNat (.trap 32 kernelCs 0x100000 []) ++
    [.trap 250 kernelCs 0x100000 [],.trap 14 userCs 0x401000 []]

/-- The exception is recorded, and so is the hang that the watchdog sees in the same task. -/
theorem fault_after_sleep_recorded_twice : ∃ es, ¬ Always step Consistent (start 0) es := by
  have hrun : (exec step (start 0) relapse).map (·.machine.faults.pids) = some [1,1] := by
    decide +kernel
  obtain ⟨w,hw,hpids⟩ := Option.map_eq_some_iff.mp hrun
  refine ⟨relapse,fun h => ?_⟩
  have hunique := (h.last hw).unique
  rw [hpids] at hunique
  exact absurd hunique (by decide)

end Watched
end Aios.Kernel.Sched
