import Aios.ProcessMgr.Faults

/-!
Whole runs of the polling functions: a poll can always be brought to its end, an undisturbed call is
the atomic one, and the faults are delivered exactly when no full slot is reaped.
-/
namespace Aios.ProcessMgr.Machine

open Scheduler Transition List
variable {M : Machine} {todo order finished : List ProcessId} {found : List (ProcessId × String)}
  {raised : List FaultInfo} {clk : Clock} {cfg : Config} {pid : ProcessId}

/-- The steps of a poll that has started, and threads ending. -/
def endsPoll : Event → Bool
  | .finish _ | .pollVisit | .pollRaise _ | .pollEnd => true
  | _ => false

/-- The running poll has a way to its end. -/
def Returns (M : Machine) : Prop :=
  ∃ es M' raised, (∀ e ∈ es, endsPoll e = true) ∧ exec step M es = some M' ∧
    M'.phase = .idle ∧ M'.returned = M.returned ++ [raised]

/-- A poll that is under way can be brought to its end: at most the threads it joins have to end. -/
def CanReturn (M : Machine) : Prop :=
  ∀ todo found raised, M.phase = .polling todo found raised → Returns M

theorem step_pollVisit (hphase : M.phase = .polling (pid::todo) found raised) :
    M.step .pollVisit = some { M with
      sched := (M.sched.takeSlot pid).1
      phase := .polling todo (found ++ (M.sched.takeSlot pid).2) raised } := by
  simp only [step,hphase]

theorem step_pollRaise {message : String} (clk : Clock)
    (hphase : M.phase = .polling [] ((pid,message)::found) raised)
    (hjoin : M.sched.joinable pid = true) :
    M.step (.pollRaise clk) = some { M with
      sched := (M.sched.raiseFault clk pid message).1
      phase := .polling [] found (raised ++ [(M.sched.raiseFault clk pid message).2]) } := by
  simp only [step,hphase,hjoin,if_true]

theorem step_pollEnd (hphase : M.phase = .polling [] [] raised) :
    M.step .pollEnd = some { M with phase := .idle, returned := M.returned ++ [raised] } := by
  simp only [step,hphase]

theorem joinable_or_finishes (s : Scheduler) (pid : ProcessId) :
    s.joinable pid = true ∨ ∃ t, s.finishThread pid = some t ∧ t.joinable pid = true := by
  cases hl : s.realThreads.lookup pid with
  | none => exact .inl (by rw [joinable,hl]; rfl)
  | some real =>
    refine .inr ⟨{ s with
      realThreads := s.realThreads.insert pid { real with finished := true } },?_,?_⟩
    · rw [finishThread,hl]
    · rw [joinable,Finmap.lookup_insert]
      rfl

theorem Returns.cons {M₁ : Machine} {e : Event} (hstep : M.step e = some M₁)
    (he : endsPoll e = true) (hret : M₁.returned = M.returned) (h : Returns M₁) : Returns M := by
  obtain ⟨es,M',raised,hes,hexec,hidle,hlast⟩ := h
  exact ⟨e::es,M',raised,forall_mem_cons.mpr ⟨he,hes⟩,exec_cons hstep hexec,hidle,hret ▸ hlast⟩

theorem raises_return (clk : Clock) (hphase : M.phase = .polling [] found raised) : Returns M := by
  induction found generalizing M raised with
  | nil =>
    exact ⟨[.pollEnd],_,raised,by simp [endsPoll],exec_cons (step_pollEnd hphase) rfl,rfl,rfl⟩
  | cons entry found ih =>
    obtain ⟨pid,message⟩ := entry
    rcases joinable_or_finishes M.sched pid with hjoin | ⟨t,ht,hjoin⟩
    · exact .cons (step_pollRaise clk hphase hjoin) rfl rfl (ih rfl)
    · have hfinish : M.step (.finish pid) = some { M with sched := t } := by
        rw [step,ht,Option.map_some]
      exact .cons hfinish rfl rfl (.cons (step_pollRaise clk hphase hjoin) rfl rfl (ih rfl))

theorem canReturn (M : Machine) : CanReturn M := by
  intro todo
  induction todo generalizing M with
  | nil => exact fun found raised hphase => raises_return ⟨0,0⟩ hphase
  | cons pid todo ih =>
    exact fun found raised hphase => .cons (step_pollVisit hphase) rfl rfl (ih _ _ _ rfl)

theorem takePanics_cons (s : Scheduler) (pid : ProcessId) (rest : List ProcessId) :
    s.takePanics (pid::rest) =
      (((s.takeSlot pid).1.takePanics rest).1,
        (s.takeSlot pid).2 ++ ((s.takeSlot pid).1.takePanics rest).2) := by
  have hslot : (s.realThreads.lookup pid).bind RealThread.panic = s.panicOf pid := rfl
  rw [takePanics,hslot,takeSlot]
  cases s.panicOf pid <;> rfl

theorem exec_pollVisits (hphase : M.phase = .polling order found raised) :
    exec step M (replicate order.length .pollVisit) = some { M with
      sched := (M.sched.takePanics order).1
      phase := .polling [] (found ++ (M.sched.takePanics order).2) raised } := by
  induction order generalizing M found with
  | nil =>
    simp only [takePanics,append_nil,← hphase]
    rfl
  | cons pid rest ih =>
    refine exec_cons (step_pollVisit hphase) ?_
    rw [ih rfl,takePanics_cons,append_assoc]

theorem joinable_erase {s t : Scheduler} {j : ProcessId}
    (h : t.realThreads = s.realThreads.erase pid) (hj : s.joinable j = true) :
    t.joinable j = true := by
  rw [joinable,h,Finmap.lookup_erase_if]
  split
  · rfl
  · exact hj

theorem exec_pollRaises (hphase : M.phase = .polling [] found raised)
    (hjoin : ∀ entry ∈ found, M.sched.joinable entry.1 = true) :
    exec step M (replicate found.length (.pollRaise clk)) = some { M with
      sched := (M.sched.raiseFaults clk found).1
      phase := .polling [] [] (raised ++ (M.sched.raiseFaults clk found).2) } := by
  induction found generalizing M raised with
  | nil =>
    simp only [raiseFaults,append_nil,← hphase]
    rfl
  | cons entry rest ih =>
    obtain ⟨hhead,hrest⟩ := forall_mem_cons.mp hjoin
    refine exec_cons (step_pollRaise clk hphase hhead) ?_
    rw [ih rfl fun e he => joinable_erase (raiseFault_frame _ clk _ _).1 (hrest e he),append_assoc]
    rfl

theorem takePanics_joinable (s : Scheduler) (j : ProcessId) :
    (s.takePanics order).1.joinable j = s.joinable j := by
  induction order generalizing s with
  | nil => rfl
  | cons pid rest ih =>
    rw [takePanics_cons]
    refine (ih _).trans ?_
    unfold takeSlot
    split
    · rfl
    · unfold joinable clearPanic
      rw [Finmap.lookup_adjust]
      split
      · rw [Option.map_map]
        rfl
      · rfl

/-- A poll during which no thread moves is the atomic `poll_faults`, provided the threads
it has to join have ended. -/
theorem exec_poll (hidle : M.phase = .idle) (horder : Finmap.Enumerates order M.sched.realThreads)
    (hjoin : ∀ pid, (M.sched.panicOf pid).isSome → M.sched.joinable pid = true) :
    exec step M (.pollStart order::(replicate order.length .pollVisit ++
      (replicate (M.sched.takePanics order).2.length (.pollRaise clk) ++ [.pollEnd]))) =
    some { M with
      sched := (M.sched.pollFaults order clk).1
      atStart := M.recorded
      returned := M.returned ++ [(M.sched.pollFaults order clk).2] } := by
  have hstart : M.step (.pollStart order) = some { M with
      phase := .polling order [] [], atStart := M.recorded } := by
    simp only [step,hidle,horder,if_true]
  have hfound : ∀ entry ∈ [] ++ (M.sched.takePanics order).2,
      (M.sched.takePanics order).1.joinable entry.1 = true := by
    intro entry hentry
    rw [nil_append,takePanics_found horder.1,mem_filterMap] at hentry
    obtain ⟨pid,-,hsome⟩ := hentry
    obtain ⟨message,hm,rfl⟩ := Option.map_eq_some_iff.mp hsome
    rw [takePanics_joinable]
    exact hjoin pid (by rw [hm]; rfl)
  refine exec_cons hstart (exec_trans (exec_pollVisits rfl) ?_)
  refine exec_trans (exec_pollRaises rfl hfound) (exec_cons (step_pollEnd rfl) ?_)
  rw [← hidle]
  rfl

theorem exec_checkVisits (hphase : M.phase = .checking order finished) :
    exec step M (replicate order.length .checkVisit) = some { M with
      phase := .checking [] (finished ++ M.sched.finishedThreads order) } := by
  induction order generalizing M finished with
  | nil =>
    simp only [finishedThreads,filter_nil,append_nil,← hphase]
    rfl
  | cons pid rest ih =>
    have hvisit : M.step .checkVisit = some { M with
        phase := .checking rest
          (if M.sched.threadFinished pid then finished ++ [pid] else finished) } := by
      simp only [step,hphase]
    refine exec_cons hvisit ?_
    rw [ih rfl,finishedThreads,finishedThreads,filter_cons]
    change some _ = some ({ M with
      phase := .checking [] (finished ++ if M.sched.threadFinished pid then _ else _) } : Machine)
    split <;> simp

theorem exec_checkReaps (hphase : M.phase = .checking [] finished) :
    exec step M (replicate finished.length .checkReap) = some { M with
      sched := finished.foldl reapThread M.sched
      phase := .checking [] [] } := by
  induction finished generalizing M with
  | nil => rw [← hphase]; rfl
  | cons pid rest ih =>
    have hreap : M.step .checkReap = some { M with
        sched := M.sched.reapThread pid, phase := .checking [] rest } := by
      simp only [step,hphase]
    refine exec_cons hreap ?_
    rw [ih rfl,foldl_cons]

/-- A check during which no thread moves is the atomic `check_real_threads`. -/
theorem exec_check (hidle : M.phase = .idle)
    (horder : Finmap.Enumerates order M.sched.realThreads) :
    exec step M (.checkStart order::(replicate order.length .checkVisit ++
      (replicate (M.sched.finishedThreads order).length .checkReap ++ [.checkEnd]))) =
    some { M with sched := (M.sched.checkRealThreads order).1 } := by
  have hstart : M.step (.checkStart order) = some { M with phase := .checking order [] } := by
    simp only [step,hidle,horder,if_true]
  refine exec_cons hstart (exec_trans (exec_checkVisits rfl) ?_)
  refine exec_trans (exec_checkReaps rfl) (exec_cons rfl ?_)
  rw [← hidle]
  rfl

theorem init_copies (pid : ProcessId) : (init cfg).copies pid = 0 := by
  simp [copies,init,Phase.pending,panicOf,Scheduler.init,new,withTimeSlice,
    withAgingThreshold,withMaxRestarts]

theorem init_threadFacts : ThreadFacts (init cfg) := by
  have hslot (pid : ProcessId) : (init cfg).sched.slotOf pid = none := rfl
  refine ⟨fun pid slot hrec => absurd rfl hrec,fun pid hrec => absurd rfl hrec,
    fun pid hs => absurd (hslot pid) hs,init_pidsBelow cfg,fun pid process hl => (nomatch hl),
    fun pid hk => (nomatch hk),fun pid m hm => ?_⟩
  cases hm

theorem init_delivery : Delivery (init cfg) :=
  ⟨fun pid => (init_copies pid).trans_le (Nat.zero_le 1),fun pid _ => init_copies pid,
    fun _ hi => absurd hi not_mem_nil,fun _ _ _ hp => nomatch hp⟩

/-- In every interleaving a reported fault was recorded, and none is reported twice. -/
theorem faults_reported_once (cfg : Config) (es : List Event) :
    Always step (fun M => (M.returned.flatten.map FaultInfo.pid).Nodup ∧
      ∀ info ∈ M.returned.flatten, M.recorded info.pid = some info.message) (init cfg) es := by
  have hall : Always step (fun M => ThreadFacts M ∧ Delivery M) (init cfg) es :=
    always_of_step (fun _ _ _ h hst => ⟨step_threadFacts h.1 hst,step_delivery h.2 h.1 hst⟩)
      ⟨init_threadFacts,init_delivery⟩ es
  refine hall.mono fun M h => ⟨nodup_iff_count_le_one.mpr fun pid => ?_,h.2.reports⟩
  have hcopies := h.2.atMostOnce pid
  rw [copies_eq,taken] at hcopies
  omega

/-- However the threads run beside the scheduler, no fault is lost, none is reported twice
and every poll reports the panics recorded before it, precisely if `check_real_threads`
never reaps a thread whose slot still holds a panic. -/
theorem faults_delivered_iff_reaps_empty_slots (cfg : Config) (es : List Event) :
    (Always step (fun M => Conserved M ∧ CanReturn M) (init cfg) es ∧
      EachStep step PollReports (init cfg) es) ↔
    EachStep step (fun M e _ => ReapsEmptySlots M e) (init cfg) es := by
  have hfacts : ThreadFacts (init cfg) ∧ Delivery (init cfg) :=
    ⟨init_threadFacts,init_delivery⟩
  have hstep (M : Machine) (e : Event) (M' : Machine) (h : ThreadFacts M ∧ Delivery M)
      (hst : M.step e = some M') : ThreadFacts M' ∧ Delivery M' :=
    ⟨step_threadFacts h.1 hst,step_delivery h.2 h.1 hst⟩
  have hinit : Conserved (init cfg) ∧ CanReturn (init cfg) :=
    ⟨fun pid => ⟨init_delivery.atMostOnce pid,fun hrec => absurd rfl hrec⟩,canReturn _⟩
  have hiff : Always step (fun M => Conserved M ∧ CanReturn M) (init cfg) es ↔
      EachStep step (fun M e _ => ReapsEmptySlots M e) (init cfg) es :=
    always_iff_eachStep (J := fun M => ThreadFacts M ∧ Delivery M) hstep (fun M e M' hj h hst =>
        (and_iff_left (canReturn M')).trans (step_conserved_iff h.1 hj.2 hj.1 hst))
      hfacts hinit es
  refine ⟨fun h => hiff.mp h.1,fun h => ⟨hiff.mpr h,?_⟩⟩
  have hall := (hiff.mpr h).and (always_of_step hstep hfacts es)
  exact Always.eachStep (Q := PollReports)
    (fun M e M' hP _ hst => step_pollReports hP.1.1 hP.2.2 hst) hall h

def checkBeforePollRun : List Event :=
  [.call (.spawnRealProcess ⟨0,0⟩ (.ok ()) "a" .normal 16),.panic 1 "boom",.finish 1,
    .checkStart [1],.checkVisit,.checkReap,.checkEnd,.pollStart [],.pollEnd]

/-- The poll returns nothing, although the process panicked and was not killed. -/
theorem checkBeforePoll_loses_fault :
    ∃ M, exec step (init ⟨256,10,500,3⟩) checkBeforePollRun = some M ∧
      M.returned = [[]] ∧ ¬ Conserved M := by
  refine ⟨_,rfl,rfl,fun h => ?_⟩
  have hone := (h 1).2 (by decide) (by decide)
  revert hone
  decide

def ended : Machine := (exec step (init ⟨256,10,500,3⟩) (checkBeforePollRun.take 3)).get rfl

theorem exec_poll_ended :
    exec step ended [.pollStart [1],.pollVisit,.pollRaise ⟨0,0⟩,.pollEnd] = some { ended with
      sched := (ended.sched.pollFaults [1] ⟨0,0⟩).1
      atStart := ended.recorded
      returned := [(ended.sched.pollFaults [1] ⟨0,0⟩).2] } := by
  have horder : Finmap.Enumerates [1] ended.sched.realThreads := by decide
  refine exec_poll rfl horder fun pid _ => ?_
  by_cases hpid : pid = 1
  · rw [hpid]
    rfl
  · rw [joinable,Finmap.lookup_eq_none.mpr (mt (horder.2 pid).mpr (by simpa using hpid))]
    rfl

theorem exec_check_ended :
    exec step ended [.checkStart [1],.checkVisit,.checkReap,.checkEnd] =
      some { ended with sched := (ended.sched.checkRealThreads [1]).1 } :=
  exec_check rfl (by decide)

end Aios.ProcessMgr.Machine
