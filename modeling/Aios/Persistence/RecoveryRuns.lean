import Aios.Persistence.Recovery
import Aios.Lib.Transition

/-!
Runs of a recovery log over restarts. The ids start again from zero, while the earlier completions
stay in the file; an entry is lost when its id has a completion there.
-/
namespace Aios.Persistence

open Lines TextCodec Transition Bincode List

inductive Action where
  | logged (e : RecoveryEntry)
  | marked (id : UInt64)
  | reopened

/-- The entries that a log owes after a history, the last action first: those logged and not marked
since, in their order. While there are more than `max`, the oldest may have been dropped. -/
def Owed (max : ℕ) : List Action → List RecoveryEntry → Prop
  | [], es => es = []
  | .logged e::history, es =>
    ∃ before, Owed max history before ∧
      (es = before ++ [e] ∨
        max < before.length+1 ∧ max ≤ es.length ∧ es <:+ before ++ [e])
  | .marked id::history, es =>
    ∃ before, Owed max history before ∧ es = before.filter fun e => e.id ≠ id
  | .reopened::history, es => Owed max history es

/-- The newest entry is never dropped. -/
theorem Owed.newest_mem {max : ℕ} (hmax : 1 ≤ max) {e : RecoveryEntry} {history : List Action}
    {es : List RecoveryEntry} (h : Owed max (.logged e::history) es) : e ∈ es := by
  obtain ⟨before,-,rfl | ⟨-,hlen,hsuffix⟩⟩ := h
  · simp
  · have hne : es ≠ [] := ne_nil_of_length_pos (by omega)
    have hlast := hsuffix.getLast hne
    rw [getLast_append_singleton] at hlast
    exact hlast ▸ getLast_mem hne

structure Canonical (bytes : List UInt8) : Prop where
  clean : tail newline bytes = []
  lines : ∀ p ∈ lines newline bytes, ∃ r : Record, p.2 = r.text

theorem Canonical.nil : Canonical [] := ⟨rfl,fun p hp => by cases hp⟩

theorem Canonical.append_line {bytes : List UInt8} (h : Canonical bytes) (r : Record) :
    Canonical (bytes ++ r.line) := by
  have hnew := newline_notMem_text r
  refine ⟨tail_append_line hnew,fun p hp => ?_⟩
  rw [Record.line,lines_append_line hnew] at hp
  obtain hold | hlast := mem_append.mp hp
  · exact h.lines p hold
  · rw [mem_singleton.mp hlast,h.clean]
    exact ⟨r,rfl⟩

variable {id max : UInt64} {s t : LogRun}

namespace RecoveryLog

variable {l : RecoveryLog}

/-- The file has a line that completes the given id. -/
def HasCompletion (l : RecoveryLog) (id : UInt64) : Prop :=
  (Record.completed id).text ∈ (lines newline l.content).map Prod.snd

instance (l : RecoveryLog) (id : UInt64) : Decidable (l.HasCompletion id) :=
  inferInstanceAs (Decidable (_ ∈ _))

section
variable (h : Canonical l.content)
include h

theorem mem_completedIds_iff : id ∈ completedIds l.records ↔ l.HasCompletion id := by
  have hrecord : id ∈ completedIds l.records ↔ Record.completed id ∈ l.records := by
    simp only [completedIds,mem_filterMap]
    constructor
    · rintro ⟨r,hr,hid⟩
      cases r with
      | entry e => cases hid
      | completed id' => cases hid; exact hr
    · exact fun hr => ⟨_,hr,rfl⟩
  rw [hrecord,HasCompletion,mem_map,records,Lines.records,mem_filterMap]
  refine exists_congr fun p => and_congr_right fun hp => ?_
  obtain ⟨r,hr⟩ := h.lines p hp
  rw [hr,parseLine_text]
  refine ⟨fun hsome => by rw [Option.some.inj hsome],fun htext => ?_⟩
  have hsame := congrArg parseLine htext
  rwa [parseLine_text,parseLine_text] at hsame

theorem foldl_rewrite (es : List RecoveryEntry) : Canonical (es.foldl rewrite l).content ∧
      (es.foldl rewrite l).records = l.records ++ es.map .entry ∧
      (es.foldl rewrite l).maxEntries = l.maxEntries := by
  induction es generalizing l with
  | nil => simp [h]
  | cons e es ih =>
    obtain ⟨hcanonical,hrecords,hmax⟩ := ih (l := l.rewrite e) (h.append_line (.entry e))
    have hfirst : (l.rewrite e).records = l.records ++ [.entry e] :=
      records_append_line h.clean (.entry e)
    refine ⟨hcanonical,?_,hmax⟩
    rw [foldl_cons,hrecords,hfirst,map_cons,append_assoc,singleton_append]

theorem cleanup_spec : Canonical l.cleanup.content ∧ l.cleanup.maxEntries = l.maxEntries ∧
      l.cleanup.getPendingEntries =
        if l.maxEntries.toNat < l.getPendingEntries.length then
          l.getPendingEntries.drop (l.getPendingEntries.length-l.maxEntries.toNat)
        else l.getPendingEntries := by
  unfold cleanup
  dsimp only
  split
  · generalize hkept : l.getPendingEntries.drop _ = kept
    obtain ⟨hcanonical,hrecords,hmax⟩ :=
      foldl_rewrite (l := { l.clear with nextId := 0 }) Canonical.nil kept
    refine ⟨hcanonical,hmax,?_⟩
    have hempty : ({ l.clear with nextId := 0 } : RecoveryLog).records = [] := rfl
    rw [getPendingEntries_eq,hrecords,hempty,nil_append]
    refine pendingOf_map_entry fun e he => ?_
    rw [← hkept,getPendingEntries_eq] at he
    exact (notMem_completedIds_of_mem_pendingOf (mem_of_mem_drop he)).1
  · exact ⟨h,rfl,rfl⟩

/-- What `log_entry` leaves to be returned: the new entry unless its id is completed already,
and of too many only the newest. -/
theorem logEntry_spec (op target : Text) (now : UInt64) :
    ∃ entries, entries = l.getPendingEntries ++
        (if l.HasCompletion l.nextId then [] else [l.newEntry op target now]) ∧
      Canonical (l.logEntry op target now).content ∧
      (l.logEntry op target now).maxEntries = l.maxEntries ∧
      ((l.logEntry op target now).getPendingEntries = entries ∨
        l.maxEntries.toNat < entries.length ∧
          (l.logEntry op target now).getPendingEntries =
            entries.drop (entries.length-l.maxEntries.toNat)) := by
  unfold logEntry
  generalize hlogged : ({ l.append (Record.entry (l.newEntry op target now)).line with
    nextId := l.nextId+1 } : RecoveryLog) = logged
  have hcanonical : Canonical logged.content := hlogged ▸ h.append_line _
  have hmax : logged.maxEntries = l.maxEntries := hlogged ▸ rfl
  have hrecords : logged.records = l.records ++ [.entry (l.newEntry op target now)] :=
    hlogged ▸ records_append_line h.clean _
  have hpending : logged.getPendingEntries = l.getPendingEntries ++
      (if l.HasCompletion l.nextId then [] else [l.newEntry op target now]) := by
    rw [getPendingEntries_eq,hrecords,pendingOf_append_entry,← getPendingEntries_eq]
    simp only [newEntry,mem_completedIds_iff h,true_and,ite_not]
  refine ⟨_,rfl,?_⟩
  rw [← hpending,← hmax]
  dsimp only
  split
  · obtain ⟨hclean,hsame,hkept⟩ := cleanup_spec hcanonical
    refine ⟨hclean,hsame,?_⟩
    rw [hkept]
    split
    · next hmany => exact .inr ⟨hmany,rfl⟩
    · exact .inl rfl
  · exact ⟨hcanonical,rfl,.inl rfl⟩

theorem markCompleted_spec (id : UInt64) : Canonical (l.markCompleted id).content ∧
      (l.markCompleted id).getPendingEntries = l.getPendingEntries.filter fun e => e.id ≠ id := by
  refine ⟨h.append_line _,?_⟩
  rw [getPendingEntries_eq,markCompleted,records_append_line h.clean,
    pendingOf_append_completed,getPendingEntries_eq]

theorem hasCompletion_markCompleted (id : UInt64) : (l.markCompleted id).HasCompletion id := by
  rw [← mem_completedIds_iff (markCompleted_spec h id).1,markCompleted,records_append_line h.clean]
  simp [completedIds,Record.completedId?]

end
end RecoveryLog

open RecoveryLog

structure LogRun where
  log : RecoveryLog
  history : List Action

inductive LogOp where
  | logEntry (op target : Text) (now : UInt64)
  | markCompleted (id : UInt64)
  /-- A restart of the process, which opens the same file. -/
  | reopen

namespace LogRun

def start (max : UInt64) : LogRun := ⟨.new none max,[]⟩

def Returned (s : LogRun) (id : UInt64) : Prop :=
  ∃ a ∈ s.history, match a with
    | .logged e => e.id = id
    | _ => False

instance (s : LogRun) (id : UInt64) : Decidable (s.Returned id) :=
  haveI (a : Action) : Decidable (match a with | .logged e => e.id = id | _ => False) := by
    cases a <;> dsimp only <;> infer_instance
  inferInstanceAs (Decidable (∃ a ∈ s.history, _))

def step (s : LogRun) : LogOp → Option LogRun
  | .logEntry op target now =>
    some ⟨s.log.logEntry op target now,.logged (s.log.newEntry op target now)::s.history⟩
  | .markCompleted id =>
    if s.Returned id then some ⟨s.log.markCompleted id,.marked id::s.history⟩ else none
  | .reopen => some ⟨.new s.log.file s.log.maxEntries,.reopened::s.history⟩

theorem step_of_returned (h : s.Returned id) :
    s.step (.markCompleted id) = some ⟨s.log.markCompleted id,.marked id::s.history⟩ :=
  if_pos h

theorem step_markCompleted (h : s.step (.markCompleted id) = some t) :
    t = ⟨s.log.markCompleted id,.marked id::s.history⟩ := by
  obtain ⟨-,ht⟩ := Option.ite_none_right_eq_some.mp h
  exact (Option.some.inj ht).symm

/-- The log returns what it owes. -/
def Exact (max : UInt64) (s : LogRun) : Prop :=
  Owed max.toNat s.history s.log.getPendingEntries

/-- An entry is logged only under an id that the file has no completion for. -/
def FreshId (s : LogRun) (op : LogOp) (_ : LogRun) : Prop :=
  match op with
  | .logEntry _ _ _ => ¬ s.log.HasCompletion s.log.nextId
  | .markCompleted _ | .reopen => True

structure Written (max : UInt64) (s : LogRun) : Prop where
  canonical : Canonical s.log.content
  maxEntries : s.log.maxEntries = max

theorem Written.step (h : Written max s) (op : LogOp) (ht : s.step op = some t) :
    Written max t := by
  cases op with
  | logEntry op target now =>
    cases ht
    obtain ⟨-,-,hcanonical,hmax,-⟩ := logEntry_spec h.canonical op target now
    exact ⟨hcanonical,hmax.trans h.maxEntries⟩
  | markCompleted id =>
    rw [step_markCompleted ht]
    exact ⟨(markCompleted_spec h.canonical id).1,h.maxEntries⟩
  | reopen =>
    cases ht
    exact ⟨h.canonical,h.maxEntries⟩

/-- A new entry is owed; it is there precisely if its id is fresh. -/
theorem logEntry_exact_iff (hmax : 1 ≤ max.toNat) (h : Written max s) (hexact : s.Exact max)
    (op target : Text) (now : UInt64) :
    Owed max.toNat (.logged (s.log.newEntry op target now)::s.history)
        (s.log.logEntry op target now).getPendingEntries ↔
      ¬ s.log.HasCompletion s.log.nextId := by
  obtain ⟨entries,hentries,-,-,hkept⟩ := logEntry_spec h.canonical op target now
  rw [h.maxEntries] at hkept
  constructor
  · intro howed hcompleted
    -- The newest entry must be there, but its id is one of the completed ones.
    have hnewest := howed.newest_mem hmax
    have hmem : s.log.newEntry op target now ∈ entries := by
      obtain hall | ⟨-,hdrop⟩ := hkept
      · exact hall ▸ hnewest
      · rw [hdrop] at hnewest
        exact mem_of_mem_drop hnewest
    rw [hentries,if_pos hcompleted,append_nil,getPendingEntries_eq] at hmem
    exact (notMem_completedIds_of_mem_pendingOf hmem).2
      ((mem_completedIds_iff h.canonical).mpr hcompleted)
  · intro hfresh
    rw [if_neg hfresh] at hentries
    refine ⟨_,hexact,?_⟩
    obtain hall | ⟨hmany,hdrop⟩ := hkept
    · exact .inl (hall.trans hentries)
    · refine .inr ⟨by simpa [hentries] using hmany,?_,?_⟩
      · rw [hdrop,length_drop]
        omega
      · rw [hdrop,← hentries]
        exact drop_suffix _ _

theorem step_exact_iff (hmax : 1 ≤ max.toNat) {op : LogOp} (h : Written max s)
    (hexact : s.Exact max) (ht : s.step op = some t) : t.Exact max ↔ FreshId s op t := by
  cases op with
  | logEntry op target now =>
    cases ht
    exact logEntry_exact_iff hmax h hexact op target now
  | markCompleted id =>
    rw [step_markCompleted ht]
    exact iff_of_true ⟨_,hexact,(markCompleted_spec h.canonical id).2⟩ trivial
  | reopen =>
    cases ht
    exact iff_of_true hexact trivial

theorem start_written (max : UInt64) : Written max (start max) := ⟨Canonical.nil,rfl⟩

/-- The log is exact throughout a run precisely if every entry is logged under a fresh id. -/
theorem exact_iff_fresh_ids {max : UInt64} (hmax : 1 ≤ max) (ops : List LogOp) :
    Always step (Exact max) (start max) ops ↔ EachStep step FreshId (start max) ops :=
  always_iff_eachStep (J := Written max) (fun _ op _ h => h.step op)
    (fun _ _ _ h hexact ht => step_exact_iff (UInt64.le_iff_toNat_le.mp hmax) h hexact ht)
    (start_written max) rfl ops

theorem exact_iff_fresh_ids_restart : Always step (Exact 100) (start 100)
      [.logEntry swapText swapText 7,.markCompleted 0,.logEntry swapText swapText 8,.reopen] := by
  have hfirst : ¬ (start 100).log.HasCompletion 0 := by decide
  have hsecond : ¬ (((start 100).log.logEntry swapText swapText 7).markCompleted 0).HasCompletion
      1 := by decide +kernel
  apply (exact_iff_fresh_ids (by decide) _).mpr
  rintro _ ⟨⟩
  refine ⟨hfirst,fun _ hmark => ⟨trivial,?_⟩⟩
  rw [step_markCompleted hmark]
  rintro _ ⟨⟩
  refine ⟨hsecond,?_⟩
  rintro _ ⟨⟩
  exact ⟨trivial,trivial⟩

/-- An entry is logged and completed; after a restart the next entry gets its id. -/
theorem restarted_log_hides_entry : ¬ Always step (Exact 100) (start 100)
      [.logEntry swapText swapText 7,.markCompleted 0,.reopen,.logEntry swapText swapText 8] := by
  intro h
  have hreturned : (⟨(start 100).log.logEntry swapText swapText 7,
      [.logged ((start 100).log.newEntry swapText swapText 7)]⟩ : LogRun).Returned 0 :=
    ⟨_,mem_cons_self,rfl⟩
  have hlogged := (start_written 100).step (.logEntry swapText swapText 7) rfl
  have hmarked := hlogged.step (.markCompleted 0) (step_of_returned hreturned)
  have hreopened := hmarked.step .reopen rfl
  obtain ⟨hexact,hlast⟩ := ((h.2 _ rfl).2 _ (step_of_returned hreturned)).2 _ rfl
  refine (logEntry_exact_iff (by decide) hreopened hexact swapText swapText 8).mp (hlast _ rfl) ?_
  exact hasCompletion_markCompleted hlogged.canonical 0

end LogRun
end Aios.Persistence
