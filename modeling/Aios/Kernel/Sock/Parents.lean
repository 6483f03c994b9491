import Aios.Kernel.Sock.Tuples

/-!
Which listener a connection was opened through. A child keeps the slot number of its listener, and
slots are used again; so the table goes along with the number of times that each slot was taken.
-/
namespace Aios.Kernel.Sock

open Transition

namespace SlotEvent

def takes : SlotEvent → Bool
  | .fresh _ _ _ | .child _ _ _ _ _ _ _ => true
  | _ => false

/-- The local port after an event that takes no slot. -/
def portAfter (sk : Socket) : SlotEvent → UInt16
  | .bind port => port
  | _ => sk.port

/-- The socket in the slot is the one from before: its owner, its port unless it was bound again,
its parent until it was handed out. -/
structure Keeps (ev : SlotEvent) (sk sk' : Socket) : Prop where
  used : sk'.used = true → sk.used = true
  pid : sk'.pid = sk.pid
  port : sk'.port = ev.portAfter sk
  parent : ∀ l, sk'.parent = some l → sk.parent = some l

variable {sk sk' : Socket} {ev : SlotEvent}

theorem Keeps.of_identity (hport : ev.portAfter sk = sk.port) (h : sk'.identity = sk.identity) :
    Keeps ev sk sk' where
  used hused := (congrArg (fun d : Socket.Identity => d.endpoint.used) h).symm.trans hused
  pid := congrArg Socket.Identity.pid h
  port := (congrArg (fun d : Socket.Identity => d.endpoint.tuple.port) h).trans hport.symm
  parent _ hl := (congrArg Socket.Identity.parent h).symm.trans hl

theorem Keeps.tick (sk : Socket) (now : UInt64) : Keeps (.tick now) sk (sk.tick now).1 := by
  have hcont := sk.tick_continues now
  refine ⟨hcont.used,?_,congrArg Tuple.port hcont.tuple,?_⟩
  all_goals
    rcases sk.tick_cases now with ⟨used,he⟩ | ⟨p,-,he⟩ | ⟨out,flags,-,_,_,_,he,-⟩ |
      ⟨-,-,out,_,_,_,he,-⟩ <;> rw [he]
  any_goals rfl
  all_goals exact fun _ hl => hl

theorem Keeps.close (sk : Socket) : Keeps .close sk sk.closeTcp.1 := by
  have hcont := sk.closeTcp_continues
  refine ⟨hcont.used,?_,congrArg Tuple.port hcont.tuple,?_⟩ <;> unfold Socket.closeTcp <;> split
  any_goals rfl
  all_goals exact fun _ hl => hl

theorem keeps_apply (h : ev.takes = false) : Keeps ev sk (ev.apply sk).1 := by
  cases ev with
  | fresh | child => cases h
  | adopted => exact ⟨id,rfl,rfl,fun _ hl => nomatch hl⟩
  | freed => exact ⟨(nomatch ·),rfl,rfl,fun _ hl => hl⟩
  | idle | bind | listen | peer | joinUdp | connect | datagram =>
    exact ⟨id,rfl,rfl,fun _ hl => hl⟩
  | send now data => exact .of_identity rfl (sk.sendTcp_identity now data)
  | recv room => exact .of_identity rfl (sk.recv_identity room)
  | segment now s => exact .of_identity rfl (sk.receive_identity now s)
  | tick now => exact .tick sk now
  | close => exact .close sk

end SlotEvent

variable {s : Inbound} {port : UInt16} {now : UInt64} {l n : Fin maxSocks} {src : Ip} {pid : UInt32}
  {fd : ℕ}

namespace Socket

def Listens (sk : Socket) : Prop := sk.used = true ∧ sk.kind = .tcp ∧ sk.state = .listen

instance (sk : Socket) : Decidable sk.Listens := inferInstanceAs (Decidable (_ ∧ _))

variable {sk sk' : Socket}

theorem Listens.of_identity (h : sk.Listens) (hid : sk'.identity = sk.identity)
    (hstate : sk'.state = .listen) : sk'.Listens := by
  refine ⟨?_,?_,hstate⟩
  · exact (congrArg (fun d : Identity => d.endpoint.used) hid).trans h.1
  · exact (congrArg (fun d : Identity => d.endpoint.kind) hid).trans h.2.1

/-- Without a RST the segment only moves data past a listener. -/
theorem Listens.receive (h : sk.Listens) (now : UInt64) (hrst : hasFlag s.flags Flag.rst = false) :
    (sk.receive now s).1.Listens := by
  have hp : sk.Processes s := by simp [Processes,hrst,h.2.2]
  have hpromoted : sk.promoted s = sk := by simp [promoted,h.2.2]
  apply h.of_identity (sk.receive_identity now s)
  rw [receive_of_processes now hp,hpromoted]
  exact process_listen now h.2.2

theorem Listens.apply {ev : SlotEvent} (h : sk.Listens) (hen : ev.Enabled sk)
    (hclose : ev ≠ .close) (hfreed : ev ≠ .freed)
    (hrst : ∀ now s, ev = .segment now s → hasFlag s.flags Flag.rst = false) :
    (ev.apply sk).1.Listens := by
  obtain ⟨hused,hkind,hstate⟩ := h
  cases ev with
  | close => exact absurd rfl hclose
  | freed => exact absurd rfl hfreed
  | fresh | child => exact absurd (hen.symm.trans hused) (by decide)
  | joinUdp | datagram => exact absurd (hen.2.symm.trans hkind) (by decide)
  | connect => exact absurd hstate hen.2.2
  | idle | bind | adopted | peer => exact ⟨hused,hkind,hstate⟩
  | listen => exact ⟨hused,hkind,rfl⟩
  | send now data =>
    have hrefused : sk.sendTcp now data = (sk,none,[]) := by simp [sendTcp,hstate]
    simp only [SlotEvent.apply,hrefused]
    exact ⟨hused,hkind,hstate⟩
  | recv room =>
    apply Listens.of_identity ⟨hused,hkind,hstate⟩ (sk.recv_identity room)
    simpa [SlotEvent.apply] using hstate
  | tick now =>
    have hidle : sk.tick now = (sk,[]) := by simp [tick,hstate]
    simp only [SlotEvent.apply,hidle]
    exact ⟨hused,hkind,hstate⟩
  | segment now s => exact Listens.receive ⟨hused,hkind,hstate⟩ now (hrst now s rfl)

end Socket

namespace Table

variable {T : Table} {env : Env} {op : Op} {i : Fin maxSocks}

theorem isListener_iff : T.isListener i = true ↔ (T.socks i).Listens := by
  simp only [isListener,decide_eq_true_eq,Socket.Listens]

theorem slotEvent_bind (h : T.slotEvent env op i = .bind port) :
    ∃ fd, op = .bind fd port ∧ T.getMut fd = some i := by
  revert h
  fun_cases slotEvent T env op i with
  | case3 fd port' hfd =>
    rintro ⟨⟩
    exact ⟨fd,rfl,hfd⟩
  | _ => rintro ⟨⟩

theorem slotEvent_segment (h : T.slotEvent env op i = .segment now s) :
    ∃ src seg, op = .deliverTcp src seg ∧ parse seg = some s ∧ T.listenerFor s = none ∧
      T.connectionFor src s = some i := by
  revert h
  fun_cases slotEvent T env op i with
  | case31 src seg s' hparse hl hconn =>
    rintro ⟨⟩
    exact ⟨src,seg,rfl,hparse,hl,hconn⟩
  | _ => rintro ⟨⟩

theorem slotEvent_child (h : T.slotEvent env op i = .child pid port now l n src s) :
    (T.socks l).Listens ∧ pid = (T.socks l).pid ∧ port = (T.socks l).port ∧
      (T.socks i).used = false := by
  revert h
  fun_cases slotEvent T env op i with
  | case29 src' seg s' hparse l' hl hfree =>
    rintro ⟨⟩
    have hfound := List.find?_some (Option.ite_none_right_eq_some.mp hl).2
    simp only [decide_eq_true_eq] at hfound
    exact ⟨isListener_iff.mp hfound.1,rfl,rfl,unused_of_firstUnused hfree⟩
  | _ => rintro ⟨⟩

/-- Only a connection that does not listen is closed by itself. -/
theorem slotEvent_close (h : T.slotEvent env op i = .close) : (T.socks i).state ≠ .listen := by
  revert h
  fun_cases slotEvent T env op i with
  | case23 fd hfd hk hstate => exact fun _ => hstate
  | _ => rintro ⟨⟩

/-- A slot is freed with the datagram socket in it, or with a listener: its own or the one its
connection waits for. -/
theorem slotEvent_freed (h : T.slotEvent env op i = .freed) :
    ∃ fd l, op = .close fd ∧ T.getMut fd = some l ∧
      (i = l ∧ ¬ (T.socks l).Listens ∨
        (T.socks l).Listens ∧ (i = l ∨ (T.socks i).used = true ∧ (T.socks i).parent = some l)) := by
  revert h
  fun_cases slotEvent T env op i with
  | case19 fd hfd hk => exact fun _ => ⟨fd,i,rfl,hfd,.inl ⟨rfl,fun hl => hk hl.2.1⟩⟩
  | case21 fd l hfd hk hstate hor =>
    exact fun _ => ⟨fd,l,rfl,hfd,.inr ⟨⟨used_of_getMut hfd,not_not.mp hk,hstate⟩,hor⟩⟩
  | _ => rintro ⟨⟩

theorem slotEvent_of_listens (hfd : T.getMut fd = some l) (hl : (T.socks l).Listens) :
    T.slotEvent env (.close fd) i =
      if i = l ∨ (T.socks i).used = true ∧ (T.socks i).parent = some l then .freed else .idle := by
  simp [slotEvent,hfd,hl.2.1,hl.2.2]

def Childless (T : Table) (l : Fin maxSocks) : Prop :=
  ∀ j, (T.socks j).used = true → (T.socks j).parent ≠ some l

/-- The operation takes no listener from its children: none with a parent or children is bound
again, a RST reaches none with children, and one is closed only while its children have no
children. -/
def Considerate (T : Table) : Op → Prop
  | .bind fd port =>
    ∀ i, T.getMut fd = some i → port = (T.socks i).port ∨ (T.socks i).parent = none ∧ T.Childless i
  | .close fd =>
    ∀ l, T.getMut fd = some l → (T.socks l).Listens →
      ∀ i, (T.socks i).used = true → (T.socks i).parent = some l →
        ∀ j, (T.socks j).used = true → (T.socks j).parent = some i → j = l
  | .deliverTcp src seg =>
    ∀ s i, parse seg = some s → hasFlag s.flags Flag.rst = true → T.listenerFor s = none →
      T.connectionFor src s = some i → (T.socks i).Listens → T.Childless i
  | _ => True

end Table

/-- The table with the number of times that each slot was taken, and for each child that of its
listener's slot at the passive open. -/
structure Lineage where
  table : Table
  taken : Fin maxSocks → ℕ
  openedBy : Fin maxSocks → ℕ

namespace Lineage

def init : Lineage := ⟨.init,fun _ => 0,fun _ => 0⟩

def step (M : Lineage) (e : Env × Op) : Option Lineage :=
  let ev := M.table.slotEvent e.1 e.2
  some {
    table := (M.table.step e.1 e.2).table
    taken := fun i => if (ev i).takes then M.taken i+1 else M.taken i
    openedBy := fun i =>
      match ev i with
      | .child _ _ _ l _ _ _ => M.taken l
      | _ => M.openedBy i }

/-- The socket now in slot `l` listens, has the owner and port of the connection in slot `i`, and is
the one through which that was opened. -/
structure OpenedThrough (M : Lineage) (i l : Fin maxSocks) : Prop where
  listens : (M.table.socks l).Listens
  pid : (M.table.socks l).pid = (M.table.socks i).pid
  port : (M.table.socks l).port = (M.table.socks i).port
  openedBy : M.openedBy i = M.taken l

/-- Every used socket with a parent was opened through it. -/
def Parented (M : Lineage) : Prop :=
  ∀ i l, (M.table.socks i).used = true → (M.table.socks i).parent = some l → M.OpenedThrough i l

/-- What `accept` hands out was opened through the listener at that descriptor. -/
def AcceptsOwn (M : Lineage) : Prop :=
  ∀ env fd i, (M.table.step env (.accept fd)).reply = .descriptor (some i) →
    ∃ h : fd < maxSocks, M.OpenedThrough i ⟨fd,h⟩

theorem Parented.acceptsOwn {M : Lineage} (h : M.Parented) : M.AcceptsOwn := by
  intro env fd i hreply
  dsimp only [Table.step,Table.accept] at hreply
  split at hreply
  next hfd =>
    split at hreply
    · split at hreply
      · cases hreply
      next j hj =>
        cases hreply
        have hfound := List.find?_some hj
        simp only [decide_eq_true_eq] at hfound
        exact ⟨hfd,h i ⟨fd,hfd⟩ hfound.1 hfound.2.2.1⟩
    · cases hreply
  next => cases hreply

/-- No socket is its own parent, whatever the run. -/
def NoSelfParent (M : Lineage) : Prop := ∀ i, (M.table.socks i).parent ≠ some i

variable {env : Env}

section
variable {M M' : Lineage} {e : Env × Op} {i : Fin maxSocks}

section
variable (h : M.step e = some M') (i : Fin maxSocks)
include h

theorem step_socks :
    M'.table.socks i = ((M.table.slotEvent e.1 e.2 i).apply (M.table.socks i)).1 := by
  cases h
  exact congrArg Prod.fst (M.table.step_acts e.1 i e.2)

theorem step_taken : M'.taken i =
      if (M.table.slotEvent e.1 e.2 i).takes then M.taken i+1 else M.taken i := by
  cases h
  rfl

theorem step_openedBy (hold : (M.table.slotEvent e.1 e.2 i).takes = false) :
    M'.openedBy i = M.openedBy i := by
  cases h
  dsimp only
  split
  next hev => simp [hev,SlotEvent.takes] at hold
  next => rfl

end

theorem step_keeps (h : M.step e = some M') (hold : (M.table.slotEvent e.1 e.2 i).takes = false) :
    (M.table.slotEvent e.1 e.2 i).Keeps (M.table.socks i) (M'.table.socks i) := by
  rw [step_socks h]
  exact SlotEvent.keeps_apply hold

theorem noSelfParent_step (hJ : M.NoSelfParent) (h : M.step e = some M') : M'.NoSelfParent := by
  intro i hself
  have hnew := step_socks h i
  cases hev : M.table.slotEvent e.1 e.2 i with
  | fresh =>
    rw [hnew,hev] at hself
    cases hself
  | child pid port now l n src s =>
    obtain ⟨hl,-,-,hfree⟩ := Table.slotEvent_child hev
    rw [hnew,hev] at hself
    cases hself
    exact absurd (hfree.symm.trans hl.1) (by decide)
  | _ => exact hJ i ((step_keeps h (by rw [hev]; rfl)).parent i hself)

theorem step_idle (h : M.step e = some M') (hidle : M.table.slotEvent e.1 e.2 i = .idle) :
    M'.table.socks i = M.table.socks i := by
  rw [step_socks h,hidle]
  rfl

theorem openedThrough_child (h : M.step e = some M')
    (hev : M.table.slotEvent e.1 e.2 i = .child pid port now l n src s) : M'.OpenedThrough i l := by
  obtain ⟨hl,rfl,rfl,hfree⟩ := Table.slotEvent_child hev
  have hli : l ≠ i := by
    rintro rfl
    exact absurd (hfree.symm.trans hl.1) (by decide)
  have hidle : M.table.slotEvent e.1 e.2 l = .idle :=
    Table.slotEvent_idle_of_single (by rw [hev]; trivial) hli
  have hsame := step_idle h hidle
  have hnew : M'.table.socks i = _ := step_socks h i
  rw [hev] at hnew
  refine ⟨hsame ▸ hl,by rw [hsame,hnew]; rfl,by rw [hsame,hnew]; rfl,?_⟩
  rw [step_taken h l,hidle]
  cases h
  simp only [hev]
  rfl

/-- The listener of a connection that stays is neither freed nor reset. -/
theorem listens_of_child (hP : M.Parented) (hC : M.table.Considerate e.2) (h : M.step e = some M')
    (hused : (M.table.socks i).used = true) (hparent : (M.table.socks i).parent = some l)
    (hstays : (M'.table.socks i).used = true) : (M'.table.socks l).Listens := by
  have hl := (hP i l hused hparent).listens
  rw [step_socks h]
  apply hl.apply (M.table.slotEvent_enabled e.1 l e.2)
  · exact fun hev => Table.slotEvent_close hev hl.2.2
  · intro hev
    obtain ⟨fd,r,hop,hfd,⟨rfl,hnot⟩ | ⟨hr,hlr⟩⟩ := Table.slotEvent_freed hev
    · exact hnot hl
    · -- the connection would be freed with the listener at `r`, or is that listener
      have hfreed : i = r ∨ (M.table.socks i).used = true ∧ (M.table.socks i).parent = some r := by
        rcases hlr with rfl | ⟨hlused,hlparent⟩
        · exact .inr ⟨hused,hparent⟩
        · rw [hop] at hC
          exact .inl (hC r hfd hr l hlused hlparent i hused hparent)
      rw [step_socks h,hop,Table.slotEvent_of_listens hfd hr,if_pos hfreed] at hstays
      cases hstays
  · intro now s hev
    obtain ⟨src,seg,hop,hparse,hnone,hconn⟩ := Table.slotEvent_segment hev
    by_contra hrst
    rw [Bool.not_eq_false] at hrst
    rw [hop] at hC
    exact hC s l hparse hrst hnone hconn hl i hused hparent

/-- A socket that has a parent or a child keeps its port. -/
theorem portAfter_of_related (hC : M.table.Considerate e.2)
    (hrel : (M.table.socks i).parent ≠ none ∨ ¬ M.table.Childless i) :
    (M.table.slotEvent e.1 e.2 i).portAfter (M.table.socks i) = (M.table.socks i).port := by
  cases hev : M.table.slotEvent e.1 e.2 i with
  | bind port =>
    obtain ⟨fd,hop,hfd⟩ := Table.slotEvent_bind hev
    rw [hop] at hC
    obtain hsame | ⟨hnone,hchildless⟩ := hC i hfd
    · exact hsame
    · rcases hrel with hparent | hchild
      · exact absurd hnone hparent
      · exact absurd hchildless hchild
  | _ => rfl

theorem parented_of_considerate (hP : M.Parented) (hC : M.table.Considerate e.2)
    (h : M.step e = some M') : M'.Parented := by
  intro i l hused hparent
  have hnew := step_socks h i
  by_cases htakes : (M.table.slotEvent e.1 e.2 i).takes = true
  · cases hev : M.table.slotEvent e.1 e.2 i with
    | child pid port now l' n src s =>
      have hl : l' = l := by
        rw [hnew,hev] at hparent
        exact Option.some.inj hparent
      exact hl ▸ openedThrough_child h hev
    | fresh =>
      rw [hnew,hev] at hparent
      cases hparent
    | _ => simp [hev,SlotEvent.takes] at htakes
  · rw [Bool.not_eq_true] at htakes
    have hk := step_keeps h htakes
    have hwas := hk.used hused
    have hpar := hk.parent l hparent
    obtain ⟨hlis,hpid,hport,hby⟩ := hP i l hwas hpar
    have hl := listens_of_child hP hC h hwas hpar hused
    have hold : (M.table.slotEvent e.1 e.2 l).takes = false := by
      have hen := M.table.slotEvent_enabled e.1 l e.2
      cases hev : M.table.slotEvent e.1 e.2 l with
      | fresh | child =>
        rw [hev] at hen
        exact absurd (hen.symm.trans hlis.1) (by decide)
      | _ => rfl
    have hkl := step_keeps h hold
    refine ⟨hl,?_,?_,?_⟩
    · rw [hkl.pid,hk.pid,hpid]
    · have hparented : (M.table.socks i).parent ≠ none := by simp [hpar]
      have hi := portAfter_of_related (e := e) hC (.inl hparented)
      have hl := portAfter_of_related (e := e) hC (.inr fun hnone => hnone i hwas hpar)
      rw [hkl.port,hk.port,hi,hl,hport]
    · rw [step_openedBy h i htakes,step_taken h l,hold,hby]
      rfl

section
variable (hJ : M.NoSelfParent)
include hJ

theorem considerate_bind (hP : M.Parented) (hP' : M'.Parented)
    (h : M.step (env,.bind fd port) = some M') : M.table.Considerate (.bind fd port) := by
  intro i hfd
  have hused := Table.used_of_getMut hfd
  have hev : M.table.slotEvent env (.bind fd port) i = .bind port := by simp [Table.slotEvent,hfd]
  have hport : M'.table.socks i = { M.table.socks i with port := port } := by
    rw [step_socks h,hev]
    rfl
  have hother (j : Fin maxSocks) (hji : j ≠ i) : M'.table.socks j = M.table.socks j :=
    step_idle h (Table.slotEvent_idle_of_single (by rw [hev]; trivial) hji)
  by_cases hsame : port = (M.table.socks i).port
  · exact .inl hsame
  · refine .inr ⟨?_,?_⟩
    · by_contra hparent
      obtain ⟨l,hl⟩ := Option.ne_none_iff_exists'.mp hparent
      have hli : l ≠ i := fun hli => hJ i (hli ▸ hl)
      have hbefore := (hP i l hused hl).port
      have hafter := (hP' i l (by rw [hport]; exact hused) (by rw [hport]; exact hl)).port
      rw [hother l hli,hport] at hafter
      exact hsame (hafter.symm.trans hbefore)
    · intro j hj hji
      have hne : j ≠ i := fun he => hJ i (he ▸ hji)
      have hbefore := (hP j i hj hji).port
      have hafter :=
        (hP' j i (by rw [hother j hne]; exact hj) (by rw [hother j hne]; exact hji)).port
      rw [hother j hne,hport] at hafter
      exact hsame (hafter.trans hbefore.symm)

theorem considerate_close (hP' : M'.Parented) (h : M.step (env,.close fd) = some M') :
    M.table.Considerate (.close fd) := by
  intro l hfd hl i hi hil j hj hji
  by_contra hjl
  have hfreed : (M'.table.socks i).used = false := by
    rw [step_socks h,Table.slotEvent_of_listens hfd hl,if_pos (.inr ⟨hi,hil⟩)]
    rfl
  -- the parent of `j` is a child of `l`, so it is not `l` and `j` stays
  have hstays : M'.table.socks j = M.table.socks j := by
    apply step_idle h
    have hnot : ¬ (j = l ∨ (M.table.socks j).used = true ∧ (M.table.socks j).parent = some l) := by
      rintro (hj | ⟨-,hparent⟩)
      · exact hjl hj
      · have hil' : i = l := Option.some.inj (hji.symm.trans hparent)
        rw [← hil'] at hil
        exact hJ i hil
    rw [Table.slotEvent_of_listens hfd hl,if_neg hnot]
  have hlis := (hP' j i (by rw [hstays]; exact hj) (by rw [hstays]; exact hji)).listens
  exact absurd (hfreed.symm.trans hlis.1) (by decide)

theorem considerate_deliverTcp (hP' : M'.Parented) {seg : List UInt8}
    (h : M.step (env,.deliverTcp src seg) = some M') :
    M.table.Considerate (.deliverTcp src seg) := by
  intro s i hparse hrst hnone hconn hl j hj hji
  have hev : M.table.slotEvent env (.deliverTcp src seg) i = .segment env.now s := by
    simp [Table.slotEvent,hparse,hnone,hconn]
  have hne : j ≠ i := fun he => hJ i (he ▸ hji)
  have hstays : M'.table.socks j = M.table.socks j :=
    step_idle h (Table.slotEvent_idle_of_single (by rw [hev]; trivial) hne)
  have hlis := (hP' j i (by rw [hstays]; exact hj) (by rw [hstays]; exact hji)).listens
  rw [step_socks h,hev] at hlis
  have hclosed : ((M.table.socks i).receive env.now s).1.state = .closed := by
    simp [Socket.receive,hrst]
  exact absurd (hclosed.symm.trans hlis.2.2) (by decide)

/-- From a table whose children all have their listeners an operation leads to one exactly
if it is considerate. -/
theorem parented_step (hP : M.Parented) (h : M.step e = some M') :
    M'.Parented ↔ M.table.Considerate e.2 := by
  refine ⟨fun hP' => ?_,fun hC => parented_of_considerate hP hC h⟩
  obtain ⟨env,op⟩ := e
  cases op with
  | bind fd port => exact considerate_bind hJ hP hP' h
  | close fd => exact considerate_close hJ hP' h
  | deliverTcp src seg => exact considerate_deliverTcp hJ hP' h
  | _ => trivial

end
end

/-- In a run every used socket with a parent belongs to the listener now there, and `accept` hands
out only what was opened through the listener at its descriptor, exactly if no operation takes a
listener away from its children. -/
theorem parented_iff_considerate (es : List (Env × Op)) :
    Always step (fun M => M.Parented ∧ M.AcceptsOwn) init es ↔
      EachStep step (fun M e _ => M.table.Considerate e.2) init es := by
  have hrun : Always step Parented init es ↔
      EachStep step (fun M e _ => M.table.Considerate e.2) init es := by
    apply always_iff_eachStep (J := NoSelfParent)
    · intro M e M' hJ h
      exact noSelfParent_step hJ h
    · intro M e M' hJ hP h
      exact parented_step hJ hP h
    · exact fun _ hself => nomatch hself
    · exact fun _ _ hused => nomatch hused
  rw [← hrun]
  constructor
  · exact Always.mono fun M hM => hM.1
  · exact Always.mono fun M hM => ⟨hM,hM.acceptsOwn⟩

instance (M : Lineage) (i l : Fin maxSocks) : Decidable (M.OpenedThrough i l) :=
  decidable_of_iff ((M.table.socks l).Listens ∧ (M.table.socks l).pid = (M.table.socks i).pid ∧
      (M.table.socks l).port = (M.table.socks i).port ∧ M.openedBy i = M.taken l)
    ⟨fun h => ⟨h.1,h.2.1,h.2.2.1,h.2.2.2⟩,fun h => ⟨h.1,h.2,h.3,h.4⟩⟩

instance (M : Lineage) : Decidable M.Parented :=
  haveI (i : Fin maxSocks) := Nat.decidableForallFin fun l : Fin maxSocks =>
    (M.table.socks i).used = true → (M.table.socks i).parent = some l → M.OpenedThrough i l
  Nat.decidableForallFin _

/-- A refused connect leaves the peer's address at the listener: the peer's RST closes it during the
handshake of its child, and the slot goes to another owner. -/
def stolenConnection : List (Env × Op) :=
  [byCaller (.openSock 1 .tcp),byCaller (.listen 0),fromPeer [0,0,0,0] [0,0,0,0] Flag.syn [],
    byCaller (.connect 0 ⟨10,0,0,2⟩ 80),
    fromPeer [0,0,0,0] [0,0,0,0] Flag.rst [],
    byCaller (.close 0),byCaller (.openSock 2 .tcp),byCaller (.listen 0),
    fromPeer [0,0,0,1] [0,1,0x3C,0x6F] Flag.ack []]

/-- The listener of process 2 is handed the connection that the one of process 1 opened. -/
theorem accept_returns_foreign_connection :
    ¬ Always step (fun M => M.Parented ∧ M.AcceptsOwn) init stolenConnection ∧
      ∃ M ∈ exec step init stolenConnection, (M.table.step ⟨0,⟨10,0,0,1⟩,true⟩ (.accept 0)).reply =
            .descriptor (some ⟨1,by decide⟩) ∧
          (M.table.socks ⟨0,by decide⟩).pid = 2 ∧ (M.table.socks ⟨1,by decide⟩).pid = 1 := by
  have hnot : ¬ Always step Parented init stolenConnection := by decide +kernel
  exact ⟨fun h => hnot (h.mono fun M hM => hM.1),by decide +kernel⟩

end Lineage
end Aios.Kernel.Sock
