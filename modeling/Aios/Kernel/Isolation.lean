import Aios.Kernel.Syscalls

/-!
Isolation of tasks at the socket calls: what a caller learns and changes depends on the
sockets that it owns only.
-/
namespace Aios.Kernel

open Sock

def Owned (T : Table) (pid : UInt32) (i : Fin maxSocks) : Prop :=
  (T.socks i).used = true ∧ (T.socks i).pid = pid ∧ pid ≠ 0

/-- The tables agree on every slot that the task owns. -/
def Agree (pid : UInt32) (T T' : Table) : Prop :=
  ∀ i, Owned T pid i ∨ Owned T' pid i → T'.socks i = T.socks i

/-- The outcomes are the same for the caller. -/
def Outcome.Same (o o' : Outcome) : Prop :=
  o'.rax = o.rax ∧ o'.ram.mem = o.ram.mem ∧ o'.halted = o.halted

/-- A call of the task shows it nothing of the slots of others and leaves them alone. -/
structure Isolated (pid : UInt32) (call : Ram → Outcome) (r : Ram) : Prop where
  output : ∀ T', Agree pid r.table T' → (call r).Same (call { r with table := T' })
  frame : ∀ i, ¬ Owned r.table pid i → (call r).ram.table.socks i = r.table.socks i

section
variable {T T' : Table} {pid : UInt32} {i : Fin maxSocks} {fd : ℕ}

theorem Owned.getMut (h : Owned T pid i) : T.getMut i = some i := by
  unfold Table.getMut
  rw [dif_pos i.2,if_pos h.1]

theorem sockOwned_iff :
    sockOwned pid T fd = true ↔ ∃ i : Fin maxSocks, i.val = fd ∧ Owned T pid i := by
  unfold sockOwned Table.owner
  constructor
  · intro h
    obtain ⟨howner,hpid⟩ := Bool.and_eq_true_iff.mp h
    have hpid : pid ≠ 0 := by simpa using hpid
    have howner := beq_iff_eq.mp howner
    split_ifs at howner with hfd hused
    · exact ⟨⟨fd,hfd⟩,rfl,hused,howner,hpid⟩
    · exact absurd howner.symm hpid
    · exact absurd howner.symm hpid
  · rintro ⟨i,rfl,hused,rfl,hpid⟩
    rw [dif_pos i.2,if_pos hused]
    simpa using hpid

theorem Agree.owned_iff (h : Agree pid T T') : Owned T' pid i ↔ Owned T pid i := by
  unfold Owned
  constructor
  · intro ho
    rw [← h i (.inr ho)]
    exact ho
  · intro ho
    rw [h i (.inl ho)]
    exact ho

theorem Agree.sockOwned (h : Agree pid T T') : sockOwned pid T' fd = sockOwned pid T fd := by
  rw [Bool.eq_iff_iff,sockOwned_iff,sockOwned_iff]
  simp only [h.owned_iff]

/-- A slot of nobody, or of another task, can hold anything that is not the caller's. -/
theorem agree_set {sk : Socket} (h : ¬ Owned T pid i) (hsk : sk.used = true → sk.pid ≠ pid) :
    Agree pid T (T.set i sk) := by
  intro j hj
  rw [Table.set_socks]
  split_ifs with heq
  · subst heq
    rcases hj with hj | hj
    · exact absurd hj h
    · unfold Owned at hj
      rw [Table.set_socks,if_pos rfl] at hj
      exact absurd hj.2.1 (hsk hj.1)
  · rfl

end

section
variable {T T' : Table} {env : Env} {img : Image} {pid : UInt32} {a : Args} {r : Ram}
  {refused : UInt64} {op : Op} {i : Fin maxSocks}

/-- The descriptor of the operations that read and change one slot only. -/
def ownSlot : Op → Option ℕ
  | .bind fd _ | .listen fd | .connect fd _ _ | .send fd _ | .recv fd _ => some fd
  | _ => none

theorem step_socks_of_idle (h : T.slotEvent env op i = .idle) :
    (T.step env op).table.socks i = T.socks i := by
  have hacts : Table.Acts T (T.step env op) i (T.slotEvent env op i) := Table.step_acts T env i op
  rw [Table.Acts,h] at hacts
  exact congrArg Prod.fst hacts

theorem step_reply_congr (env : Env) {fd : ℕ} (hop : ownSlot op = some fd)
    (h : T.getMut fd = some i) (h' : T'.getMut fd = some i) (heq : T'.socks i = T.socks i) :
    (T'.step env op).reply = (T.step env op).reply := by
  cases op with
  | bind fd port =>
    cases hop
    simp only [Table.step,Table.bind,h,h']
  | listen fd =>
    cases hop
    simp only [Table.step,Table.listen,h,h',heq]
    split_ifs <;> rfl
  | connect fd ip port =>
    cases hop
    simp only [Table.step,Table.connect,h,h',heq]
    split_ifs <;> rfl
  | send fd data =>
    cases hop
    simp only [Table.step,Table.send,h,h',heq]
    split <;> rfl
  | recv fd room =>
    cases hop
    simp only [Table.step,Table.recv,h,h',heq]
  | _ => cases hop

theorem step_frame {fd : ℕ} {j : Fin maxSocks} (hop : ownSlot op = some fd)
    (h : T.getMut fd = some i) (hj : j ≠ i) : (T.step env op).table.socks j = T.socks j := by
  apply step_socks_of_idle
  cases op with
  | bind fd port | listen fd | connect fd ip port | send fd data | recv fd room =>
    cases hop
    simp [Table.slotEvent,h,hj.symm]
  | _ => cases hop

/-- Behind the gate, a call is isolated if it is so for the owner of its descriptor. -/
theorem gated_isolated {allowed : Ram → Outcome}
    (houtput : ∀ i : Fin maxSocks, i.val = a.fd → Owned r.table pid i → ∀ T',
      Agree pid r.table T' → (allowed r).Same (allowed { r with table := T' }))
    (hframe : ∀ i : Fin maxSocks, i.val = a.fd → Owned r.table pid i → ∀ j, ¬ Owned r.table pid j →
      (allowed r).ram.table.socks j = r.table.socks j) :
    Isolated pid (fun r => gated pid a r refused (allowed r)) r := by
  constructor
  · intro T' hagree
    unfold gated
    rw [hagree.sockOwned]
    by_cases howned : sockOwned pid r.table a.fd = true
    · obtain ⟨i,hi,ho⟩ := sockOwned_iff.mp howned
      rw [if_pos howned,if_pos howned]
      exact houtput i hi ho T' hagree
    · rw [if_neg howned,if_neg howned]
      exact ⟨rfl,rfl,rfl⟩
  · intro j hj
    unfold gated
    split_ifs with howned
    · obtain ⟨i,hi,ho⟩ := sockOwned_iff.mp howned
      exact hframe i hi ho j hj
    · rfl

theorem gated_of_owned {allowed : Outcome} (hi : i.val = a.fd) (ho : Owned r.table pid i) :
    gated pid a r refused allowed = allowed :=
  if_pos (sockOwned_iff.mpr ⟨i,hi,ho⟩)

section
variable (hi : i.val = a.fd) (ho : Owned r.table pid i)
include hi ho

theorem reply_of_agree (env : Env) (hop : ownSlot op = some a.fd) (hagree : Agree pid r.table T') :
    (T'.step env op).reply = (r.table.step env op).reply :=
  step_reply_congr env hop (hi ▸ ho.getMut) (hi ▸ (hagree.owned_iff.mpr ho).getMut)
    (hagree i (.inl ho))

theorem frame_of_owned (env : Env) {j : Fin maxSocks} (hop : ownSlot op = some a.fd)
    (hj : ¬ Owned r.table pid j) : (r.table.step env op).table.socks j = r.table.socks j :=
  step_frame hop (hi ▸ ho.getMut) fun heq => hj (heq ▸ ho)

end

theorem inRax_isolated (hop : ownSlot op = some a.fd) :
    Isolated pid (fun r => gated pid a r refused (inRax r (r.table.step env op))) r := by
  refine gated_isolated (fun i hi ho T' hagree => ?_) fun i hi ho j hj => ?_
  · exact ⟨congrArg Reply.rax (reply_of_agree hi ho env hop hagree),rfl,rfl⟩
  · exact frame_of_owned hi ho env hop hj

/-- The answer of `send` depends on the length of the data only. -/
theorem send_reply_congr (T : Table) (env : Env) (fd : ℕ) {data data' : List UInt8}
    (h : data'.length = data.length) :
    (T.step env (.send fd data')).reply = (T.step env (.send fd data)).reply := by
  show (T.send env fd data').reply = (T.send env fd data).reply
  unfold Table.send
  cases T.getMut fd with
  | none => rfl
  | some i =>
    dsimp only
    cases (T.socks i).kind with
    | udp =>
      dsimp only [Socket.sendUdp]
      split
      · rfl
      · rw [h]
    | tcp =>
      dsimp only [Socket.sendTcp]
      rw [h]
      split_ifs <;> rfl

theorem send_isolated : Isolated pid (sysSockSend env img pid a) r := by
  refine gated_isolated (fun i hi ho T' hagree => ?_) fun i hi ho j hj => ?_
  · obtain ⟨hn,hfault,hmem⟩ := userRead_congr img
      (show Ram.mem { r with table := T' } = r.mem from rfl) a.rsi a.cap
    dsimp only
    rw [hfault]
    split
    · exact ⟨rfl,hmem,rfl⟩
    · refine ⟨?_,hmem,rfl⟩
      refine (congrArg Reply.rax ?_ : (_ : Reply).rax = (_ : Reply).rax)
      rw [reply_of_agree hi ho env rfl hagree]
      exact send_reply_congr _ _ _ (by simp only [List.length_map,List.length_range,hn])
  · dsimp only
    split
    · rw [table_userRead]
    · exact frame_of_owned hi ho env rfl hj

/-- The bytes that a call hands to the user, as they are stored. -/
def handedOut (img : Image) (a : Args) (r : Ram) (data : List UInt8) : List (UInt64 × UInt8) :=
  (img.stores { r with io := fill r.io data } a.rsi 0 data.length).1

/-- What is stored leaves the slots of others as they are. -/
def Spares (img : Image) (pid : UInt32) (T : Table) (stored : List (UInt64 × UInt8)) : Prop :=
  ∀ i, ¬ Owned T pid i → img.patched i stored (T.socks i) = T.socks i

/-- The slot holds a finished handshake of the listener at `l`. -/
def ready (T : Table) (l i : Fin maxSocks) : Bool :=
  (T.socks i).used ∧ (T.socks i).kind = .tcp ∧ (T.socks i).parent = some l ∧
    (T.socks i).state = .established

/-- The sockets that a call can reach are the caller's: the one whose status is asked for, the
children of a closed listener, the slots that `accept` scans, and those in which an answer is
stored. -/
def ReachesOwn (img : Image) (pid : UInt32) (c : SockCall) (a : Args) (r : Ram) : Prop :=
  match c with
  | .status => (∀ i : Fin maxSocks, i.val = a.fd → Owned r.table pid i) ∧
      (a.rsi ≠ 0 → ∀ info, r.table.ccInfo a.fd = some info →
        Spares img pid r.table (handedOut img a r info))
  | .close => ∀ l : Fin maxSocks, l.val = a.fd → Owned r.table pid l →
      r.table.isListener l = true → ∀ i, (r.table.socks i).used = true →
        (r.table.socks i).parent = some l → Owned r.table pid i
  | .accept => ∀ l : Fin maxSocks, l.val = a.fd → Owned r.table pid l →
      r.table.isListener l = true → ∀ i, (∀ j < i, ready r.table l j = false) →
        Owned r.table pid i
  | .recv => ∀ i : Fin maxSocks, i.val = a.fd → Owned r.table pid i →
      ∀ data, ((r.table.socks i).recv a.cap).2 = some data →
        Spares img pid r.table (handedOut img a r data)
  | .bind | .connect | .send | .listen => True

theorem socks_copyOut (T : Table) (data : List UInt8) (i : Fin maxSocks) :
    (copyOut img a { r with table := T } data).ram.table.socks i =
      img.patched i (handedOut img a r data) (T.socks i) := by
  have hstored : img.stores { r with table := T, io := fill r.io data } a.rsi 0 data.length =
      img.stores { r with io := fill r.io data } a.rsi 0 data.length :=
    img.stores_congr (by rfl) (by rfl) _ _ _
  unfold copyOut handedOut
  rw [(userWrite_eq img _ _ _).1,Image.socks_foldl_store,hstored]

theorem copyOut_congr (img : Image) (a : Args) (r : Ram) (data : List UInt8) (T T' : Table) :
    let s := copyOut img a { r with table := T } data
    let s' := copyOut img a { r with table := T' } data
    s'.n = s.n ∧ s'.faulted = s.faulted ∧ s'.ram.mem = s.ram.mem := by
  let filled (T : Table) : Ram := { r with table := T, io := fill r.io data }
  have hstored : img.stores (filled T') a.rsi 0 data.length =
      img.stores (filled T) a.rsi 0 data.length := img.stores_congr (by rfl) (by rfl) _ _ _
  obtain ⟨hram,hn,hfault⟩ := userWrite_eq img (filled T) a.rsi data.length
  obtain ⟨hram',hn',hfault'⟩ := userWrite_eq img (filled T') a.rsi data.length
  rw [hstored] at hram' hn' hfault'
  refine ⟨hn'.trans hn.symm,hfault'.trans hfault.symm,?_⟩
  refine (congrArg Ram.mem hram').trans (Eq.trans ?_ (congrArg Ram.mem hram).symm)
  exact img.foldl_store_congr _ rfl rfl

theorem toUser_same {e e' : Effect} (h : e'.reply = e.reply) (T' : Table) :
    (toUser img a r e).Same (toUser img a { r with table := T' } e') := by
  unfold toUser
  rw [h]
  split
  · exact ⟨rfl,rfl,rfl⟩
  · next data _ _ =>
    obtain ⟨hn,hfault,hmem⟩ := copyOut_congr img a r data e.table e'.table
    exact ⟨congrArg UInt64.ofNat hn,hmem,hfault⟩
  · exact ⟨rfl,rfl,rfl⟩

theorem socks_toUser (e : Effect) (i : Fin maxSocks) :
    (toUser img a r e).ram.table.socks i =
      match e.reply with
      | .bytes (some data) => img.patched i (handedOut img a r data) (e.table.socks i)
      | _ => e.table.socks i := by
  unfold toUser
  cases e.reply with
  | bytes data =>
    cases data with
    | none => rfl
    | some data =>
      cases data with
      | nil => rfl
      | cons b bs => exact socks_copyOut e.table (b::bs) i
  | _ => rfl

theorem recv_effect (env : Env) (hi : i.val = a.fd) (ho : Owned r.table pid i) :
    (r.table.step env (.recv a.fd a.cap)).reply = .bytes ((r.table.socks i).recv a.cap).2 ∧
      (r.table.step env (.recv a.fd a.cap)).table.socks i =
        ((r.table.socks i).recv a.cap).1 := by
  have hget : r.table.getMut a.fd = some i := hi ▸ ho.getMut
  simp only [Table.step,Table.recv,hget,Table.set_socks,if_true,and_self]

/-- The receive call is isolated unless it is made to store into the slots of others. -/
theorem recv_isolated_iff :
    Isolated pid (sysSockRecv env img pid a) r ↔ ReachesOwn img pid .recv a r := by
  have hslot (i : Fin maxSocks) (hi : i.val = a.fd) (ho : Owned r.table pid i) (j : Fin maxSocks)
      (hj : ¬ Owned r.table pid j) (data : List UInt8)
      (hdata : ((r.table.socks i).recv a.cap).2 = some data) :
      (toUser img a r (r.table.step env (.recv a.fd a.cap))).ram.table.socks j =
        img.patched j (handedOut img a r data) (r.table.socks j) := by
    rw [socks_toUser,(recv_effect env hi ho).1,hdata]
    dsimp only
    rw [frame_of_owned hi ho env rfl hj]
  constructor
  · intro h i hi ho data hdata j hj
    have hframe := h.frame j hj
    rw [sysSockRecv,gated_of_owned hi ho,hslot i hi ho j hj data hdata] at hframe
    exact hframe
  · intro h
    refine gated_isolated (fun i hi ho T' hagree => ?_) fun i hi ho j hj => ?_
    · exact toUser_same (reply_of_agree hi ho env rfl hagree) T'
    · cases hdata : ((r.table.socks i).recv a.cap).2 with
      | none =>
        rw [socks_toUser,(recv_effect env hi ho).1,hdata]
        exact frame_of_owned hi ho env rfl hj
      | some data =>
        rw [hslot i hi ho j hj data hdata]
        exact h i hi ho data hdata j hj

end

section
variable {T : Table} {img : Image} {pid : UInt32} {a : Args} {r : Ram}

def foreign (pid : UInt32) (state : TcpState) (parent : Option (Fin maxSocks)) : Socket :=
  { Socket.empty with used := true, kind := .tcp, pid := pid+1, state := state, parent := parent }

theorem pid_foreign (pid : UInt32) (state : TcpState) (parent : Option (Fin maxSocks)) :
    (foreign pid state parent).pid ≠ pid := by
  show pid+1 ≠ pid
  simp

theorem status_set (i : Fin maxSocks) (sk : Socket) :
    (T.set i sk).status i = if sk.used then Table.code sk else 4 := by
  have hget : (T.set i sk).getMut i = if sk.used then some i else none := by
    unfold Table.getMut
    rw [dif_pos i.2,Table.set_socks,if_pos rfl]
  unfold Table.status
  rw [hget]
  split_ifs <;> simp

theorem rax_status (r : Ram) :
    (sysSockStatus img a r).rax = (r.table.status a.fd).toUInt64 := by
  unfold sysSockStatus
  dsimp only
  split
  · split <;> rfl
  · rfl

/-- The status of a foreign descriptor can be told from that of a free one. -/
theorem status_isolated_iff :
    Isolated pid (sysSockStatus img a) r ↔ ReachesOwn img pid .status a r := by
  constructor
  · intro h
    refine ⟨fun i hi => ?_,fun hrsi info hinfo j hj => ?_⟩
    · by_contra hforeign
      have hrax (T' : Table) (hagree : Agree pid r.table T') : T'.status i = r.table.status i := by
        have hout := (h.output T' hagree).1
        rw [rax_status,rax_status,← hi] at hout
        exact UInt8.toUInt64_inj.mp hout
      have hfree := hrax (r.table.set i .empty) (agree_set hforeign fun h => nomatch h)
      have hlisten := hrax _ (agree_set hforeign fun _ => pid_foreign pid .listen none)
      rw [status_set] at hfree hlisten
      have hcodes : (4 : UInt8) = 6 := hfree.trans hlisten.symm
      exact absurd hcodes (by decide)
    · have hframe := h.frame j hj
      unfold sysSockStatus at hframe
      rw [if_pos hrsi,hinfo] at hframe
      exact (socks_copyOut r.table info j).symm.trans hframe
  · rintro ⟨howned,hspares⟩
    refine ⟨fun T' hagree => ?_,fun j hj => ?_⟩
    · have hsame : T'.status a.fd = r.table.status a.fd ∧
          T'.ccInfo a.fd = r.table.ccInfo a.fd := by
        by_cases hfd : a.fd < maxSocks
        · have ho : Owned r.table pid ⟨a.fd,hfd⟩ := howned ⟨a.fd,hfd⟩ rfl
          have hget := ho.getMut
          have hget' := (hagree.owned_iff.mpr ho).getMut
          have heq := hagree _ (.inl ho)
          simp only [Table.status,Table.ccInfo,hget,hget',heq,and_self]
        · have hget (T : Table) : T.getMut a.fd = none := dif_neg hfd
          simp only [Table.status,Table.ccInfo,hget,and_self]
      unfold sysSockStatus
      rw [hsame.1,hsame.2]
      split_ifs
      · cases r.table.ccInfo a.fd with
        | none => exact ⟨rfl,rfl,rfl⟩
        | some info =>
          obtain ⟨-,hfault,hmem⟩ := copyOut_congr img a r info r.table T'
          exact ⟨rfl,hmem,hfault⟩
      · exact ⟨rfl,rfl,rfl⟩
    · unfold sysSockStatus
      split_ifs with hrsi
      · cases hinfo : r.table.ccInfo a.fd with
        | none => rfl
        | some info => exact (socks_copyOut r.table info j).trans (hspares hrsi info hinfo j hj)
      · rfl

end

section
variable {T : Table} {env : Env} {img : Image} {pid : UInt32} {a : Args} {r : Ram}

theorem close_reply (fd : ℕ) : (T.close fd).reply = .nothing := by
  unfold Table.close
  split
  · rfl
  · split_ifs <;> rfl

theorem close_output (env : Env) (pid : UInt32) (a : Args) (r : Ram) :
    (sysSockClose env pid a r).rax = 0 ∧ (sysSockClose env pid a r).ram.mem = r.mem ∧
      (sysSockClose env pid a r).halted = false := by
  unfold sysSockClose gated
  split_ifs
  · refine ⟨?_,rfl,rfl⟩
    rw [inRax,Table.step,close_reply]
    rfl
  · exact ⟨rfl,rfl,rfl⟩

/-- Closing a listener frees all its children, whoever owns them. -/
theorem close_isolated_iff :
    Isolated pid (sysSockClose env pid a) r ↔ ReachesOwn img pid .close a r := by
  constructor
  · intro h l hl ho hlisten i hused hparent
    by_contra hforeign
    obtain ⟨-,hkind,hstate⟩ : (r.table.socks l).used = true ∧ (r.table.socks l).kind = .tcp ∧
        (r.table.socks l).state = .listen := by simpa [Table.isListener] using hlisten
    have hfreed : r.table.slotEvent env (.close a.fd) i = .freed := by
      simp [Table.slotEvent,← hl,ho.getMut,hkind,hstate,hused,hparent]
    have hacts : Table.Acts r.table (r.table.step env (.close a.fd)) i _ :=
      Table.step_acts r.table env i (.close a.fd)
    rw [Table.Acts,hfreed] at hacts
    have hsocks : (r.table.step env (.close a.fd)).table.socks i =
        { r.table.socks i with used := false } := congrArg Prod.fst hacts
    have hframe := h.frame i hforeign
    rw [sysSockClose,gated_of_owned hl ho] at hframe
    have hgone := congrArg Socket.used (hsocks.symm.trans hframe)
    rw [hused] at hgone
    cases hgone
  · intro h
    refine ⟨fun T' _ => ?_,fun i hi => ?_⟩
    · obtain ⟨hrax,hmem,hhalted⟩ := close_output env pid a r
      obtain ⟨hrax',hmem',hhalted'⟩ := close_output env pid a { r with table := T' }
      exact ⟨hrax'.trans hrax.symm,hmem'.trans hmem.symm,hhalted'.trans hhalted.symm⟩
    · unfold sysSockClose gated
      split_ifs with howned
      · obtain ⟨l,hl,ho⟩ := sockOwned_iff.mp howned
        have hne : i ≠ l := fun heq => hi (heq ▸ ho)
        apply step_socks_of_idle
        simp only [Table.slotEvent,← hl,ho.getMut,hne,if_false,false_or]
        split_ifs with hkind hstate hchild
        · rfl
        · exact absurd (h l hl ho (by simp [Table.isListener,ho.1,not_not.mp hkind,hstate])
            i hchild.1 hchild.2) hi
        · rfl
        · rfl
      · rfl

end

section
variable {T T' : Table} {env : Env} {img : Image} {pid : UInt32} {a : Args} {r : Ram}
  {l i k : Fin maxSocks}

theorem acceptable_eq_some :
    T.acceptable l = some k ↔ ready T l k = true ∧ ∀ j < k, ready T l j = false := by
  show (List.finRange maxSocks).find? (ready T l) = some k ↔ _
  rw [List.find?_eq_some_iff_getElem]
  constructor
  · rintro ⟨hk,n,hn,hget,hbefore⟩
    rw [List.getElem_finRange] at hget
    subst hget
    refine ⟨hk,fun j hj => ?_⟩
    have hnot := hbefore j.val hj
    simpa using hnot
  · rintro ⟨hk,hbefore⟩
    refine ⟨hk,k.val,by simp,by rw [List.getElem_finRange]; rfl,fun j hj => ?_⟩
    simpa using hbefore ⟨j,hj.trans k.2⟩ hj

theorem acceptable_eq_none : T.acceptable l = none ↔ ∀ j, ready T l j = false := by
  show (List.finRange maxSocks).find? (ready T l) = none ↔ _
  simp [List.find?_eq_none]

theorem ready_congr (h : T'.socks i = T.socks i) : ready T' l i = ready T l i := by
  unfold ready
  rw [h]

theorem isListener_congr (h : T'.socks l = T.socks l) : T'.isListener l = T.isListener l := by
  unfold Table.isListener
  rw [h]

theorem descriptor_rax_inj {x y : Option (Fin maxSocks)}
    (h : (Reply.descriptor x).rax = (Reply.descriptor y).rax) : x = y := by
  have hval (i : Fin maxSocks) : (UInt64.ofNat i).toNat = i.val :=
    UInt64.toNat_ofNat_of_lt' (i.2.trans (by decide))
  have hsmall (i : Fin maxSocks) : UInt64.ofNat i ≠ 0xffffffffffffffff := by
    intro heq
    have hbig := (hval i).symm.trans (congrArg UInt64.toNat heq)
    exact absurd i.2 (by rw [hbig]; decide)
  cases x with
  | none =>
    cases y with
    | none => rfl
    | some j => exact absurd h.symm (hsmall j)
  | some i =>
    cases y with
    | none => exact absurd h (hsmall i)
    | some j =>
      have hij := congrArg UInt64.toNat h
      change (UInt64.ofNat i).toNat = (UInt64.ofNat j).toNat at hij
      rw [hval,hval] at hij
      rw [Fin.ext hij]

theorem accept_at : T.accept l = if T.isListener l then
      match T.acceptable l with
      | none => ⟨T,.descriptor none,[]⟩
      | some i => ⟨T.set i { T.socks i with parent := none },.descriptor (some i),[]⟩
    else ⟨T,.descriptor none,[]⟩ := dif_pos l.2

theorem accept_of_listener (env : Env) (hl : l.val = a.fd) (ho : Owned r.table pid l)
    (hlisten : r.table.isListener l = true) :
    (sysSockAccept env pid a r).rax = (Reply.descriptor (r.table.acceptable l)).rax ∧
      (sysSockAccept env pid a r).ram.mem = r.mem ∧
      (sysSockAccept env pid a r).halted = false := by
  have hreply : (r.table.accept a.fd).reply = .descriptor (r.table.acceptable l) := by
    rw [← hl,accept_at,if_pos hlisten]
    split
    · next hnone => rw [hnone]
    · next k hk => rw [hk]
  rw [sysSockAccept,gated_of_owned hl ho]
  exact ⟨congrArg Reply.rax hreply,rfl,rfl⟩

theorem accept_otherwise
    (h : ∀ l : Fin maxSocks, l.val = a.fd → Owned r.table pid l → r.table.isListener l = false) :
    sysSockAccept env pid a r = ⟨0xffffffffffffffff,r,false⟩ := by
  unfold sysSockAccept gated
  split_ifs with howned
  · obtain ⟨l,hl,ho⟩ := sockOwned_iff.mp howned
    have haccept : r.table.accept a.fd = ⟨r.table,.descriptor none,[]⟩ := by
      rw [← hl,accept_at,if_neg (by simp [h l hl ho])]
    rw [Table.step,haccept]
    rfl
  · rfl

/-- The slots up to the one that is found decide what is found. -/
theorem acceptable_congr (h : ∀ i, (∀ j < i, ready T l j = false) → T'.socks i = T.socks i) :
    T'.acceptable l = T.acceptable l := by
  cases hfound : T.acceptable l with
  | some k =>
    obtain ⟨hk,hbefore⟩ := acceptable_eq_some.mp hfound
    have hsame (i : Fin maxSocks) (hi : i ≤ k) : ready T' l i = ready T l i :=
      ready_congr (h i fun j hj => hbefore j (hj.trans_le hi))
    exact acceptable_eq_some.mpr ⟨(hsame k le_rfl).trans hk,
      fun j hj => (hsame j hj.le).trans (hbefore j hj)⟩
  | none =>
    have hnone := acceptable_eq_none.mp hfound
    exact acceptable_eq_none.mpr fun j => (ready_congr (h j fun i _ => hnone i)).trans (hnone j)

/-- A foreign slot in the scan can change what is found. -/
theorem acceptable_changes (pid : UInt32) (hi : ∀ j < i, ready T l j = false) :
    ∃ sk : Socket, (sk = .empty ∨ sk = foreign pid .established (some l)) ∧
      (T.set i sk).acceptable l ≠ T.acceptable l := by
  by_cases hready : ready T l i = true
  · refine ⟨.empty,.inl rfl,?_⟩
    rw [acceptable_eq_some.mpr ⟨hready,hi⟩]
    intro hfound
    have hfree := (acceptable_eq_some.mp hfound).1
    simp [ready,Socket.empty] at hfree
  · refine ⟨foreign pid .established (some l),.inr rfl,fun hsame => ?_⟩
    have hfound : (T.set i (foreign pid .established (some l))).acceptable l = some i := by
      refine acceptable_eq_some.mpr ⟨by simp [ready,foreign],fun j hj => ?_⟩
      rw [ready_congr (T := T) (by rw [Table.set_socks,if_neg hj.ne]),hi j hj]
    exact hready (acceptable_eq_some.mp (hsame ▸ hfound)).1

/-- Where the scan only meets slots of the caller, nothing else decides what is found. -/
theorem accept_isolated_of_scan (hl : l.val = a.fd) (ho : Owned r.table pid l)
    (hlisten : r.table.isListener l = true)
    (hscan : ∀ i, (∀ j < i, ready r.table l j = false) → Owned r.table pid i) :
    Isolated pid (sysSockAccept env pid a) r := by
  refine ⟨fun T' hagree => ?_,fun i hi => ?_⟩
  · have hlisten' : T'.isListener l = true := (isListener_congr (hagree l (.inl ho))).trans hlisten
    obtain ⟨hrax,hmem,hhalted⟩ := accept_of_listener env hl ho hlisten
    obtain ⟨hrax',hmem',hhalted'⟩ := accept_of_listener env (r := { r with table := T' }) hl
      (hagree.owned_iff.mpr ho) hlisten'
    have hfound : T'.acceptable l = r.table.acceptable l :=
      acceptable_congr fun i hi => hagree i (.inl (hscan i hi))
    refine ⟨?_,hmem'.trans hmem.symm,hhalted'.trans hhalted.symm⟩
    rw [hrax,hrax',hfound]
  · have hidle : r.table.slotEvent env (.accept a.fd) i = .idle := by
      have hother : r.table.acceptable l ≠ some i :=
        fun hfound => hi (hscan i (acceptable_eq_some.mp hfound).2)
      simp only [Table.slotEvent,← hl,dif_pos l.2,hother,and_false,if_false]
    rw [sysSockAccept,gated_of_owned hl ho]
    exact step_socks_of_idle hidle

theorem accept_isolated_otherwise
    (hnone : ∀ l : Fin maxSocks, l.val = a.fd → Owned r.table pid l →
      r.table.isListener l = false) :
    Isolated pid (sysSockAccept env pid a) r := by
  refine ⟨fun T' hagree => ?_,fun i _ => by rw [accept_otherwise hnone]⟩
  rw [accept_otherwise hnone,accept_otherwise fun l hl ho => ?_]
  · exact ⟨rfl,rfl,rfl⟩
  · have ho' := hagree.owned_iff.mp ho
    exact (isListener_congr (hagree l (.inl ho'))).trans (hnone l hl ho')

/-- `accept` scans the whole table for children of the listener, whoever owns them. -/
theorem accept_isolated_iff :
    Isolated pid (sysSockAccept env pid a) r ↔ ReachesOwn img pid .accept a r := by
  constructor
  · intro h l hl ho hlisten i hbefore
    by_contra hforeign
    obtain ⟨sk,hsk,hchange⟩ := acceptable_changes pid hbefore
    have hagree : Agree pid r.table (r.table.set i sk) := by
      rcases hsk with rfl | rfl
      · exact agree_set hforeign fun h => nomatch h
      · exact agree_set hforeign fun _ => pid_foreign pid .established (some l)
    have hlisten' : (r.table.set i sk).isListener l = true :=
      (isListener_congr (hagree l (.inl ho))).trans hlisten
    have hout := (h.output _ hagree).1
    rw [(accept_of_listener env hl ho hlisten).1,
      (accept_of_listener env hl (hagree.owned_iff.mpr ho) hlisten').1] at hout
    exact hchange (descriptor_rax_inj hout)
  · intro h
    by_cases hany : ∃ l : Fin maxSocks, l.val = a.fd ∧ Owned r.table pid l ∧
        r.table.isListener l = true
    · obtain ⟨l,hl,ho,hlisten⟩ := hany
      exact accept_isolated_of_scan hl ho hlisten (h l hl ho hlisten)
    · refine accept_isolated_otherwise fun l hl ho => ?_
      rw [← Bool.not_eq_true]
      exact fun hlisten => hany ⟨l,hl,ho,hlisten⟩

end

def firstSlot : Fin maxSocks := ⟨0,by decide⟩

def listenerOfTwo : Table := Table.init.set firstSlot (foreign 1 .listen none)

def blank : Ram := .quiet ⟨fun _ => 0,0,⟨[],0,0⟩⟩

def askStatus (r : Ram) : Outcome :=
  syscall ⟨0,.zero,true⟩ .elsewhere 1 ⟨0,0,0⟩ r .status

end Aios.Kernel
