import Aios.Kernel.Isolation

/-!
The receive call on a TCP descriptor, from the ring to the user's buffer. The bytes leave the ring
before the copy, which may end early, and an empty request is answered like the end of the stream.
-/
namespace Aios.Kernel

open Sock CheckedLoop List UserCopy

section
variable (env : Env) {img : Image} {pid : UInt32} {a : Args} {r : Ram} {i : Fin maxSocks}

/-- What was taken out of the ring of a socket is what the user's buffer got, byte for byte, and
what `rax` counts; a zero means the end of the stream. -/
structure Handed (img : Image) (a : Args) (r : Ram) (sk : Socket) (o : Outcome) (sk' : Socket)
    (taken : List UInt8) : Prop where
  returns : o.halted = false
  removed : sk.rx.toList = taken ++ (sk.recv a.cap).1.rx.toList
  /-- The rest of the stream stays in the ring. -/
  kept : sk'.rx.toList = (sk.recv a.cap).1.rx.toList
  stored : (handedOut img a r taken).map Prod.snd = taken
  memory : o.ram.mem = ((handedOut img a r taken).foldl (fun r h => img.store r h.1 h.2)
    { r with io := fill r.io taken }).mem
  counted : (if o.rax = 0xffffffffffffffff then 0 else o.rax.toNat) = taken.length
  ended : o.rax = 0 → sk.eof = true ∧ sk.rx.toList = []

/-- The bytes that the request and the ring allow. -/
def Args.wanted (a : Args) (sk : Socket) : List UInt8 := sk.rx.front (min a.cap sk.rx.count)

theorem wanted_length (sk : Socket) : (a.wanted sk).length = min a.cap sk.rx.count :=
  RingBuffer.length_front ..

theorem wanted_append (sk : Socket) :
    a.wanted sk ++ (sk.rx.drop (min a.cap sk.rx.count)).toList = sk.rx.toList :=
  sk.rx.front_append_drop (Nat.min_le_right ..)

/-- The whole answer reaches the user. -/
theorem toUser_of_stored {e : Effect} {data : List UInt8} (hreply : e.reply = .bytes (some data))
    (hne : data ≠ []) (h : (handedOut img a r data).map Prod.snd = data) :
    (toUser img a r e).rax = UInt64.ofNat data.length ∧ (toUser img a r e).halted = false ∧
      (toUser img a r e).ram.mem = ((handedOut img a r data).foldl
        (fun r h => img.store r h.1 h.2) { r with io := fill r.io data }).mem := by
  obtain ⟨b,bs,rfl⟩ := exists_cons_of_ne_nil hne
  obtain ⟨hram,hn,hfault⟩ := userWrite_eq img
    { r with table := e.table, io := fill r.io (b::bs) } a.rsi (b::bs).length
  have hstored : (img.stores { r with table := e.table, io := fill r.io (b::bs) } a.rsi 0
      (b::bs).length) = img.stores { r with io := fill r.io (b::bs) } a.rsi 0 (b::bs).length :=
    img.stores_congr (by rfl) (by rfl) _ _ _
  have hlength : (handedOut img a r (b::bs)).length = (b::bs).length := by
    rw [← length_map Prod.snd,h]
  rw [hstored] at hram hn hfault
  unfold toUser
  rw [hreply]
  refine ⟨congrArg UInt64.ofNat (hn.trans hlength),hfault.trans (img.stores_of_length hlength),?_⟩
  exact (congrArg Ram.mem hram).trans (img.foldl_store_congr _ rfl rfl)

/-- Slot 0 belongs to task 1 and has received one byte. -/
def oneByte : Table :=
  Table.init.set firstSlot
    { Socket.empty with
      used := true
      kind := .tcp
      pid := 1
      state := .established
      rx := Socket.empty.rx.push 5 }

/-- The first page is the only one mapped. -/
def userPage : Memory where
  words addr :=
    if addr = 0x1000 then 0x2007 else if addr = 0x2000 then 0x3007
    else if addr = 0x3000 then 0x4007 else if addr = 0x4000 then 0x5007 else 0
  cr3 := 0x1000
  frames := ⟨[],0,0⟩

def receiving : Ram := ⟨userPage,oneByte,fun _ => 0⟩

/-- Task 1 asks for one byte at the address `ptr`. -/
def recvAt (ptr : UInt64) : Outcome :=
  sysSockRecv ⟨0,.zero,true⟩ .elsewhere 1 ⟨0,ptr,1⟩ receiving

end
end Aios.Kernel
