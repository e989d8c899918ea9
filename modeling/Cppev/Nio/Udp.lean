import Cppev.Lib.Transition
import Cppev.Nio.Move

/-!
# Datagrams

`recv`, `send` and `send_unix` of `nsockudp`. What a system call answers is a parameter: how many
bytes went through, or `-1`, and what it leaves in `errno` and in the address.

The return value is tested for `0`; on `-1` it goes into the index of the buffer, or into `consume`,
where it means everything.

* `udpIntact_iff`: the buffers and the report are right if and only if the system call succeeds.
* `whole_iff`: a datagram that would fit is stored whole if and only if it fits behind `offset_`.
-/

namespace Cppev

/-! ## Addresses

The addresses as the kernel sees them; their bytes are the subject of `Nio/Address`. -/

/-- What a `sockaddr_storage` holds. -/
inductive SockAddr where
  | inet (ip : String) (port : Int)
  | inet6 (ip : String) (port : Int)
  | unix (path : String)
  /-- Any other `ss_family`. -/
  | unknown
  deriving DecidableEq, Repr

/-- `set_ip_port`, with what `inet_pton` returns. A null pointer is `none`. -/
def setIpPort (inetPton : Family → String → Int) (errno : Errno) (f : Family) (ip : Option String)
    (port : Int) : Except Exn SockAddr :=
  let checked (ip : String) (addr : SockAddr) : Except Exn SockAddr :=
    if inetPton f ip = 0 then .error (.logicError "inet_pton error")
    else if inetPton f ip = -1 then .error (.systemError "inet_pton error" errno)
    else .ok addr
  -- `htons`
  let port := port % 65536
  match f, ip with
  | .ipv4, some ip => checked ip (.inet ip port)
  | .ipv4, none => .ok (.inet "0.0.0.0" port)
  | .ipv6, some ip => checked ip (.inet6 ip port)
  | .ipv6, none => .ok (.inet6 "::" port)
  | .local, _ => .error (.logicError "unknown socket family")

/-- `set_path`, into the 108 bytes of `sun_path`. -/
def setPath (path : String) : SockAddr := .unix (String.ofList (path.toList.take 107))

/-- `query_ip_port_family`. `inet_ntop` knows both families and has room. -/
def queryIpPortFamily : SockAddr → Except Exn Host
  | .inet ip port => .ok (ip, port, .ipv4)
  | .inet6 ip port => .ok (ip, port, .ipv6)
  | .unix _ | .unknown => .error (.logicError "unknown socket family")

/-! ## The calls

The answer of the kernel comes with all that it has changed: `errno`, the address and the bytes. -/

/-- What `recvfrom` does: a datagram arrives, or the call fails. `addr` is what is in the variable
afterwards; a call that fails leaves it uninitialised. -/
structure RecvFrom where
  datagram : Option (List Byte)
  errno : Errno
  addr : SockAddr
  deriving DecidableEq, Repr

/-- What `sendto` does: it takes some of the bytes, or fails. -/
structure SendTo where
  sent : Option Nat
  errno : Errno
  deriving DecidableEq, Repr

/-- What a `send` leaves, and what `sendto` has been called with. -/
structure SendOut where
  result : Except Exn Unit
  sock : Nsockudp
  given : Option (SockAddr × List Byte)

namespace Nsock

/-- How many bytes `recv` offers to the kernel, which cuts a longer datagram. -/
def room (s : Nsockudp) : Nat := (s.rbuffer.cap - s.rbuffer.offset).toNat

/-- `recv` from the test of `ret` on. -/
def recvRet (s : Nsockudp) (k : RecvFrom) (ret : Int) : Except Exn Host × Nsockudp :=
  if ret = 0 then (.error (.systemError "recvfrom error" k.errno), s)
  else
    (if s.family = .local then .ok (s.peer.1, -1, .local) else queryIpPortFamily k.addr,
      { s with rbuffer := { s.rbuffer with offset := s.rbuffer.offset + ret } })

def recv (s : Nsockudp) (k : RecvFrom) : Except Exn Host × Nsockudp :=
  match k.datagram with
  | some bs =>
    let got := bs.take s.room
    recvRet { s with
      rbuffer := { s.rbuffer with buffer := blit s.rbuffer.buffer s.rbuffer.offset got } } k
      got.length
  | none => recvRet s k (-1)

/-- `sendto`, and what both `send` do with its result. -/
def sendTo (s : Nsockudp) (addr : SockAddr) (k : SendTo) : SendOut :=
  let given := (addr, slice s.wbuffer.buffer s.wbuffer.start s.wbuffer.size)
  let ret : Int :=
    match k.sent with
    | some n => min n s.wbuffer.size
    | none => -1
  if ret = 0 then ⟨.error (.systemError "sendto error" k.errno), s, some given⟩
  else ⟨.ok (), { s with wbuffer := s.wbuffer.consume ret }, some given⟩

def send (s : Nsockudp) (inetPton : Family → String → Int) (ip : Option String) (port : Int)
    (k : SendTo) : SendOut :=
  match setIpPort inetPton k.errno s.family ip port with
  | .ok addr => s.sendTo addr k
  | .error e => ⟨.error e, s, none⟩

def sendUnix (s : Nsockudp) (path : String) (k : SendTo) : SendOut := s.sendTo (setPath path) k

/-! ## Failures

What is left after a call is compared with what the call has reported, as the claim has it. -/

/-- What `recv` should leave: after a failure the bytes there were, and an exception; otherwise also
the bytes received. -/
structure RecvIntact (s : Nsockudp) (k : RecvFrom) : Prop where
  wf : (s.recv k).2.rbuffer.Wf
  unread : (s.recv k).2.rbuffer.unread = s.rbuffer.unread ++ (k.datagram.getD []).take s.room
  reported : k.datagram = none → ∃ e, (s.recv k).1 = .error e

/-- The same for `send`: after a failure all bytes, otherwise those not sent. -/
structure SendIntact (s : Nsockudp) (k : SendTo) (out : SendOut) : Prop where
  wf : out.sock.wbuffer.Wf
  unread : out.sock.wbuffer.unread = s.wbuffer.unread.drop (k.sent.getD 0)
  reported : k.sent = none → ∃ e, out.result = .error e

variable {s : Nsockudp}

/-- A call that succeeds stores what it got; nothing at all counts as an error. -/
theorem recv_of_datagram {k : RecvFrom} {bs : List Byte} (hk : k.datagram = some bs) :
    (s.recv k).2 = { s with rbuffer := s.rbuffer.store (bs.take s.room) } ∧
      (bs.take s.room = [] → (s.recv k).1 = .error (.systemError "recvfrom error" k.errno)) := by
  simp only [recv, hk, recvRet]
  by_cases hnil : bs.take s.room = []
  · simp [hnil, Buffer.store, blit]
  · have hne : ¬ ((bs.take s.room).length : Int) = 0 := by
      have := List.length_pos_of_ne_nil hnil
      omega
    rw [if_neg hne]
    exact ⟨rfl, fun h => absurd h hnil⟩

theorem room_le (h : s.rbuffer.Wf) (bs : List Byte) :
    s.rbuffer.offset + (bs.take s.room).length ≤ s.rbuffer.cap := by
  have := h.offset_le
  rw [List.length_take, room]
  omega

theorem wf_recv (h : s.rbuffer.Wf) {k : RecvFrom} {bs : List Byte} (hk : k.datagram = some bs) :
    (s.recv k).2.rbuffer.Wf ∧
      (s.recv k).2.rbuffer.unread = s.rbuffer.unread ++ bs.take s.room := by
  rw [(recv_of_datagram hk).1]
  exact ⟨Buffer.wf_store h (room_le h bs), Buffer.unread_store h (room_le h bs)⟩

/-- A failure takes a byte away, or puts `offset_` before `start_`. -/
theorem recvIntact_iff (h : s.rbuffer.Wf) (k : RecvFrom) :
    RecvIntact s k ↔ k.datagram.isSome = true := by
  cases hk : k.datagram with
  | some bs =>
      obtain ⟨hwf, hunread⟩ := wf_recv h hk
      refine iff_of_true ⟨hwf, ?_, ?_⟩ rfl
      · rw [hunread, hk]
        rfl
      · intro hnone
        rw [hk] at hnone
        cases hnone
  | none =>
      refine iff_of_false ?_ (by simp)
      intro hintact
      have hlen := Buffer.length_unread hintact.wf
      have hbuf : (s.recv k).2.rbuffer = { s.rbuffer with offset := s.rbuffer.offset + -1 } := by
        simp [recv, hk, recvRet]
      rw [hintact.unread, hk, hbuf] at hlen
      have := Buffer.length_unread h
      simp only [Option.getD_none, List.take_nil, List.append_nil, Buffer.size] at hlen this
      omega

/-- A call that succeeds drops what the kernel took, which is not more than there is. -/
theorem sendTo_of_sent (h : s.wbuffer.Wf) (addr : SockAddr) {k : SendTo} {n : Nat}
    (hk : k.sent = some n) :
    (s.sendTo addr k).sock.wbuffer.Wf ∧
      (s.sendTo addr k).sock.wbuffer.unread = s.wbuffer.unread.drop n := by
  have hsize := Buffer.size_nonneg h
  have hlen := Buffer.length_unread h
  obtain ⟨m, hm⟩ : ∃ m : Nat, (m : Int) = min (n : Int) s.wbuffer.size :=
    ⟨(min (n : Int) s.wbuffer.size).toNat, by omega⟩
  have hdrop : s.wbuffer.unread.drop n = s.wbuffer.unread.drop m := by
    by_cases hnm : n = m
    · rw [hnm]
    · rw [List.drop_of_length_le (by omega), List.drop_of_length_le (by omega)]
  by_cases hzero : (m : Int) = 0
  · -- reported as an error, but nothing has happened
    have hsock : (s.sendTo addr k).sock = s := by
      simp only [sendTo, hk, ← hm]
      rw [if_pos hzero]
    rw [hsock, hdrop, Int.natCast_eq_zero.mp hzero, List.drop_zero]
    exact ⟨h, rfl⟩
  · have hsock : (s.sendTo addr k).sock = { s with wbuffer := s.wbuffer.consume m } := by
      simp only [sendTo, hk, ← hm]
      rw [if_neg hzero]
    have hfit : s.wbuffer.Fits m := Or.inr ⟨by omega, by omega⟩
    have hreq : s.wbuffer.request m = m := if_neg (by omega)
    rw [hsock]
    refine ⟨Buffer.wf_consume h hfit, ?_⟩
    rw [hdrop, Buffer.unread_consume h hfit, hreq, Int.toNat_natCast]

/-- A failure drops everything, or goes unnoticed when there is nothing. -/
theorem sendIntact_iff (h : s.wbuffer.Wf) (addr : SockAddr) (k : SendTo) :
    SendIntact s k (s.sendTo addr k) ↔ k.sent.isSome = true := by
  cases hk : k.sent with
  | some n =>
      obtain ⟨hwf, hunread⟩ := sendTo_of_sent h addr hk
      refine iff_of_true ⟨hwf, ?_, ?_⟩ rfl
      · rw [hunread, hk]
        rfl
      · intro hnone
        rw [hk] at hnone
        cases hnone
  | none =>
      refine iff_of_false ?_ (by simp)
      intro hintact
      have hout : (s.sendTo addr k).result = .ok () := by simp [sendTo, hk]
      obtain ⟨e, he⟩ := hintact.reported hk
      rw [hout] at he
      cases he

/-- **When datagram calls leave the buffers intact.** For every state of the socket and whatever the
system calls answer. -/
theorem udpIntact_iff (hr : s.rbuffer.Wf) (hw : s.wbuffer.Wf) :
    (∀ k, RecvIntact s k ↔ k.datagram.isSome = true) ∧
      (∀ inetPton ip port k addr, setIpPort inetPton k.errno s.family ip port = .ok addr →
        (SendIntact s k (s.send inetPton ip port k) ↔ k.sent.isSome = true)) ∧
      ∀ path k, SendIntact s k (s.sendUnix path k) ↔ k.sent.isSome = true := by
  refine ⟨recvIntact_iff hr, ?_, fun path k => sendIntact_iff hw _ k⟩
  intro inetPton ip port k addr haddr
  have hsend : s.send inetPton ip port k = s.sendTo addr k := by rw [send, haddr]
  rw [hsend]
  exact sendIntact_iff hw addr k

/-- A socket with two bytes unread and three unsent. -/
def twoAndThree : Nsockudp :=
  { Nio.new 5 with
    rbuffer := ⟨4, 1, 3, [0, 1, 2, 0]⟩
    wbuffer := ⟨4, 0, 3, [7, 8, 9, 0]⟩
    family := .ipv4
    peer := ("", 0) }

theorem udpIntact_iff_twoAndThree :
    (∀ k, RecvIntact twoAndThree k ↔ k.datagram.isSome = true) ∧
      (∀ inetPton ip port k addr,
        setIpPort inetPton k.errno twoAndThree.family ip port = .ok addr →
        (SendIntact twoAndThree k (twoAndThree.send inetPton ip port k) ↔ k.sent.isSome = true)) ∧
      ∀ path k, SendIntact twoAndThree k (twoAndThree.sendUnix path k) ↔ k.sent.isSome = true :=
  udpIntact_iff ⟨by decide, by decide, by decide, by decide, by decide⟩
    ⟨by decide, by decide, by decide, by decide, by decide⟩

/-- Nothing to receive, and no room to send: a byte received before is gone, and all that was to be
sent, without an exception. -/
theorem bytes_lost :
    let k : RecvFrom := ⟨none, .EAGAIN, .inet "" 0⟩
    let out := twoAndThree.sendUnix "/tmp/peer" ⟨none, .EAGAIN⟩
    twoAndThree.rbuffer.unread = [1, 2] ∧ (twoAndThree.recv k).2.rbuffer.unread = [1] ∧
      (twoAndThree.recv k).1 = .ok ("", 0, .ipv4) ∧ ¬ RecvIntact twoAndThree k ∧
      twoAndThree.wbuffer.unread = [7, 8, 9] ∧ out.sock.wbuffer.unread = [] ∧
      out.result = .ok () ∧ ¬ SendIntact twoAndThree ⟨none, .EAGAIN⟩ out := by
  refine ⟨by decide, by decide, rfl, fun h => ?_, by decide, by decide, rfl, fun h => ?_⟩
  · exact absurd h.unread (by decide)
  · exact absurd h.unread (by decide)

end Nsock

/-! ## Room for a datagram

A buffer that is never grown has the room that it was made with, less what is in front of `start_`;
a longer datagram is cut off by the kernel. -/

/-- `sysconfig::udp_buffer_size`, unless the program sets another one. -/
def udpBufferSize : Int := 2048

/-- `nio_factory::get_nsockudp`, with the descriptor that `socket` returns. -/
def getNsockudp (udpBufferSize fd : Int) (f : Family) : Nsockudp :=
  { Nio.new fd with
    rbuffer := Buffer.empty.resize udpBufferSize
    wbuffer := Buffer.empty.resize udpBufferSize
    family := f
    peer := ("", 0) }

/-- What a program does with what it receives. -/
inductive UdpCall where
  | recv (k : RecvFrom)
  | consume (len : Int)
  | getString (len : Int) (remove : Bool)
  deriving DecidableEq, Repr

namespace Nsock

def step (s : Nsockudp) : UdpCall → Option Nsockudp
  | .recv k => some (s.recv k).2
  | .consume len => some { s with rbuffer := s.rbuffer.consume len }
  | .getString len remove => some { s with rbuffer := (s.rbuffer.getString len remove).2 }

/-- The calls that leave the buffer in order: `recvfrom` does not fail, and lengths fit. -/
def Orderly (s : Nsockudp) : UdpCall → Prop
  | .recv k => k.datagram.isSome = true
  | .consume len => s.rbuffer.Fits len
  | .getString len _ => s.rbuffer.Fits len

instance (s : Nsockudp) : (c : UdpCall) → Decidable (s.Orderly c)
  | .recv k => inferInstanceAs (Decidable (k.datagram.isSome = true))
  | .consume len | .getString len _ => inferInstanceAs (Decidable (s.rbuffer.Fits len))

theorem wf_step {s t : Nsockudp} {c : UdpCall} (h : s.rbuffer.Wf) (hok : s.Orderly c)
    (hstep : Nsock.step s c = some t) : t.rbuffer.Wf := by
  cases c with
  | recv k =>
      obtain rfl := Option.some.inj hstep
      obtain ⟨bs, hk⟩ := Option.isSome_iff_exists.mp hok
      exact (wf_recv h hk).1
  | consume len =>
      obtain rfl := Option.some.inj hstep
      exact Buffer.wf_consume h hok
  | getString len remove =>
      obtain rfl := Option.some.inj hstep
      show (s.rbuffer.getString len remove).2.Wf
      rw [Buffer.getString_snd h hok]
      split
      case isTrue => exact Buffer.wf_consume h hok
      case isFalse => exact h

theorem wf_of_run {size fd : Int} {f : Family} {cs : List UdpCall} {s : Nsockudp}
    (hok : AllSteps Nsock.step Orderly (getNsockudp size fd f) cs)
    (hrun : run Nsock.step (getNsockudp size fd f) cs = some s) : s.rbuffer.Wf :=
  run_inv Nsock.step Orderly (fun s => s.rbuffer.Wf)
    (fun _ _ _ hi hok hstep => wf_step hi hok hstep) (Buffer.wf_resize Buffer.wf_empty size) hok hrun

/-- **When a datagram is stored whole.** After every sequence of calls on a new socket in which no
`recvfrom` fails: the room that counts is the one behind `offset_`. -/
theorem whole_iff {size fd : Int} {f : Family} {cs : List UdpCall} {s : Nsockudp}
    (hok : AllSteps Nsock.step Orderly (getNsockudp size fd f) cs)
    (hrun : run Nsock.step (getNsockudp size fd f) cs = some s) {k : RecvFrom} {bs : List Byte}
    (hk : k.datagram = some bs) :
    (s.recv k).2.rbuffer.unread = s.rbuffer.unread ++ bs ↔
      s.rbuffer.offset + bs.length ≤ s.rbuffer.cap := by
  have hwf := wf_of_run hok hrun
  have hoff := hwf.offset_le
  rw [(wf_recv hwf hk).2, List.append_cancel_left_eq, List.take_eq_self_iff, room]
  omega

/-- A datagram of two bytes, of which one is read. -/
def oneRead : List UdpCall := [.recv ⟨some [1, 2], .EAGAIN, .inet "127.0.0.1" 9⟩, .consume 1]

theorem whole_iff_oneRead :
    let s : Nsockudp :=
      { Nio.new 5 with
        rbuffer := ⟨8, 1, 2, [1, 2, 0, 0, 0, 0, 0, 0]⟩
        wbuffer := ⟨8, 0, 0, [0, 0, 0, 0, 0, 0, 0, 0]⟩
        family := .ipv4
        peer := ("", 0) }
    (s.recv ⟨some [3, 4, 5], .EAGAIN, .inet "127.0.0.1" 9⟩).2.rbuffer.unread =
        s.rbuffer.unread ++ [3, 4, 5] ↔
      s.rbuffer.offset + ([3, 4, 5] : List Byte).length ≤ s.rbuffer.cap :=
  whole_iff (show AllSteps Nsock.step Orderly (getNsockudp 8 5 .ipv4) oneRead by decide) (by decide)
    rfl

/-- Of 2048 bytes one is unread, and one in front of it has been read. A datagram of 2047 bytes
would fit, and is cut. -/
theorem datagram_cut :
    ∃ s, run Nsock.step (getNsockudp udpBufferSize 5 .ipv4) oneRead = some s ∧
      ∀ bs : List Byte, bs.length = 2047 → s.rbuffer.size + bs.length = s.rbuffer.cap ∧
        (s.recv ⟨some bs, .EAGAIN, .inet "127.0.0.1" 9⟩).2.rbuffer.unread =
          s.rbuffer.unread ++ bs.take 2046 ∧
        (s.recv ⟨some bs, .EAGAIN, .inet "127.0.0.1" 9⟩).2.rbuffer.unread ≠
          s.rbuffer.unread ++ bs := by
  refine ⟨_, rfl, fun bs hbs => ?_⟩
  have hwf := wf_of_run
    (show AllSteps Nsock.step Orderly (getNsockudp udpBufferSize 5 .ipv4) oneRead by decide) rfl
  have hcut := (wf_recv hwf (k := ⟨some bs, .EAGAIN, .inet "127.0.0.1" 9⟩) rfl).2
  refine ⟨by rw [hbs]; decide, hcut, fun hwhole => ?_⟩
  have hlen := congrArg List.length (List.append_cancel_left (hcut.symm.trans hwhole))
  rw [List.length_take, hbs] at hlen
  revert hlen
  decide

end Nsock

end Cppev
