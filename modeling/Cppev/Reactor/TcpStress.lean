import Cppev.Lib.Cycle
import Cppev.Reactor.Echo

/-!
# The stress test

The two processes of `examples/tcp_stress`: a loop with the callbacks of `simple_server.cc`, a loop
with those of `simple_client.cc`, and the network between them. A connection has the same name on
both sides. The kernels and the network are free to keep bytes back for as long as they like, and to
deliver them in pieces of any size; what they deliver has been sent, and comes in order.

* `echo_circulates`: nothing but the greeting is ever sent, over and over; and as long as both loops
  go on, what is under way on a connection is its greeting, turned by some number of places.
-/

namespace Cppev

/-! ## Two reactors and a network

The steps of both sides in any order. A delivery to one of them takes what the other has sent, and
no more. -/

inductive StressSide where
  | server | client
  deriving DecidableEq, Repr

/-- What a loop of either side meets; its callbacks are given. -/
inductive StressLabel where
  | handOver (c : ConnId) (fd : Int) (origin : Origin)
  | poll (evs : List (Int × EpollEvents))
  | dispatch (i : Nat) (arrivals : Arrivals) (script : Script)
  | destroy (c : ConnId)

def StressLabel.toReactor (callbacks : Arrivals → Script → Env) : StressLabel → ReactorLabel
  | .handOver c fd origin => .handOver c fd origin
  | .poll evs => .poll evs
  | .dispatch i arrivals script => .dispatch i (callbacks arrivals script)
  | .destroy c => .destroy c

structure TcpStress where
  server : Reactor
  client : Reactor

namespace TcpStress

def init : TcpStress := ⟨.init, .init⟩

/-- What a side has received has been sent by the other. -/
def Delivers (sender receiver : Reactor) : Prop :=
  ∀ c ∈ receiver.world.born,
    receivedBytes (receiver.world.trace c) <+: sentBytes (sender.world.trace c)

instance (sender receiver : Reactor) : Decidable (Delivers sender receiver) :=
  inferInstanceAs (Decidable (∀ c ∈ receiver.world.born, _))

/-- The network has kept its word. -/
def Delivered (p : TcpStress) : Prop :=
  Delivers p.client p.server ∧ Delivers p.server p.client

instance (p : TcpStress) : Decidable p.Delivered := inferInstanceAs (Decidable (_ ∧ _))

/-- One side goes on. -/
def advance (p : TcpStress) : StressSide × StressLabel → Option TcpStress
  | (.server, l) => (p.server.step (l.toReactor simpleServer)).map fun server => { p with server }
  | (.client, l) => (p.client.step (l.toReactor simpleClient)).map fun client => { p with client }

def step (p : TcpStress) (l : StressSide × StressLabel) : Option TcpStress :=
  (p.advance l).filter fun p' => p'.Delivered

/-- The bytes of a connection that are in the network or in `wbuffer`, from the server's end of the
way to the client and back. -/
def underWay (p : TcpStress) (c : ConnId) : List Byte :=
  (sentBytes (p.client.world.trace c)).drop (receivedBytes (p.server.world.trace c)).length ++
    (p.client.world.nios c).wbuffer.unread ++
    (sentBytes (p.server.world.trace c)).drop (receivedBytes (p.client.world.trace c)).length ++
    (p.server.world.nios c).wbuffer.unread

/-! ## What every step keeps -/

structure Inv (p : TcpStress) : Prop where
  server : p.server.Echoing helloText
  client : p.client.Echoing []
  delivered : p.Delivered
  /-- Nothing but the greeting is sent. -/
  toClient : ∀ c, Cyclic helloText (sentBytes (p.server.world.trace c))
  toServer : ∀ c, Cyclic helloText (sentBytes (p.client.world.trace c))

theorem inv_init : Inv init where
  server := allLocal_init (Conn.stageInv_echo _).localInv
  client := allLocal_init (Conn.stageInv_echo _).localInv
  delivered := ⟨by simp [Delivers, init, Reactor.init], by simp [Delivers, init, Reactor.init]⟩
  toClient _ := cyclic_nil
  toServer _ := cyclic_nil

/-- A label of the stress test asks nothing of the outside but the callbacks it has. -/
theorem meets_toReactor {hello : List Byte} {callbacks : Arrivals → Script → Env}
    (h : ∀ arrivals script, (callbacks arrivals script).Echoes hello) (s : Reactor)
    (l : StressLabel) : Meets (fun _ _ env => env.Echoes hello) s (l.toReactor callbacks) := by
  refine meets_of_env (fun i env heq => ?_) s
  cases l with
  | dispatch j arrivals script =>
      obtain ⟨-, rfl⟩ := ReactorLabel.dispatch.inj heq
      exact h arrivals script
  | handOver c fd origin => simp [StressLabel.toReactor] at heq
  | poll evs => simp [StressLabel.toReactor] at heq
  | destroy c => simp [StressLabel.toReactor] at heq

theorem echoing_step {hello : List Byte} {callbacks : Arrivals → Script → Env}
    (h : ∀ arrivals script, (callbacks arrivals script).Echoes hello) {s s' : Reactor}
    {l : StressLabel} (hs : s.Echoing hello)
    (hstep : s.step (l.toReactor callbacks) = some s') : s'.Echoing hello :=
  step_local (Conn.stageInv_echo hello).localInv hs (meets_toReactor h s l) hstep

/-- What a side sends goes round if what it receives does. -/
theorem cyclic_sent {hello : List Byte} {sender receiver : Reactor} (hs : receiver.Echoing hello)
    (hgreet : hello = [] ∨ hello = helloText) (hdelivers : Delivers sender receiver)
    (hcyclic : ∀ c, Cyclic helloText (sentBytes (sender.world.trace c))) (c : ConnId) :
    Cyclic helloText (sentBytes (receiver.world.trace c)) := by
  by_cases hc : c ∈ receiver.world.born
  · have hbehind : Conn.Behind hello (view c receiver.world) := hs.left c hc
    have hreceived : Cyclic helloText (receivedBytes (receiver.world.trace c)) :=
      (hcyclic c).initial (hdelivers c hc)
    have hgreeted : greetedBytes hello (receiver.world.trace c) = [] ∨
        greetedBytes hello (receiver.world.trace c) = helloText := by
      rcases hbehind.once with hnil | hhello
      · exact .inl hnil
      · exact hgreet.imp hhello.trans hhello.trans
    rcases hgreeted with hnil | hhello
    · refine hreceived.initial ?_
      have hsent := hbehind.sent
      rwa [show greetedBytes hello (view c receiver.world).trace = [] from hnil] at hsent
    · refine hreceived.append.initial ?_
      have hsent := hbehind.sent
      rwa [show greetedBytes hello (view c receiver.world).trace = helloText from hhello] at hsent
  · rw [hs.sane.unborn c hc]
    exact cyclic_nil

variable {p p' : TcpStress}

theorem Inv.step {l : StressSide × StressLabel} (h : Inv p) (hstep : p.step l = some p') :
    Inv p' := by
  obtain ⟨hadvance, hdelivered⟩ := Option.filter_eq_some_iff.mp hstep
  have hd : p'.Delivered := of_decide_eq_true hdelivered
  obtain ⟨side, l⟩ := l
  cases side with
  | server =>
      obtain ⟨s', hs', rfl⟩ := Option.map_eq_some_iff.mp hadvance
      have hecho := echoing_step echoes_simpleServer h.server hs'
      exact ⟨hecho, h.client, hd, cyclic_sent hecho (.inr rfl) hd.1 h.toServer, h.toServer⟩
  | client =>
      obtain ⟨s', hs', rfl⟩ := Option.map_eq_some_iff.mp hadvance
      have hecho := echoing_step echoes_simpleClient h.client hs'
      exact ⟨h.server, hecho, hd, h.toClient, cyclic_sent hecho (.inl rfl) hd.2 h.toClient⟩

theorem Inv.of_run {ls : List (StressSide × StressLabel)}
    (hrun : run TcpStress.step init ls = some p) : Inv p :=
  run_inv TcpStress.step (fun _ _ => True) Inv (fun _ _ _ h _ hs => h.step hs) inv_init
    (allSteps_true _ _ _) hrun

/-! ## What is in the circle

What a side has received it has sent, or still has to send. So the bytes under way, read in order,
are the greeting, turned. -/

/-- What the client has received is what it has sent and what it is to send. -/
theorem Inv.isRotated (h : Inv p) (hs : p.server.fault = none) (hc : p.client.fault = none)
    {c : ConnId} (hserver : c ∈ p.server.world.born) (hclient : c ∈ p.client.world.born) :
    p.underWay c ~r greetedBytes helloText (p.server.world.trace c) := by
  have hflow := (h.server.even hs hserver).flow
  have hflow' := (h.client.even hc hclient).flow
  obtain ⟨up, hup⟩ := h.delivered.1 c hserver
  obtain ⟨down, hdown⟩ := h.delivered.2 c hclient
  have hunder : p.underWay c = up ++ (p.client.world.nios c).wbuffer.unread ++ down ++
      (p.server.world.nios c).wbuffer.unread := by
    simp [underWay, ← hup, ← hdown]
  have hclient' : receivedBytes (p.server.world.trace c) ++ up ++
      (p.client.world.nios c).wbuffer.unread = receivedBytes (p.client.world.trace c) := by
    have hnone : greetedBytes [] (view c p.client.world).trace = [] := by
      simpa using (h.client.even hc hclient).once
    rw [hup]
    rw [hnone, List.nil_append] at hflow'
    exact hflow'
  rw [hunder]
  refine @isRotated_of_append _ _ (receivedBytes (p.server.world.trace c)) _ ?_
  calc greetedBytes helloText (p.server.world.trace c) ++ receivedBytes (p.server.world.trace c)
      = sentBytes (p.server.world.trace c) ++ (p.server.world.nios c).wbuffer.unread := hflow.symm
    _ = receivedBytes (p.client.world.trace c) ++ down ++
          (p.server.world.nios c).wbuffer.unread := by rw [hdown]
    _ = _ := by rw [← hclient']; simp only [List.append_assoc]

/-- **The greeting goes round.** Whatever the two processes, their kernels and the network do, and
in whatever order: what either side has sent is the beginning of the greeting repeated over and over.
As long as both loops go on, the bytes of a connection that are under way are those of its greeting,
each of them once, turned by some number of places; none before `on_accept` has been called. -/
theorem echo_circulates {ls : List (StressSide × StressLabel)}
    (hrun : run TcpStress.step init ls = some p) (c : ConnId) :
    Cyclic helloText (sentBytes (p.server.world.trace c)) ∧
      Cyclic helloText (sentBytes (p.client.world.trace c)) ∧
      (p.server.fault = none → p.client.fault = none → c ∈ p.server.world.born →
        c ∈ p.client.world.born →
        greetedBytes helloText (p.server.world.trace c) ∈ [[], helloText] ∧
          p.underWay c ~r greetedBytes helloText (p.server.world.trace c)) := by
  have hinv := Inv.of_run hrun
  refine ⟨hinv.toClient c, hinv.toServer c, fun hs hc hserver hclient => ⟨?_, ?_⟩⟩
  · have honce : greetedBytes helloText (p.server.world.trace c) = [] ∨
        greetedBytes helloText (p.server.world.trace c) = helloText :=
      (hinv.server.even hs hserver).once
    simpa using honce
  · exact hinv.isRotated hs hc hserver hclient

/-- The server greets; the client has read twenty bytes of it, has sent back eight of them, and five
of these have come. -/
def oneGreeting : List (StressSide × StressLabel) :=
  [(.client, .handOver 0 8 (.connecting ("127.0.0.1", 8891, .ipv4))),
    (.server, .handOver 0 5 (.accepted .ipv4)),
    (.server, .poll [(5, ⟨false, true, false, false⟩)]),
    (.server, .dispatch 0 (fun _ => []) ⟨[], [.count 35], 0⟩),
    (.client, .poll [(8, ⟨false, true, false, false⟩)]),
    (.client, .dispatch 0 (fun _ => []) ⟨[], [], 0⟩),
    (.client, .poll [(8, ⟨true, false, false, false⟩)]),
    (.client, .dispatch 0 (fun _ => []) ⟨[.bytes (helloText.take 20)], [.count 8], 0⟩),
    (.server, .poll [(5, ⟨true, false, false, false⟩)]),
    (.server, .dispatch 0 (fun _ => []) ⟨[.bytes (helloText.take 5)], [], 0⟩)]

theorem echo_circulates_oneGreeting :
    ∃ p, run TcpStress.step init oneGreeting = some p ∧
      p.underWay 0 = helloText.drop 5 ++ helloText.take 5 ∧ p.underWay 0 ~r helloText := by
  have hend : ((run TcpStress.step init oneGreeting).any fun p =>
      p.server.fault = none && p.client.fault = none && p.server.world.born = [0] &&
        p.client.world.born = [0] &&
          greetedBytes helloText (p.server.world.trace 0) = helloText) = true := by
    decide +kernel
  have hunder : (run TcpStress.step init oneGreeting).map (fun p => p.underWay 0) =
      some (helloText.drop 5 ++ helloText.take 5) := by decide +kernel
  obtain ⟨p, hp, heq⟩ := (Option.any_eq_true ..).mp hend
  obtain ⟨p', hp', hway⟩ := Option.map_eq_some_iff.mp hunder
  obtain rfl : p = p' := Option.some.inj (hp.symm.trans hp')
  simp only [Bool.and_eq_true, decide_eq_true_eq] at heq
  obtain ⟨⟨⟨⟨hs, hc⟩, hserver⟩, hclient⟩, hgreeted⟩ := heq
  obtain ⟨-, -, hrotated⟩ := echo_circulates hp 0
  obtain ⟨-, hrotated⟩ := hrotated hs hc (by rw [hserver]; exact .head _)
    (by rw [hclient]; exact .head _)
  rw [hgreeted] at hrotated
  exact ⟨p, hp, hway, hrotated⟩

end TcpStress

end Cppev
