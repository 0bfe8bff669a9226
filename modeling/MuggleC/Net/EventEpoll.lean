/- source: net/event/socket_event_epoll.c, net/event/socket_event_utils.c
   digest: The epoll event loop and its count of registered nodes. -/

import MuggleC.Net.MemmgrLists

set_option autoImplicit false

namespace MuggleC.Net.EventEpoll

open Foundation.Transition List
open MemmgrLists (Memmgr init_inv)

structure Epevents where
  epollin : Bool
  errHup : Bool
  deriving DecidableEq, Repr

abbrev Batch (ν : Type) := List (ν × Epevents)

/-- From `listen` on, the first node is the one that the current entry is about, and `rest` are the
entries behind it. -/
inductive Pc (ν : Type)
  | register (rest : List ν)
  | wait
  | scan (batch : Batch ν)
  | listen (node : ν) (rest : Batch ν)
  | refusing (node : ν) (rest : Batch ν)
  | accepting (node : ν) (rest : Batch ν) (new : ν)
  | adding (node : ν) (rest : Batch ν) (new : ν)
  | check (node : ν) (rest : Batch ν)
  | remove (node : ν) (rest : Batch ν)
  | timer
  | exited
  deriving DecidableEq

/-- `registered` are the nodes that the kernel has in the interest list of `epfd`. Peers have sockets
of their own, so that closing one takes no other node off the list. -/
structure State (ν : Type) where
  nodes : Nodes ν
  registered : List ν
  cntFd : Int
  pc : Pc ν

inductive Event (ν : Type)
  | close (n : ν)
  | ctlAdd (ok : Bool) (unshared : Bool)
  | wait (n : Int) (batch : Batch ν) (interrupted : Bool)
  | accept (result : Accept)
  | ctlDel (unshared : Bool)
  | leave (toExit : Bool) (unused : ν → Bool)
  | go

/-- The variable `cnt_fd` is not initialised: it starts with whatever is in its place. -/
def start {ν : Type} (nodes : Nodes ν) (cntFd : Int) : State ν :=
  ⟨nodes, [], cntFd, .register nodes.active⟩

def Reports {ν : Type} (registered : List ν) (batch : Batch ν) : Prop :=
  (batch.map Prod.fst).Nodup ∧ ∀ n ∈ batch.map Prod.fst, n ∈ registered

instance {ν : Type} [DecidableEq ν] (registered : List ν) (batch : Batch ν) :
    Decidable (Reports registered batch) :=
  inferInstanceAs (Decidable (_ ∧ _))

namespace State

variable {ν : Type} [DecidableEq ν]

def goto (s : State ν) (pc : Pc ν) : State ν := { s with pc := pc }

def setNodes (s : State ν) (nodes : Nodes ν) : State ν := { s with nodes := nodes }

def ctlAdd (s : State ν) (node : ν) (ok unshared : Bool) : State ν :=
  if ok then { s with registered := node :: s.registered, cntFd := s.cntFd + 1 }
  else s.setNodes (s.nodes.recycle unshared node)

def waited (s : State ν) (n : Int) (batch : Batch ν) (interrupted : Bool) : Option (State ν) :=
  if 0 < n then
    if n = batch.length ∧ Reports s.registered batch then some (s.goto (.scan batch)) else none
  else if n = 0 then some (s.goto .timer)
  else if interrupted then some s
  else some (s.goto .exited)

def scan (s : State ν) : Batch ν → State ν
  | [] => s.goto .timer
  | (node, epevents) :: rest =>
    if epevents.epollin then
      match (s.nodes.peer node).peerType with
      | .tcpListen => s.goto (.listen node rest)
      | _ => s.goto (.check node rest)
    else if epevents.errHup then (s.setNodes (s.nodes.close node)).goto (.check node rest)
    else s.goto (.check node rest)

/-- `muggle_socket_event_epoll_listen` up to the call of `accept`. -/
def listen (capacity : Nat) (s : State ν) (node : ν) (rest : Batch ν) : State ν :=
  if s.cntFd = capacity then s.goto (.refusing node rest)
  else
    match s.nodes.allocate with
    | none => s.goto (.refusing node rest)
    | some (new, nodes) => (s.setNodes nodes).goto (.accepting node rest new)

def refuse (s : State ν) (node : ν) (rest : Batch ν) : Accept → State ν
  | .wouldBlock => s.goto (.check node rest)
  | .failed => s.setNodes (s.nodes.close node)
  | .interrupted => s
  | .connected _ => s

/-- `muggle_socket_event_accept` in `muggle_socket_event_epoll_listen`. -/
def accept (s : State ν) (node : ν) (rest : Batch ν) (new : ν) : Accept → State ν
  | .interrupted =>
    s.setNodes (s.nodes.setPeer new { s.nodes.peer new with fd := invalidSocket })
  | .wouldBlock => (s.setNodes (s.nodes.free new)).goto (.check node rest)
  | .failed => (s.setNodes ((s.nodes.close node).free new)).goto (.check node rest)
  | .connected fd =>
    (s.setNodes (s.nodes.setPeer new ⟨fd, .tcpPeer, false⟩)).goto (.adding node rest new)

def remove (s : State ν) (node : ν) (rest : Batch ν) (unshared : Bool) : State ν :=
  { s with
    nodes := s.nodes.recycle unshared node
    registered := s.registered.erase node
    cntFd := s.cntFd - 1
    pc := .scan rest }

def step (capacity : Nat) (s : State ν) (e : Event ν) : Option (State ν) :=
  match e, s.pc with
  | .close n, _ => some (s.setNodes (s.nodes.close n))
  | .ctlAdd ok unshared, .register (node :: rest) =>
    some ((s.ctlAdd node ok unshared).goto (.register rest))
  | .go, .register [] => some (s.goto .wait)
  | .wait n batch interrupted, .wait => s.waited n batch interrupted
  | .go, .scan batch => some (s.scan batch)
  | .go, .listen node rest => some (s.listen capacity node rest)
  | .accept result, .refusing node rest => some (s.refuse node rest result)
  | .accept result, .accepting node rest new =>
    -- A connection has a valid socket.
    if result = .connected invalidSocket then none else some (s.accept node rest new result)
  | .ctlAdd ok unshared, .adding node rest new =>
    some ((s.ctlAdd new ok unshared).goto (.listen node rest))
  | .go, .check node rest =>
    some (s.goto (if (s.nodes.peer node).closed then .remove node rest else .scan rest))
  | .ctlDel unshared, .remove node rest => some (s.remove node rest unshared)
  | .leave toExit unused, .timer =>
    some (if toExit then s.goto .exited else (s.setNodes (s.nodes.clear unused)).goto .wait)
  | _, _ => none

end State

section Invariant

variable {ν : Type}

structure Listed (nodes : Nodes ν) (registered : List ν) : Prop where
  apart : nodes.all.Nodup
  nodup : registered.Nodup
  active : ∀ n ∈ registered, n ∈ nodes.active

def Pending (registered : List ν) (node : ν) (rest : Batch ν) : Prop :=
  node ∈ registered ∧ node ∉ rest.map Prod.fst ∧ Reports registered rest

def At (capacity : Nat) (nodes : Nodes ν) (registered : List ν) (cntFd : Int) : Pc ν → Prop
  | .register rest => rest.Nodup ∧ ∀ n ∈ rest, n ∈ nodes.active ∧ n ∉ registered
  | .scan batch => Reports registered batch
  | .listen node rest => Pending registered node rest
  | .refusing node rest =>
    Pending registered node rest ∧ (cntFd = capacity ∨ nodes.pool = [])
  | .accepting node rest new =>
    Pending registered node rest ∧ new ∈ nodes.active ∧ new ∉ registered
  | .adding node rest new =>
    Pending registered node rest ∧ new ∈ nodes.active ∧ new ∉ registered
  | .check node rest => Pending registered node rest
  | .remove node rest => Pending registered node rest
  | _ => True

structure Inv (capacity : Nat) (garbage : Int) (s : State ν) : Prop where
  listed : Listed s.nodes s.registered
  cnt : s.cntFd = garbage + s.registered.length
  at_pc : At capacity s.nodes s.registered s.cntFd s.pc

variable {capacity : Nat} {garbage : Int} {s t : State ν} {pc : Pc ν}

theorem Inv.at (h : Inv capacity garbage s) (hpc : s.pc = pc) :
    At capacity s.nodes s.registered s.cntFd pc := hpc ▸ h.at_pc

theorem Inv.goto (h : Inv capacity garbage s)
    (hat : At capacity s.nodes s.registered s.cntFd pc) : Inv capacity garbage (s.goto pc) :=
  ⟨h.listed, h.cnt, hat⟩

variable {nodes : Nodes ν}

private theorem inv_start (hall : nodes.all.Nodup) (garbage : Int) :
    Inv capacity garbage (start nodes garbage) := by
  refine ⟨⟨hall, nodup_nil, fun n hn => absurd hn not_mem_nil⟩, ?_, ?_⟩
  · show garbage = garbage + ((0 : Nat) : Int)
    omega
  · exact ⟨Nodes.nodup_active hall, fun n hn => ⟨hn, not_mem_nil⟩⟩

variable {rest : Batch ν} {registered : List ν} {node : ν}

theorem Reports.tail {epevents : Epevents}
    (h : Reports registered ((node, epevents) :: rest)) : Pending registered node rest := by
  obtain ⟨hnodup, hmem⟩ := h
  rw [map_cons, nodup_cons] at hnodup
  rw [map_cons, forall_mem_cons] at hmem
  exact ⟨hmem.1, hnodup.1, hnodup.2, hmem.2⟩

variable {new : ν}

theorem Pending.cons (h : Pending registered node rest) : Pending (new :: registered) node rest :=
  ⟨mem_cons_of_mem _ h.1, h.2.1, h.2.2.1, fun n hn => mem_cons_of_mem _ (h.2.2.2 n hn)⟩

theorem Inv.leave (h : Inv capacity garbage s) (unused : ν → Bool) :
    Inv capacity garbage ((s.setNodes (s.nodes.clear unused)).goto .wait) :=
  ⟨⟨(Nodes.all_clear s.nodes unused).nodup_iff.mpr h.listed.apart, h.listed.nodup,
    h.listed.active⟩, h.cnt, trivial⟩

variable [DecidableEq ν]

theorem Pending.erase
    (h : Pending registered node rest) : Reports (registered.erase node) rest := by
  obtain ⟨-, hnot, hnodup, hmem⟩ := h
  refine ⟨hnodup, fun n hn => ?_⟩
  exact (mem_erase_of_ne (ne_of_mem_of_not_mem hn hnot)).mpr (hmem n hn)

theorem Inv.close (h : Inv capacity garbage s) (n : ν) :
    Inv capacity garbage (s.setNodes (s.nodes.close n)) := by
  refine ⟨⟨h.listed.apart, h.listed.nodup, h.listed.active⟩, h.cnt, ?_⟩
  have hat := h.at_pc
  show At capacity (s.nodes.close n) s.registered s.cntFd s.pc
  cases hpc : s.pc <;> rw [hpc] at hat <;> exact hat

theorem Listed.ctlAdd (h : Listed s.nodes s.registered) (hmem : new ∈ s.nodes.active)
    (hnot : new ∉ s.registered) (ok unshared : Bool) :
    Listed (s.ctlAdd new ok unshared).nodes (s.ctlAdd new ok unshared).registered := by
  cases ok with
  | true =>
    refine ⟨h.apart, nodup_cons.mpr ⟨hnot, h.nodup⟩, ?_⟩
    intro n hn
    rcases mem_cons.mp hn with rfl | hn
    · exact hmem
    · exact h.active n hn
  | false =>
    refine ⟨(Nodes.all_recycle hmem unshared).nodup_iff.mpr h.apart, h.nodup, ?_⟩
    intro n hn
    show n ∈ (s.nodes.recycle unshared new).active
    rw [Nodes.active_recycle]
    exact (mem_erase_of_ne (ne_of_mem_of_not_mem hn hnot)).mpr (h.active n hn)

theorem cnt_ctlAdd (h : s.cntFd = garbage + s.registered.length) (new : ν) (ok unshared : Bool) :
    (s.ctlAdd new ok unshared).cntFd = garbage + (s.ctlAdd new ok unshared).registered.length := by
  cases ok with
  | true =>
    show s.cntFd + 1 = garbage + ((s.registered.length + 1 : Nat) : Int)
    omega
  | false => exact h

variable (h : Inv capacity garbage s)

include h

theorem Inv.register {rest : List ν} (hpc : s.pc = .register (node :: rest)) (ok unshared : Bool) :
    Inv capacity garbage ((s.ctlAdd node ok unshared).goto (.register rest)) := by
  obtain ⟨hnodup, hmem⟩ := h.at hpc
  rw [nodup_cons] at hnodup
  rw [forall_mem_cons] at hmem
  refine ⟨h.listed.ctlAdd hmem.1.1 hmem.1.2 ok unshared, cnt_ctlAdd h.cnt node ok unshared,
    hnodup.2, ?_⟩
  intro n hn
  have hne : n ≠ node := ne_of_mem_of_not_mem hn hnodup.1
  obtain ⟨hactive, hnot⟩ := hmem.2 n hn
  cases ok with
  | true => exact ⟨hactive, not_mem_cons_of_ne_of_not_mem hne hnot⟩
  | false =>
    refine ⟨?_, hnot⟩
    show n ∈ (s.nodes.recycle unshared node).active
    rw [Nodes.active_recycle]
    exact (mem_erase_of_ne hne).mpr hactive

theorem Inv.adding (hpc : s.pc = .adding node rest new) (ok unshared : Bool) :
    Inv capacity garbage ((s.ctlAdd new ok unshared).goto (.listen node rest)) := by
  obtain ⟨hpending, hmem, hnot⟩ := h.at hpc
  refine ⟨h.listed.ctlAdd hmem hnot ok unshared, cnt_ctlAdd h.cnt new ok unshared, ?_⟩
  cases ok with
  | true => exact hpending.cons
  | false => exact hpending

variable {batch : Batch ν}

theorem Inv.waited {n : Int} {interrupted : Bool}
    (hw : s.waited n batch interrupted = some t) : Inv capacity garbage t := by
  unfold State.waited at hw
  split at hw
  · split at hw
    · next hbatch =>
      cases hw
      exact h.goto hbatch.2
    · cases hw
  · split at hw
    · cases hw
      exact h.goto trivial
    · split at hw
      · cases hw
        exact h
      · cases hw
        exact h.goto trivial

theorem Inv.scan (hpc : s.pc = .scan batch) : Inv capacity garbage (s.scan batch) := by
  have hat : Reports s.registered batch := h.at hpc
  cases batch with
  | nil => exact h.goto trivial
  | cons entry rest =>
    obtain ⟨node, epevents⟩ := entry
    have hpending := hat.tail
    rw [State.scan]
    split
    · split
      · exact h.goto hpending
      · exact h.goto hpending
    · split
      · exact (h.close node).goto hpending
      · exact h.goto hpending

theorem Inv.listen
    (hpc : s.pc = .listen node rest) : Inv capacity garbage (s.listen capacity node rest) := by
  have hpending : Pending s.registered node rest := h.at hpc
  unfold State.listen
  by_cases hcap : s.cntFd = capacity
  · rw [if_pos hcap]
    exact h.goto ⟨hpending, .inl hcap⟩
  · rw [if_neg hcap]
    cases halloc : s.nodes.allocate with
    | none => exact h.goto ⟨hpending, .inr (Nodes.allocate_eq_none.mp halloc)⟩
    | some r =>
      obtain ⟨new, nodes⟩ := r
      have hactive := (Nodes.allocate_eq_some halloc).2.2.1
      have hfresh := Nodes.allocate_not_mem h.listed.apart halloc
      have hlisted : Listed nodes s.registered := by
        refine ⟨(Nodes.all_allocate halloc).nodup_iff.mpr h.listed.apart, h.listed.nodup, ?_⟩
        intro n hn
        rw [hactive]
        exact mem_cons_of_mem _ (h.listed.active n hn)
      have hmem : new ∈ nodes.active := hactive ▸ mem_cons_self
      exact ⟨hlisted, h.cnt, hpending, hmem, fun hn => hfresh (h.listed.active new hn)⟩

theorem Inv.refuse (hpc : s.pc = .refusing node rest) (result : Accept) :
    Inv capacity garbage (s.refuse node rest result) := by
  cases result with
  | interrupted => exact h
  | wouldBlock => exact h.goto (h.at hpc).1
  | failed => exact h.close node
  | connected fd => exact h

omit h

theorem Listed.free (h : Listed nodes registered)
    (hmem : new ∈ nodes.active) (hnot : new ∉ registered) : Listed (nodes.free new) registered := by
  refine ⟨(Nodes.all_free hmem).nodup_iff.mpr h.apart, h.nodup, fun n hn => ?_⟩
  exact (mem_erase_of_ne (ne_of_mem_of_not_mem hn hnot)).mpr (h.active n hn)

theorem Inv.accept (h : Inv capacity garbage s) (hpc : s.pc = .accepting node rest new)
    (result : Accept) : Inv capacity garbage (s.accept node rest new result) := by
  obtain ⟨hpending, hmem, hnot⟩ := h.at hpc
  cases result with
  | interrupted =>
    refine ⟨⟨h.listed.apart, h.listed.nodup, h.listed.active⟩, h.cnt, ?_⟩
    show At _ _ _ _ s.pc
    rw [hpc]
    exact ⟨hpending, hmem, hnot⟩
  | wouldBlock => exact ⟨h.listed.free hmem hnot, h.cnt, hpending⟩
  | failed => exact ⟨(h.close node).listed.free hmem hnot, h.cnt, hpending⟩
  | connected fd =>
    exact ⟨⟨h.listed.apart, h.listed.nodup, h.listed.active⟩, h.cnt, hpending, hmem, hnot⟩

theorem Inv.remove (h : Inv capacity garbage s) (hpc : s.pc = .remove node rest) (unshared : Bool) :
    Inv capacity garbage (s.remove node rest unshared) := by
  have hpending : Pending s.registered node rest := h.at hpc
  have hmem : node ∈ s.nodes.active := h.listed.active node hpending.1
  constructor
  case listed =>
    refine ⟨(Nodes.all_recycle hmem unshared).nodup_iff.mpr h.listed.apart,
      h.listed.nodup.erase node, fun n hn => ?_⟩
    obtain ⟨hne, hn⟩ := h.listed.nodup.mem_erase_iff.mp hn
    show n ∈ (s.nodes.recycle unshared node).active
    rw [Nodes.active_recycle]
    exact (mem_erase_of_ne hne).mpr (h.listed.active n hn)
  case cnt =>
    have hlen := length_erase_of_mem hpending.1
    have hpos := length_pos_of_mem hpending.1
    have hcnt := h.cnt
    show s.cntFd - 1 = garbage + ((s.registered.erase node).length : Int)
    omega
  case at_pc => exact hpending.erase

theorem Inv.step {e : Event ν} (h : Inv capacity garbage s)
    (hstep : s.step capacity e = some t) : Inv capacity garbage t := by
  unfold State.step at hstep
  split at hstep
  · cases hstep
    exact h.close _
  · next hpc =>
    cases hstep
    exact h.register hpc _ _
  · cases hstep
    exact h.goto trivial
  · exact h.waited hstep
  · next hpc =>
    cases hstep
    exact h.scan hpc
  · next hpc =>
    cases hstep
    exact h.listen hpc
  · next hpc =>
    cases hstep
    exact h.refuse hpc _
  · next hpc =>
    split at hstep
    · cases hstep
    · cases hstep
      exact h.accept hpc _
  · next hpc =>
    cases hstep
    exact h.adding hpc _ _
  · next hpc =>
    cases hstep
    have hpending : Pending s.registered _ _ := h.at hpc
    split
    · exact h.goto hpending
    · exact h.goto hpending.2.2
  · next hpc =>
    cases hstep
    exact h.remove hpc _
  · next toExit unused hpc =>
    cases hstep
    cases toExit with
    | true => exact h.goto trivial
    | false => exact h.leave unused
  · cases hstep

private theorem register_all (s : State ν) {rest : List ν} (hpc : s.pc = .register rest) :
    ∃ t, run (State.step capacity) s (rest.map (fun _ => .ctlAdd true true) ++ [.go]) = some t ∧
      t.pc = .wait := by
  induction rest generalizing s with
  | nil =>
    refine ⟨s.goto .wait, ?_, rfl⟩
    apply run_of_step _ (run_nil _ _)
    unfold State.step
    rw [hpc]
  | cons node rest ih =>
    obtain ⟨t, hrun, ht⟩ := ih ((s.ctlAdd node true true).goto (.register rest)) rfl
    refine ⟨t, run_of_step ?_ hrun, ht⟩
    unfold State.step
    rw [hpc]

end Invariant

/-- At every `epoll_wait` the count is the number of registered nodes, and a connection is refused
only at capacity or without a free node. -/
def Counts {ν : Type} [DecidableEq ν] (capacity : Nat) (nodes : Nodes ν) (garbage : Int) : Prop :=
  ∀ (events : List (Event ν)) (s : State ν),
    run (State.step capacity) (start nodes garbage) events = some s →
      (s.pc = .wait → s.cntFd = s.registered.length) ∧
        ∀ node rest, s.pc = .refusing node rest →
          s.registered.length = capacity ∨ s.nodes.pool = []

/-- The count is right exactly if the uninitialised `cnt_fd` happens to start from zero. -/
theorem counts_iff {ν : Type} [DecidableEq ν] {hintsMaxPeer : Int} {peer : ν → PeerView}
    {pool : List ν} {peers : List (Int × PeerType)} {nodes : Nodes ν} (garbage : Int)
    (hpool : pool.Nodup) (hinit : (Nodes.ofPool peer pool).addPeers peers = some nodes) :
    Counts (eventCapacity hintsMaxPeer peers.length) nodes garbage ↔ garbage = 0 := by
  have hall : nodes.all.Nodup := Nodes.nodup_all_of_init hpool hinit
  have hinv : ∀ events s, run (State.step (eventCapacity hintsMaxPeer peers.length))
      (start nodes garbage) events = some s →
      Inv (eventCapacity hintsMaxPeer peers.length) garbage s := fun events s hrun =>
    run_invariant (fun _ _ _ h hstep => Inv.step h hstep) (inv_start hall garbage) hrun
  constructor
  · intro h
    obtain ⟨t, hrun, hwait⟩ := register_all (start nodes garbage) rfl
    have hcnt := (h _ t hrun).1 hwait
    have hgarbage := (hinv _ t hrun).cnt
    omega
  · rintro rfl events s hrun
    have hI := hinv events s hrun
    have hcnt := hI.cnt
    refine ⟨fun _ => by omega, fun node rest hpc => ?_⟩
    obtain ⟨-, hcap | hfree⟩ := hI.at hpc
    · exact .inl (by omega)
    · exact .inr hfree

theorem counts_of_zero :
    ∃ mgr nodes, Memmgr.init 2 ⟨true, true, true⟩ (fun _ => none) (fun _ => none) = some mgr ∧
      (Nodes.ofPool (fun _ => ⟨0, .null, false⟩) mgr.pool.ptrBuf).addPeers [(5, .tcpListen)] =
        some nodes ∧ Counts (eventCapacity 2 1) nodes 0 := by
  obtain ⟨mgr, nodes, hmgr, hfit, hnodes⟩ : ∃ mgr nodes,
      Memmgr.init 2 ⟨true, true, true⟩ (fun _ => none) (fun _ => none) = some mgr ∧
      mgr.pool.blockSize * mgr.pool.capacity < 4294967296 ∧
      (Nodes.ofPool (fun _ => ⟨0, .null, false⟩) mgr.pool.ptrBuf).addPeers [(5, .tcpListen)] =
        some nodes := ⟨_, _, rfl, by decide, rfl⟩
  have hpool : mgr.pool.ptrBuf.Nodup := (init_inv hmgr hfit).once
  exact ⟨mgr, nodes, hmgr, hnodes, (counts_iff 0 hpool hnodes).mpr rfl⟩

/-- With 1 in the place of `cnt_fd` the loop counts two nodes when one is registered, and refuses the
first connection although a second node would be within its capacity. -/
theorem not_counts_of_one :
    ¬∀ nodes, (Nodes.ofPool (fun _ : Fin 2 => ⟨0, .null, false⟩) [0, 1]).addPeers
        [(5, .tcpListen)] = some nodes → Counts (eventCapacity 2 1) nodes 1 := by
  intro h
  obtain ⟨hwait, -⟩ := h _ rfl [.ctlAdd true true, .go] _ rfl
  exact absurd (hwait rfl) (by decide)

end MuggleC.Net.EventEpoll
