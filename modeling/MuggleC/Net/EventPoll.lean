/- source: net/event/socket_event_poll.c, net/event/socket_event_utils.c
   digest: The poll event loop and what its two arrays hold at every call of poll. -/

import MuggleC.Foundation.Placement
import MuggleC.Net.MemmgrLists

set_option autoImplicit false

namespace MuggleC.Net.EventPoll

open Foundation.Cells Foundation.Transition Function List
open MemmgrLists (Memmgr init_inv)

structure Revents where
  pollin : Bool
  hupErr : Bool
  deriving DecidableEq, Repr

structure Pollfd where
  fd : Int
  revents : Revents
  deriving DecidableEq, Repr

/-- The memory manager and the variables of `muggle_socket_event_poll`. The last three fields number
the connections in the order in which they were added, and list those whose node was recycled. -/
structure Table (ν : Type) where
  nodes : Nodes ν
  fds : Nat → Pollfd
  pNodes : Nat → Option ν
  cntFd : Nat
  life : ν → Nat
  added : Nat
  recycled : List Nat

/-- Where the loop stands; `i` and `n` are its variables. -/
inductive Pc (ν : Type)
  | poll
  | scan (i : Nat) (n : Int)
  | listen (i : Nat) (n : Int)
  | refusing (i : Nat) (n : Int)
  | accepting (i : Nat) (n : Int) (node : ν)
  | check (i : Nat) (n : Int)
  | remove (i : Nat) (n : Int)
  | next (i : Nat) (n : Int)
  | timer
  | exited
  /-- An index outside the arrays, a null pointer, or a failed assertion. -/
  | fault
  deriving DecidableEq

/-- `found` are the connections whose peer was found closed, `reported` those given to `on_error`. -/
structure State (ν : Type) where
  tab : Table ν
  pc : Pc ν
  found : List Nat
  reported : List Nat

/-- What is outside the loop decides: which peers user callbacks close and when, what the system calls
return, whether other threads hold references, and whether the loop is to exit. -/
inductive Event (ν : Type)
  | close (n : ν)
  | poll (n : Int) (revents : Nat → Revents) (interrupted : Bool)
  | accept (result : Accept)
  | recycle (unshared : Bool)
  | leave (toExit : Bool) (unused : ν → Bool)
  | go

structure Config where
  capacity : Nat
  onError : Bool
  deriving DecidableEq, Repr

variable {ν : Type}

section Loop

variable [DecidableEq ν]

def Table.push (tab : Table ν) (node : ν) : Table ν :=
  { tab with
    pNodes := Function.update tab.pNodes tab.cntFd (some node)
    fds := Function.update tab.fds tab.cntFd ⟨(tab.nodes.peer node).fd, ⟨false, false⟩⟩
    cntFd := tab.cntFd + 1
    life := Function.update tab.life node tab.added
    added := tab.added + 1 }

def load (cfg : Config) (tab : Table ν) : List ν → Option (Table ν)
  | [] => some tab
  | node :: rest => if tab.cntFd < cfg.capacity then load cfg (tab.push node) rest else none

/-- The state at the first call of `poll`. -/
def start (cfg : Config) (nodes : Nodes ν) : State ν :=
  let empty : Table ν := ⟨nodes, fun _ => ⟨0, ⟨false, false⟩⟩, fun _ => none, 0, fun _ => 0, 0, []⟩
  match load cfg empty nodes.active with
  | some tab => ⟨tab, .poll, [], []⟩
  | none => ⟨empty, .fault, [], []⟩

namespace State

def goto (s : State ν) (pc : Pc ν) : State ν := { s with pc := pc }

def setNodes (s : State ν) (nodes : Nodes ν) : State ν :=
  { s with tab := { s.tab with nodes := nodes } }

def withRevents (fds : Nat → Pollfd) (cntFd : Nat) (revents : Nat → Revents) (i : Nat) : Pollfd :=
  if i < cntFd then { fds i with revents := revents i } else fds i

def polled (s : State ν) (n : Int) (revents : Nat → Revents) (interrupted : Bool) : State ν :=
  if 0 < n then
    { s with
      tab := { s.tab with fds := withRevents s.tab.fds s.tab.cntFd revents }
      pc := if s.tab.cntFd = 0 then .timer else .scan (s.tab.cntFd - 1) n }
  else if n = 0 then s.goto .timer
  else if interrupted then s
  else s.goto .exited

/-- The body of the loop up to the test of `peer->status`. User callbacks run in the calls for a
message, so that what they close comes as events of its own. -/
def scan (s : State ν) (i : Nat) (n : Int) : State ν :=
  match s.tab.pNodes i with
  | none => s.goto .fault
  | some node =>
    let revents := (s.tab.fds i).revents
    if revents.pollin then
      match (s.tab.nodes.peer node).peerType with
      | .tcpListen => s.goto (.listen i n)
      | _ => s.goto (.check i (n - 1))
    else if revents.hupErr then (s.setNodes (s.tab.nodes.close node)).goto (.check i (n - 1))
    else s.goto (.check i n)

/-- `muggle_socket_event_poll_listen` up to the call of `accept`. -/
def listen (cfg : Config) (s : State ν) (i : Nat) (n : Int) : State ν :=
  if s.tab.cntFd = cfg.capacity then s.goto (.refusing i n)
  else
    match s.tab.nodes.allocate with
    | none => s.goto (.refusing i n)
    | some (node, nodes) => (s.setNodes nodes).goto (.accepting i n node)

def refuse (s : State ν) (i : Nat) (n : Int) : Accept → State ν
  | .wouldBlock => s.goto (.check i (n - 1))
  | .failed =>
    match s.tab.pNodes i with
    | none => s.goto .fault
    | some listenNode => s.setNodes (s.tab.nodes.close listenNode)
  | .interrupted => s
  | .connected _ => s

/-- `muggle_socket_event_accept` and the rest of `muggle_socket_event_poll_listen`. -/
def accept (cfg : Config) (s : State ν) (i : Nat) (n : Int) (node : ν) : Accept → State ν
  | .interrupted =>
    s.setNodes (s.tab.nodes.setPeer node { s.tab.nodes.peer node with fd := invalidSocket })
  | .wouldBlock => (s.setNodes (s.tab.nodes.free node)).goto (.check i (n - 1))
  | .failed =>
    match s.tab.pNodes i with
    | none => s.goto .fault
    | some listenNode =>
      (s.setNodes ((s.tab.nodes.close listenNode).free node)).goto (.check i (n - 1))
  | .connected fd =>
    if s.tab.cntFd < cfg.capacity then
      { s with
        tab := { s.tab with nodes := s.tab.nodes.setPeer node ⟨fd, .tcpPeer, false⟩ }.push node
        pc := .listen i n }
    else s.goto .fault

def check (cfg : Config) (s : State ν) (i : Nat) (n : Int) : State ν :=
  match s.tab.pNodes i with
  | none => s.goto .fault
  | some node =>
    if (s.tab.nodes.peer node).closed then
      { s with
        pc := .remove i n
        found := s.found ++ [s.tab.life node]
        reported := if cfg.onError then s.reported ++ [s.tab.life node] else s.reported }
    else s.goto (.next i n)

def swapped (pNodes : Nat → Option ν) (i last : Nat) : Nat → Option ν :=
  if i ≠ last then Function.update (Function.update pNodes i (pNodes last)) last (pNodes i)
  else pNodes

def copied (fds : Nat → Pollfd) (i last : Nat) : Nat → Pollfd :=
  if i ≠ last then Function.update fds i (fds last) else fds

def remove (s : State ν) (i : Nat) (n : Int) (unshared : Bool) : State ν :=
  let last := s.tab.cntFd - 1
  let pNodes := swapped s.tab.pNodes i last
  match pNodes last with
  | none => s.goto .fault
  | some node =>
    if node ∈ s.tab.nodes.active ∧ 0 < s.tab.cntFd then
      { s with
        tab := { s.tab with
          nodes := s.tab.nodes.recycle unshared node
          pNodes := Function.update pNodes last none
          fds := copied s.tab.fds i last
          cntFd := last
          recycled := s.tab.recycled ++ [s.tab.life node] }
        pc := .next i n }
    else s.goto .fault

def next (s : State ν) (i : Nat) (n : Int) : State ν :=
  if n ≤ 0 ∨ i = 0 then s.goto .timer else s.goto (.scan (i - 1) n)

def step (cfg : Config) (s : State ν) (e : Event ν) : Option (State ν) :=
  match e, s.pc with
  | .close n, _ => some (s.setNodes (s.tab.nodes.close n))
  | .poll n revents interrupted, .poll => some (s.polled n revents interrupted)
  | .go, .scan i n => some (s.scan i n)
  | .go, .listen i n => some (s.listen cfg i n)
  | .accept result, .refusing i n => some (s.refuse i n result)
  | .accept result, .accepting i n node =>
    -- A connection has a valid socket.
    if result = .connected invalidSocket then none else some (s.accept cfg i n node result)
  | .go, .check i n => some (s.check cfg i n)
  | .recycle unshared, .remove i n => some (s.remove i n unshared)
  | .go, .next i n => some (s.next i n)
  | .leave toExit unused, .timer =>
    some (if toExit then s.goto .exited else (s.setNodes (s.tab.nodes.clear unused)).goto .poll)
  | _, _ => none

end State

end Loop

/-- The first `cnt_fd` cells of the two arrays are the `listed` nodes with their descriptors, and
every connection that was added is that of a listed node or has been recycled. -/
structure Sound (capacity : Nat) (tab : Table ν) (listed : List ν) : Prop where
  apart : tab.nodes.all.Nodup
  le : tab.cntFd ≤ capacity
  nodes : (cells tab.pNodes tab.cntFd).Perm (listed.map some)
  fds : ∀ i < tab.cntFd, ∀ n, tab.pNodes i = some n → (tab.fds i).fd = (tab.nodes.peer n).fd
  lives : (listed.map tab.life ++ tab.recycled).Perm (List.range tab.added)

namespace Sound

variable {capacity : Nat} {tab : Table ν} {listed : List ν} (h : Sound capacity tab listed)

include h

theorem mem_listed {i : Nat} {n : ν} (hi : i < tab.cntFd)
    (hn : tab.pNodes i = some n) : n ∈ listed := by
  have hmem : some n ∈ listed.map some := h.nodes.subset (hn ▸ mem_cells hi)
  simpa using hmem

theorem exists_node {i : Nat} (hi : i < tab.cntFd) : ∃ n, tab.pNodes i = some n := by
  have hmem : tab.pNodes i ∈ listed.map some := h.nodes.subset (mem_cells hi)
  obtain ⟨n, -, hn⟩ := mem_map.mp hmem
  exact ⟨n, hn.symm⟩

theorem nodup : listed.Nodup := by
  have hall : (listed.map tab.life ++ tab.recycled).Nodup :=
    h.lives.nodup_iff.mpr nodup_range
  exact List.Nodup.of_map _ (nodup_append.mp hall).1

theorem perm {l : List ν} (hl : listed.Perm l) :
    Sound capacity tab l :=
  ⟨h.apart, h.le, h.nodes.trans (hl.map _), h.fds, ((hl.map _).symm.append_right _).trans h.lives⟩

theorem setNodes {m : Nodes ν} (hm : m.all.Nodup)
    (hfd : ∀ n ∈ listed, (m.peer n).fd = (tab.nodes.peer n).fd) :
    Sound capacity { tab with nodes := m } listed := by
  refine ⟨hm, h.le, h.nodes, ?_, h.lives⟩
  intro i hi n hn
  exact (h.fds i hi n hn).trans (hfd n (h.mem_listed hi hn)).symm

private theorem setFds {fds : Nat → Pollfd}
    (hfd : ∀ i, (fds i).fd = (tab.fds i).fd) : Sound capacity { tab with fds := fds } listed :=
  ⟨h.apart, h.le, h.nodes, fun i hi n hn => (hfd i).trans (h.fds i hi n hn), h.lives⟩

variable [DecidableEq ν]

theorem push {n : ν} (hn : n ∉ listed)
    (hlt : tab.cntFd < capacity) : Sound capacity (tab.push n) (n :: listed) := by
  constructor
  case apart => exact h.apart
  case le => exact hlt
  case nodes =>
    show (cells (update tab.pNodes tab.cntFd (some n)) (tab.cntFd + 1)).Perm _
    rw [cells_push]
    exact (perm_append_singleton _ _).trans (h.nodes.cons _)
  case fds =>
    intro i hi k hk
    have hk : update tab.pNodes tab.cntFd (some n) i = some k := hk
    show (update tab.fds tab.cntFd _ i).fd = _
    rcases Nat.lt_or_eq_of_le (Nat.le_of_lt_succ hi) with hlt | rfl
    · rw [update_of_ne (Nat.ne_of_lt hlt)] at hk ⊢
      exact h.fds i hlt k hk
    · rw [update_self, Option.some.injEq] at hk
      subst hk
      rw [update_self]
      rfl
  case lives =>
    have hold : listed.map (update tab.life n tab.added) = listed.map tab.life :=
      map_congr_left fun k hk => update_of_ne (ne_of_mem_of_not_mem hk hn) ..
    show ((n :: listed).map (update tab.life n tab.added) ++ tab.recycled).Perm
      (range (tab.added + 1))
    rw [map_cons, update_self, hold, range_succ, cons_append]
    exact (h.lives.cons _).trans (perm_append_singleton _ _).symm

private theorem remove {i : Nat} {x : ν} (hi : i < tab.cntFd) (hx : tab.pNodes i = some x)
    (hmem : x ∈ tab.nodes.active) (last : Bool) {pNodes : Nat → Option ν} {fds : Nat → Pollfd}
    (hp : ∀ j < tab.cntFd - 1, pNodes j = update tab.pNodes i (tab.pNodes (tab.cntFd - 1)) j)
    (hf : ∀ j < tab.cntFd - 1, fds j = update tab.fds i (tab.fds (tab.cntFd - 1)) j) :
    Sound capacity { tab with
        nodes := tab.nodes.recycle last x
        pNodes := pNodes
        fds := fds
        cntFd := tab.cntFd - 1
        recycled := tab.recycled ++ [tab.life x] } (listed.erase x) := by
  have hxl : x ∈ listed := h.mem_listed hi hx
  have hlisted : listed.Perm (x :: listed.erase x) := perm_cons_erase hxl
  have hcells : (cells pNodes (tab.cntFd - 1)).Perm ((listed.erase x).map some) := by
    have hfill := cells_fill_perm tab.pNodes (Nat.le_sub_one_of_lt hi)
    rw [Nat.sub_add_cancel (by omega), hx, ← cells_congr hp] at hfill
    exact (hfill.trans (h.nodes.trans (hlisted.map some))).cons_inv
  constructor
  case apart => exact (Nodes.all_recycle hmem last).nodup_iff.mpr h.apart
  case le => exact Nat.le_trans (Nat.sub_le _ _) h.le
  case nodes => exact hcells
  case fds =>
    intro j hj k hk
    have hj : j < tab.cntFd - 1 := hj
    have hk : pNodes j = some k := hk
    -- The node in the cell is another one than the one recycled.
    have hkx : k ≠ x := by
      have hcell : some k ∈ (listed.erase x).map some := hcells.subset (hk ▸ mem_cells hj)
      obtain ⟨k', hk', heq⟩ := mem_map.mp hcell
      cases heq
      exact (h.nodup.mem_erase_iff.mp hk').1
    show (fds j).fd = ((tab.nodes.recycle last x).peer k).fd
    rw [hp j hj] at hk
    rw [hf j hj, Nodes.peer_recycle_of_ne last hkx]
    by_cases hji : j = i
    · subst hji
      rw [update_self] at hk ⊢
      exact h.fds _ (by omega) k hk
    · rw [update_of_ne hji] at hk ⊢
      exact h.fds j (by omega) k hk
  case lives =>
    have hmap : (listed.map tab.life).Perm (tab.life x :: (listed.erase x).map tab.life) :=
      hlisted.map tab.life
    refine List.Perm.trans ?_ h.lives
    rw [← append_assoc]
    exact (perm_append_singleton _ _).trans (hmap.symm.append_right _)

theorem close (n : ν) :
    Sound capacity { tab with nodes := tab.nodes.close n } listed :=
  h.setNodes h.apart fun k _ => Nodes.fd_close k

end Sound

private theorem swapped_last (pNodes : Nat → Option ν) (i last : Nat) :
    State.swapped pNodes i last last = pNodes i := by
  unfold State.swapped
  split
  · exact update_self ..
  · next h => rw [Decidable.not_not.mp h]

private theorem swapped_of_lt (pNodes : Nat → Option ν) (i : Nat) {last j : Nat} (hj : j < last) :
    State.swapped pNodes i last j = update pNodes i (pNodes last) j := by
  unfold State.swapped
  split
  · exact update_of_ne (Nat.ne_of_lt hj) ..
  · next h => rw [Decidable.not_not.mp h, update_eq_self]

private theorem copied_eq (fds : Nat → Pollfd) (i last : Nat) :
    State.copied fds i last = update fds i (fds last) := by
  unfold State.copied
  split
  · rfl
  · next h => rw [Decidable.not_not.mp h, update_eq_self]

section Invariant

variable [DecidableEq ν]

structure Settled (capacity : Nat) (tab : Table ν) (found : List Nat) : Prop where
  sound : Sound capacity tab tab.nodes.active
  found_eq : found = tab.recycled

def At (capacity : Nat) (tab : Table ν) (found : List Nat) : Pc ν → Prop
  | .poll => Settled capacity tab found
  | .scan i _ => i < tab.cntFd ∧ Settled capacity tab found
  | .listen i _ => i < tab.cntFd ∧ Settled capacity tab found
  | .refusing i _ => i < tab.cntFd ∧ Settled capacity tab found
  | .accepting i _ node =>
    i < tab.cntFd ∧ tab.cntFd < capacity ∧ node ∈ tab.nodes.active ∧
      Sound capacity tab (tab.nodes.active.erase node) ∧ found = tab.recycled
  | .check i _ => i < tab.cntFd ∧ Settled capacity tab found
  | .remove i _ => ∃ x, tab.pNodes i = some x ∧ i < tab.cntFd ∧
      Sound capacity tab tab.nodes.active ∧ found = tab.recycled ++ [tab.life x]
  | .next i _ => i ≤ tab.cntFd ∧ Settled capacity tab found
  | .timer => Settled capacity tab found
  | .exited => Settled capacity tab found
  | .fault => False

def Reported (cfg : Config) (s : State ν) : Prop :=
  s.reported = if cfg.onError then s.found else []

structure Inv (cfg : Config) (s : State ν) : Prop where
  at_pc : At cfg.capacity s.tab s.found s.pc
  reported : Reported cfg s

variable {cfg : Config} {tab : Table ν} {found : List Nat}

theorem Settled.close (h : Settled cfg.capacity tab found) (n : ν) :
    Settled cfg.capacity { tab with nodes := tab.nodes.close n } found :=
  ⟨h.sound.close n, h.found_eq⟩

theorem At.close {pc : Pc ν} (h : At cfg.capacity tab found pc) (n : ν) :
    At cfg.capacity { tab with nodes := tab.nodes.close n } found pc := by
  cases pc with
  | poll | timer | exited => exact Settled.close h n
  | scan i k | listen i k | refusing i k | check i k | next i k => exact ⟨h.1, h.2.close n⟩
  | accepting i k node => exact ⟨h.1, h.2.1, h.2.2.1, h.2.2.2.1.close n, h.2.2.2.2⟩
  | remove i k =>
    obtain ⟨x, hx, hi, hsound, hfound⟩ := h
    exact ⟨x, hx, hi, hsound.close n, hfound⟩
  | fault => exact h

variable {s t : State ν} {i : Nat} {n : Int}

theorem Inv.at {pc : Pc ν} (h : Inv cfg s) (hpc : s.pc = pc) :
    At cfg.capacity s.tab s.found pc := hpc ▸ h.at_pc

theorem Inv.polled (h : Inv cfg s) (hpc : s.pc = .poll) (revents : Nat → Revents)
    (interrupted : Bool) : Inv cfg (s.polled n revents interrupted) := by
  have hat : Settled cfg.capacity s.tab s.found := h.at hpc
  have hfds : Settled cfg.capacity
      { s.tab with fds := State.withRevents s.tab.fds s.tab.cntFd revents } s.found := by
    refine ⟨hat.sound.setFds fun i => ?_, hat.found_eq⟩
    unfold State.withRevents
    split <;> rfl
  unfold State.polled
  by_cases hpos : 0 < n
  · rw [if_pos hpos]
    by_cases hcnt : s.tab.cntFd = 0
    · simp only [if_pos hcnt]
      exact ⟨hfds, h.reported⟩
    · simp only [if_neg hcnt]
      exact ⟨⟨Nat.sub_one_lt hcnt, hfds⟩, h.reported⟩
  · rw [if_neg hpos]
    split
    · exact ⟨hat, h.reported⟩
    · split
      · exact h
      · exact ⟨hat, h.reported⟩

theorem Inv.scan (h : Inv cfg s) (hpc : s.pc = .scan i n) : Inv cfg (s.scan i n) := by
  obtain ⟨hi, hat⟩ := h.at hpc
  obtain ⟨node, hnode⟩ := hat.sound.exists_node hi
  unfold State.scan
  rw [hnode]
  dsimp only
  split
  · split
    · exact ⟨⟨hi, hat⟩, h.reported⟩
    · exact ⟨⟨hi, hat⟩, h.reported⟩
  · split
    · exact ⟨⟨hi, hat.close node⟩, h.reported⟩
    · exact ⟨⟨hi, hat⟩, h.reported⟩

theorem Inv.listen (h : Inv cfg s) (hpc : s.pc = .listen i n) : Inv cfg (s.listen cfg i n) := by
  obtain ⟨hi, hat⟩ := h.at hpc
  unfold State.listen
  by_cases hcap : s.tab.cntFd = cfg.capacity
  · rw [if_pos hcap]
    exact ⟨⟨hi, hat⟩, h.reported⟩
  · rw [if_neg hcap]
    cases halloc : s.tab.nodes.allocate with
    | none => exact ⟨⟨hi, hat⟩, h.reported⟩
    | some r =>
      obtain ⟨node, nodes⟩ := r
      obtain ⟨hpeer, -, hactive, -⟩ := Nodes.allocate_eq_some halloc
      have hlt : s.tab.cntFd < cfg.capacity := Nat.lt_of_le_of_ne hat.sound.le hcap
      have hmem : node ∈ nodes.active := hactive ▸ mem_cons_self
      have hsound : Sound cfg.capacity { s.tab with nodes := nodes } (nodes.active.erase node) := by
        rw [hactive, erase_cons_head]
        apply hat.sound.setNodes
        · exact (Nodes.all_allocate halloc).nodup_iff.mpr hat.sound.apart
        · -- The new node comes from the pool, so that no listed descriptor changes.
          intro k hk
          have hne := ne_of_mem_of_not_mem hk (Nodes.allocate_not_mem hat.sound.apart halloc)
          rw [hpeer, update_of_ne hne]
      exact ⟨⟨hi, hlt, hmem, hsound, hat.found_eq⟩, h.reported⟩

theorem Inv.refuse (h : Inv cfg s) (hpc : s.pc = .refusing i n) (result : Accept) :
    Inv cfg (s.refuse i n result) := by
  obtain ⟨hi, hat⟩ := h.at hpc
  cases result with
  | interrupted => exact h
  | wouldBlock => exact ⟨⟨hi, hat⟩, h.reported⟩
  | failed =>
    obtain ⟨node, hnode⟩ := hat.sound.exists_node hi
    simp only [State.refuse, hnode]
    exact ⟨h.at_pc.close node, h.reported⟩
  | connected fd => exact h

private theorem settled_free {node : ν} {m : Nodes ν} (hmem : node ∈ m.active)
    (h : Sound cfg.capacity { tab with nodes := m } (m.active.erase node))
    (hfound : found = tab.recycled) :
    Settled cfg.capacity { tab with nodes := m.free node } found :=
  ⟨h.setNodes ((Nodes.all_free hmem).nodup_iff.mpr h.apart) fun _ _ => rfl, hfound⟩

variable (h : Inv cfg s)

include h

theorem Inv.accept {node : ν} (hpc : s.pc = .accepting i n node)
    (result : Accept) : Inv cfg (s.accept cfg i n node result) := by
  obtain ⟨hi, hlt, hmem, hsound, hfound⟩ := h.at hpc
  have hnot : node ∉ s.tab.nodes.active.erase node :=
    (Nodes.nodup_active hsound.apart).not_mem_erase
  -- The node is not yet listed, so that its memory may change.
  have hset (p : PeerView) : Sound cfg.capacity
      { s.tab with nodes := s.tab.nodes.setPeer node p } (s.tab.nodes.active.erase node) :=
    hsound.setNodes hsound.apart fun k hk => by
      rw [Nodes.peer_setPeer_of_ne _ _ (ne_of_mem_of_not_mem hk hnot)]
  cases result with
  | interrupted =>
    refine ⟨?_, h.reported⟩
    show At _ _ _ s.pc
    rw [hpc]
    exact ⟨hi, hlt, hmem, hset _, hfound⟩
  | wouldBlock => exact ⟨⟨hi, settled_free hmem hsound hfound⟩, h.reported⟩
  | failed =>
    obtain ⟨listenNode, hnode⟩ := hsound.exists_node hi
    simp only [State.accept, hnode]
    exact ⟨⟨hi, settled_free hmem (hsound.close listenNode) hfound⟩, h.reported⟩
  | connected fd =>
    have hpushed := ((hset ⟨fd, .tcpPeer, false⟩).push hnot hlt).perm (perm_cons_erase hmem).symm
    simp only [State.accept, if_pos hlt]
    exact ⟨⟨Nat.lt_succ_of_lt hi, hpushed, hfound⟩, h.reported⟩

theorem Inv.check (hpc : s.pc = .check i n) : Inv cfg (s.check cfg i n) := by
  obtain ⟨hi, hat⟩ := h.at hpc
  obtain ⟨node, hnode⟩ := hat.sound.exists_node hi
  simp only [State.check, hnode]
  split
  · refine ⟨⟨node, hnode, hi, hat.sound, by rw [hat.found_eq]⟩, ?_⟩
    have hrep : s.reported = if cfg.onError then s.found else [] := h.reported
    show (if cfg.onError then _ else _) = if cfg.onError then _ else _
    rw [hrep]
    cases cfg.onError <;> rfl
  · exact ⟨⟨Nat.le_of_lt hi, hat⟩, h.reported⟩

theorem Inv.remove (hpc : s.pc = .remove i n) (unshared : Bool) :
    Inv cfg (s.remove i n unshared) := by
  obtain ⟨x, hx, hi, hsound, hfound⟩ := h.at hpc
  have hmem : x ∈ s.tab.nodes.active := hsound.mem_listed hi hx
  have hpos : 0 < s.tab.cntFd := Nat.zero_lt_of_lt hi
  simp only [State.remove, swapped_last, hx, hmem, hpos, and_self, if_true]
  refine ⟨⟨Nat.le_sub_one_of_lt hi, ?_, hfound⟩, h.reported⟩
  rw [Nodes.active_recycle]
  apply hsound.remove hi hx hmem unshared
  · intro j hj
    rw [update_of_ne (Nat.ne_of_lt hj), swapped_of_lt _ _ hj]
  · intro j _
    rw [copied_eq]

theorem Inv.next (hpc : s.pc = .next i n) : Inv cfg (s.next i n) := by
  obtain ⟨hi, hat⟩ := h.at hpc
  unfold State.next
  split
  · exact ⟨hat, h.reported⟩
  · next hstop =>
    have hlt : i - 1 < s.tab.cntFd := by omega
    exact ⟨⟨hlt, hat⟩, h.reported⟩

theorem Inv.leave (hpc : s.pc = .timer) (unused : ν → Bool) :
    Inv cfg ((s.setNodes (s.tab.nodes.clear unused)).goto .poll) := by
  have hat : Settled cfg.capacity s.tab s.found := h.at hpc
  have hclear := hat.sound.setNodes
    ((Nodes.all_clear s.tab.nodes unused).nodup_iff.mpr hat.sound.apart) fun _ _ => rfl
  exact ⟨⟨hclear, hat.found_eq⟩, h.reported⟩

theorem Inv.step {e : Event ν} (hstep : s.step cfg e = some t) : Inv cfg t := by
  unfold State.step at hstep
  split at hstep
  · cases hstep
    exact ⟨h.at_pc.close _, h.reported⟩
  · next hpc =>
    cases hstep
    exact h.polled hpc _ _
  · next hpc =>
    cases hstep
    exact h.scan hpc
  · next hpc =>
    cases hstep
    exact h.listen hpc
  · next hpc =>
    cases hstep
    exact h.refuse hpc _
  · next hpc =>
    split at hstep
    · cases hstep
    · cases hstep
      exact h.accept hpc _
  · next hpc =>
    cases hstep
    exact h.check hpc
  · next hpc =>
    cases hstep
    exact h.remove hpc _
  · next hpc =>
    cases hstep
    exact h.next hpc
  · next toExit unused hpc =>
    cases hstep
    cases toExit with
    | true => exact ⟨(h.at hpc : Settled _ _ _), h.reported⟩
    | false => exact h.leave hpc unused
  · cases hstep

omit h

theorem load_sound {rest listed : List ν} (h : Sound cfg.capacity tab listed) (hrest : rest.Nodup)
    (hnew : ∀ k ∈ rest, k ∉ listed) (hlen : tab.cntFd + rest.length ≤ cfg.capacity) :
    ∃ tab', load cfg tab rest = some tab' ∧ Sound cfg.capacity tab' (rest.reverse ++ listed) ∧
      tab'.nodes = tab.nodes ∧ tab'.recycled = tab.recycled := by
  induction rest generalizing tab listed with
  | nil => exact ⟨tab, rfl, h, rfl, rfl⟩
  | cons node rest ih =>
    rw [nodup_cons] at hrest
    rw [forall_mem_cons] at hnew
    have hlen : tab.cntFd + (rest.length + 1) ≤ cfg.capacity := hlen
    have hlt : tab.cntFd < cfg.capacity := by omega
    have hfresh : ∀ k ∈ rest, k ∉ node :: listed := by
      intro k hk hmem
      rcases mem_cons.mp hmem with rfl | hmem
      · exact hrest.1 hk
      · exact hnew.2 k hk hmem
    have hroom : (tab.push node).cntFd + rest.length ≤ cfg.capacity := by
      show tab.cntFd + 1 + rest.length ≤ cfg.capacity
      omega
    obtain ⟨tab', hload, hsound, hnodes, hrecycled⟩ :=
      ih (h.push hnew.1 hlt) hrest.2 hfresh hroom
    refine ⟨tab', ?_, ?_, hnodes, hrecycled⟩
    · rw [load, if_pos hlt]
      exact hload
    · rw [reverse_cons, append_assoc]
      exact hsound

private theorem inv_start {nodes : Nodes ν} (hall : nodes.all.Nodup)
    (hlen : nodes.active.length ≤ cfg.capacity) : Inv cfg (start cfg nodes) := by
  have hempty : Sound cfg.capacity
      ⟨nodes, fun _ => ⟨0, ⟨false, false⟩⟩, fun _ => none, 0, fun _ => 0, 0, []⟩ [] :=
    ⟨hall, Nat.zero_le _, .nil, fun i hi => absurd hi (Nat.not_lt_zero i), .nil⟩
  obtain ⟨tab, hload, hsound, hnodes, hrecycled⟩ := load_sound hempty
    (Nodes.nodup_active hall) (fun _ _ => not_mem_nil) (by rwa [Nat.zero_add])
  simp only [start, hload]
  refine ⟨⟨?_, hrecycled.symm⟩, ?_⟩
  · rw [hnodes]
    refine hsound.perm ?_
    rw [append_nil]
    exact reverse_perm _
  · unfold Reported
    cases cfg.onError <;> rfl

/-- What is promised at every call of `poll`. -/
structure AtPoll (cfg : Config) (s : State ν) : Prop where
  cnt_le : s.tab.cntFd ≤ cfg.capacity
  fds : ∀ i < s.tab.cntFd, ∃ node, s.tab.pNodes i = some node ∧
    (s.tab.fds i).fd = (s.tab.nodes.peer node).fd
  /-- The array lists every active node, and no node twice. -/
  nodes : (cells s.tab.pNodes s.tab.cntFd).Perm (s.tab.nodes.active.map some)
  nodup : s.tab.nodes.active.Nodup
  /-- Every peer that was found closed has been reported and recycled, once. -/
  found_nodup : s.found.Nodup
  reported : s.reported = if cfg.onError then s.found else []
  recycled : s.tab.recycled = s.found
  /-- No other connection was dropped. -/
  kept : (s.tab.nodes.active.map s.tab.life ++ s.found).Perm (List.range s.tab.added)

theorem Inv.atPoll (h : Inv cfg s) (hpc : s.pc = .poll) : AtPoll cfg s := by
  obtain ⟨hsound, hfound⟩ : Settled cfg.capacity s.tab s.found := h.at hpc
  have hlives := hsound.lives
  rw [← hfound] at hlives
  constructor
  case cnt_le => exact hsound.le
  case fds =>
    intro i hi
    obtain ⟨node, hnode⟩ := hsound.exists_node hi
    exact ⟨node, hnode, hsound.fds i hi node hnode⟩
  case nodes => exact hsound.nodes
  case nodup => exact hsound.nodup
  case found_nodup => exact (nodup_append.mp (hlives.nodup_iff.mpr nodup_range)).2.1
  case reported => exact h.reported
  case recycled => exact hfound.symm
  case kept => exact hlives

end Invariant

def hangUp : List (Event Memory.Block) :=
  [.poll 2 (fun i => if i = 1 then ⟨true, false⟩ else ⟨false, true⟩) false, .go, .go,
    .accept (.connected 7), .go, .accept .wouldBlock, .go, .go, .go, .go, .recycle true, .go,
    .leave false fun _ => true]

end MuggleC.Net.EventPoll
