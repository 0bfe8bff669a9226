/- source: net/socket_peer.c, net/event/socket_event_memmgr.c, net/event/socket_event_utils.c,
   net/socket_event.c
   digest: The atomic steps of retain and release of a socket peer, and the nodes of an event loop. -/

import Mathlib.Data.List.Nodup
import MuggleC.Foundation.Transition

set_option autoImplicit false

namespace MuggleC.Net

def invalidSocket : Int := -1

/-- The part of `muggle_socket_peer_t` that retain and release touch; `onClose` tells whether
`peer->ev && peer->ev->on_close` holds. -/
structure Peer where
  refCnt : BitVec 32
  fd : Int
  onClose : Bool
  deriving DecidableEq, Repr

/-- Where a thread stands inside `muggle_socket_peer_retain` or `muggle_socket_peer_release`. The
variable `desired` of release keeps its value from one turn of the loop to the next. -/
inductive CallPc
  | retainLoad
  | retainCas (refCnt : BitVec 32)
  | releaseCheck (desired : BitVec 32)
  | releaseStore (desired : BitVec 32)
  | releaseLoad
  | releaseCas (refCnt : BitVec 32)
  | onClose
  | close
  | setInvalid
  deriving DecidableEq, Repr

inductive Effect
  | onClose
  | close (fd : Int)
  deriving DecidableEq, Repr

inductive Next
  | goto (pc : CallPc)
  | ret (value : BitVec 32)
  deriving DecidableEq, Repr

structure StepOut where
  peer : Peer
  next : Next
  effects : List Effect
  deriving DecidableEq, Repr

namespace Peer

def afterLoop (desired : BitVec 32) : Next :=
  if desired = 0#32 then .goto .onClose else .ret desired

/-- One atomic step of a call. The second exit of the loop in release stores zero without a
compare-exchange and leaves `desired` as an earlier turn has set it. -/
def callStep (peer : Peer) (spurious : Bool) : CallPc → StepOut
  | .retainLoad =>
    if peer.refCnt = 0#32 then ⟨peer, .ret 0#32, []⟩
    else ⟨peer, .goto (.retainCas peer.refCnt), []⟩
  | .retainCas refCnt =>
    if peer.refCnt = refCnt ∧ spurious = false then
      ⟨{ peer with refCnt := refCnt + 1#32 }, .ret (refCnt + 1#32), []⟩
    else ⟨peer, .goto .retainLoad, []⟩
  | .releaseCheck desired =>
    if peer.refCnt = 1#32 then ⟨peer, .goto (.releaseStore desired), []⟩
    else ⟨peer, .goto .releaseLoad, []⟩
  | .releaseStore desired => ⟨{ peer with refCnt := 0#32 }, afterLoop desired, []⟩
  | .releaseLoad =>
    if peer.refCnt = 0#32 then ⟨peer, .ret 0#32, []⟩
    else ⟨peer, .goto (.releaseCas peer.refCnt), []⟩
  | .releaseCas refCnt =>
    if peer.refCnt = refCnt ∧ spurious = false then
      ⟨{ peer with refCnt := refCnt - 1#32 }, afterLoop (refCnt - 1#32), []⟩
    else ⟨peer, .goto (.releaseCheck (refCnt - 1#32)), []⟩
  | .onClose => ⟨peer, .goto .close, if peer.onClose then [.onClose] else []⟩
  | .close => ⟨peer, .goto .setInvalid, [.close peer.fd]⟩
  | .setInvalid => ⟨{ peer with fd := invalidSocket }, .ret 0#32, []⟩

def drops (peer : Peer) (spurious : Bool) : CallPc → Bool
  | .releaseStore _ => true
  | .releaseCas refCnt => peer.refCnt = refCnt ∧ spurious = false
  | _ => false

def adds (peer : Peer) (spurious : Bool) : CallPc → Bool
  | .retainCas refCnt => peer.refCnt = refCnt ∧ spurious = false
  | _ => false

def closing (onClose : Bool) (fd : Int) : List Effect :=
  (if onClose then [Effect.onClose] else []) ++ [.close fd]

end Peer

namespace CallPc

def holding : CallPc → Bool
  | .onClose => false
  | .close => false
  | .setInvalid => false
  | _ => true

def isRelease : CallPc → Bool
  | .retainLoad => false
  | .retainCas _ => false
  | _ => true

def tookToZero : CallPc → Bool
  | .releaseStore _ => true
  | .setInvalid => true
  | _ => false

def freshShortcut : CallPc → Bool
  | .releaseStore desired => desired = 0#32
  | _ => true

end CallPc

end MuggleC.Net

namespace MuggleC.Net

open List

inductive PeerType
  | null
  | tcpListen
  | tcpPeer
  | udpPeer
  deriving DecidableEq, Repr

/-- The part of `muggle_socket_peer_t` that the event loops read. -/
structure PeerView where
  fd : Int
  peerType : PeerType
  closed : Bool
  deriving DecidableEq, Repr

inductive Accept
  | interrupted
  | wouldBlock
  | failed
  | connected (fd : Int)
  deriving DecidableEq, Repr

/-- The capacity that `muggle_socket_ev_arg_init` gives to a poll or epoll loop. -/
def eventCapacity (hintsMaxPeer : Int) (cntPeer : Nat) : Nat :=
  let capacity := if hintsMaxPeer ≤ 0 then 1024 else hintsMaxPeer.toNat
  if capacity < cntPeer then cntPeer * 2 else capacity

theorem le_eventCapacity (hintsMaxPeer : Int) (cntPeer : Nat) :
    cntPeer ≤ eventCapacity hintsMaxPeer cntPeer := by
  unfold eventCapacity
  generalize (if hintsMaxPeer ≤ 0 then 1024 else hintsMaxPeer.toNat) = capacity
  dsimp only
  split
  · omega
  · omega

/-- `muggle_socket_event_memmgr_t`: the memory of the nodes and the three places a node can be in. -/
structure Nodes (ν : Type) where
  peer : ν → PeerView
  pool : List ν
  active : List ν
  recycled : List ν

namespace Nodes

variable {ν : Type}

def ofPool (peer : ν → PeerView) (pool : List ν) : Nodes ν := ⟨peer, pool, [], []⟩

/-- `muggle_socket_event_memmgr_clear`, which frees the nodes without references. -/
def clear (m : Nodes ν) (unused : ν → Bool) : Nodes ν :=
  { m with
    pool := m.pool ++ m.recycled.filter unused
    recycled := m.recycled.filter fun n => !unused n }

def all (m : Nodes ν) : List ν := m.pool ++ (m.active ++ m.recycled)

theorem nodup_active {m : Nodes ν} (h : m.all.Nodup) : m.active.Nodup :=
  (nodup_append.mp (nodup_append.mp h).2.1).1

theorem all_clear (m : Nodes ν) (unused : ν → Bool) : (m.clear unused).all.Perm m.all := by
  have hparts : (m.recycled.filter unused ++ m.recycled.filter fun n => !unused n).Perm
      m.recycled := filter_append_perm unused m.recycled
  show (m.pool ++ m.recycled.filter unused ++
    (m.active ++ m.recycled.filter fun n => !unused n)).Perm _
  rw [append_assoc]
  apply List.Perm.append_left
  calc (m.recycled.filter unused ++ (m.active ++ m.recycled.filter fun n => !unused n)).Perm
        (m.active ++ (m.recycled.filter unused ++ m.recycled.filter fun n => !unused n)) :=
        perm_append_comm_assoc ..
    _ |>.Perm (m.active ++ m.recycled) := hparts.append_left _

variable [DecidableEq ν]

def setPeer (m : Nodes ν) (n : ν) (p : PeerView) : Nodes ν :=
  { m with peer := Function.update m.peer n p }

def close (m : Nodes ν) (n : ν) : Nodes ν := m.setPeer n { m.peer n with closed := true }

def allocate (m : Nodes ν) : Option (ν × Nodes ν) :=
  match m.pool with
  | [] => none
  | n :: rest => some (n,
      { m.setPeer n ⟨0, .null, false⟩ with pool := rest, active := n :: m.active })

/-- `muggle_socket_event_memmgr_free` of an active node. -/
def free (m : Nodes ν) (n : ν) : Nodes ν :=
  { m with pool := m.pool ++ [n], active := m.active.erase n }

/-- `muggle_socket_event_memmgr_recycle`; `last` tells whether the release of the loop's reference
returns zero. -/
def recycle (m : Nodes ν) (last : Bool) (n : ν) : Nodes ν :=
  if last then (m.setPeer n { m.peer n with fd := invalidSocket }).free n
  else { m with active := m.active.erase n, recycled := n :: m.recycled }

/-- `muggle_socket_event_memmgr_init` puts each given peer at the front of the active list. -/
def addPeers (m : Nodes ν) : List (Int × PeerType) → Option (Nodes ν)
  | [] => some m
  | (fd, peerType) :: peers =>
    m.allocate.bind fun (n, m) => (m.setPeer n ⟨fd, peerType, false⟩).addPeers peers

variable {m m' : Nodes ν} {n : ν}

@[simp] theorem peer_setPeer_self (m : Nodes ν) (n : ν) (p : PeerView) :
    (m.setPeer n p).peer n = p := Function.update_self ..

theorem peer_setPeer_of_ne (m : Nodes ν) (p : PeerView) {k : ν} (h : k ≠ n) :
    (m.setPeer n p).peer k = m.peer k := Function.update_of_ne h ..

theorem allocate_eq_some (h : m.allocate = some (n, m')) :
    m'.peer = Function.update m.peer n ⟨0, .null, false⟩ ∧ m.pool = n :: m'.pool ∧
      m'.active = n :: m.active ∧ m'.recycled = m.recycled := by
  unfold allocate at h
  cases hp : m.pool with
  | nil => simp [hp] at h
  | cons k rest =>
    simp only [hp, Option.some.injEq, Prod.mk.injEq] at h
    obtain ⟨rfl, rfl⟩ := h
    exact ⟨rfl, rfl, rfl, rfl⟩

theorem allocate_eq_none : m.allocate = none ↔ m.pool = [] := by
  unfold allocate
  cases m.pool with
  | nil => simp
  | cons n rest => simp

theorem allocate_not_mem (hall : m.all.Nodup) (h : m.allocate = some (n, m')) : n ∉ m.active := by
  obtain ⟨-, hpool, -, -⟩ := allocate_eq_some h
  intro hn
  have hmem : n ∈ m.pool := hpool ▸ mem_cons_self
  exact (nodup_append.mp hall).2.2 n hmem n (mem_append_left _ hn) rfl

theorem all_allocate (h : m.allocate = some (n, m')) : m'.all.Perm m.all := by
  obtain ⟨-, hpool, hactive, hrecycled⟩ := allocate_eq_some h
  rw [all, all, hpool, hactive, hrecycled]
  exact perm_middle

theorem all_free (hn : n ∈ m.active) : (m.free n).all.Perm m.all := by
  have hactive : (n :: (m.active.erase n ++ m.recycled)).Perm (m.active ++ m.recycled) :=
    (perm_cons_erase hn).symm.append_right _
  show (m.pool ++ [n] ++ (m.active.erase n ++ m.recycled)).Perm _
  rw [append_assoc]
  exact hactive.append_left _

theorem all_recycle (hn : n ∈ m.active) (last : Bool) : (m.recycle last n).all.Perm m.all := by
  cases last with
  | true => exact all_free hn
  | false =>
    have hactive : (m.active.erase n ++ n :: m.recycled).Perm (m.active ++ m.recycled) :=
      perm_middle.trans ((perm_cons_erase hn).symm.append_right _)
    exact hactive.append_left _

@[simp] theorem active_recycle (last : Bool) : (m.recycle last n).active = m.active.erase n := by
  cases last <;> rfl

theorem peer_recycle_of_ne (last : Bool) {k : ν} (h : k ≠ n) :
    (m.recycle last n).peer k = m.peer k := by
  cases last with
  | true => exact peer_setPeer_of_ne m _ h
  | false => rfl

theorem fd_close (k : ν) : ((m.close n).peer k).fd = (m.peer k).fd := by
  by_cases h : k = n
  · subst h
    rw [close, peer_setPeer_self]
  · rw [close, peer_setPeer_of_ne _ _ h]

variable {peers : List (Int × PeerType)}

private theorem all_addPeers (h : m.addPeers peers = some m') : m'.all.Perm m.all := by
  induction peers generalizing m with
  | nil =>
    obtain rfl : m = m' := Option.some.inj h
    exact List.Perm.refl _
  | cons p peers ih =>
    obtain ⟨⟨n, m₁⟩, halloc, hrest⟩ := Option.bind_eq_some_iff.mp h
    exact (ih hrest).trans (all_allocate halloc : m₁.all.Perm m.all)

theorem nodup_all_of_init {peer : ν → PeerView} {pool : List ν}
    (hpool : pool.Nodup) (h : (ofPool peer pool).addPeers peers = some m') : m'.all.Nodup := by
  refine (all_addPeers h).nodup_iff.mpr ?_
  show (pool ++ ([] ++ [])).Nodup
  rwa [append_nil, append_nil]

theorem length_addPeers (h : m.addPeers peers = some m') :
    m'.active.length = m.active.length + peers.length := by
  induction peers generalizing m with
  | nil =>
    obtain rfl : m = m' := Option.some.inj h
    rfl
  | cons p peers ih =>
    obtain ⟨⟨n, m₁⟩, halloc, hrest⟩ := Option.bind_eq_some_iff.mp h
    have hactive := (allocate_eq_some halloc).2.2.1
    rw [ih hrest]
    show m₁.active.length + peers.length = _
    rw [hactive, length_cons, length_cons]
    omega

end Nodes

end MuggleC.Net
