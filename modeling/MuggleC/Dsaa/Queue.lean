/- source: dsaa/queue.c
   digest: The queue of linked nodes is first in, first out, in every run of its calls. -/

import MuggleC.Dsaa.LinkedList

set_option autoImplicit false

/-! The nodes, `init`, `clear` and what they call are those of the linked list, line by line. -/

namespace MuggleC.Dsaa.Queue

open Foundation.Blocks Foundation.Program Foundation.Transition LinkedList LinkedListCells List
open Memory NodePool
open LinkedListRuns (Walks walks_of_holds headNext_ends init_holds)

variable {ω : Type}

/-- `muggle_queue_enqueue`, where `got` is what the pool or `malloc` returns. -/
def enqueue (data : Option ω) : Option Nat → Op ω (Option Addr)
  | none => pure none
  | some a => do
    takeNode Vars.pool setPool a
    create (.node a) ⟨none, none, none⟩
    modify (.node a) (Node.setData data)
    adjust fun v => { v with size := v.size + 1 }
    let node ← tailPrev
    let node ← deref node
    linkBehind (.node a) node
    pure (some (.node a))

def dequeue (frees : Bool) : Op ω Unit := do
  let empty ← isEmpty
  if empty then pure ()
  else
    let node ← headNext
    let node ← deref node
    freeData frees node
    freeNode node

def front : Op ω (Option Addr) := do
  let empty ← isEmpty
  if empty then pure none else headNext

inductive Call (ω : Type)
  | enqueue (data : Option ω) (got : Option Nat)
  | dequeue (frees : Bool)
  | front
  | clear (frees : Bool)

def exec : Call ω → Op ω (Option Addr)
  | .enqueue data got => enqueue data got
  | .dequeue frees => do
    dequeue frees
    pure none
  | .front => front
  | .clear frees => do
    clear frees
    pure none

/-- `got` is `NULL` or what the pool or `malloc` may return. -/
def Admissible (s : State ω) : Call ω → Bool
  | .enqueue _ got => got.all (Returns s.vars.pool fun a => (s.heap (.node a)).isSome)
  | _ => true

def afterCall (xs : Cells ω) : Call ω → Cells ω
  | .enqueue data (some a) => xs ++ [(a, data)]
  | .dequeue _ => xs.tail
  | .clear _ => []
  | _ => xs

def answer (xs : Cells ω) : Call ω → Option Addr
  | .enqueue _ got => got.map .node
  | .front => xs.head?.map fun e => .node e.1
  | _ => none

/-- What is passed to the free function. -/
def releases (xs : Cells ω) : Call ω → List ω
  | .dequeue frees => (xs.take 1).flatMap fun e => released frees e.2
  | .clear frees => xs.flatMap fun e => released frees e.2
  | _ => []

section Calls

variable {s : State ω} {xs : Cells ω}

theorem enqueue_eq (data : Option ω) (got : Option Nat) : enqueue data got = append none data got := by
  cases got with
  | none => rfl
  | some a =>
    simp only [enqueue, append, allocateNode, orElse, bind_assoc, pure_bind]
    funext s
    simp [bind, StateT.bind, create, Foundation.Blocks.modify, adjust, transform, Store.write,
      Store.adjust]

theorem isEmpty_ends (h : Holds s xs) : Ends isEmpty s fun r s' => s' = s ∧ r = xs.isEmpty :=
  ⟨_, _, (walks_of_holds h).isEmpty, rfl, rfl⟩

private theorem dequeue_ends (h : Holds s xs) (frees : Bool) :
    Ends (dequeue frees) s fun _ s' => Holds s' xs.tail ∧
      s'.vars.freed = s.vars.freed ++ releases xs (.dequeue frees) := by
  rw [dequeue, ends_bind]
  apply (isEmpty_ends h).mono
  rintro _ _ ⟨rfl, rfl⟩
  cases xs with
  | nil => exact ends_pure.mpr ⟨h, (append_nil _).symm⟩
  | cons e xs =>
    simp only [isEmpty_cons, Bool.false_eq_true, if_false, ends_bind]
    apply (headNext_ends h).mono
    rintro _ _ ⟨rfl, rfl⟩
    rw [ends_deref]
    apply (@erase_ends _ _ [] _ _ _ h frees).mono
    intro _ t ht
    apply ht.mono
    intro _ s' hs'
    simpa [releases] using hs'

private theorem exec_refines (h : Holds s xs) {c : Call ω} (hc : Admissible s c) :
    Ends (exec c) s fun r s' => r = answer xs c ∧
      s'.vars.freed = s.vars.freed ++ releases xs c ∧ Holds s' (afterCall xs c) := by
  cases c with
  | enqueue data got =>
    rw [exec, enqueue_eq]
    cases got with
    | none => exact ends_pure.mpr ⟨rfl, (append_nil _).symm, h⟩
    | some a =>
      have h' : Holds s (xs ++ []) := by rwa [append_nil]
      obtain ⟨pool, hgot⟩ := h'.granted hc
      apply (append_ends h' hgot (.inr ⟨rfl, rfl⟩)).mono
      rintro r s' ⟨rfl, hs', hfreed⟩
      exact ⟨rfl, hfreed.trans (append_nil _).symm, hs'⟩
  | dequeue frees =>
    rw [exec, ends_bind]
    apply (dequeue_ends h frees).mono
    rintro _ s' ⟨hs', hfreed⟩
    exact ends_pure.mpr ⟨rfl, hfreed, hs'⟩
  | front =>
    rw [exec, front, ends_bind]
    apply (isEmpty_ends h).mono
    rintro _ _ ⟨rfl, rfl⟩
    cases xs with
    | nil => exact ends_pure.mpr ⟨rfl, (append_nil _).symm, h⟩
    | cons e xs =>
      apply (headNext_ends h).mono
      rintro _ _ ⟨rfl, rfl⟩
      exact ⟨rfl, (append_nil _).symm, h⟩
  | clear frees =>
    rw [exec, ends_bind]
    apply (clear_ends h frees).mono
    rintro _ s' ⟨hs', hfreed⟩
    exact ends_pure.mpr ⟨rfl, hfreed, hs'⟩

end Calls

def step (q : State ω × Cells ω) (c : Call ω) : Option (State ω × Cells ω) :=
  ((exec c).run q.1).map fun out => (out.2, afterCall q.2 c)

/-- After any calls the nodes are the sequence that the calls make, oldest first, and `size` counts
them; the next call ends, and answers and frees what the front of the sequence says. -/
theorem queue_is_fifo {capacity : BitVec 64} {poolMem : Bool} {mem : Malloc} {fresh : State ω}
    (hinit : init ω capacity poolMem mem = some fresh) (hfit : SizeFits fresh.vars.pool)
    {calls : List (Call ω)} {s : State ω} {xs : Cells ω}
    (hrun : run (guarded step fun q c => Admissible q.1 c) (fresh, []) calls = some (s, xs)) :
    Walks s xs ∧ s.vars.size = xs.length ∧ ∀ c, Admissible s c → ∃ s',
      (exec c).run s = some (answer xs c, s') ∧ Walks s' (afterCall xs c) ∧
        s'.vars.freed = s.vars.freed ++ releases xs c := by
  have hholds : Holds s xs := by
    refine run_invariant (I := fun q => Holds q.1 q.2) ?_ (init_holds hinit hfit).1 hrun
    intro q c q' hq hstep
    obtain ⟨hc, hstep⟩ := guarded_eq_some.mp hstep
    obtain ⟨res, s', hexec, -, -, hs'⟩ := exec_refines hq hc
    rw [step, hexec] at hstep
    cases hstep
    exact hs'
  refine ⟨walks_of_holds hholds, hholds.size, fun c hc => ?_⟩
  obtain ⟨_, s', hexec, rfl, hfreed, hs'⟩ := exec_refines hholds hc
  exact ⟨s', hexec, walks_of_holds hs', hfreed⟩

def fourCalls : List (Call Nat) :=
  [.enqueue (some 5) (some 0), .enqueue (some 6) (some 24), .dequeue true, .enqueue none (some 0)]

theorem queue_is_fifo_four_calls : ∃ fresh s xs,
    init Nat 2#64 true PoolLedger.memoryOk = some fresh ∧ SizeFits fresh.vars.pool ∧
    run (guarded step fun q c => Admissible q.1 c) (fresh, []) fourCalls = some (s, xs) ∧
    xs = [(24, some 6), (0, none)] ∧ Walks s xs :=
  ⟨_, _, _, rfl, rfl, rfl, rfl,
    (@queue_is_fifo Nat 2#64 true PoolLedger.memoryOk _ rfl rfl fourCalls _ _ rfl).1⟩

end MuggleC.Dsaa.Queue
