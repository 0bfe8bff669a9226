/- source: sync/array_blocking_queue.c
   digest: The blocking queue over an array: any number of threads put and take in order. -/

import MuggleC.Base.Utils
import MuggleC.Foundation.Monitor
import MuggleC.Foundation.Ring

set_option autoImplicit false

namespace MuggleC.Sync

open Base List

/-- `muggle_array_blocking_queue_t` without its mutex and condition variables; `none` is an entry of
`datas` that nothing has been stored in. -/
structure ArrayBlockingQueue (D : Type) where
  datas : List (Option D)
  capacity : Int
  takeIdx : Int
  putIdx : Int
  cnt : Int
  deriving DecidableEq, Repr

namespace ArrayBlockingQueue

open Foundation.Monitor Foundation.Ring Foundation.Threads Foundation.Transition

variable {ι D : Type}

/-- The results of the calls that `init` makes. -/
structure Env where
  malloc : Bool
  mutex : Err
  cvNotFull : Err
  cvNotEmpty : Err
  deriving DecidableEq, Repr

def init (capacity : Int) (env : Env) : Except Err (ArrayBlockingQueue D) :=
  if capacity ≤ 0 then .error .invalidParam
  else if env.malloc = false then .error .memAlloc
  else if env.mutex ≠ .ok then .error env.mutex
  else if env.cvNotFull ≠ .ok then .error env.cvNotFull
  else if env.cvNotEmpty ≠ .ok then .error env.cvNotEmpty
  else .ok ⟨List.replicate capacity.toNat none, capacity, 0, 0, 0⟩

def store (queue : ArrayBlockingQueue D) (data : D) : Option (ArrayBlockingQueue D) :=
  if 0 ≤ queue.putIdx ∧ queue.putIdx < queue.datas.length then
    some { queue with datas := queue.datas.set queue.putIdx.toNat (some data) }
  else none

def load (queue : ArrayBlockingQueue D) : Option D :=
  if 0 ≤ queue.takeIdx then queue.datas[queue.takeIdx.toNat]?.join else none

def advance (idx capacity : Int) : Int := if idx + 1 = capacity then 0 else idx + 1

inductive Call (D : Type)
  | put (data : D)
  | take
  deriving DecidableEq, Repr

/-- The statements of `put` with those of `enqueue`, and of `take` with those of `dequeue`. -/
inductive Place (D : Type)
  | putTest (data : D)
  | putStore (data : D)
  | putAdvance (data : D)
  | putCount (data : D)
  | putUnlock
  | putReturn
  | takeTest
  | takeLoad
  | takeAdvance (data : D)
  | takeCount (data : D)
  | takeUnlock (data : D)
  | takeReturn (data : D)
  deriving DecidableEq, Repr

/-- The queue, and a record of the items that were put, taken and returned, each with the thread
that did so; the record is read by no statement. -/
structure Shared (ι D : Type) where
  queue : ArrayBlockingQueue D
  put : List (ι × D)
  taken : List (ι × D)
  returned : List (ι × D)
  deriving DecidableEq, Repr

def Shared.start (queue : ArrayBlockingQueue D) : Shared ι D := ⟨queue, [], [], []⟩

def entry : Call D → Place D
  | .put data => .putTest data
  | .take => .takeTest

def exec (i : ι) (s : Shared ι D) : Place D → Option (Shared ι D × Next (Call D) (Place D))
  | .putTest data =>
    if s.queue.cnt = s.queue.capacity then some (s, .wait (.put data))
    else some (s, .goto (.putStore data))
  | .putStore data =>
    (s.queue.store data).map fun queue => ({ s with queue := queue }, .goto (.putAdvance data))
  | .putAdvance data =>
    some ({ s with queue := { s.queue with putIdx := advance s.queue.putIdx s.queue.capacity } },
      .goto (.putCount data))
  | .putCount data =>
    some ({ s with
      queue := { s.queue with cnt := s.queue.cnt + 1 }
      put := s.put ++ [(i, data)] }, .goto .putUnlock)
  | .putUnlock => some (s, .unlock .putReturn)
  | .takeTest =>
    if s.queue.cnt = 0 then some (s, .wait .take) else some (s, .goto .takeLoad)
  | .takeLoad => s.queue.load.map fun data => (s, .goto (.takeAdvance data))
  | .takeAdvance data =>
    some ({ s with queue := { s.queue with takeIdx := advance s.queue.takeIdx s.queue.capacity } },
      .goto (.takeCount data))
  | .takeCount data =>
    some ({ s with
      queue := { s.queue with cnt := s.queue.cnt - 1 }
      taken := s.taken ++ [(i, data)] }, .goto (.takeUnlock data))
  | .takeUnlock data => some (s, .unlock (.takeReturn data))
  | .putReturn => none
  | .takeReturn _ => none

def finish (i : ι) (s : Shared ι D) : Place D → Shared ι D
  | .takeReturn data => { s with returned := s.returned ++ [(i, data)] }
  | _ => s

def code : Code ι (Shared ι D) (Call D) (Place D) := ⟨entry, exec, finish⟩

structure Holds (s : Shared ι D) (t n : Nat) : Prop where
  capacity_eq : s.queue.capacity = s.queue.datas.length
  first_lt : t < s.queue.datas.length
  cnt_eq : s.queue.cnt = n
  cnt_le : n ≤ s.queue.datas.length
  order : ∃ items, window s.queue.datas t n = items.map some ∧
    s.taken.map Prod.snd ++ items = s.put.map Prod.snd

structure Stands (s : Shared ι D) (t n dt dp : Nat) : Prop extends Holds s t n where
  take_eq : s.queue.takeIdx = ((t + dt) % s.queue.datas.length : Nat)
  put_eq : s.queue.putIdx = ((t + n + dp) % s.queue.datas.length : Nat)

def Free (s : Shared ι D) : Prop := ∃ t n, Stands s t n 0 0

def Knows (s : Shared ι D) : Place D → Prop
  | .putTest _ => Free s
  | .putStore _ => ∃ t n, Stands s t n 0 0 ∧ n < s.queue.datas.length
  | .putAdvance data => ∃ t n, Stands s t n 0 0 ∧ n < s.queue.datas.length ∧
      s.queue.datas[(t + n) % s.queue.datas.length]? = some (some data)
  | .putCount data => ∃ t n, Stands s t n 0 1 ∧ n < s.queue.datas.length ∧
      s.queue.datas[(t + n) % s.queue.datas.length]? = some (some data)
  | .putUnlock => Free s
  | .takeTest => Free s
  | .takeLoad => ∃ t n, Stands s t (n + 1) 0 0
  | .takeAdvance data => ∃ t n, Stands s t (n + 1) 0 0 ∧ s.queue.datas[t]? = some (some data)
  | .takeCount data => ∃ t n, Stands s t (n + 1) 1 0 ∧ s.queue.datas[t]? = some (some data)
  | .takeUnlock _ => Free s
  | .putReturn => False
  | .takeReturn _ => False

theorem advance_mod {a len : Nat} (hpos : 0 < len) :
    advance ((a % len : Nat) : Int) len = ((a + 1) % len : Nat) := by
  have hlt := Nat.mod_lt a hpos
  have hmod : (a + 1) % len = (a % len + 1) % len := by rw [Nat.mod_add_mod]
  rw [hmod]
  generalize a % len = r at hlt
  unfold advance
  split
  · next he =>
    have : r + 1 = len := by omega
    rw [this, Nat.mod_self]
    rfl
  · next hne =>
    rw [Nat.mod_eq_of_lt (by omega)]
    rfl

section Statements

variable {i : ι} {s : Shared ι D} {t n : Nat} {data : D}

theorem Stands.putStore (h : Stands s t n 0 0) (data : D) (hlt : n < s.queue.datas.length) :
    ∃ queue, s.queue.store data = some queue ∧
      Knows { s with queue := queue } (.putAdvance data) := by
  have hput : s.queue.putIdx = ((t + n) % s.queue.datas.length : Nat) := h.put_eq
  have hpos : (t + n) % s.queue.datas.length < s.queue.datas.length := Nat.mod_lt _ (by omega)
  obtain ⟨items, hwin, horder⟩ := h.order
  have hin : 0 ≤ s.queue.putIdx ∧ s.queue.putIdx < s.queue.datas.length := by
    rw [hput]
    exact ⟨Int.natCast_nonneg _, Int.ofNat_lt.mpr hpos⟩
  refine ⟨_, if_pos hin, t, n, ?_, ?_, ?_⟩
  · rw [show s.queue.putIdx.toNat = (t + n) % s.queue.datas.length by
      rw [hput, Int.toNat_natCast]]
    exact {
      capacity_eq := by rw [length_set]; exact h.capacity_eq
      first_lt := by rw [length_set]; exact h.first_lt
      cnt_eq := h.cnt_eq
      cnt_le := by rw [length_set]; exact h.cnt_le
      order := ⟨items, (window_set_behind _ hlt).trans hwin, horder⟩
      take_eq := by rw [length_set]; exact h.take_eq
      put_eq := by rw [length_set]; exact h.put_eq }
  · rw [length_set]
    exact hlt
  · rw [hput, Int.toNat_natCast, length_set, getElem?_set_self hpos]

theorem Stands.putAdvance (h : Stands s t n 0 0) : Stands { s with queue := { s.queue with
      putIdx := advance s.queue.putIdx s.queue.capacity } } t n 0 1 := by
  have hpos : 0 < s.queue.datas.length := Nat.zero_lt_of_lt h.first_lt
  refine ⟨⟨h.capacity_eq, h.first_lt, h.cnt_eq, h.cnt_le, h.order⟩, h.take_eq, ?_⟩
  rw [h.put_eq, h.capacity_eq, advance_mod hpos]

theorem Stands.takeAdvance (h : Stands s t n 0 0) : Stands { s with queue := { s.queue with
      takeIdx := advance s.queue.takeIdx s.queue.capacity } } t n 1 0 := by
  have hpos : 0 < s.queue.datas.length := Nat.zero_lt_of_lt h.first_lt
  refine ⟨⟨h.capacity_eq, h.first_lt, h.cnt_eq, h.cnt_le, h.order⟩, ?_, h.put_eq⟩
  rw [h.take_eq, h.capacity_eq, advance_mod hpos]

theorem Stands.putCount (h : Stands s t n 0 1) (hlt : n < s.queue.datas.length)
    (hdata : s.queue.datas[(t + n) % s.queue.datas.length]? = some (some data)) : Free { s with
      queue := { s.queue with cnt := s.queue.cnt + 1 }
      put := s.put ++ [(i, data)] } := by
  obtain ⟨items, hwin, horder⟩ := h.order
  refine ⟨t, n + 1, ⟨h.capacity_eq, h.first_lt, ?_, hlt, items ++ [data], ?_, ?_⟩, h.take_eq, ?_⟩
  · rw [h.cnt_eq]
    rfl
  · rw [window_snoc hlt hdata, hwin, map_append]
    rfl
  · rw [← append_assoc, horder, map_append]
    rfl
  · rw [h.put_eq]
    rfl

theorem Stands.takeLoad (h : Stands s t (n + 1) 0 0) :
    ∃ data, s.queue.load = some data ∧ s.queue.datas[t]? = some (some data) := by
  obtain ⟨items, hwin, _⟩ := h.order
  have hfirst := getElem?_window (l := s.queue.datas) (i := t) h.cnt_le (Nat.zero_lt_succ n)
  rw [hwin, Nat.add_zero, Nat.mod_eq_of_lt h.first_lt] at hfirst
  have hlen : items.length = n + 1 := by
    have := congrArg length hwin
    rw [length_window h.cnt_le, length_map] at this
    exact this.symm
  obtain ⟨data, rest, rfl⟩ := exists_cons_of_length_eq_add_one hlen
  have htake : s.queue.takeIdx = (t : Int) := by
    rw [h.take_eq, Nat.add_zero, Nat.mod_eq_of_lt h.first_lt]
  refine ⟨data, ?_, hfirst.symm⟩
  rw [load, htake, if_pos (Int.natCast_nonneg t), Int.toNat_natCast, ← hfirst]
  rfl

theorem Stands.takeCount (h : Stands s t (n + 1) 1 0)
    (hdata : s.queue.datas[t]? = some (some data)) :
    Free { s with
      queue := { s.queue with cnt := s.queue.cnt - 1 }
      taken := s.taken ++ [(i, data)] } := by
  obtain ⟨items, hwin, horder⟩ := h.order
  have hlt : n < s.queue.datas.length := h.cnt_le
  have hpos : 0 < s.queue.datas.length := by omega
  rw [window_succ hlt (by rw [Nat.mod_eq_of_lt h.first_lt]; exact hdata)] at hwin
  obtain ⟨d, rest, rfl, hd, hrest⟩ := map_eq_cons_iff.mp hwin.symm
  cases hd
  refine ⟨(t + 1) % s.queue.datas.length, n, ⟨h.capacity_eq, Nat.mod_lt _ hpos, ?_,
    Nat.le_of_succ_le h.cnt_le, rest, ?_, ?_⟩, ?_, ?_⟩
  · change s.queue.cnt - 1 = _
    rw [h.cnt_eq]
    omega
  · rw [hrest]
    exact window_mod _ _ _
  · rw [map_append, append_assoc, ← horder]
    rfl
  · exact h.take_eq.trans (congrArg Nat.cast (Nat.mod_mod (t + 1) _).symm)
  · have hmod : (t + (n + 1) + 0) % s.queue.datas.length =
        ((t + 1) % s.queue.datas.length + n) % s.queue.datas.length := by
      rw [Nat.mod_add_mod]
      congr 1
      omega
    exact h.put_eq.trans (congrArg Nat.cast hmod)

variable {s : Shared ι D} {i : ι} {l : Place D}

theorem Stands.finish {t n dt dp : Nat}
    (h : Stands s t n dt dp) : Stands (finish i s l) t n dt dp := by
  cases l with
  | takeReturn data =>
    exact ⟨⟨h.capacity_eq, h.first_lt, h.cnt_eq, h.cnt_le, h.order⟩, h.take_eq, h.put_eq⟩
  | _ => exact h

theorem finish_queue (i : ι) (l : Place D) (s : Shared ι D) : (finish i s l).queue = s.queue := by
  cases l <;> rfl

theorem free_finish (h : Free s) : Free (finish i s l) := by
  obtain ⟨t, n, hst⟩ := h
  exact ⟨t, n, hst.finish⟩

private theorem knows_finish {m : Place D} (h : Knows s m) : Knows (finish i s l) m := by
  have hq := finish_queue i l s
  cases m with
  | putTest data | putUnlock | takeTest | takeUnlock data => exact free_finish h
  | takeLoad =>
    obtain ⟨t, n, hst⟩ := h
    exact ⟨t, n, hst.finish⟩
  | putStore data | putAdvance data | putCount data | takeAdvance data | takeCount data =>
    obtain ⟨t, n, hst, hrest⟩ := h
    exact ⟨t, n, hst.finish, hq ▸ hrest⟩
  | putReturn => exact h.elim
  | takeReturn data => exact h.elim

theorem Holds.prefix {t n : Nat} (h : Holds s t n) :
    s.taken.map Prod.snd <+: s.put.map Prod.snd := by
  obtain ⟨items, _, horder⟩ := h.order
  exact ⟨items, horder⟩

theorem Knows.holds (h : Knows s l) : ∃ t n, Holds s t n := by
  cases l with
  | putReturn => exact h.elim
  | takeReturn data => exact h.elim
  | takeLoad =>
    obtain ⟨t, n, hst⟩ := h
    exact ⟨t, n + 1, hst.toHolds⟩
  | takeAdvance data | takeCount data =>
    obtain ⟨t, n, hst, _⟩ := h
    exact ⟨t, n + 1, hst.toHolds⟩
  | putStore data | putAdvance data | putCount data =>
    obtain ⟨t, n, hst, _⟩ := h
    exact ⟨t, n, hst.toHolds⟩
  | _ =>
    obtain ⟨t, n, hst⟩ := h
    exact ⟨t, n, hst.toHolds⟩

theorem Stands.untaken {t n : Nat} (h : Stands s t n 0 0) :
    window s.queue.datas s.queue.takeIdx.toNat s.queue.cnt.toNat =
      ((s.put.map Prod.snd).drop s.taken.length).map some := by
  obtain ⟨items, hwin, horder⟩ := h.order
  rw [h.take_eq, h.cnt_eq, Int.toNat_natCast, Int.toNat_natCast, Nat.add_zero,
    Nat.mod_eq_of_lt h.first_lt, hwin, ← horder, drop_left' (length_map _)]

theorem Stands.indices {t n k : Nat} (h : Stands s t n 0 0) :
    (s.queue.takeIdx + k) % s.queue.capacity = ((t + k) % s.queue.datas.length : Nat) := by
  rw [h.take_eq, h.capacity_eq, Nat.add_zero, Nat.mod_eq_of_lt h.first_lt]
  rfl

end Statements

variable {s : Shared ι D} {l : Place D}

theorem Free.counts (h : Free s) : 0 ≤ s.queue.cnt ∧ s.queue.cnt ≤ s.queue.capacity := by
  obtain ⟨t, n, hst⟩ := h
  rw [hst.cnt_eq, hst.capacity_eq]
  exact ⟨Int.natCast_nonneg n, Int.ofNat_le.mpr hst.cnt_le⟩

theorem Free.indices (h : Free s) :
    s.queue.putIdx = (s.queue.takeIdx + s.queue.cnt) % s.queue.capacity := by
  obtain ⟨t, n, hst⟩ := h
  rw [hst.cnt_eq, hst.indices]
  exact hst.put_eq

theorem Knows.overwrites_none {data : D} (h : Knows s (.putStore data)) {k : Int} (hk : 0 ≤ k)
    (hlt : k < s.queue.cnt) : s.queue.putIdx ≠ (s.queue.takeIdx + k) % s.queue.capacity := by
  obtain ⟨t, n, hst, hroom⟩ := h
  obtain ⟨k, rfl⟩ := Int.eq_ofNat_of_zero_le hk
  rw [hst.cnt_eq, Int.ofNat_lt] at hlt
  rw [hst.indices, hst.put_eq]
  intro he
  exact mod_ne_of_lt hlt (by omega) (Int.ofNat.inj he)

theorem Free.holds (h : Free s) : ∃ t n, Holds s t n := by
  obtain ⟨t, n, hst⟩ := h
  exact ⟨t, n, hst.toHolds⟩

def pending : Pc (Call D) (Place D) → List D
  | .inside (.takeUnlock data) => [data]
  | .outside (.takeReturn data) => [data]
  | _ => []

/-- What a thread knows: the items it took are the items it returned and the one in its hand; under
the mutex, how far the current statement has got. -/
def Asserts [DecidableEq ι] (i : ι) (pc : Pc (Call D) (Place D)) (s : Shared ι D) : Prop :=
  itemsOf i s.taken = itemsOf i s.returned ++ pending pc ∧
    match pc with
    | .inside l => Knows s l
    | _ => True

variable [DecidableEq ι]

private theorem exec_leads {i : ι} (h : Asserts i (.inside l) s) :
    ∃ s' n, exec i s l = some (s', n) ∧ Leads Free (Asserts i) s' n := by
  obtain ⟨hmine, hknows⟩ := h
  cases l with
  | putTest data =>
    by_cases hfull : s.queue.cnt = s.queue.capacity
    · exact ⟨s, _, if_pos hfull, hknows, hmine, trivial⟩
    · obtain ⟨t, n, hst⟩ := hknows
      refine ⟨s, _, if_neg hfull, hmine, t, n, hst, ?_⟩
      rw [hst.cnt_eq, hst.capacity_eq] at hfull
      exact Nat.lt_of_le_of_ne hst.cnt_le fun he => hfull (congrArg Nat.cast he)
  | putStore data =>
    obtain ⟨t, n, hst, hlt⟩ := hknows
    obtain ⟨queue, hstore, hknows⟩ := hst.putStore data hlt
    refine ⟨{ s with queue := queue }, .goto (.putAdvance data), ?_, hmine, hknows⟩
    rw [exec, hstore, Option.map_some]
  | putAdvance data =>
    obtain ⟨t, n, hst, hlt, hdata⟩ := hknows
    exact ⟨_, _, rfl, hmine, t, n, hst.putAdvance, hlt, hdata⟩
  | putCount data =>
    obtain ⟨t, n, hst, hlt, hdata⟩ := hknows
    exact ⟨_, _, rfl, hmine, hst.putCount hlt hdata⟩
  | putUnlock | takeUnlock data => exact ⟨s, _, rfl, hknows, hmine, trivial⟩
  | takeTest =>
    by_cases hempty : s.queue.cnt = 0
    · exact ⟨s, _, if_pos hempty, hknows, hmine, trivial⟩
    · obtain ⟨t, n, hst⟩ := hknows
      cases n with
      | zero => exact absurd hst.cnt_eq hempty
      | succ n => exact ⟨s, _, if_neg hempty, hmine, t, n, hst⟩
  | takeLoad =>
    obtain ⟨t, n, hst⟩ := hknows
    obtain ⟨data, hload, hdata⟩ := hst.takeLoad
    refine ⟨s, .goto (.takeAdvance data), ?_, hmine, t, n, hst, hdata⟩
    rw [exec, hload, Option.map_some]
  | takeAdvance data =>
    obtain ⟨t, n, hst, hdata⟩ := hknows
    exact ⟨_, _, rfl, hmine, t, n, hst.takeAdvance, hdata⟩
  | takeCount data =>
    obtain ⟨t, n, hst, hdata⟩ := hknows
    refine ⟨_, _, rfl, ?_, hst.takeCount hdata⟩
    change itemsOf i s.taken = itemsOf i s.returned ++ [] at hmine
    change itemsOf i (s.taken ++ [(i, data)]) = itemsOf i s.returned ++ [data]
    rw [itemsOf_append_self, hmine, append_nil]
  | putReturn | takeReturn data => exact hknows.elim

private theorem exec_itemsOf {i j : ι} {s' : Shared ι D} {n : Next (Call D) (Place D)}
    (hij : i ≠ j) (he : exec i s l = some (s', n)) :
    itemsOf j s'.taken = itemsOf j s.taken ∧ s'.returned = s.returned := by
  cases l with
  | putTest data | takeTest =>
    rw [exec] at he
    split at he <;> cases he <;> exact ⟨rfl, rfl⟩
  | putStore data =>
    obtain ⟨queue, _, he⟩ := Option.map_eq_some_iff.mp he
    cases he
    exact ⟨rfl, rfl⟩
  | takeLoad =>
    obtain ⟨data, _, he⟩ := Option.map_eq_some_iff.mp he
    cases he
    exact ⟨rfl, rfl⟩
  | takeCount data =>
    cases he
    exact ⟨itemsOf_append_of_ne hij, rfl⟩
  | putAdvance data | putCount data | putUnlock | takeAdvance data | takeUnlock data =>
    cases he; exact ⟨rfl, rfl⟩
  | putReturn => cases he
  | takeReturn data => cases he

private theorem finish_itemsOf {i j : ι} (l : Place D) (s : Shared ι D) (hij : i ≠ j) :
    itemsOf j (finish i s l).returned = itemsOf j s.returned ∧ (finish i s l).taken = s.taken := by
  cases l with
  | takeReturn data => exact ⟨itemsOf_append_of_ne hij, rfl⟩
  | _ => exact ⟨rfl, rfl⟩

private theorem queue_rule :
    Rule (code : Code ι (Shared ι D) (Call D) (Place D)) (fun _ _ => True) Free Asserts where
  call i c s _ h := ⟨h.1, trivial⟩
  lockFails i c s h := ⟨h.1, trivial⟩
  wake i c s h := ⟨h.1, trivial⟩
  enter i c s hfree h := by
    have hmine : itemsOf i s.taken = itemsOf i s.returned ++ [] := h.elim And.left And.left
    cases c with
    | put data | take => exact ⟨hmine, hfree⟩
  exec i l s h := exec_leads h
  exec_other i j l s s' n pc hij hpc _ he h := by
    obtain ⟨htaken, hreturned⟩ := exec_itemsOf hij he
    refine ⟨?_, ?_⟩
    · rw [htaken, hreturned]
      exact h.1
    · cases pc with
      | inside m => exact absurd trivial hpc
      | _ => trivial
  finish i l s h := by
    refine ⟨?_, trivial⟩
    have hmine := h.1
    cases l with
    | takeReturn data =>
      change itemsOf i s.taken = itemsOf i (s.returned ++ [(i, data)]) ++ []
      rw [itemsOf_append_self, append_nil]
      exact hmine
    | _ => exact hmine
  finish_free i l s _ h := free_finish h
  finish_other i j l s pc hij _ h := by
    obtain ⟨hreturned, htaken⟩ := finish_itemsOf l s hij
    refine ⟨?_, ?_⟩
    · change itemsOf j (finish i s l).taken = itemsOf j (finish i s l).returned ++ _
      rw [htaken, hreturned]
      exact h.1
    · cases pc with
      | inside m => exact knows_finish h.2
      | _ => trivial

abbrev Threads (ι D : Type) := State ι (Shared ι D) (Call D) (Place D)

structure QueueSound (s : Threads ι D) : Prop where
  counts : s.mutex = none → 0 ≤ s.data.queue.cnt ∧ s.data.queue.cnt ≤ s.data.queue.capacity
  indices : s.mutex = none →
    s.data.queue.putIdx = (s.data.queue.takeIdx + s.data.queue.cnt) % s.data.queue.capacity
  untaken : s.mutex = none →
    window s.data.queue.datas s.data.queue.takeIdx.toNat s.data.queue.cnt.toNat =
      ((s.data.put.map Prod.snd).drop s.data.taken.length).map some
  fifo : s.data.taken.map Prod.snd <+: s.data.put.map Prod.snd
  overwrites_none : ∀ i data, s.pc i = .inside (.putStore data) → ∀ k, 0 ≤ k →
    k < s.data.queue.cnt →
      s.data.queue.putIdx ≠ (s.data.queue.takeIdx + k) % s.data.queue.capacity
  returns : ∀ i, itemsOf i s.data.returned <+: itemsOf i s.data.taken
  returned_all : ∀ i, s.pc i = .idle → itemsOf i s.data.returned = itemsOf i s.data.taken
  runs_on : ∀ i l, s.pc i = .inside l → (exec i s.data l).isSome

private theorem init_free {capacity : Int} {env : Env} {queue : ArrayBlockingQueue D}
    (h : init capacity env = .ok queue) :
    Free (.start queue : Shared ι D) ∧ ∀ i : ι, Asserts i .idle (.start queue : Shared ι D) := by
  unfold init at h
  split at h
  · cases h
  · next hpos =>
    split_ifs at h
    cases h
    have hlen : (replicate capacity.toNat (none : Option D)).length = capacity.toNat :=
      length_replicate
    refine ⟨⟨0, 0, ⟨?_, ?_, rfl, Nat.zero_le _, [], rfl, rfl⟩, ?_, ?_⟩, fun i => ⟨rfl, trivial⟩⟩
    · change capacity = ((replicate capacity.toNat none).length : Int)
      omega
    · change 0 < (replicate capacity.toNat none).length
      omega
    · exact congrArg Nat.cast (Nat.zero_mod _).symm
    · exact congrArg Nat.cast (Nat.zero_mod _).symm

/-- In every run of any number of threads the queue is sound. -/
theorem queue_sound (capacity : Int) (env : Env) (queue : ArrayBlockingQueue D)
    (hinit : init capacity env = .ok queue) (events : List (Event ι (Call D))) (s : Threads ι D)
    (hrun : run (step code) (start (.start queue)) events = some s) : QueueSound s := by
  obtain ⟨hfree, hmine⟩ := init_free (ι := ι) hinit
  have hinv := queue_rule.run hfree hmine hrun
  refine ⟨fun hm => (hinv.free hm).counts, fun hm => (hinv.free hm).indices, ?_, ?_, ?_, ?_, ?_, ?_⟩
  · intro hm
    obtain ⟨t, n, hst⟩ := hinv.free hm
    exact hst.untaken
  · obtain ⟨t, n, hst⟩ : ∃ t n, Holds s.data t n :=
      hinv.always (P := fun d => ∃ t n, Holds d t n) Free.holds fun _ _ hA => hA.2.holds
    exact hst.prefix
  · intro i data hpc k hk hlt
    exact (hinv.asserts hpc).2.overwrites_none hk hlt
  · intro i
    exact ⟨_, (hinv.knows i).1.symm⟩
  · intro i hpc
    exact ((hinv.asserts hpc).1.trans (append_nil _)).symm
  · intro i l hpc
    exact hinv.runs_on queue_rule hpc

def oneEntry : ArrayBlockingQueue Nat := ⟨[none], 1, 0, 0, 0⟩

def waitingCalls : List (Event Bool (Call Nat)) :=
  [.call true .take] ++ steps true 2 ++ [.wake true] ++ steps true 2
    ++ [.call false (.put 7)] ++ steps false 7 ++ [.call false (.put 8)] ++ steps false 2
    ++ [.wake true] ++ steps true 7 ++ [.wake false] ++ steps false 7

theorem queue_sound_waiting :
    ∃ s : Threads Bool Nat, run (step code) (start (.start oneEntry)) waitingCalls = some s ∧
      s.data.put = [(false, 7), (false, 8)] ∧ s.data.returned = [(true, 7)] ∧ QueueSound s := by
  have hrun : (run (step code) (start (.start oneEntry) : Threads Bool Nat) waitingCalls).map
      (fun s => (s.data.put, s.data.returned)) = some ([(false, 7), (false, 8)], [(true, 7)]) := by
    decide +kernel
  obtain ⟨s, hs, hfields⟩ := Option.map_eq_some_iff.mp hrun
  obtain ⟨hput, hreturned⟩ := Prod.mk.inj hfields
  exact ⟨s, hs, hput, hreturned, queue_sound 1 ⟨true, .ok, .ok, .ok⟩ oneEntry rfl waitingCalls s hs⟩

end ArrayBlockingQueue

end MuggleC.Sync
