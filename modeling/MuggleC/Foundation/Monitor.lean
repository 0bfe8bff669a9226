/- digest: Threads whose calls share data under one mutex and wait on conditions inside it. -/

import MuggleC.Foundation.Transition

/-! A thread that waits has given the mutex back and may wake up at any time. That covers a
notification as well as a spurious wake-up, so notifying is not a step of its own. -/

namespace MuggleC.Foundation.Monitor

open Foundation.Transition Function

variable {ι σ γ κ : Type}

/-- What the thread with the mutex does after a statement: the next statement, a wait, or the
statements behind the unlock. -/
inductive Next (γ κ : Type)
  | goto (l : κ)
  | wait (c : γ)
  | unlock (l : κ)
  deriving DecidableEq, Repr

/-- The code of the calls `γ`, cut into statements at the places `κ`. `exec` is a statement under
the mutex, `none` if it touches memory that is not there; `finish` is what is left to do after the
unlock. -/
structure Code (ι σ γ κ : Type) where
  entry : γ → κ
  exec : ι → σ → κ → Option (σ × Next γ κ)
  finish : ι → σ → κ → σ

inductive Pc (γ κ : Type)
  | idle
  | lock (c : γ)
  | inside (l : κ)
  | waiting (c : γ)
  | relock (c : γ)
  | outside (l : κ)
  deriving DecidableEq, Repr

structure State (ι σ γ κ : Type) where
  data : σ
  mutex : Option ι
  pc : ι → Pc γ κ

/-- A thread makes a call, its call fails to lock, it moves on, or it wakes up. -/
inductive Event (ι γ : Type)
  | call (i : ι) (c : γ)
  | lockFails (i : ι)
  | step (i : ι)
  | wake (i : ι)
  deriving DecidableEq, Repr

def steps (i : ι) (n : Nat) : List (Event ι γ) := List.replicate n (.step i)

def start (data : σ) : State ι σ γ κ := ⟨data, none, fun _ => .idle⟩

section Steps

variable [DecidableEq ι]

namespace State

def goto (s : State ι σ γ κ) (i : ι) (pc : Pc γ κ) : State ι σ γ κ :=
  { s with pc := Function.update s.pc i pc }

def acquire (s : State ι σ γ κ) (i : ι) (l : κ) : State ι σ γ κ :=
  { s with mutex := some i, pc := Function.update s.pc i (.inside l) }

/-- The state after a statement under the mutex. -/
def follow (s : State ι σ γ κ) (i : ι) (data : σ) : Next γ κ → State ι σ γ κ
  | .goto l => ⟨data, s.mutex, Function.update s.pc i (.inside l)⟩
  | .wait c => ⟨data, none, Function.update s.pc i (.waiting c)⟩
  | .unlock l => ⟨data, none, Function.update s.pc i (.outside l)⟩

def finished (s : State ι σ γ κ) (i : ι) (data : σ) : State ι σ γ κ :=
  { s with data := data, pc := Function.update s.pc i .idle }

end State

variable (code : Code ι σ γ κ)

def stepThread (s : State ι σ γ κ) (i : ι) : Option (State ι σ γ κ) :=
  match s.pc i with
  | .idle => none
  | .waiting _ => none
  | .lock c => if s.mutex.isNone then some (s.acquire i (code.entry c)) else none
  | .relock c => if s.mutex.isNone then some (s.acquire i (code.entry c)) else none
  | .inside l => (code.exec i s.data l).map fun r => s.follow i r.1 r.2
  | .outside l => some (s.finished i (code.finish i s.data l))

def step (s : State ι σ γ κ) : Event ι γ → Option (State ι σ γ κ)
  | .call i c =>
    match s.pc i with
    | .idle => some (s.goto i (.lock c))
    | _ => none
  | .lockFails i =>
    match s.pc i with
    | .lock _ => some (s.goto i .idle)
    | _ => none
  | .wake i =>
    match s.pc i with
    | .waiting c => some (s.goto i (.relock c))
    | _ => none
  | .step i => stepThread code s i

variable {code}

/-- What an event can do. -/
inductive Move (code : Code ι σ γ κ) (s : State ι σ γ κ) : Event ι γ → State ι σ γ κ → Prop
  | call {i : ι} {c : γ} (hpc : s.pc i = .idle) : Move code s (.call i c) (s.goto i (.lock c))
  | lockFails {i : ι} {c : γ} (hpc : s.pc i = .lock c) :
      Move code s (.lockFails i) (s.goto i .idle)
  | wake {i : ι} {c : γ} (hpc : s.pc i = .waiting c) :
      Move code s (.wake i) (s.goto i (.relock c))
  | acquire {i : ι} {c : γ} (hpc : s.pc i = .lock c ∨ s.pc i = .relock c)
      (hfree : s.mutex = none) : Move code s (.step i) (s.acquire i (code.entry c))
  | exec {i : ι} {l : κ} {data : σ} {n : Next γ κ} (hpc : s.pc i = .inside l)
      (he : code.exec i s.data l = some (data, n)) : Move code s (.step i) (s.follow i data n)
  | finish {i : ι} {l : κ} (hpc : s.pc i = .outside l) :
      Move code s (.step i) (s.finished i (code.finish i s.data l))

theorem move_of_stepThread {s s' : State ι σ γ κ} {i : ι} (h : stepThread code s i = some s') :
    Move code s (.step i) s' := by
  unfold stepThread at h
  split at h
  · cases h
  · cases h
  · next c hpc =>
    split at h
    · next hfree =>
      cases h
      exact .acquire (.inl hpc) (Option.isNone_iff_eq_none.mp hfree)
    · cases h
  · next c hpc =>
    split at h
    · next hfree =>
      cases h
      exact .acquire (.inr hpc) (Option.isNone_iff_eq_none.mp hfree)
    · cases h
  · next l hpc =>
    obtain ⟨⟨data, n⟩, he, rfl⟩ := Option.map_eq_some_iff.mp h
    exact .exec hpc he
  · next l hpc =>
    cases h
    exact .finish hpc

theorem move_of_step {s s' : State ι σ γ κ} {e : Event ι γ} (h : step code s e = some s') :
    Move code s e s' := by
  cases e with
  | step i => exact move_of_stepThread h
  | call i c =>
    simp only [step] at h
    split at h
    · next hpc =>
      cases h
      exact .call hpc
    · cases h
  | lockFails i =>
    simp only [step] at h
    split at h
    · next hpc =>
      cases h
      exact .lockFails hpc
    · cases h
  | wake i =>
    simp only [step] at h
    split at h
    · next hpc =>
      cases h
      exact .wake hpc
    · cases h

end Steps

/-- Only calls that the thread is allowed to make. -/
def Permitted (allowed : ι → γ → Prop) : Event ι γ → Prop
  | .call i c => allowed i c
  | _ => True

instance (allowed : ι → γ → Prop) [∀ i c, Decidable (allowed i c)] (e : Event ι γ) :
    Decidable (Permitted allowed e) :=
  match e with
  | .call i c => inferInstanceAs (Decidable (allowed i c))
  | .lockFails _ => .isTrue trivial
  | .step _ => .isTrue trivial
  | .wake _ => .isTrue trivial

/-- The steps of threads that only make permitted calls. -/
def permittedStep [DecidableEq ι] (code : Code ι σ γ κ) (allowed : ι → γ → Prop)
    [∀ i c, Decidable (allowed i c)] : State ι σ γ κ → Event ι γ → Option (State ι σ γ κ) :=
  guarded (step code) fun _ e => Permitted allowed e

/-- The thread at this place holds the mutex. -/
def Pc.Inside : Pc γ κ → Prop
  | .inside _ => True
  | _ => False

/-- What holds of the data and of the place that the thread goes to after a statement. -/
def Leads (R : σ → Prop) (A : Pc γ κ → σ → Prop) (data : σ) : Next γ κ → Prop
  | .goto l => A (.inside l) data
  | .wait c => R data ∧ A (.waiting c) data
  | .unlock l => R data ∧ A (.outside l) data

/-- `R` is what the data satisfy while nobody holds the mutex, and `A` is what each thread knows
about them at its place. Every statement leads from assertion to assertion and leaves the
assertions of the other threads alone. -/
structure Rule (code : Code ι σ γ κ) (allowed : ι → γ → Prop) (R : σ → Prop)
    (A : ι → Pc γ κ → σ → Prop) : Prop where
  call : ∀ i c s, allowed i c → A i .idle s → A i (.lock c) s
  lockFails : ∀ i c s, A i (.lock c) s → A i .idle s
  wake : ∀ i c s, A i (.waiting c) s → A i (.relock c) s
  enter : ∀ i c s, R s → A i (.lock c) s ∨ A i (.relock c) s → A i (.inside (code.entry c)) s
  exec : ∀ i l s, A i (.inside l) s →
    ∃ s' n, code.exec i s l = some (s', n) ∧ Leads R (A i) s' n
  exec_other : ∀ i j l s s' n pc, i ≠ j → ¬ pc.Inside → A i (.inside l) s →
    code.exec i s l = some (s', n) → A j pc s → A j pc s'
  finish : ∀ i l s, A i (.outside l) s → A i .idle (code.finish i s l)
  finish_free : ∀ i l s, A i (.outside l) s → R s → R (code.finish i s l)
  finish_other : ∀ i j l s pc, i ≠ j → A i (.outside l) s → A j pc s → A j pc (code.finish i s l)

structure Inv (R : σ → Prop) (A : ι → Pc γ κ → σ → Prop) (s : State ι σ γ κ) : Prop where
  free : s.mutex = none → R s.data
  holder : ∀ i, (s.pc i).Inside ↔ s.mutex = some i
  knows : ∀ i, A i (s.pc i) s.data

section Keep

variable {code : Code ι σ γ κ} {allowed : ι → γ → Prop} {R : σ → Prop} {A : ι → Pc γ κ → σ → Prop}
  {s : State ι σ γ κ} {i : ι} {pc : Pc γ κ} {l : κ} {data : σ} {es : List (Event ι γ)}

theorem Inv.asserts (h : Inv R A s) (hpc : s.pc i = pc) : A i pc s.data :=
  hpc ▸ h.knows i

theorem Inv.always (h : Inv R A s) {P : σ → Prop} (hfree : R s.data → P s.data)
    (hinside : ∀ i l, A i (.inside l) s.data → P s.data) : P s.data := by
  cases hm : s.mutex with
  | none => exact hfree (h.free hm)
  | some i =>
    have hin := (h.holder i).mpr hm
    cases hpc : s.pc i with
    | inside l => exact hinside i l (h.asserts hpc)
    | _ =>
      rw [hpc] at hin
      exact hin.elim

theorem Inv.runs_on (h : Inv R A s) (hr : Rule code allowed R A)
    (hpc : s.pc i = .inside l) : (code.exec i s.data l).isSome := by
  obtain ⟨s', n, he, _⟩ := hr.exec i l s.data (h.asserts hpc)
  rw [he]
  rfl

theorem inv_start (hR : R data) (hA : ∀ i, A i .idle data) :
    Inv R A (start data : State ι σ γ κ) where
  free _ := hR
  holder i := ⟨False.elim, fun hm => by cases hm⟩
  knows := hA

variable (h : Inv R A s)

include h

theorem Inv.alone (hi : (s.pc i).Inside) {j : ι} (hj : j ≠ i) : ¬ (s.pc j).Inside := by
  intro hin
  have he := ((h.holder j).mp hin).symm.trans ((h.holder i).mp hi)
  exact hj (Option.some.inj he)

variable [DecidableEq ι]

theorem Inv.goto (hout : ¬ (s.pc i).Inside) (hpc : ¬ pc.Inside)
    (hA : A i pc s.data) : Inv R A (s.goto i pc) where
  free := h.free
  holder := (forall_update_iff s.pc fun j pc => pc.Inside ↔ s.mutex = some j).mpr
    ⟨⟨fun hi => absurd hi hpc, fun hm => absurd ((h.holder i).mpr hm) hout⟩, fun j _ => h.holder j⟩
  knows := (forall_update_iff s.pc fun j pc => A j pc s.data).mpr ⟨hA, fun j _ => h.knows j⟩

theorem Inv.acquire (hfree : s.mutex = none)
    (hA : A i (.inside l) s.data) : Inv R A (s.acquire i l) where
  free hm := by cases hm
  holder := by
    refine (forall_update_iff s.pc fun j pc => pc.Inside ↔ some i = some j).mpr
      ⟨⟨fun _ => rfl, fun _ => trivial⟩, ?_⟩
    intro j hj
    constructor
    · intro hin
      rw [(h.holder j).mp hin] at hfree
      cases hfree
    · intro he
      exact absurd (Option.some.inj he).symm hj
  knows := (forall_update_iff s.pc fun j pc => A j pc s.data).mpr ⟨hA, fun j _ => h.knows j⟩

theorem Inv.left (hi : (s.pc i).Inside) (hpc : ¬ pc.Inside) (j : ι) :
    (update s.pc i pc j).Inside ↔ none = some j := by
  constructor
  · intro hin
    by_cases hj : j = i
    · subst hj
      rw [update_self] at hin
      exact absurd hin hpc
    · rw [update_of_ne hj] at hin
      exact absurd hin (h.alone hi hj)
  · intro he
    cases he

theorem Inv.exec (hr : Rule code allowed R A) {n : Next γ κ} (hpc : s.pc i = .inside l)
    (he : code.exec i s.data l = some (data, n)) : Inv R A (s.follow i data n) := by
  have hin : (s.pc i).Inside := by
    rw [hpc]
    trivial
  have hA := h.asserts hpc
  obtain ⟨data', n', he', hleads⟩ := hr.exec i l s.data hA
  cases he.symm.trans he'
  have hother : ∀ j, j ≠ i → A j (s.pc j) data := fun j hj =>
    hr.exec_other i j l s.data data n (s.pc j) (Ne.symm hj) (h.alone hin hj) hA he (h.knows j)
  cases n with
  | goto l' =>
    have hm := (h.holder i).mp hin
    refine ⟨fun hn => ?_, ?_, ?_⟩
    · rw [State.follow, hm] at hn
      cases hn
    · exact (forall_update_iff s.pc fun j pc => pc.Inside ↔ s.mutex = some j).mpr
        ⟨⟨fun _ => hm, fun _ => trivial⟩, fun j _ => h.holder j⟩
    · exact (forall_update_iff s.pc fun j pc => A j pc data).mpr ⟨hleads, hother⟩
  | wait c | unlock l' =>
    exact ⟨fun _ => hleads.1, h.left hin id,
      (forall_update_iff s.pc fun j pc => A j pc data).mpr ⟨hleads.2, hother⟩⟩

theorem Inv.finish (hr : Rule code allowed R A)
    (hpc : s.pc i = .outside l) : Inv R A (s.finished i (code.finish i s.data l)) := by
  have hA := h.asserts hpc
  have hout : ¬ (s.pc i).Inside := by
    rw [hpc]
    exact id
  refine ⟨fun hm => hr.finish_free i l s.data hA (h.free hm), ?_, ?_⟩
  · exact (forall_update_iff s.pc fun j pc => pc.Inside ↔ s.mutex = some j).mpr
      ⟨⟨False.elim, fun hm => hout ((h.holder i).mpr hm)⟩, fun j _ => h.holder j⟩
  · exact (forall_update_iff s.pc fun j pc => A j pc _).mpr ⟨hr.finish i l s.data hA, fun j hj =>
        hr.finish_other i j l s.data (s.pc j) (Ne.symm hj) hA (h.knows j)⟩

theorem Inv.step (hr : Rule code allowed R A) {e : Event ι γ} {s' : State ι σ γ κ}
    (hp : Permitted allowed e) (he : step code s e = some s') : Inv R A s' := by
  cases move_of_step he with
  | @call i c hpc =>
    exact h.goto (by rw [hpc]; exact id) id (hr.call i c s.data hp (h.asserts hpc))
  | @lockFails i c hpc =>
    exact h.goto (by rw [hpc]; exact id) id (hr.lockFails i c s.data (h.asserts hpc))
  | @wake i c hpc =>
    exact h.goto (by rw [hpc]; exact id) id (hr.wake i c s.data (h.asserts hpc))
  | @acquire i c hpc hfree =>
    apply h.acquire hfree
    exact hr.enter i c s.data (h.free hfree) (hpc.imp h.asserts h.asserts)
  | exec hpc hexec => exact h.exec hr hpc hexec
  | finish hpc => exact h.finish hr hpc

omit h

theorem Rule.run_permitted [∀ i c, Decidable (allowed i c)] (hr : Rule code allowed R A)
    (hR : R data) (hA : ∀ i, A i .idle data)
    (hrun : run (permittedStep code allowed) (start data) es = some s) : Inv R A s := by
  refine run_invariant ?_ (inv_start hR hA) hrun
  intro s e s' hs he
  obtain ⟨hp, he⟩ := guarded_eq_some.mp he
  exact hs.step hr hp he

theorem Rule.run (hr : Rule code (fun _ _ => True) R A) (hR : R data) (hA : ∀ i, A i .idle data)
    (hrun : Transition.run (step code) (start data) es = some s) : Inv R A s := by
  refine run_invariant ?_ (inv_start hR hA) hrun
  intro s e s' hs he
  have hp : Permitted (fun (_ : ι) (_ : γ) => True) e := by cases e <;> trivial
  exact hs.step hr hp he

end Keep

end MuggleC.Foundation.Monitor
