/- digest: What the calls on a container store, hand back and free, and its balance over runs. -/

import Mathlib.Algebra.Order.Group.Multiset
import Mathlib.Tactic.Abel
import MuggleC.Foundation.Transition

namespace MuggleC.Foundation.Ledger

open Transition

/-- What has been stored, handed back to the caller, and freed. -/
structure Book (ι : Type) where
  stored : Multiset ι
  taken : Multiset ι
  freed : Multiset ι

namespace Book

variable {ι : Type}

def empty : Book ι := ⟨0, 0, 0⟩

def add (b e : Book ι) : Book ι := ⟨b.stored + e.stored, b.taken + e.taken, b.freed + e.freed⟩

end Book

variable {σ γ ι : Type}

/-- A call, with its part of the book added. -/
def booked (call : σ → γ → Option (Book ι × σ)) (q : σ × Book ι) (c : γ) : Option (σ × Book ι) :=
  (call q.1 c).map fun r => (r.2, q.2.add r.1)

section

variable (call : Nat → σ → γ → Option (Book ι × σ)) (G : σ → γ → Prop)
  (destroy : σ → Option (Multiset ι))

/-- After any admitted calls, whose loops are given so many turns, `destroy` ends, and then everything
that was stored has been freed once or handed back; and every further call ends, given enough
turns. -/
def ReleasedOnce [∀ s c, Decidable (G s c)] (start : σ) : Prop :=
  ∀ turns cs s book,
    run (guarded (booked (call turns)) fun q c => G q.1 c) (start, .empty) cs = some (s, book) →
      (∃ last, destroy s = some last ∧ book.freed + last + book.taken = book.stored) ∧
        ∀ c, G s c → ∃ bound, ∀ turns, bound ≤ turns → (call turns s c).isSome

/-- A container whose calls keep an invariant of the state and what it holds, and account for what
they change. -/
structure Accounts (I : σ → Multiset ι → Prop) : Prop where
  step : ∀ turns s held c e s', I s held → G s c → call turns s c = some (e, s') →
    ∃ held', I s' held' ∧ e.freed + e.taken + held' = e.stored + held
  ends : ∀ s held c, I s held → G s c → ∃ bound, ∀ turns, bound ≤ turns → (call turns s c).isSome
  destroy_eq : ∀ s held, I s held → destroy s = some held

end

variable {call : Nat → σ → γ → Option (Book ι × σ)} {G : σ → γ → Prop}
  {destroy : σ → Option (Multiset ι)} {I : σ → Multiset ι → Prop}

/-- The state holds what has been stored and not gone since. -/
def Balanced (I : σ → Multiset ι → Prop) (q : σ × Book ι) : Prop :=
  ∃ held, I q.1 held ∧ q.2.freed + held + q.2.taken = q.2.stored

theorem Accounts.booked_step [∀ s c, Decidable (G s c)] (h : Accounts call G destroy I)
    {turns : Nat} {q q' : σ × Book ι} {c : γ} (hq : Balanced I q)
    (hstep : guarded (booked (call turns)) (fun q c => G q.1 c) q c = some q') : Balanced I q' := by
  obtain ⟨held, hI, hsum⟩ := hq
  obtain ⟨hG, hstep⟩ := guarded_eq_some.mp hstep
  obtain ⟨⟨e, s'⟩, hcall, rfl⟩ := Option.map_eq_some_iff.mp hstep
  obtain ⟨held', hI', hbalance⟩ := h.step turns q.1 held c e s' hI hG hcall
  refine ⟨held', hI', ?_⟩
  calc q.2.freed + e.freed + held' + (q.2.taken + e.taken)
      = q.2.freed + q.2.taken + (e.freed + e.taken + held') := by abel
    _ = q.2.freed + held + q.2.taken + e.stored := by rw [hbalance]; abel
    _ = q.2.stored + e.stored := by rw [hsum]

theorem Accounts.releasedOnce [∀ s c, Decidable (G s c)] (h : Accounts call G destroy I)
    {start : σ} (hstart : I start 0) : ReleasedOnce call G destroy start := by
  intro turns cs s book hrun
  obtain ⟨held, hI, hsum⟩ : Balanced I (s, book) :=
    run_invariant (fun q c q' hq hstep => h.booked_step hq hstep) ⟨0, hstart, rfl⟩ hrun
  exact ⟨⟨held, h.destroy_eq s held hI, hsum⟩, fun c hc => h.ends s held c hI hc⟩

end MuggleC.Foundation.Ledger
