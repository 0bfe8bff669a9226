/- digest: Runs of guarded step functions, and families of threads. -/

import Mathlib.Data.List.Basic

namespace MuggleC.Foundation.Transition

universe u v

variable {σ : Type u} {α : Type v}

/-- Execute the actions in order. A `none` step is an action that the state does not enable. -/
def run (step : σ → α → Option σ) : σ → List α → Option σ
  | s, [] => some s
  | s, a :: as => (step s a).bind fun s' => run step s' as

@[simp] theorem run_nil (step : σ → α → Option σ) (s : σ) : run step s [] = some s := rfl

theorem run_cons (step : σ → α → Option σ) (s : σ) (a : α) (as : List α) :
    run step s (a :: as) = (step s a).bind fun s' => run step s' as := rfl

variable {step : σ → α → Option σ} {s : σ} {as : List α} {G : σ → α → Prop}

theorem run_of_step {t u : σ} {a : α}
    (h : step s a = some t) (hr : run step t as = some u) : run step s (a :: as) = some u := by
  rw [run_cons, h]
  exact hr

theorem run_append (step : σ → α → Option σ) (s : σ) (as bs : List α) :
    run step s (as ++ bs) = (run step s as).bind fun s' => run step s' bs := by
  induction as generalizing s with
  | nil => rfl
  | cons a as ih =>
    simp only [List.cons_append, run_cons, Option.bind_assoc]
    exact Option.bind_congr fun s' _ => ih s'

theorem run_invariant {I : σ → Prop} (keep : ∀ s a s', I s → step s a = some s' → I s') {t : σ}
    (hs : I s) (hr : run step s as = some t) : I t := by
  induction as generalizing s with
  | nil =>
    rw [run_nil, Option.some.injEq] at hr
    exact hr ▸ hs
  | cons a as ih =>
    rw [run_cons, Option.bind_eq_some_iff] at hr
    obtain ⟨u, hu, hr⟩ := hr
    exact ih (keep s a u hs hu) hr

theorem run_forward {τ : Type*} {step' : τ → α → Option τ} {R : σ → τ → Prop}
    (keep : ∀ s x a y, R s x → step' x a = some y → ∃ t, step s a = some t ∧ R t y) {x y : τ}
    (hs : R s x) (hr : run step' x as = some y) : ∃ t, run step s as = some t ∧ R t y := by
  induction as generalizing s x with
  | nil =>
    cases hr
    exact ⟨s, rfl, hs⟩
  | cons a as ih =>
    rw [run_cons, Option.bind_eq_some_iff] at hr
    obtain ⟨z, hz, hr⟩ := hr
    obtain ⟨u, hu, hR⟩ := keep s x a z hs hz
    obtain ⟨t, ht, hty⟩ := ih hR hr
    exact ⟨t, run_of_step hu ht, hty⟩

/-- The step function with the actions outside `G` disabled. -/
def guarded (step : σ → α → Option σ) (G : σ → α → Prop) [∀ s a, Decidable (G s a)]
    (s : σ) (a : α) : Option σ :=
  if G s a then step s a else none

theorem guarded_eq_some [∀ s a, Decidable (G s a)] {s' : σ} {a : α} :
    guarded step G s a = some s' ↔ G s a ∧ step s a = some s' := by
  unfold guarded
  split
  · next h => simp [h]
  · next h => simp [h]

theorem run_of_guarded [∀ s a, Decidable (G s a)]
    {t : σ} (h : run (guarded step G) s as = some t) : run step s as = some t := by
  induction as generalizing s with
  | nil => exact h
  | cons a as ih =>
    rw [run_cons, Option.bind_eq_some_iff] at h
    obtain ⟨u, hu, hr⟩ := h
    exact run_of_step (guarded_eq_some.mp hu).2 (ih hr)

theorem run_lt_iff [∀ s a, Decidable (G s a)]
    {size : σ → Nat} {bound : Nat} (mono : ∀ {s a t}, step s a = some t → size s ≤ size t)
    (exact_step : ∀ {s a t}, step s a = some t → size s < bound → (size t < bound ↔ G s a))
    {t : σ} (hr : run step s as = some t) :
    size t < bound ↔ size s < bound ∧ run (guarded step G) s as = some t := by
  induction as generalizing s with
  | nil =>
    cases hr
    exact ⟨fun h => ⟨h, rfl⟩, fun h => h.1⟩
  | cons a as ih =>
    rw [run_cons, Option.bind_eq_some_iff] at hr
    obtain ⟨u, hu, hr⟩ := hr
    constructor
    · intro ht
      obtain ⟨hub, hg⟩ := (ih hr).mp ht
      have hs : size s < bound := Nat.lt_of_le_of_lt (mono hu) hub
      exact ⟨hs, run_of_step (guarded_eq_some.mpr ⟨(exact_step hu hs).mp hub, hu⟩) hg⟩
    · rintro ⟨hs, hg⟩
      rw [run_cons, Option.bind_eq_some_iff] at hg
      obtain ⟨u', hu', hg⟩ := hg
      obtain ⟨hG, hstep⟩ := guarded_eq_some.mp hu'
      rw [hu] at hstep
      cases hstep
      exact (ih hr).mpr ⟨(exact_step hu hs).mpr hG, hg⟩

end MuggleC.Foundation.Transition

namespace MuggleC.Foundation.Threads

open Function

universe u

variable {ι : Type u}

/-- At most one thread is inside, and none unless the lock is taken. -/
structure Exclusive (locked : Prop) (inside : ι → Prop) : Prop where
  locked_of_inside : ∀ i, inside i → locked
  unique : ∀ i j, inside i → inside j → i = j

namespace Exclusive

variable {locked locked' : Prop} {inside inside' : ι → Prop}

theorem stay (h : Exclusive locked inside) (hl : locked → locked')
    (hin : ∀ j, inside' j → inside j) : Exclusive locked' inside' where
  locked_of_inside j hj := hl (h.locked_of_inside j (hin j hj))
  unique j k hj hk := h.unique j k (hin j hj) (hin k hk)

theorem enter (h : Exclusive locked inside) (hfree : ¬ locked) (hl : locked') {i : ι}
    (hin : ∀ j, j ≠ i → inside' j → inside j) : Exclusive locked' inside' := by
  have hself : ∀ j, inside' j → j = i := by
    intro j hj
    by_contra hne
    exact hfree (h.locked_of_inside j (hin j hne hj))
  refine ⟨fun _ _ => hl, ?_⟩
  intro j k hj hk
  rw [hself j hj, hself k hk]

theorem leave (h : Exclusive locked inside) {i : ι} (hi : inside i) (hout : ¬ inside' i)
    (hin : ∀ j, j ≠ i → inside' j → inside j) : Exclusive locked' inside' := by
  have hnone : ∀ j, ¬ inside' j := by
    intro j hj
    have hne : j ≠ i := by
      rintro rfl
      exact hout hj
    exact hne (h.unique j i (hin j hne hj) hi)
  exact ⟨fun j hj => absurd hj (hnone j), fun j _ hj => absurd hj (hnone j)⟩

section Update

variable {β : Type} [DecidableEq ι] {pc : ι → β} {within : β → Bool} {i : ι} {b : β}
  (h : Exclusive locked fun j => within (pc j) = true)

include h

theorem update_stay (hin : within b = true → within (pc i) = true) :
    Exclusive locked fun j => within (update pc i b j) = true := by
  apply h.stay id
  exact (forall_update_iff pc fun j b => within b = true → within (pc j) = true).mpr
    ⟨hin, fun _ _ => id⟩

theorem update_enter (hfree : ¬ locked)
    (hl : locked') : Exclusive locked' fun j => within (update pc i b j) = true := by
  apply h.enter hfree hl (i := i)
  intro j hne hin
  rwa [update_of_ne hne] at hin

theorem update_leave (hi : within (pc i) = true) (hout : within b = false) :
    Exclusive locked' fun j => within (update pc i b j) = true := by
  apply h.leave (i := i) hi
  · rw [update_self, hout]
    exact Bool.false_ne_true
  · intro j hne hin
    rwa [update_of_ne hne] at hin

end Update

end Exclusive

/-- The tickets from `lo` up to `hi` are each held by one thread, and there are no others. -/
structure Tickets (label : ι → Option Nat) (lo hi : Nat) : Prop where
  range : ∀ i t, label i = some t → lo ≤ t ∧ t < hi
  distinct : ∀ i j t, label i = some t → label j = some t → i = j
  cover : ∀ t, lo ≤ t → t < hi → ∃ i, label i = some t

namespace Tickets

variable {label label' : ι → Option Nat} {lo hi : Nat} {i : ι}

theorem keep (h : Tickets label lo hi) (he : ∀ j, label' j = label j) : Tickets label' lo hi :=
  (funext he : label' = label) ▸ h

theorem issue (h : Tickets label lo hi) (hle : lo ≤ hi) (hnone : label i = none)
    (hnew : label' i = some hi) (hother : ∀ j, j ≠ i → label' j = label j) :
    Tickets label' lo (hi + 1) := by
  have hcases : ∀ j t, label' j = some t → (j = i ∧ t = hi) ∨ (label j = some t ∧ t < hi) := by
    intro j t hj
    by_cases hne : j = i
    · rw [hne, hnew] at hj
      exact .inl ⟨hne, (Option.some.inj hj).symm⟩
    · rw [hother j hne] at hj
      exact .inr ⟨hj, (h.range j t hj).2⟩
  refine ⟨?_, ?_, ?_⟩
  · intro j t hj
    rcases hcases j t hj with ⟨_, rfl⟩ | ⟨hold, _⟩
    · exact ⟨hle, Nat.lt_succ_self t⟩
    · have := h.range j t hold
      omega
  · intro j k t hj hk
    rcases hcases j t hj with ⟨hji, htj⟩ | ⟨hjold, hjlt⟩
    · rcases hcases k t hk with ⟨hki, _⟩ | ⟨_, hklt⟩
      · rw [hji, hki]
      · omega
    · rcases hcases k t hk with ⟨_, htk⟩ | ⟨hkold, _⟩
      · omega
      · exact h.distinct j k t hjold hkold
  · intro t hlo hhi
    by_cases ht : t = hi
    · exact ⟨i, by rw [hnew, ht]⟩
    · obtain ⟨j, hj⟩ := h.cover t hlo (by omega)
      refine ⟨j, ?_⟩
      rw [hother j]
      · exact hj
      · rintro rfl
        rw [hnone] at hj
        cases hj

theorem serve (h : Tickets label lo hi) (hlow : label i = some lo) (hnone : label' i = none)
    (hother : ∀ j, j ≠ i → label' j = label j) : Tickets label' (lo + 1) hi := by
  have hcases : ∀ j t, label' j = some t → label j = some t ∧ t ≠ lo := by
    intro j t hj
    have hne : j ≠ i := by
      rintro rfl
      rw [hnone] at hj
      cases hj
    rw [hother j hne] at hj
    refine ⟨hj, ?_⟩
    rintro rfl
    exact hne (h.distinct j i t hj hlow)
  refine ⟨?_, ?_, ?_⟩
  · intro j t hj
    obtain ⟨hold, hne⟩ := hcases j t hj
    have := h.range j t hold
    omega
  · intro j k t hj hk
    exact h.distinct j k t (hcases j t hj).1 (hcases k t hk).1
  · intro t hlo hhi
    obtain ⟨j, hj⟩ := h.cover t (by omega) hhi
    refine ⟨j, ?_⟩
    rw [hother j]
    · exact hj
    · rintro rfl
      rw [hlow] at hj
      have := Option.some.inj hj
      omega

end Tickets

def itemsOf {D : Type} [DecidableEq ι] (i : ι) (l : List (ι × D)) : List D :=
  (l.filter fun e => e.1 = i).map Prod.snd

section Items

variable {D : Type} [DecidableEq ι] {i j : ι} {l : List (ι × D)} {data : D}

theorem itemsOf_append_self : itemsOf i (l ++ [(i, data)]) = itemsOf i l ++ [data] := by
  simp [itemsOf]

theorem itemsOf_append_of_ne (h : i ≠ j) : itemsOf j (l ++ [(i, data)]) = itemsOf j l := by
  simp [itemsOf, h]

end Items

end MuggleC.Foundation.Threads
