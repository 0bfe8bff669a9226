/- digest: Programs that may get stuck, and those over a memory of blocks and some variables. -/

import Mathlib.Logic.Function.Basic

namespace MuggleC.Foundation.Program

/-- A program changes the state and returns a value, or gets stuck. -/
abbrev Prog (σ α : Type) := StateT σ Option α

variable {σ α β : Type}

def inspect (f : σ → Option α) : Prog σ α := fun s => (f s).map fun a => (a, s)

def transform (f : σ → Option σ) : Prog σ Unit := fun s => (f s).map fun s' => ((), s')

/-- The program does not get stuck, and ends with a value and a state as required. -/
def Ends (p : Prog σ α) (s : σ) (post : α → σ → Prop) : Prop :=
  ∃ a s', p.run s = some (a, s') ∧ post a s'

variable {s : σ} {post : β → σ → Prop}

theorem ends_pure {b : β} : Ends (pure b) s post ↔ post b s := by
  constructor
  · rintro ⟨b', s', he, h⟩
    cases he
    exact h
  · intro h
    exact ⟨b, s, rfl, h⟩

theorem ends_bind {p : Prog σ α} {f : α → Prog σ β} :
    Ends (p >>= f) s post ↔ Ends p s fun a s' => Ends (f a) s' post := by
  constructor
  · rintro ⟨b, t, he, h⟩
    obtain ⟨⟨a, s'⟩, hp, hf⟩ := Option.bind_eq_some_iff.mp he
    exact ⟨a, s', hp, b, t, hf, h⟩
  · rintro ⟨a, s', hp, b, t, hf, h⟩
    exact ⟨b, t, Option.bind_eq_some_iff.mpr ⟨(a, s'), hp, hf⟩, h⟩

theorem Ends.mono {p : Prog σ β} {post' : β → σ → Prop} (hp : Ends p s post)
    (h : ∀ b s', post b s' → post' b s') : Ends p s post' := by
  obtain ⟨b, s', he, hb⟩ := hp
  exact ⟨b, s', he, h b s' hb⟩

theorem run_bind_of_stuck {p : Prog σ α} (f : α → Prog σ β) (h : p.run s = none) :
    (p >>= f).run s = none := by
  change (p.run s).bind _ = none
  rw [h]
  rfl

theorem ends_inspect {f : σ → Option β} {b : β} (h : f s = some b) :
    Ends (inspect f) s post ↔ post b s := by
  have hrun : (inspect f).run s = some (b, s) := by
    change (f s).map _ = _
    rw [h]
    rfl
  constructor
  · rintro ⟨b', s', he, hb⟩
    cases hrun.symm.trans he
    exact hb
  · intro hb
    exact ⟨b, s, hrun, hb⟩

theorem ends_transform {f : σ → Option σ} {post : Unit → σ → Prop} {s' : σ} (h : f s = some s') :
    Ends (transform f) s post ↔ post () s' := by
  have hrun : (transform f).run s = some ((), s') := by
    change (f s).map _ = _
    rw [h]
    rfl
  constructor
  · rintro ⟨u, t, he, ht⟩
    cases hrun.symm.trans he
    exact ht
  · intro ht
    exact ⟨(), s', hrun, ht⟩

/-- On related states the program returns the same value and leaves related states, or gets stuck on
both. -/
def Respects (R : σ → σ → Prop) (p : Prog σ α) : Prop :=
  ∀ s t, R s t → Option.Rel (fun x y => x.1 = y.1 ∧ R x.2 y.2) (p.run s) (p.run t)

variable {R : σ → σ → Prop}

theorem respects_pure (a : α) : Respects R (pure a : Prog σ α) :=
  fun _ _ h => .some ⟨rfl, h⟩

theorem respects_bind {p : Prog σ α} {f : α → Prog σ β} (hp : Respects R p)
    (hf : ∀ a, Respects R (f a)) : Respects R (p >>= f) := by
  intro s t h
  change Option.Rel _ ((p.run s).bind fun x => (f x.1).run x.2)
    ((p.run t).bind fun x => (f x.1).run x.2)
  have hpst := hp s t h
  revert hpst
  generalize p.run s = x
  generalize p.run t = y
  rintro (⟨he, hR⟩ | _)
  · rw [Option.bind_some, Option.bind_some, he]
    exact hf _ _ _ hR
  · exact .none

theorem respects_inspect {f : σ → Option α} (h : ∀ s t, R s t → f s = f t) :
    Respects R (inspect f) := by
  intro s t hst
  change Option.Rel _ ((f s).map _) ((f t).map _)
  rw [h s t hst]
  cases f t with
  | none => exact .none
  | some a => exact .some ⟨rfl, hst⟩

theorem respects_transform {f : σ → Option σ} (h : ∀ s t, R s t → Option.Rel R (f s) (f t)) :
    Respects R (transform f) := by
  intro s t hst
  change Option.Rel _ ((f s).map _) ((f t).map _)
  have hf := h s t hst
  revert hf
  generalize f s = x
  generalize f t = y
  rintro (hR | _)
  · exact .some ⟨rfl, hR⟩
  · exact .none

theorem respects_ite {c : Prop} [Decidable c] {p q : Prog σ α} (hp : Respects R p)
    (hq : Respects R q) : Respects R (if c then p else q) := by
  split
  · exact hp
  · exact hq

end MuggleC.Foundation.Program

/-! A program gets stuck when it touches an address without a block. -/

namespace MuggleC.Foundation.Blocks

open Program Function

/-- The blocks of the memory, and the variables beside it. -/
structure Store (ι ν ρ : Type) where
  heap : ι → Option ν
  vars : ρ

variable {ι ν ρ α : Type}

def stuck : Prog (Store ι ν ρ) α := inspect fun _ => none

/-- The address that a pointer holds; following a null pointer gets stuck. -/
def deref (p : Option ι) : Prog (Store ι ν ρ) ι := inspect fun _ => p

def load (a : ι) : Prog (Store ι ν ρ) ν := inspect fun s => s.heap a

def get (f : ρ → α) : Prog (Store ι ν ρ) α := inspect fun s => some (f s.vars)

def Store.adjust (s : Store ι ν ρ) (f : ρ → ρ) : Store ι ν ρ := { s with vars := f s.vars }

def adjust (f : ρ → ρ) : Prog (Store ι ν ρ) Unit := transform fun s => some (s.adjust f)

/-- A field of the blocks, as a function of the address. -/
def field (g : ν → Option α) (s : Store ι ν ρ) (a : ι) : Option α := (s.heap a).bind g

section Write

variable [DecidableEq ι]

def Store.write (s : Store ι ν ρ) (a : ι) (n : Option ν) : Store ι ν ρ :=
  { s with heap := Function.update s.heap a n }

def create (a : ι) (n : ν) : Prog (Store ι ν ρ) Unit :=
  transform fun s => some (s.write a (some n))

def modify (a : ι) (f : ν → ν) : Prog (Store ι ν ρ) Unit :=
  transform fun s => (s.heap a).map fun n => s.write a (some (f n))

def release (a : ι) : Prog (Store ι ν ρ) Unit :=
  transform fun s => (s.heap a).map fun _ => s.write a none

end Write

variable {s : Store ι ν ρ} {a b : ι} {n : ν}

theorem ends_deref {post : ι → Store ι ν ρ → Prop} : Ends (deref (some a)) s post ↔ post a s :=
  ends_inspect rfl

theorem ends_load {post : ν → Store ι ν ρ → Prop} (h : s.heap a = some n) :
    Ends (load a) s post ↔ post n s := ends_inspect h

theorem ends_get {f : ρ → α} {post : α → Store ι ν ρ → Prop} :
    Ends (get f) s post ↔ post (f s.vars) s := ends_inspect rfl

variable {post : Unit → Store ι ν ρ → Prop} {f : ρ → ρ}

theorem ends_adjust :
    Ends (adjust f) s post ↔ post () (s.adjust f) := ends_transform rfl

variable {g : ν → Option α}

theorem field_eq (h : s.heap a = some n) : field g s a = g n := by
  rw [field, h]
  rfl

theorem field_adjust : field g (s.adjust f) = field g s := rfl

theorem ne_of_heap (hb : s.heap b = some n) (hfree : s.heap a = none) : b ≠ a := by
  rintro rfl
  rw [hfree] at hb
  cases hb

/-- The blocks are the same, and the variables are related. -/
structure Sharing (Q : ρ → ρ → Prop) (s t : Store ι ν ρ) : Prop where
  heap : s.heap = t.heap
  vars : Q s.vars t.vars

section Respects

variable {Q : ρ → ρ → Prop}

theorem respects_stuck : Respects (Sharing Q) (stuck : Prog (Store ι ν ρ) α) :=
  respects_inspect fun _ _ _ => rfl

theorem respects_deref (p : Option ι) : Respects (Sharing Q) (deref p : Prog (Store ι ν ρ) ι) :=
  respects_inspect fun _ _ _ => rfl

theorem respects_load (a : ι) : Respects (Sharing Q) (load a : Prog (Store ι ν ρ) ν) :=
  respects_inspect fun _ _ h => congrFun h.heap a

theorem respects_get {f : ρ → α} (hf : ∀ v w, Q v w → f v = f w) :
    Respects (Sharing Q) (get f : Prog (Store ι ν ρ) α) :=
  respects_inspect fun _ _ h => congrArg some (hf _ _ h.vars)

theorem respects_adjust {f : ρ → ρ} (hf : ∀ v w, Q v w → Q (f v) (f w)) :
    Respects (Sharing Q) (adjust f : Prog (Store ι ν ρ) Unit) :=
  respects_transform fun _ _ h => .some ⟨h.heap, hf _ _ h.vars⟩

variable [DecidableEq ι]

theorem Sharing.write {s t : Store ι ν ρ} (h : Sharing Q s t) (a : ι) (n : Option ν) :
    Sharing Q (s.write a n) (t.write a n) :=
  ⟨by rw [Store.write, Store.write, h.heap], h.vars⟩

theorem respects_create (a : ι) (n : ν) :
    Respects (Sharing Q) (create a n : Prog (Store ι ν ρ) Unit) :=
  respects_transform fun _ _ h => .some (h.write a (some n))

theorem respects_modify (a : ι) (f : ν → ν) :
    Respects (Sharing Q) (modify a f : Prog (Store ι ν ρ) Unit) := by
  refine respects_transform fun s t h => ?_
  rw [h.heap]
  cases t.heap a with
  | none => exact .none
  | some n => exact .some (h.write a (some (f n)))

theorem respects_release (a : ι) :
    Respects (Sharing Q) (release a : Prog (Store ι ν ρ) Unit) := by
  refine respects_transform fun s t h => ?_
  rw [h.heap]
  cases t.heap a with
  | none => exact .none
  | some n => exact .some (h.write a none)

end Respects

variable [DecidableEq ι]

theorem ends_create : Ends (create a n) s post ↔ post () (s.write a (some n)) := ends_transform rfl

theorem ends_modify {f : ν → ν} (h : s.heap a = some n) :
    Ends (modify a f) s post ↔ post () (s.write a (some (f n))) := by
  refine ends_transform ?_
  rw [h]
  rfl

theorem ends_release (h : s.heap a = some n) :
    Ends (release a) s post ↔ post () (s.write a none) := by
  refine ends_transform ?_
  rw [h]
  rfl

theorem heap_write_self {n : Option ν} : (s.write a n).heap a = n := update_self ..

theorem heap_write_of_ne {n : Option ν} (h : b ≠ a) : (s.write a n).heap b = s.heap b :=
  update_of_ne h _ _

theorem write_same (h : s.heap a = some n) : s.write a (some n) = s := by
  rw [Store.write, ← h, update_eq_self]

theorem exists_heap_write (h : ∃ m, s.heap b = some m) :
    ∃ m, (s.write a (some n)).heap b = some m := by
  by_cases hb : b = a
  · rw [hb, heap_write_self]
    exact ⟨n, rfl⟩
  · rw [heap_write_of_ne hb]
    exact h

theorem write_write (n n' : Option ν) : (s.write a n).write a n' = s.write a n' := by
  rw [Store.write, Store.write, Store.write, update_idem]

theorem write_comm (h : a ≠ b) (n n' : Option ν) :
    (s.write a n).write b n' = (s.write b n').write a n := by
  rw [Store.write, Store.write, Store.write, Store.write]
  rw [update_comm h]

theorem field_write {n : Option ν} : field g (s.write a n) = update (field g s) a (n.bind g) := by
  funext b
  by_cases h : b = a
  · rw [h, field, heap_write_self, update_self]
  · rw [field, heap_write_of_ne h, update_of_ne h]
    rfl

theorem field_write_of_keep (f : ν → ν) (h : s.heap a = some n)
    (hf : ∀ n, g (f n) = g n) : field g (s.write a (some (f n))) = field g s := by
  rw [field_write, Option.bind_some, hf, ← field_eq (g := g) h, update_eq_self]

end MuggleC.Foundation.Blocks
