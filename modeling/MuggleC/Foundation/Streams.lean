/- digest: Loops that emit one symbol for each symbol they read, their inverses, and Feistel rounds. -/

import Mathlib.Data.List.Basic

namespace MuggleC.Foundation.Streams

variable {α β ε μ σ τ : Type}

/-- The symbols that a loop emits, and its state at the end. -/
def emit (f : σ → α → β × σ) : σ → List α → List β × σ
  | s, [] => ([], s)
  | s, a :: as => ((f s a).1 :: (emit f (f s a).2 as).1, (emit f (f s a).2 as).2)

def andThen (g : σ → List α → List β × σ) (s : σ) (as bs : List α) : List β × σ :=
  ((g s as).1 ++ (g (g s as).2 bs).1, (g (g s as).2 bs).2)

theorem length_emit (f : σ → α → β × σ) (s : σ) (as : List α) :
    (emit f s as).1.length = as.length := by
  induction as generalizing s with
  | nil => rfl
  | cons a as ih => exact congrArg (· + 1) (ih _)

theorem emit_append (f : σ → α → β × σ) (s : σ) (as bs : List α) :
    emit f s (as ++ bs) = andThen (emit f) s as bs := by
  induction as generalizing s with
  | nil => rfl
  | cons a as ih =>
    rw [List.cons_append, emit, ih]
    rfl

variable {f : σ → α → β × σ}

theorem emit_undo {g : σ → β → α × σ} (h : ∀ s a, g s (f s a).1 = (a, (f s a).2)) (s : σ)
    (as : List α) : emit g s (emit f s as).1 = (as, (emit f s as).2) := by
  induction as generalizing s with
  | nil => rfl
  | cons a as ih =>
    rw [emit, emit, h, ih]

theorem emit_positions {P : ℕ → σ → Prop} {g : ℕ → α → β}
    (h : ∀ p s a, P p s → (f s a).1 = g p a ∧ P (p + 1) (f s a).2) {p : ℕ} {s : σ} (hs : P p s)
    (as : List α) :
    (emit f s as).1 = as.mapIdx (fun i => g (p + i)) ∧ P (p + as.length) (emit f s as).2 := by
  induction as generalizing p s with
  | nil => exact ⟨rfl, hs⟩
  | cons a as ih =>
    obtain ⟨hout, hnext⟩ := h p s a hs
    obtain ⟨houts, hend⟩ := ih hnext
    have hshift : ∀ i, p + 1 + i = p + (i + 1) := fun i => by omega
    simp only [hshift] at houts hend
    rw [emit, List.mapIdx_cons, houts, hout]
    exact ⟨rfl, hend⟩

/-- One call for each piece; each call starts where the one before it ended. -/
def calls (f : σ → μ → Except ε (List β × σ)) : σ → List μ → Except ε (List β × σ)
  | s, [] => .ok ([], s)
  | s, c :: cs => do
    let r ← f s c
    let rest ← calls f r.2 cs
    pure (r.1 ++ rest.1, rest.2)

/-- Input can be cut into good parts. -/
structure Splits (good : List α → Prop) (g : σ → List α → List β × σ) : Prop where
  good_nil : good []
  good_append : ∀ as bs, good as → good bs → good (as ++ bs)
  nil : ∀ s, g s [] = ([], s)
  append : ∀ s as bs, good as → g s (as ++ bs) = andThen g s as bs

theorem splits_emit (f : σ → α → β × σ) : Splits (fun _ => True) (emit f) :=
  ⟨trivial, fun _ _ _ _ => trivial, fun _ => rfl, fun s as bs _ => emit_append f s as bs⟩

section Pieces

variable {good : List α → Prop} {g : σ → List α → List β × σ} (hg : Splits good g)
  {input : μ → List α} {cs : List μ} (hcs : ∀ c ∈ cs, good (input c))

include hg hcs

theorem Splits.good_flatMap : good (cs.flatMap input) := by
  induction cs with
  | nil => exact hg.good_nil
  | cons c cs ih =>
    have hrest := ih fun d hd => hcs d (List.mem_cons_of_mem c hd)
    exact hg.good_append _ _ (hcs c List.mem_cons_self) hrest

theorem calls_eq {f : τ → μ → Except ε (List β × τ)} {enc : σ → τ}
    (hf : ∀ s c, good (input c) → f (enc s) c = .ok ((g s (input c)).1, enc (g s (input c)).2))
    (s : σ) :
    calls f (enc s) cs = .ok ((g s (cs.flatMap input)).1, enc (g s (cs.flatMap input)).2) := by
  induction cs generalizing s with
  | nil =>
    rw [List.flatMap_nil, hg.nil]
    rfl
  | cons c cs ih =>
    have hc := hcs c List.mem_cons_self
    rw [calls, hf s c hc, List.flatMap_cons, hg.append s _ _ hc]
    change (calls f (enc (g s (input c)).2) cs >>= fun rest => _) = _
    rw [ih fun d hd => hcs d (List.mem_cons_of_mem c hd)]
    rfl

end Pieces

section Blocks

variable [Inhabited α] {n : Nat}

def block (n : Nat) (l : List α) : Vector α n := Vector.ofFn fun i => l.getD i default

def toBlocks (n : Nat) : Nat → List α → List (Vector α n)
  | 0, _ => []
  | len + 1, l => block n l :: toBlocks n len (l.drop n)

def join (bs : List (Vector α n)) : List α := bs.flatMap Vector.toList

theorem getElem_block (l : List α) {i : Nat} (hi : i < n) : (block n l)[i] = l.getD i default :=
  Vector.getElem_ofFn hi

theorem block_append (b : Vector α n) (l : List α) : block n (b.toList ++ l) = b := by
  ext i hi
  have hlen : i < b.toList.length := by rwa [Vector.length_toList]
  rw [getElem_block, List.getD_eq_getElem?_getD, List.getElem?_append_left hlen,
    List.getElem?_eq_getElem hlen]
  rfl

variable {l : List α}

theorem block_toList (h : n ≤ l.length) : (block n l).toList = l.take n := by
  refine List.ext_getElem ?_ ?_
  · rw [Vector.length_toList, List.length_take, Nat.min_eq_left h]
  · intro i hi _
    rw [Vector.length_toList] at hi
    rw [Vector.getElem_toList, getElem_block, List.getElem_take,
      List.getD_eq_getElem?_getD, List.getElem?_eq_getElem (Nat.lt_of_lt_of_le hi h)]
    rfl

theorem length_toBlocks (len : Nat) (l : List α) : (toBlocks n len l).length = len := by
  induction len generalizing l with
  | zero => rfl
  | succ len ih => exact congrArg (· + 1) (ih _)

omit [Inhabited α] in
theorem length_join (bs : List (Vector α n)) : (join bs).length = n * bs.length := by
  induction bs with
  | nil => rfl
  | cons b bs ih =>
    rw [join, List.flatMap_cons, List.length_append, Vector.length_toList, List.length_cons,
      Nat.mul_succ, Nat.add_comm]
    exact congrArg (· + n) ih

theorem toBlocks_join (bs : List (Vector α n)) : toBlocks n bs.length (join bs) = bs := by
  induction bs with
  | nil => rfl
  | cons b bs ih =>
    have hdrop : (b.toList ++ join bs).drop n = join bs := List.drop_left' Vector.length_toList
    change block n (b.toList ++ join bs) :: toBlocks n bs.length ((b.toList ++ join bs).drop n) = _
    rw [block_append, hdrop, ih]

theorem join_toBlocks {len : Nat} (h : l.length = n * len) : join (toBlocks n len l) = l := by
  induction len generalizing l with
  | zero => exact (List.eq_nil_of_length_eq_zero h).symm
  | succ len ih =>
    rw [Nat.mul_succ] at h
    have hdrop : (l.drop n).length = n * len := by
      rw [List.length_drop]
      omega
    change (block n l).toList ++ join (toBlocks n len (l.drop n)) = l
    rw [block_toList (by omega), ih hdrop, List.take_append_drop]

theorem toBlocks_append {k : Nat} {as : List α} (h : as.length = n * k) (len : Nat) (bs : List α) :
    toBlocks n (k + len) (as ++ bs) = toBlocks n k as ++ toBlocks n len bs := by
  induction k generalizing as with
  | zero =>
    obtain rfl := List.eq_nil_of_length_eq_zero h
    rw [Nat.zero_add]
    rfl
  | succ k ih =>
    rw [Nat.mul_succ] at h
    have hle : n ≤ as.length := by omega
    have hdrop : (as.drop n).length = n * k := by
      rw [List.length_drop]
      omega
    have hblock : block n (as ++ bs) = block n as := by
      have hsplit : as ++ bs = (block n as).toList ++ (as.drop n ++ bs) := by
        rw [block_toList hle, ← List.append_assoc, List.take_append_drop]
      rw [hsplit, block_append]
    rw [Nat.succ_add, toBlocks, hblock, List.drop_append_of_le_length hle, ih hdrop]
    rfl

/-- A loop over the whole blocks of an input. -/
def blockwise (f : σ → Vector α n → Vector β n × σ) (s : σ) (l : List α) : List β × σ :=
  (join (emit f s (toBlocks n (l.length / n) l)).1, (emit f s (toBlocks n (l.length / n) l)).2)

theorem splits_blockwise (hn : 0 < n) (f : σ → Vector α n → Vector β n × σ) :
    Splits (fun l => n ∣ l.length) (blockwise f) := by
  constructor
  · exact Nat.dvd_zero n
  · intro as bs has hbs
    rw [List.length_append]
    exact Nat.dvd_add has hbs
  · intro s
    rw [blockwise, List.length_nil, Nat.zero_div]
    rfl
  · intro s as bs ⟨k, hk⟩
    have hdiv : (as ++ bs).length / n = k + bs.length / n := by
      rw [List.length_append, hk, Nat.mul_add_div hn]
    have hk' : as.length / n = k := by rw [hk, Nat.mul_div_cancel_left k hn]
    rw [andThen, blockwise, hdiv, toBlocks_append hk, emit_append, blockwise, hk', blockwise, andThen,
      join, List.flatMap_append]
    rfl

theorem blockwise_undo [Inhabited β] (hn : 0 < n) {f : σ → Vector α n → Vector β n × σ}
    {g : σ → Vector β n → Vector α n × σ} (h : ∀ s a, g s (f s a).1 = (a, (f s a).2)) (s : σ)
    (hl : n ∣ l.length) : (blockwise f s l).1.length = l.length ∧
      blockwise g s (blockwise f s l).1 = (l, (blockwise f s l).2) := by
  obtain ⟨k, hk⟩ := hl
  obtain ⟨out, hout⟩ : ∃ out, out = (emit f s (toBlocks n k l)).1 := ⟨_, rfl⟩
  have hlen : out.length = k := by rw [hout, length_emit, length_toBlocks]
  have hf : blockwise f s l = (join out, (emit f s (toBlocks n k l)).2) := by
    rw [blockwise, hk, Nat.mul_div_cancel_left k hn, hout]
  have hjoin : (join out).length = n * k := by rw [length_join, hlen]
  rw [hf]
  refine ⟨hjoin.trans hk.symm, ?_⟩
  rw [blockwise, hjoin, Nat.mul_div_cancel_left k hn]
  nth_rewrite 1 3 [← hlen]
  rw [toBlocks_join, hout, emit_undo h, join_toBlocks hk]

end Blocks

end MuggleC.Foundation.Streams

namespace MuggleC.Foundation.Feistel

@[ext]
structure Halves (α : Type) where
  l : α
  h : α
  deriving DecidableEq, Repr

namespace Halves

variable {α : Type}

def swap (x : Halves α) : Halves α := ⟨x.h, x.l⟩

@[simp] theorem swap_swap (x : Halves α) : x.swap.swap = x := rfl

theorem swap_injective : Function.Injective (swap : Halves α → Halves α) :=
  Function.LeftInverse.injective swap_swap

theorem swap_eq_self {x : Halves α} (h : x.l = x.h) : x.swap = x :=
  Halves.ext h.symm h

end Halves

section Rounds

variable {w : ℕ} {κ : Type} (f : BitVec w → κ → BitVec w)

/-- One round: the high half becomes the low one, and the old low half, mixed with what the round
function makes of the high one, the new high one. -/
def round (x : Halves (BitVec w)) (k : κ) : Halves (BitVec w) := ⟨x.h, x.l ^^^ f x.h k⟩

def rounds (ks : List κ) (x : Halves (BitVec w)) : Halves (BitVec w) := ks.foldl (round f) x

@[simp] theorem rounds_cons (k : κ) (ks : List κ) (x : Halves (BitVec w)) :
    rounds f (k :: ks) x = rounds f ks (round f x k) := rfl

theorem rounds_append (ks ks' : List κ) (x : Halves (BitVec w)) :
    rounds f (ks ++ ks') x = rounds f ks' (rounds f ks x) :=
  List.foldl_append ..

theorem round_swap_round (x : Halves (BitVec w)) (k : κ) :
    round f (round f x k).swap k = x.swap := by
  apply Halves.ext
  · rfl
  · show x.l ^^^ f x.h k ^^^ f x.h k = x.l
    rw [BitVec.xor_assoc, BitVec.xor_self, BitVec.xor_zero]

theorem rounds_reverse (ks : List κ) (x : Halves (BitVec w)) :
    rounds f ks.reverse (rounds f ks x).swap = x.swap := by
  induction ks generalizing x with
  | nil => rfl
  | cons k ks ih =>
    rw [List.reverse_cons, rounds_append, rounds_cons f k ks, ih]
    exact round_swap_round f x k

theorem rounds_injective (ks : List κ) : Function.Injective (rounds f ks) := by
  intro x y h
  apply Halves.swap_injective
  rw [← rounds_reverse f ks x, ← rounds_reverse f ks y, h]

theorem rounds_palindrome (ks : List κ) {x : Halves (BitVec w)}
    (h : (rounds f ks x).l = (rounds f ks x).h) : rounds f (ks ++ ks.reverse) x = x.swap := by
  rw [rounds_append, ← rounds_reverse f ks x, Halves.swap_eq_self h]

end Rounds

/-- A block cipher around Feistel rounds: a block is taken apart before them and put together after
them, with nothing lost. -/
structure Network (β : Type) (w : ℕ) where
  split : β → Halves (BitVec w)
  merge : Halves (BitVec w) → β
  merge_split : ∀ b, merge (split b) = b
  split_merge : ∀ x, split (merge x) = x

namespace Network

variable {β κ : Type} {w : ℕ} (N : Network β w) (f : BitVec w → κ → BitVec w)

/-- One pass over a block. The halves are swapped before they are put together. -/
def crypt (ks : List κ) (b : β) : β := N.merge (rounds f ks (N.split b)).swap

theorem split_crypt (ks : List κ) (b : β) :
    N.split (N.crypt f ks b) = (rounds f ks (N.split b)).swap :=
  N.split_merge _

theorem merge_injective : Function.Injective N.merge :=
  Function.LeftInverse.injective N.split_merge

theorem crypt_reverse (ks : List κ) (b : β) : N.crypt f ks.reverse (N.crypt f ks b) = b := by
  rw [crypt, split_crypt, rounds_reverse, Halves.swap_swap, N.merge_split]

theorem crypt_crypt_crypt (ks₁ ks₂ ks₃ : List κ) (b : β) :
    N.crypt f ks₃ (N.crypt f ks₂ (N.crypt f ks₁ b)) =
      N.merge (rounds f ks₃ (rounds f ks₂ (rounds f ks₁ (N.split b)).swap).swap).swap := by
  rw [crypt, split_crypt, split_crypt]

theorem chained_eq_iff (ks₁ ks₂ ks₃ : List κ) (b : β) :
    N.merge (rounds f ks₃ (rounds f ks₂ (rounds f ks₁ (N.split b)))).swap =
        N.crypt f ks₃ (N.crypt f ks₂ (N.crypt f ks₁ b)) ↔
      N.crypt f ks₂ (N.merge (N.split (N.crypt f ks₁ b)).swap) =
        N.merge (N.split (N.crypt f ks₂ (N.crypt f ks₁ b))).swap := by
  rw [crypt_crypt_crypt, N.merge_injective.eq_iff, Halves.swap_injective.eq_iff,
    (rounds_injective f ks₃).eq_iff, split_crypt, split_crypt, split_crypt, crypt, N.split_merge,
    N.merge_injective.eq_iff, Halves.swap_swap, Halves.swap_swap]
  exact ⟨fun h => by rw [h, Halves.swap_swap], fun h => by rw [← h, Halves.swap_swap]⟩

theorem crypt_palindrome (ks : List κ) {b : β}
    (h : (rounds f ks (N.split b)).l = (rounds f ks (N.split b)).h) :
    N.crypt f (ks ++ ks.reverse) b = b := by
  rw [crypt, rounds_palindrome f ks h, Halves.swap_swap, N.merge_split]

end Network

end MuggleC.Foundation.Feistel
