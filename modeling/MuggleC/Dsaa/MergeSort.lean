/- source: dsaa/sort.c, dsaa/heap.c
   digest: Merge and insertion sort are stable, and which sorts stay inside the array. -/

import MuggleC.Dsaa.QuickSort

set_option autoImplicit false

namespace MuggleC.Dsaa.MergeSort

open Dsaa.Sorts Dsaa.QuickSort Foundation.OrderedMap Foundation.Slice List

variable {α : Type}

def leq (cmp : α → α → Int) (a b : α) : Bool := decide (cmp a b ≤ 0)

theorem leq_iff {cmp : α → α → Int} {a b : α} : leq cmp a b = true ↔ cmp a b ≤ 0 :=
  decide_eq_true_iff

def span (ptr : List α) (i last : Nat) : List α := slice ptr i (last + 1 - i)

section Span

variable {ptr : List α} {i last : Nat}

theorem length_span (h : last < ptr.length) : (span ptr i last).length = last + 1 - i := by
  rcases Nat.lt_or_ge last i with hlt | hle
  · rw [span, show last + 1 - i = 0 by omega, slice_zero]
    rfl
  · exact length_slice (by omega)

theorem span_of_lt (h : last < i) : span ptr i last = [] := by
  rw [span, show last + 1 - i = 0 by omega, slice_zero]

theorem span_cons {x : α} (hx : ptr[i]? = some x) (h : i ≤ last) :
    span ptr i last = x :: span ptr (i + 1) last := by
  rw [span, show last + 1 - i = last - i + 1 by omega, slice_succ hx, span,
    show last + 1 - (i + 1) = last - i by omega]

end Span

section Loops

variable {ptr : List α} {n : Nat}

theorem exists_cell {i : Nat} (h : i < ptr.length) : ∃ x, ptr[i]? = some x :=
  ⟨ptr.get ⟨i, h⟩, getElem?_eq_getElem h⟩

theorem add_one {i : Nat} (h : i + 1 < 2 ^ 64) : add i 1 = i + 1 := Nat.mod_eq_of_lt h

theorem copyRest_spec {last : Nat} (hlast : last < ptr.length) (hn : 8 * ptr.length < 2 ^ 64)
    (turns i idx : Nat) (arr : List α) (hidx : idx + (last + 1 - i) ≤ arr.length)
    (harr : 8 * arr.length < 2 ^ 64) (ht : last + 1 - i < turns) :
    copyRest ptr last turns i idx arr =
      .ok (idx + (last + 1 - i), overwrite arr idx (span ptr i last)) := by
  induction turns generalizing i idx arr with
  | zero => omega
  | succ turns ih =>
    by_cases hle : i ≤ last
    · obtain ⟨x, hx⟩ := exists_cell (by omega : i < ptr.length)
      rw [copyRest, if_pos hle, load_eq hx, ok_bind, store_eq (by omega), ok_bind,
        add_one (by omega), add_one (by omega), span_cons hx hle, overwrite_cons (by omega),
        ih (i + 1) (idx + 1) _ (by rw [length_set]; omega) (by rw [length_set]; exact harr)
          (by omega), show idx + 1 + (last + 1 - (i + 1)) = idx + (last + 1 - i) by omega]
    · rw [copyRest, if_neg hle, span_of_lt (by omega), overwrite_nil,
        show idx + (last + 1 - i) = idx by omega]

variable {right : Nat}

private theorem copyBack_spec {arr : List α} (hright : right < arr.length)
    (hn : 8 * arr.length < 2 ^ 64) (turns idx : Nat) {ptr : List α}
    (hlen : ptr.length = arr.length) (ht : right + 1 - idx < turns) :
    copyBack arr right turns idx ptr = .ok (overwrite ptr idx (span arr idx right)) := by
  induction turns generalizing idx ptr with
  | zero => omega
  | succ turns ih =>
    by_cases hle : idx ≤ right
    · obtain ⟨x, hx⟩ := exists_cell (by omega : idx < arr.length)
      rw [copyBack, if_pos hle, load_eq hx, ok_bind, store_eq (by omega), ok_bind,
        add_one (by omega), span_cons hx hle, overwrite_cons (by omega),
        ih (idx + 1) (by rw [length_set]; exact hlen) (by omega)]
    · rw [copyBack, if_neg hle, span_of_lt (by omega), overwrite_nil]

def rest (cmp : α → α → Int) (ptr : List α) (center right l r : Nat) : List α :=
  (span ptr l center).merge (span ptr r right) (leq cmp)

private theorem mergeCells_spec (cmp : α → α → Int) {center : Nat} (hcenter : center < ptr.length)
    (hright : right < ptr.length) (hn : 8 * ptr.length < 2 ^ 64) (turns l r idx : Nat)
    (arr : List α) (hidx : idx + (center + 1 - l) + (right + 1 - r) ≤ arr.length)
    (harr : 8 * arr.length < 2 ^ 64) (ht : (center + 1 - l) + (right + 1 - r) < turns) :
    ∃ l' r' idx' arr', mergeCells cmp ptr center right turns l r idx arr = .ok (l', r', idx', arr') ∧
      arr'.length = arr.length ∧ idx ≤ idx' ∧ ¬ (l' ≤ center ∧ r' ≤ right) ∧
      idx' + (center + 1 - l') + (right + 1 - r') = idx + (center + 1 - l) + (right + 1 - r) ∧
      overwrite arr' idx' (rest cmp ptr center right l' r') =
        overwrite arr idx (rest cmp ptr center right l r) := by
  induction turns generalizing l r idx arr with
  | zero => omega
  | succ turns ih =>
    by_cases hboth : l ≤ center ∧ r ≤ right
    · obtain ⟨x, hx⟩ := exists_cell (by omega : l < ptr.length)
      obtain ⟨y, hy⟩ := exists_cell (by omega : r < ptr.length)
      have hstep : ∀ z, (arr.set idx z).length = arr.length := fun z => length_set
      by_cases hle : cmp x y ≤ 0
      · obtain ⟨l', r', idx', arr', hrun, hlen, hidx', hend, hcount, hmerge⟩ :=
          ih (l + 1) r (idx + 1) (arr.set idx x) (by rw [hstep]; omega)
            (by rw [hstep]; exact harr) (by omega)
        refine ⟨l', r', idx', arr', ?_, hlen.trans (hstep x), by omega, hend, by omega, ?_⟩
        · rw [mergeCells, if_pos hboth, load_eq hx, ok_bind, load_eq hy, ok_bind, if_pos hle,
            store_eq (by omega), ok_bind, add_one (by omega), add_one (by omega), hrun]
        · rw [hmerge, ← overwrite_cons (by omega)]
          rw [rest, rest, span_cons hx hboth.1, span_cons hy hboth.2, cons_merge_cons,
            if_pos (leq_iff.mpr hle)]
      · obtain ⟨l', r', idx', arr', hrun, hlen, hidx', hend, hcount, hmerge⟩ :=
          ih l (r + 1) (idx + 1) (arr.set idx y) (by rw [hstep]; omega)
            (by rw [hstep]; exact harr) (by omega)
        refine ⟨l', r', idx', arr', ?_, hlen.trans (hstep y), by omega, hend, by omega, ?_⟩
        · rw [mergeCells, if_pos hboth, load_eq hx, ok_bind, load_eq hy, ok_bind, if_neg hle,
            store_eq (by omega), ok_bind, add_one (by omega), add_one (by omega), hrun]
        · rw [hmerge, ← overwrite_cons (by omega)]
          rw [rest, rest, span_cons hx hboth.1, span_cons hy hboth.2, cons_merge_cons,
            if_neg (mt leq_iff.mp hle)]
    · refine ⟨l, r, idx, arr, ?_, rfl, Nat.le_refl idx, hboth, rfl, rfl⟩
      rw [mergeCells, if_neg hboth]

private theorem mergeRuns_spec (cmp : α → α → Int) {center : Nat} (hcenter : center < ptr.length)
    (hright : right < ptr.length) (hn : 8 * ptr.length < 2 ^ 64) (turns l r idx : Nat)
    (arr : List α) (hidx : idx + (center + 1 - l) + (right + 1 - r) ≤ arr.length)
    (harr : 8 * arr.length < 2 ^ 64) (ht : (center + 1 - l) + (right + 1 - r) < turns) :
    mergeRuns cmp ptr center right turns l r idx arr =
      .ok (overwrite arr idx (rest cmp ptr center right l r)) := by
  obtain ⟨l', r', idx', arr', hrun, hlen, hidx', hend, hcount, hmerge⟩ :=
    mergeCells_spec cmp hcenter hright hn turns l r idx arr hidx harr ht
  have harr' : 8 * arr'.length < 2 ^ 64 := hlen ▸ harr
  have hleft : idx' + (span ptr l' center).length ≤ arr'.length := by
    rw [length_span hcenter]
    omega
  have hfirst := copyRest_spec hcenter hn turns l' idx' arr' (by omega) harr' (by omega)
  have hsecond := copyRest_spec hright hn turns r' (idx' + (center + 1 - l'))
    (overwrite arr' idx' (span ptr l' center)) (by rw [length_overwrite hleft]; omega)
    (by rw [length_overwrite hleft]; exact harr') (by omega)
  simp only [mergeRuns, hrun, ok_bind, hfirst, hsecond]
  rw [← hmerge, rest]
  rcases Nat.lt_or_ge center l' with hdone | hmore
  · rw [span_of_lt hdone, overwrite_nil, nil_merge, show idx' + (center + 1 - l') = idx' by omega]
  · rw [span_of_lt (by omega : right < r'), overwrite_nil, merge_right]

end Loops

section Recursion

variable (cmp : α → α → Int)

private theorem mergeSort_split {l : List α} (h : 2 ≤ l.length) :
    l.mergeSort (leq cmp) = ((l.take ((l.length + 1) / 2)).mergeSort (leq cmp)).merge
      ((l.drop ((l.length + 1) / 2)).mergeSort (leq cmp)) (leq cmp) := by
  match l, h with
  | a :: b :: xs, _ =>
    rw [List.mergeSort]
    simp only [List.MergeSort.Internal.splitInTwo, List.splitAt_eq]

variable {ptr : List α} {left right : Nat}

private theorem mergeSort_span (hlt : left < right) (hright : right < ptr.length) :
    (span ptr left right).mergeSort (leq cmp) =
      ((span ptr left ((left + right) / 2)).mergeSort (leq cmp)).merge
        ((span ptr ((left + right) / 2 + 1) right).mergeSort (leq cmp)) (leq cmp) := by
  have hlen : (span ptr left right).length = right + 1 - left := length_span hright
  have hhalf : (right + 1 - left + 1) / 2 = (left + right) / 2 + 1 - left := by omega
  have hsplit := slice_split ptr left ((left + right) / 2 + 1 - left) (right - (left + right) / 2)
  rw [mergeSort_split cmp (by omega), hlen, hhalf]
  rw [show (left + right) / 2 + 1 - left + (right - (left + right) / 2) = right + 1 - left by omega,
    show left + ((left + right) / 2 + 1 - left) = (left + right) / 2 + 1 by omega] at hsplit
  have hfirst : (slice ptr left ((left + right) / 2 + 1 - left)).length =
      (left + right) / 2 + 1 - left := length_slice (by omega)
  rw [span, hsplit, take_append_of_le_length (Nat.le_of_eq hfirst.symm),
    take_of_length_le (Nat.le_of_eq hfirst), drop_append_of_le_length
    (Nat.le_of_eq hfirst.symm), drop_of_length_le (Nat.le_of_eq hfirst), nil_append, span,
    span, show right + 1 - ((left + right) / 2 + 1) = right - (left + right) / 2 by omega]

theorem span_overwrite_self {l s : List α} (hright : right < l.length)
    (hs : s.length = right + 1 - left) (hle : left ≤ right) :
    span (overwrite l left s) left right = s := by
  rw [span, ← hs, slice_overwrite_self (by omega)]

structure Halves (ptr : List α) (left center right : Nat) (A B ptr' : List α) : Prop where
  length : ptr'.length = ptr.length
  first : span ptr' left center = A
  second : span ptr' (center + 1) right = B
  covered : ∀ s, s.length = right + 1 - left → overwrite ptr' left s = overwrite ptr left s

private theorem halves_of_overwrite {A B : List α} {center : Nat} (hright : right < ptr.length)
    (hA : A.length = center + 1 - left) (hB : B.length = right - center) (hleft : left ≤ center)
    (hcenter : center < right) :
    Halves ptr left center right A B (overwrite (overwrite ptr left A) (center + 1) B) := by
  have hlen : (overwrite ptr left A).length = ptr.length := length_overwrite (by omega)
  have hfits : center + 1 + B.length ≤ (overwrite ptr left A).length := by omega
  constructor
  · rw [length_overwrite hfits, hlen]
  · rw [span, slice_overwrite_of_disjoint hfits (.inl (by omega))]
    exact span_overwrite_self (by omega) hA hleft
  · exact span_overwrite_self (by omega) (by omega) (by omega)
  · intro s hs
    rw [overwrite_overwrite hfits (by omega) (by omega) (by omega),
      overwrite_overwrite (by omega) (by omega) (Nat.le_refl left) (by omega)]

private theorem merge_neighbours (ptr arr : List α) {center : Nat} (hleft : left ≤ center)
    (hcenter : center < right) (hright : right < ptr.length) (hlen : arr.length = ptr.length)
    (hn : 8 * ptr.length < 2 ^ 64) :
    ∃ arr', mergeRuns cmp ptr center right (ptr.length + 1) left (center + 1) left arr = .ok arr' ∧
      arr'.length = arr.length ∧ copyBack arr' right (ptr.length + 1) left ptr =
        .ok (overwrite ptr left ((span ptr left center).merge (span ptr (center + 1) right)
          (leq cmp))) := by
  have hrun := mergeRuns_spec cmp (by omega : center < ptr.length) hright hn (ptr.length + 1) left
    (center + 1) left arr (by omega) (hlen ▸ hn) (by omega)
  have hcount : (rest cmp ptr center right left (center + 1)).length = right + 1 - left := by
    rw [rest, length_merge, length_span (by omega), length_span hright]
    omega
  have hfits : left + (rest cmp ptr center right left (center + 1)).length ≤ arr.length := by omega
  have hlen' := length_overwrite hfits
  refine ⟨_, hrun, hlen', ?_⟩
  rw [copyBack_spec (by omega) (by rw [hlen', hlen]; exact hn) _ left (by omega) (by omega),
    span_overwrite_self (by omega) hcount (by omega)]
  rfl

private theorem recursive_single (arr : List α) (hleft : left < ptr.length)
    (depth : Nat) : mergeSortRecursive cmp (depth + 1) ptr arr left left =
      .ok (overwrite ptr left ((span ptr left left).mergeSort (leq cmp)), arr) := by
  obtain ⟨x, hx⟩ := exists_cell hleft
  have hone : span ptr left left = [x] := by
    rw [span_cons hx (Nat.le_refl left), span_of_lt (Nat.lt_succ_self left)]
  have hsame : overwrite ptr left (span ptr left left) = ptr := overwrite_slice (by omega)
  rw [mergeSortRecursive, if_neg (Nat.lt_irrefl left), hone, mergeSort_singleton, ← hone, hsame]

private theorem recursive_spec (m left right : Nat) (ptr arr : List α) (hle : left ≤ right)
    (hright : right < ptr.length) (hlen : arr.length = ptr.length) (hn : 8 * ptr.length < 2 ^ 64)
    (hm : right - left ≤ m) : ∃ arr', arr'.length = arr.length ∧ ∀ depth, m < depth →
      mergeSortRecursive cmp depth ptr arr left right =
        .ok (overwrite ptr left ((span ptr left right).mergeSort (leq cmp)), arr') := by
  induction m generalizing left right ptr arr with
  | zero =>
    obtain rfl : left = right := by omega
    refine ⟨arr, rfl, fun depth hd => ?_⟩
    obtain ⟨d, rfl⟩ : ∃ d, depth = d + 1 := ⟨depth - 1, by omega⟩
    exact recursive_single cmp arr hright d
  | succ m ih =>
    rcases Nat.eq_or_lt_of_le hle with rfl | hlt
    · refine ⟨arr, rfl, fun depth hd => ?_⟩
      obtain ⟨d, rfl⟩ : ∃ d, depth = d + 1 := ⟨depth - 1, by omega⟩
      exact recursive_single cmp arr hright d
    · obtain ⟨center, hcenter⟩ : ∃ center, center = (left + right) / 2 := ⟨_, rfl⟩
      obtain ⟨A, hA⟩ : ∃ A, A = (span ptr left center).mergeSort (leq cmp) := ⟨_, rfl⟩
      obtain ⟨B, hB⟩ : ∃ B, B = (span ptr (center + 1) right).mergeSort (leq cmp) := ⟨_, rfl⟩
      have hlenA : A.length = center + 1 - left := by
        rw [hA, length_mergeSort, length_span (by omega)]
      have hlenB : B.length = right - center := by
        rw [hB, length_mergeSort, length_span hright]
        omega
      -- the first call leaves the second half as it is
      have hptr₁ : (overwrite ptr left A).length = ptr.length := length_overwrite (by omega)
      have hhalf : span (overwrite ptr left A) (center + 1) right = span ptr (center + 1) right :=
        slice_overwrite_of_disjoint (by omega) (.inr (by omega))
      obtain ⟨arr₁, hlen₁, hrun₁⟩ := ih left center ptr arr (by omega) (by omega) hlen hn (by omega)
      obtain ⟨arr₂, hlen₂, hrun₂⟩ := ih (center + 1) right (overwrite ptr left A)
        arr₁ (by omega) (by omega) (by omega) (hptr₁ ▸ hn) (by omega)
      rw [← hA] at hrun₁
      rw [hhalf, ← hB] at hrun₂
      have hh := halves_of_overwrite hright hlenA hlenB
        (by omega : left ≤ center) (by omega : center < right)
      obtain ⟨ptr₂, hptr₂⟩ : ∃ ptr₂, ptr₂ = overwrite (overwrite ptr left A) (center + 1) B := ⟨_, rfl⟩
      rw [← hptr₂] at hrun₂ hh
      have hlen' := hh.length
      obtain ⟨arr₃, hmerge, hlen₃, hback⟩ := merge_neighbours cmp ptr₂ arr₂
        (by omega : left ≤ center) (by omega : center < right) (by omega) (by omega) (by omega)
      have hlenM : (A.merge B (leq cmp)).length = right + 1 - left := by
        rw [length_merge]
        omega
      rw [hh.first, hh.second, hh.covered _ hlenM, hA, hB, hcenter,
        ← mergeSort_span cmp hlt hright] at hback
      refine ⟨arr₃, by omega, fun depth hd => ?_⟩
      obtain ⟨d, rfl⟩ : ∃ d, depth = d + 1 := ⟨depth - 1, by omega⟩
      have hadd : add left right / 2 = center := by
        rw [add, Nat.mod_eq_of_lt (by omega), hcenter]
      simp only [mergeSortRecursive, if_pos hlt, hadd, add_one (by omega : center + 1 < 2 ^ 64),
        hrun₁ d (by omega), hrun₂ d (by omega), ok_bind, hmerge, hback]

theorem mergeSort_eq (ptr : PtrArray α) (hcount : 1 ≤ ptr.cells.length)
    (arr : Block α (pointerSize * ptr.cells.length % 2 ^ 64)) {depth : Nat}
    (hd : ptr.cells.length ≤ depth) :
    Sorts.mergeSort cmp depth ptr (some arr) = .ok (true, ptr.cells.mergeSort (leq cmp)) := by
  have hmem := ptr.addressable
  have hlen : arr.cells.length = ptr.cells.length := by
    rw [arr.size, Nat.mod_eq_of_lt hmem, Nat.mul_div_cancel_left _ (by decide)]
  unfold pointerSize at hmem
  have hlast : sub ptr.cells.length 1 = ptr.cells.length - 1 := by
    unfold sub
    omega
  obtain ⟨arr', _, hrun⟩ := recursive_spec cmp (ptr.cells.length - 1) 0 (ptr.cells.length - 1)
    ptr.cells arr.cells (Nat.zero_le _) (by omega) hlen hmem (by omega)
  have hwhole : span ptr.cells 0 (ptr.cells.length - 1) = ptr.cells := by
    rw [span, slice, drop_zero, take_of_length_le (by omega)]
  rw [hwhole, overwrite_all (length_mergeSort _)] at hrun
  simp only [Sorts.mergeSort, hlast, hrun depth (by omega), ok_bind]

end Recursion

section Stable

variable {cmp : α → α → Int}

/-- `l'` is `l` sorted, with elements that compare equal in their old order. -/
structure StableSort (cmp : α → α → Int) (l l' : List α) : Prop where
  perm : l'.Perm l
  sorted : l'.Pairwise fun a b => cmp a b ≤ 0
  stable : ∀ x, (l'.filter fun y => cmp x y = 0) = l.filter fun y => cmp x y = 0

theorem le_of_equal (hc : TotalOrder cmp) {a b x : α} (ha : cmp x a = 0) (hb : cmp x b = 0) :
    cmp a b ≤ 0 := by
  have := hc.swap x a
  exact hc.trans a x b (by omega) (by omega)

private theorem stableSort_mergeSort (hc : TotalOrder cmp) (l : List α) :
    StableSort cmp l (l.mergeSort (leq cmp)) := by
  have htrans : ∀ a b c, leq cmp a b = true → leq cmp b c = true → leq cmp a c = true := by
    intro a b c hab hbc
    exact leq_iff.mpr (hc.trans a b c (leq_iff.mp hab) (leq_iff.mp hbc))
  have htotal : ∀ a b, (leq cmp a b || leq cmp b a) = true := by
    intro a b
    have := hc.swap a b
    rw [Bool.or_eq_true, leq_iff, leq_iff]
    omega
  have hperm := mergeSort_perm l (leq cmp)
  refine ⟨hperm, (pairwise_mergeSort htrans htotal l).imp leq_iff.mp, ?_⟩
  intro x
  -- the elements that compare equal to `x` are sorted before, so they stay a subsequence
  have hequal : (l.filter fun y => cmp x y = 0).Pairwise fun a b => leq cmp a b = true := by
    rw [pairwise_filter]
    apply pairwise_of_forall
    intro a b ha hb
    rw [decide_eq_true_eq] at ha hb
    exact leq_iff.mpr (le_of_equal hc ha hb)
  have hsub := sublist_mergeSort htrans htotal hequal filter_sublist
  have hsub' := hsub.filter fun y => cmp x y = 0
  rw [filter_filter] at hsub'
  simp only [Bool.and_self] at hsub'
  exact (hsub'.eq_of_length ((hperm.filter _).length_eq.symm)).symm

def byFirst (a b : Int × Nat) : Int := a.1 - b.1

def five : PtrArray (Int × Nat) := ⟨[(2, 0), (1, 1), (2, 2), (0, 3), (1, 4)], by decide⟩

/-- Insertion sort returns the cells in stable order. -/
theorem insertionSort_sorts (hc : TotalOrder cmp) (ptr : PtrArray α) :
    ∃ cells, insertionSort cmp 0 ptr.cells.length ptr.cells = .ok cells ∧
      StableSort cmp ptr.cells cells := by
  rcases Nat.eq_zero_or_pos ptr.cells.length with h0 | hpos
  · refine ⟨[], ?_, ?_⟩ <;> rw [length_eq_zero_iff.mp h0]
    · rfl
    · exact ⟨.nil, .nil, fun _ => rfl⟩
  · obtain ⟨v, hv⟩ := exists_holds hpos
    obtain ⟨cells, w, hrun, hw, hex, hs⟩ :=
      insertionSort_spec hc 0 ptr.cells.length hv (Nat.zero_add _).le
    rw [Nat.zero_add] at hex hs
    refine ⟨cells, hrun, ?_⟩
    rw [hv.eq_map, hw.eq_map]
    refine ⟨hex.rearranges.perm (Nat.le_refl _), hs.pairwise, fun x => hex.filter_eq ?_⟩
    intro a b hlt
    by_contra hboth
    simp only [not_or, Bool.not_eq_false, decide_eq_true_eq] at hboth
    exact absurd (le_of_equal hc hboth.1 hboth.2) (Int.not_le.mpr hlt)

theorem insertionSort_sorts_five : ∃ cells,
    insertionSort byFirst 0 five.cells.length five.cells = .ok cells ∧
      StableSort byFirst five.cells cells :=
  insertionSort_sorts (totalOrder_sub Prod.fst) five

example : insertionSort byFirst 0 5 five.cells =
    .ok [(0, 3), (1, 1), (1, 4), (2, 0), (2, 2)] := by decide

end Stable

/-- Merge sort returns `false` and the array as it was, or `true` and the array in stable order. -/
theorem mergeSort_sorts (cmp : α → α → Int) (hc : TotalOrder cmp) (ptr : PtrArray α)
    (hcount : 1 ≤ ptr.cells.length)
    (arr : Option (Block α (pointerSize * ptr.cells.length % 2 ^ 64))) :
    ∃ ok cells, (∀ depth, ptr.cells.length ≤ depth →
      Sorts.mergeSort cmp depth ptr arr = .ok (ok, cells)) ∧
      ((ok = false ∧ arr = none ∧ cells = ptr.cells) ∨
        (ok = true ∧ arr.isSome ∧ StableSort cmp ptr.cells cells)) := by
  cases arr with
  | none => exact ⟨false, ptr.cells, fun _ _ => rfl, .inl ⟨rfl, rfl, rfl⟩⟩
  | some arr =>
    exact ⟨true, _, fun _ hd => mergeSort_eq cmp ptr hcount arr hd,
      .inr ⟨rfl, rfl, stableSort_mergeSort hc ptr.cells⟩⟩

def scratch : Block (Int × Nat) (pointerSize * five.cells.length % 2 ^ 64) :=
  ⟨List.replicate 5 (0, 0), by decide⟩

theorem mergeSort_sorts_five : ∃ ok cells, (∀ depth, 5 ≤ depth →
      Sorts.mergeSort byFirst depth five (some scratch) = .ok (ok, cells)) ∧
      ((ok = false ∧ some scratch = none ∧ cells = five.cells) ∨
        (ok = true ∧ (some scratch).isSome ∧ StableSort byFirst five.cells cells)) :=
  mergeSort_sorts byFirst (totalOrder_sub Prod.fst) five (by decide) (some scratch)

example : Sorts.mergeSort byFirst 5 five (some scratch) =
    .ok (true, [(0, 3), (1, 1), (1, 4), (2, 0), (2, 2)]) := by decide

end MuggleC.Dsaa.MergeSort

/-! Merge sort and quick sort compute the last index as `count - 1`, which for no cells is the
largest `size_t`. -/

namespace MuggleC.Dsaa.SortBounds

open Base Dsaa.HeapRuns Dsaa.HeapSort Dsaa.Sorts Foundation.OrderedMap Foundation.Slice

variable {κ : Type}

/-- No object is larger than `PTRDIFF_MAX` bytes. -/
def Limited (malloc : Nat → Nat → Bool) : Prop :=
  ∀ call bytes, malloc call bytes = true → bytes < 2 ^ 63

section Heap

variable {cmp : Option κ → Option κ → Int} (ho : TotalOrder cmp)

include ho

variable {malloc : Nat → Nat → Bool}

private theorem insertAll_isSome (hm : Limited malloc) (ptr : List (Option κ))
    (n i : Nat) {h : Heap κ Empty} (hi : Inv cmp h)
    (hsmall : Heap.nodeSize * (h.capacity + 1) < 2 ^ 63) (hn : i + n ≤ ptr.length) :
    ∃ replies h', insertAll cmp malloc ptr n i h = some (replies, h') ∧ Inv cmp h' ∧
      h.size ≤ h'.size ∧ (0 < n → 0 < h'.size) := by
  induction n generalizing i h with
  | zero => exact ⟨[], h, rfl, hi, Nat.le_refl _, fun h0 => absurd h0 (Nat.lt_irrefl 0)⟩
  | succ n ih =>
    obtain ⟨x, hx⟩ : ∃ x, ptr[i]? = some x := ⟨_, List.getElem?_eq_getElem (by omega)⟩
    obtain ⟨mem, hmem⟩ : ∃ mem, mem = malloc (i + 1) (heapBytes (h.capacity * 2 % 2 ^ 64)) := ⟨_, rfl⟩
    have hpos := hi.capacity_pos
    unfold Heap.nodeSize at hsmall
    obtain ⟨ok, h₁, hins, hinv, hfail, hdone⟩ := insert_spec ho hi x none mem
      (by unfold Heap.nodeSize; omega)
    have hsize : h.size ≤ h₁.size ∧ 0 < h₁.size := by
      cases ok with
      | true =>
        have hcard := congrArg Multiset.card (hdone rfl)
        rw [Multiset.card_cons, card_pairs, card_pairs] at hcard
        omega
      | false =>
        -- a heap that is not full refuses nothing
        by_cases hroom : h.size < h.capacity
        · obtain ⟨h₂, htrue, _⟩ := insert_of_room ho hi hroom x mem
          rw [htrue] at hins
          cases hins
        · rw [hfail rfl]
          omega
    have hsmall₁ : Heap.nodeSize * (h₁.capacity + 1) < 2 ^ 63 := by
      have hcap := insert_capacity hins
      unfold Heap.nodeSize
      split at hcap
      · rcases grownCapacity_cases h.capacity (h.capacity * 2 % 2 ^ 64) mem with hold | ⟨_, hgot, hnew⟩
        · omega
        · have hbytes := hm (i + 1) _ (hmem ▸ hgot)
          unfold heapBytes Heap.nodeSize at hbytes
          omega
      · omega
    obtain ⟨replies, h₂, hrun, hinv₂, hle, _⟩ := ih (i + 1) hinv hsmall₁ (by omega)
    refine ⟨ok :: replies, h₂, ?_, hinv₂, by omega, fun _ => by omega⟩
    simp only [insertAll, load_toOption hx, Option.bind_eq_bind, Option.bind_some, ← hmem, hins, hrun]

private theorem heapSort_isSome (hm : Limited malloc)
    (ptr : PtrArray (Option κ)) : ∃ r, heapSort cmp malloc ptr = some r := by
  have hlt := heapCapacity_lt ptr.cells.length
  rw [heapSort]
  split
  · exact ⟨_, rfl⟩
  · next h hi =>
    obtain ⟨_, hc, _, hinv⟩ := init_run cmp hlt hi
    have hsmall : Heap.nodeSize * (h.capacity + 1) < 2 ^ 63 := by
      rw [hc, Heap.nodeSize]
      split <;> omega
    obtain ⟨inserts, h₁, hins, hinv₁, _, hpos⟩ := insertAll_isSome ho hm ptr.cells
      ptr.cells.length 0 hinv hsmall (by omega)
    obtain ⟨extracts, h₂, keys, hext, hinv₂, _, _⟩ := extractAll_spec ho ptr.cells.length 0 none
      ptr.cells hinv₁ (by omega) (by omega)
    obtain ⟨d, hd⟩ := Option.isSome_iff_exists.mp (destroy_isSome hinv₂ false false)
    refine ⟨⟨true, overwrite ptr.cells 0 keys, inserts, extracts⟩, ?_⟩
    simp only [hins, Option.bind_eq_bind, Option.bind_some, hext, hd]

end Heap

section Empty

theorem error_ne_ok {β : Type} {e : Halt} {r : β} : Except.error e ≠ Except.ok r := nofun

theorem bind_not_ok {β γ : Type} {x : Except Halt β} (h : ∀ r, x ≠ .ok r) (f : β → Except Halt γ)
    (r : γ) : (x >>= f) ≠ .ok r := by
  cases x with
  | error e => exact error_ne_ok
  | ok y => exact absurd rfl (h y)

variable {α : Type} (cmp : α → α → Int)

theorem mergeRuns_nil (arr : List α) (r : List α) : mergeRuns cmp [] 0 1 1 0 1 0 arr ≠ .ok r :=
  bind_not_ok (fun _ => error_ne_ok) _ r

private theorem mergeSortRecursive_nil (depth : Nat) (arr : List α) {right : Nat} (hpos : 0 < right)
    (hlt : right < 2 ^ 64) (r : List α × List α) :
    mergeSortRecursive cmp depth [] arr 0 right ≠ .ok r := by
  induction depth generalizing right r with
  | zero => exact error_ne_ok
  | succ depth ih =>
    have hcenter : add 0 right / 2 = right / 2 := by
      unfold add
      omega
    rw [mergeSortRecursive, if_pos hpos]
    simp only [hcenter]
    by_cases hmore : 0 < right / 2
    · exact bind_not_ok (ih hmore (by omega)) _ r
    · obtain rfl : right = 1 := by omega
      cases depth with
      | zero => exact bind_not_ok (fun _ => error_ne_ok) _ r
      | succ depth =>
        change (mergeRuns cmp [] 0 1 1 0 1 0 arr >>= fun arr =>
          copyBack arr 1 1 0 [] >>= fun ptr => Except.ok (ptr, arr)) ≠ _
        exact bind_not_ok (mergeRuns_nil cmp arr) _ r

private theorem quickSortRecursive_nil (depth : Nat) (r : List α × List ScanRead) :
    quickSortRecursive cmp depth [] 0 (2 ^ 64 - 1) ≠ .ok r := by
  cases depth with
  | zero => exact error_ne_ok
  | succ depth =>
    exact bind_not_ok (fun _ => error_ne_ok) _ r

end Empty

/-- The functions of `sort.h`. -/
inductive Algorithm
  | insertion
  | shell
  | heap
  | merge
  | quick
  deriving DecidableEq, Repr

/-- Enough turns let the sort return, and no index is outside the array. -/
def Completes (cmp : Option κ → Option κ → Int) (malloc : Nat → Nat → Bool)
    (ptr : PtrArray (Option κ))
    (arr : Option (Block (Option κ) (pointerSize * ptr.cells.length % 2 ^ 64))) : Algorithm → Prop
  | .insertion => ∃ cells, insertionSort cmp 0 ptr.cells.length ptr.cells = .ok cells
  | .shell => ∃ bound cells, ∀ turns, bound ≤ turns → shellSort cmp turns ptr = .ok cells
  | .heap => ∃ r, heapSort cmp malloc ptr = some r
  | .merge => ∃ bound r, ∀ depth, bound ≤ depth → mergeSort cmp depth ptr arr = .ok r
  | .quick => ∃ bound r, ∀ depth, bound ≤ depth → quickSort cmp depth ptr = .ok r

/-- Merge sort and quick sort need a cell, unless merge sort gets no memory. -/
def Proper (ptr : PtrArray (Option κ))
    (arr : Option (Block (Option κ) (pointerSize * ptr.cells.length % 2 ^ 64))) : Algorithm → Prop
  | .merge => 1 ≤ ptr.cells.length ∨ arr = none
  | .quick => 1 ≤ ptr.cells.length
  | _ => True

variable {cmp : Option κ → Option κ → Int}

private theorem insertionSort_completes (ho : TotalOrder cmp) (ptr : PtrArray (Option κ)) :
    ∃ cells, insertionSort cmp 0 ptr.cells.length ptr.cells = .ok cells := by
  rcases Nat.eq_zero_or_pos ptr.cells.length with h0 | hpos
  · rw [h0]
    exact ⟨ptr.cells, rfl⟩
  · obtain ⟨v, hv⟩ := QuickSort.exists_holds hpos
    obtain ⟨cells, w, hrun, _⟩ :=
      QuickSort.insertionSort_spec ho 0 ptr.cells.length hv (by omega)
    exact ⟨cells, hrun⟩

theorem mergeSort_completes_iff (cmp : Option κ → Option κ → Int) (ptr : PtrArray (Option κ))
    (arr : Option (Block (Option κ) (pointerSize * ptr.cells.length % 2 ^ 64))) :
    (∃ bound r, ∀ depth, bound ≤ depth → mergeSort cmp depth ptr arr = .ok r) ↔
      1 ≤ ptr.cells.length ∨ arr = none := by
  constructor
  · rintro ⟨bound, r, hrun⟩
    by_contra hnot
    obtain ⟨hcount, harr⟩ := not_or.mp hnot
    obtain ⟨block, rfl⟩ := Option.ne_none_iff_exists'.mp harr
    have hnil : ptr.cells = [] := List.length_eq_zero_iff.mp (by omega)
    have hlast : sub 0 1 = 2 ^ 64 - 1 := by decide
    have hbad := hrun bound (Nat.le_refl bound)
    simp only [mergeSort, hnil, List.length_nil, hlast] at hbad
    exact bind_not_ok (mergeSortRecursive_nil cmp bound block.cells (by decide) (by decide)) _ _ hbad
  · intro hok
    rcases Nat.eq_zero_or_pos ptr.cells.length with h0 | hpos
    · obtain rfl := hok.resolve_left (by omega)
      exact ⟨0, _, fun _ _ => rfl⟩
    · cases arr with
      | none => exact ⟨0, _, fun _ _ => rfl⟩
      | some block =>
        exact ⟨ptr.cells.length, _, fun _ hd => MergeSort.mergeSort_eq cmp ptr hpos block hd⟩

private theorem quickSort_completes_iff (ho : TotalOrder cmp) (ptr : PtrArray (Option κ)) :
    (∃ bound r, ∀ depth, bound ≤ depth → quickSort cmp depth ptr = .ok r) ↔
      1 ≤ ptr.cells.length := by
  constructor
  · rintro ⟨bound, r, hrun⟩
    by_contra hcount
    have hnil : ptr.cells = [] := List.length_eq_zero_iff.mp (by omega)
    have hlast : sub 0 1 = 2 ^ 64 - 1 := by decide
    have hbad := hrun bound (Nat.le_refl bound)
    rw [quickSort, hnil, List.length_nil, hlast] at hbad
    exact quickSortRecursive_nil cmp bound r hbad
  · intro hpos
    obtain ⟨v, hv⟩ := QuickSort.exists_holds hpos
    have hmem := ptr.addressable
    have hlast : sub ptr.cells.length 1 = ptr.cells.length - 1 := by
      unfold pointerSize at hmem
      unfold sub
      omega
    obtain ⟨cells, scans, _, hrun, _⟩ := QuickSort.recursive_sorts ho (ptr.cells.length - 1) 0
      (ptr.cells.length - 1) hv (Nat.zero_le _) (by omega) hmem (by omega)
    refine ⟨ptr.cells.length, (cells, scans), fun depth hd => ?_⟩
    rw [quickSort, hlast]
    exact hrun depth (by omega)

/-- Each sort returns without leaving the array just where it has the cells that it needs. -/
theorem sort_completes_iff (cmp : Option κ → Option κ → Int) (ho : TotalOrder cmp)
    (malloc : Nat → Nat → Bool) (hm : Limited malloc) (ptr : PtrArray (Option κ))
    (arr : Option (Block (Option κ) (pointerSize * ptr.cells.length % 2 ^ 64))) (sort : Algorithm) :
    Completes cmp malloc ptr arr sort ↔ Proper ptr arr sort := by
  cases sort with
  | insertion => exact iff_of_true (insertionSort_completes ho ptr) trivial
  | shell =>
    obtain ⟨cells, hrun, _⟩ := ShellSort.shellSort_spec cmp ptr
    exact iff_of_true ⟨ptr.cells.length + 1, cells, hrun⟩ trivial
  | heap => exact iff_of_true (heapSort_isSome ho hm ptr) trivial
  | merge => exact mergeSort_completes_iff cmp ptr arr
  | quick => exact quickSort_completes_iff ho ptr

def twelve : PtrArray (Option Nat) :=
  ⟨[some 5, some 1, none, some 3, some 5, some 5, some 2, some 8, some 9, some 5, none, some 4],
    by decide⟩

theorem sort_completes_iff_twelve :
    Proper twelve none .quick ∧ Completes byNumber (fun _ bytes => bytes < 2 ^ 63) twelve none .quick :=
  have hproper : 1 ≤ twelve.cells.length := by decide
  ⟨hproper, (sort_completes_iff byNumber byNumber_total (fun _ bytes => bytes < 2 ^ 63)
    (fun _ _ h => of_decide_eq_true h) twelve none .quick).mpr hproper⟩

def noCells : PtrArray (Option Nat) := ⟨[], by decide⟩

theorem no_cells_read_outside :
    mergeSort byNumber 65 noCells (some ⟨[], by decide⟩) = .error (.outside 0) ∧
      quickSort byNumber 1 noCells = .error (.outside 0) := by
  constructor
  · decide +kernel
  · decide +kernel

end MuggleC.Dsaa.SortBounds
