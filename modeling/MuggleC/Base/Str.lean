/- source: base/str.c
   digest: Strings: what is no blank, how they begin and end, finding a substring, and numbers. -/

import Mathlib.Algebra.Ring.Int.Defs
import Mathlib.Algebra.Ring.Nat
import Mathlib.Data.List.TakeWhile
import MuggleC.Foundation.Packing

set_option autoImplicit false

namespace MuggleC.Base

open List

/-- The characters of a C string, without its terminator. -/
abbrev Str := List Char

/-- A number as an `int` of 32 bits. -/
def toInt (n : Int) : Int := n.bmod (2 ^ 32)

theorem toInt_le (n : ℕ) : toInt n ≤ n := by
  simp only [toInt, Int.bmod_def]
  omega

theorem toInt_eq_self {n : Int} : toInt n = n ↔ -2 ^ 31 ≤ n ∧ n < 2 ^ 31 := by
  simp only [toInt, Int.bmod_def]
  omega

namespace Str

variable {s pre post : Str} {c : Char} {strLen idx : Int} {n k : ℕ}

def isspace (c : Char) : Bool :=
  c = ' ' || c = '\t' || c = '\n' || c = '\x0b' || c = '\x0c' || c = '\r'

def Blank (s : Str) : Prop := ∀ c ∈ s, isspace c = true

instance : DecidablePred Blank := fun s => inferInstanceAs (Decidable (∀ c ∈ s, isspace c = true))

/-- The loop of `muggle_str_lstrip_idx`, on the characters from `idx` on: behind the last one it
reads the terminator, which is no blank. -/
def lstripLoop (strLen : Int) : Str → Int → Int
  | [], idx => idx
  | c :: rest, idx =>
    if isspace c then
      if strLen ≤ idx + 1 then -1 else lstripLoop strLen rest (idx + 1)
    else idx

def lstripIdx (s : Str) : Int := lstripLoop (toInt s.length) s 0

/-- The loop of `muggle_str_rstrip_idx` at the index before `n`; it ends without a result where it
reads outside the string. -/
def rstripLoop (s : Str) : ℕ → Option Int
  | 0 => none
  | n + 1 => do
    let c ← (s ++ ['\x00'])[n]?
    if isspace c then
      if n = 0 then some (-1) else rstripLoop s n
    else some n

-- a negative `str_len` puts the first index before the string as well
def rstripIdx (s : Str) : Option Int := rstripLoop s (toInt s.length).toNat

def nonblanks (s : Str) : Set ℕ := {i | ∃ c, s[i]? = some c ∧ isspace c = false}

/-- What is asked of the index of the first character that is no blank. -/
def IsFirst (s : Str) (i : Int) : Prop :=
  (∃ k : ℕ, i = k ∧ IsLeast (nonblanks s) k) ∨ (i = -1 ∧ Blank s)

def IsLast (s : Str) (i : Int) : Prop :=
  (∃ k : ℕ, i = k ∧ IsGreatest (nonblanks s) k) ∨ (i = -1 ∧ Blank s)

theorem lstripLoop_found (hpre : Blank pre) (hc : isspace c = false)
    (hidx : pre = [] ∨ idx + pre.length < strLen) :
    lstripLoop strLen (pre ++ c :: post) idx = idx + pre.length := by
  induction pre generalizing idx with
  | nil => simp [lstripLoop, hc]
  | cons a pre ih =>
    have ha : isspace a = true := hpre a (by simp)
    have hlen : idx + 1 + pre.length < strLen := by
      simp only [reduceCtorEq, false_or, length_cons] at hidx
      omega
    rw [cons_append, lstripLoop, if_pos ha, if_neg (by omega),
      ih (fun b hb => hpre b (by simp [hb])) (.inr hlen), length_cons]
    omega

theorem lstripLoop_stop (hpre : Blank pre) (hne : pre ≠ []) (hidx : strLen ≤ idx + pre.length) :
    lstripLoop strLen (pre ++ post) idx = -1 := by
  induction pre generalizing idx with
  | nil => exact absurd rfl hne
  | cons a pre ih =>
    rw [cons_append, lstripLoop, if_pos (hpre a (by simp))]
    split
    · rfl
    · rename_i hlen
      have hpre' : pre ≠ [] := by
        rintro rfl
        simp at hidx
        omega
      exact ih (fun b hb => hpre b (by simp [hb])) hpre' (by simp at hidx; omega)

theorem exists_first (h : ¬ Blank s) :
    ∃ pre c post, s = pre ++ c :: post ∧ Blank pre ∧ isspace c = false := by
  induction s with
  | nil => exact absurd (by simp [Blank]) h
  | cons a s ih =>
    by_cases ha : isspace a = true
    · obtain ⟨pre, c, post, rfl, hpre, hc⟩ := ih fun hs => h (by simpa [Blank, ha] using hs)
      exact ⟨a :: pre, c, post, rfl, by simpa [Blank, ha] using hpre, hc⟩
    · exact ⟨[], a, s, rfl, by simp [Blank], by simpa using ha⟩

private theorem isLeast_nonblanks (hpre : Blank pre) (hc : isspace c = false) :
    IsLeast (nonblanks (pre ++ c :: post)) pre.length := by
  refine ⟨⟨c, by simp, hc⟩, ?_⟩
  rintro i ⟨d, hd, hdc⟩
  by_contra! hlt
  rw [getElem?_append_left hlt] at hd
  simp [hpre d (mem_of_getElem? hd)] at hdc

theorem lstripIdx_eq_neg_one (hs : s ≠ []) :
    lstripIdx s = -1 ↔ Blank (s.take (max 1 (toInt s.length).toNat)) := by
  have hle := toInt_le s.length
  have hpos := length_pos_iff.mpr hs
  set m := max 1 (toInt s.length).toNat with hm
  constructor
  · intro h
    by_contra hblank
    obtain ⟨pre, c, post, htake, hpre, hc⟩ := exists_first hblank
    have hlen : pre.length < m := by
      have := congrArg length htake
      simp at this
      omega
    rw [lstripIdx, ← take_append_drop m s, htake, append_assoc, cons_append,
      lstripLoop_found hpre hc] at h
    · omega
    · rw [← cons_append, ← append_assoc, ← htake, take_append_drop, ← length_eq_zero_iff]
      omega
  · intro hblank
    have hne : s.take m ≠ [] := by
      rw [← length_pos_iff, length_take]
      omega
    have := @lstripLoop_stop _ (s.drop m) (toInt s.length) 0 hblank hne (by rw [length_take]; omega)
    rwa [take_append_drop] at this

private theorem rstripLoop_found (hc : s[k]? = some c) (hcb : isspace c = false) (hkn : k < n)
    (hn : n ≤ s.length) (hblank : ∀ i d, k < i → i < n → s[i]? = some d → isspace d = true) :
    rstripLoop s n = some k := by
  induction n with
  | zero => omega
  | succ n ih =>
    have hget : (s ++ ['\x00'])[n]? = s[n]? := getElem?_append_left (by omega)
    obtain rfl | hlt := (Nat.le_of_lt_succ hkn).eq_or_lt
    · simp [rstripLoop, hget, hc, hcb]
    · have hd : isspace s[n] = true := hblank n _ hlt (by omega) (getElem?_eq_getElem hn)
      have hrest := ih hlt (by omega) fun i d hki hin => hblank i d hki (by omega)
      simp [rstripLoop, hget, getElem?_eq_getElem hn, hd, hrest, Nat.ne_zero_of_lt hlt]

private theorem rstripLoop_blank (hpos : 0 < n) (hn : n ≤ s.length) (hblank : Blank s) :
    rstripLoop s n = some (-1) := by
  induction n with
  | zero => omega
  | succ n ih =>
    have hget : (s ++ ['\x00'])[n]? = some s[n] := by
      rw [getElem?_append_left (by omega), getElem?_eq_getElem hn]
    have hd : isspace s[n] = true := hblank _ (getElem_mem _)
    simp only [rstripLoop, hget, Option.bind_eq_bind, Option.bind_some, hd, if_true]
    split
    · rfl
    · exact ih (by omega) (by omega)

private theorem rstripLoop_lt {i : Int} (h : rstripLoop s n = some i) : i < n := by
  induction n with
  | zero => simp [rstripLoop] at h
  | succ n ih =>
    simp only [rstripLoop, Option.bind_eq_bind, Option.bind_eq_some_iff] at h
    obtain ⟨c, -, h⟩ := h
    split_ifs at h
    · simp at h
      omega
    · have := ih h
      omega
    · simp at h
      omega

private theorem isGreatest_nonblanks (hc : isspace c = false) (hpost : Blank post) :
    IsGreatest (nonblanks (pre ++ c :: post)) pre.length := by
  refine ⟨⟨c, by simp, hc⟩, ?_⟩
  rintro i ⟨d, hd, hdc⟩
  by_contra! hlt
  obtain ⟨j, rfl⟩ := Nat.exists_eq_add_of_lt hlt
  rw [getElem?_append_right (by omega), show pre.length + j + 1 - pre.length = j + 1 by omega,
    getElem?_cons_succ] at hd
  simp [hpost d (mem_of_getElem? hd)] at hdc

private theorem exists_last (h : ¬ Blank s) :
    ∃ pre c post, s = pre ++ c :: post ∧ isspace c = false ∧ Blank post := by
  obtain ⟨post, c, pre, hrev, hpost, hc⟩ :=
    exists_first (s := s.reverse) fun hb => h fun c hc => hb c (by simpa using hc)
  refine ⟨pre.reverse, c, post.reverse, ?_, hc, fun d hd => hpost d (by simpa using hd)⟩
  simpa using congrArg reverse hrev

/-- Both indices are right, and found inside the string, exactly when its length as an `int` is
positive and nothing but blanks stands behind that many characters. -/
theorem strip_idx_iff (s : Str) :
    (IsFirst s (lstripIdx s) ∧ ∃ i, rstripIdx s = some i ∧ IsLast s i) ↔
      0 < toInt s.length ∧ Blank (s.drop (toInt s.length).toNat) := by
  have hle := toInt_le s.length
  set m := (toInt s.length).toNat with hm
  constructor
  · rintro ⟨-, i, hi, hlast⟩
    have hpos : 0 < m := by
      by_contra hz
      rw [rstripIdx, ← hm, Nat.eq_zero_of_not_pos hz] at hi
      simp [rstripLoop] at hi
    refine ⟨by omega, fun c hc => ?_⟩
    by_contra hcb
    -- a character behind place `m` would be the last one, but the scan starts before it
    obtain ⟨j, hj⟩ := mem_iff_getElem?.mp hc
    rw [getElem?_drop] at hj
    rcases hlast with ⟨k, rfl, -, hk⟩ | ⟨-, hblank⟩
    · have := rstripLoop_lt hi
      have := hk ⟨c, hj, by simpa using hcb⟩
      omega
    · exact hcb (hblank c (mem_of_getElem? hj))
  · rintro ⟨hpos, hdrop⟩
    have hne : s ≠ [] := by
      rintro rfl
      simp [toInt] at hpos
    by_cases hblank : Blank s
    · exact ⟨.inr ⟨(lstripIdx_eq_neg_one hne).mpr fun c hc => hblank c (mem_of_mem_take hc),
        hblank⟩, -1, rstripLoop_blank (by omega) (by omega) hblank, .inr ⟨rfl, hblank⟩⟩
    · -- what is not blank lies before place `m`
      have hbefore : ∀ {pre c post}, s = pre ++ c :: post → isspace c = false → pre.length < m := by
        rintro pre c post rfl hc
        by_contra! hmle
        have hmem : c ∈ (pre ++ c :: post).drop m := mem_iff_getElem?.mpr
          ⟨pre.length - m, by rw [getElem?_drop]; simp [hmle]⟩
        simp [hdrop c hmem] at hc
      constructor
      · obtain ⟨pre, c, post, hs, hpre, hc⟩ := exists_first hblank
        have hlt := hbefore hs hc
        refine .inl ⟨pre.length, ?_, hs ▸ isLeast_nonblanks hpre hc⟩
        rw [lstripIdx]
        conv_lhs => rw [hs]
        rw [lstripLoop_found hpre hc (.inr (by rw [← hs]; omega)), Int.zero_add]
      · obtain ⟨pre, c, post, hs, hc, hpost⟩ := exists_last hblank
        have hgreatest : IsGreatest (nonblanks s) pre.length := hs ▸ isGreatest_nonblanks hc hpost
        refine ⟨pre.length, rstripLoop_found (by simp [hs]) hc (hbefore hs hc) (by omega)
          fun i d hki _ hd => ?_, .inl ⟨_, rfl, hgreatest⟩⟩
        by_contra hdb
        have := hgreatest.2 ⟨d, hd, by simpa using hdb⟩
        omega

theorem strip_idx_empty : lstripIdx [] = 0 ∧ ¬ IsFirst [] (lstripIdx []) ∧ rstripIdx [] = none := by
  refine ⟨rfl, ?_, rfl⟩
  rintro (⟨k, -, ⟨c, hc, -⟩, -⟩ | ⟨h, -⟩)
  · simp at hc
  · simp [lstripIdx, lstripLoop] at h

/-- The body that `muggle_str_startswith` and `muggle_str_endswith` share; `char s i` is the character
that turn `i` of the loop compares. -/
def sameChars (char : Str → ℕ → Option Char) (str sub : Str) : Bool :=
  if str.length < sub.length then false
  else if (range sub.length).any fun i => char str i ≠ char sub i then false
  else if str.length ≠ 0 ∧ sub.length = 0 then false
  else true

def startswith : Str → Str → Bool := sameChars fun s i => s[i]?

def endswith : Str → Str → Bool := sameChars fun s i => s[s.length - 1 - i]?

private theorem sameChars_iff {char : Str → ℕ → Option Char} {str sub : Str} {r : Str → Str}
    (hr : ∀ s : Str, (r s).length = s.length)
    (hchar : ∀ (s : Str) i, i < s.length → char s i = (r s)[i]?) :
    sameChars char str sub ↔ r sub <+: r str ∧ (sub = [] → str = []) := by
  have hpre : r sub <+: r str ↔ sub.length ≤ str.length ∧
      ∀ i < sub.length, char str i = char sub i := by
    constructor
    · intro hp
      have hle := hp.length_le
      rw [hr, hr] at hle
      obtain ⟨t, ht⟩ := hp
      refine ⟨hle, fun i hi => ?_⟩
      rw [hchar _ i hi, hchar _ i (by omega), ← ht, getElem?_append_left (by rwa [hr])]
    · rintro ⟨hle, hp⟩
      refine prefix_iff_getElem?.mpr fun i hi => ?_
      rw [hr] at hi
      rw [← hchar _ i (by omega), hp i hi, hchar _ i hi, getElem?_eq_getElem]
  rw [hpre, sameChars]
  split_ifs <;> grind [length_eq_zero_iff, any_eq_true]

/-- They tell how a string begins and ends, except that an empty string is found only in an empty
one. -/
theorem starts_and_ends_iff (str sub : Str) :
    (startswith str sub ↔ sub <+: str ∧ (sub = [] → str = [])) ∧
      (endswith str sub ↔ sub <:+ str ∧ (sub = [] → str = [])) := by
  rw [← reverse_prefix]
  exact ⟨sameChars_iff (r := id) (fun _ => rfl) fun _ _ _ => rfl,
    sameChars_iff (fun _ => length_reverse) fun _ _ hi => (getElem?_reverse hi).symm⟩

end Str

end MuggleC.Base

namespace MuggleC.Base.Str

open Foundation.Packing

variable {s sub : Str} {p b e : ℕ}

/-- The place of the first occurrence, of the C library. -/
def strstr (sub : Str) : Str → Option ℕ
  | [] => if sub = [] then some 0 else none
  | c :: s => if sub.isPrefixOf (c :: s) then some 0 else (strstr sub s).map (· + 1)

/-- The part of the string that `start` and `end` name; `none` where the functions return early. -/
def window (strLen : ℕ) (start end_ : Int) : Option (ℕ × ℕ) :=
  if start < 0 ∨ end_ < 0 then none
  else if strLen ≤ start then none
  else
    let end_ := if end_ = 0 then toInt strLen else end_
    let end_ := if end_ > toInt strLen then toInt strLen else end_
    if end_ ≤ start then none else some (start.toNat, end_.toNat)

def find (s sub : Str) (start end_ : Int) : Int :=
  match window s.length start end_ with
  | none => -1
  | some (b, e) =>
    match strstr sub (s.drop b) with
    | none => -1
    | some p => if b + p + sub.length > e then -1 else toInt (b + p : ℕ)

/-- The loop of `muggle_str_count`, of which as many turns are run as the first number says. -/
def countLoop (s sub : Str) (e : ℕ) : ℕ → ℕ → ℕ → Option ℕ
  | 0, _, _ => none
  | turns + 1, pos, cnt =>
    match strstr sub (s.drop pos) with
    | none => some cnt
    | some p =>
      if pos + p + sub.length > e then some cnt
      else if pos + p + sub.length ≥ e then some (cnt + 1)
      else countLoop s sub e turns (pos + p + sub.length) (cnt + 1)

def count (s sub : Str) (start end_ : Int) (turns : ℕ) : Option ℕ :=
  match window s.length start end_ with
  | none => some 0
  | some (b, e) => countLoop s sub e turns b 0

/-- The end of the part: the string's for 0, and never one behind it. -/
def lastEnd (strLen end_ : Int) : Int := if end_ = 0 then strLen else min end_ strLen

theorem window_eq (n : ℕ) (start end_ : Int) : window n start end_ =
      if 0 ≤ start ∧ start < lastEnd (toInt n) end_ then
        some (start.toNat, (lastEnd (toInt n) end_).toNat)
      else none := by
  have := toInt_le n
  by_cases hstart : start < 0 ∨ end_ < 0
  · rw [window, if_pos hstart, lastEnd, if_neg]
    split_ifs <;> omega
  · have hclip : (if (if end_ = 0 then toInt n else end_) > toInt n then toInt n
        else if end_ = 0 then toInt n else end_) = lastEnd (toInt n) end_ := by
      rw [lastEnd]
      split_ifs <;> omega
    have hle : lastEnd (toInt n) end_ ≤ toInt n := by
      rw [lastEnd]
      split_ifs <;> omega
    simp only [window, if_neg hstart, hclip]
    split_ifs <;> first | rfl | omega

def OccursAt (s sub : Str) (i : ℕ) : Prop := sub <+: s.drop i

private theorem strstr_eq_none (h : strstr sub s = none) (i : ℕ) : ¬ OccursAt s sub i := by
  induction s generalizing i with
  | nil => simpa [strstr, OccursAt] using h
  | cons c s ih =>
    simp only [strstr, List.isPrefixOf_iff_prefix] at h
    split_ifs at h with hpre
    cases i with
    | zero => exact hpre
    | succ i => exact ih (by simpa using h) i

private theorem strstr_eq_some (h : strstr sub s = some p) : IsLeast {i | OccursAt s sub i} p := by
  induction s generalizing p with
  | nil =>
    simp only [strstr, Option.ite_none_right_eq_some] at h
    obtain ⟨rfl, hp⟩ := h
    obtain rfl : 0 = p := by simpa using hp
    exact ⟨by simp [OccursAt], fun i _ => Nat.zero_le i⟩
  | cons c s ih =>
    simp only [strstr, List.isPrefixOf_iff_prefix] at h
    split_ifs at h with hpre
    · obtain rfl : 0 = p := by simpa using h
      exact ⟨hpre, fun i _ => Nat.zero_le i⟩
    · obtain ⟨q, hq, rfl⟩ := Option.map_eq_some_iff.mp h
      refine ⟨(ih hq).1, fun i hi => ?_⟩
      cases i with
      | zero => exact absurd hi hpre
      | succ i => exact Nat.succ_le_succ ((ih hq).2 hi)

theorem strstr_drop_none (h : strstr sub (s.drop b) = none) {i : ℕ} (hi : b ≤ i) :
    ¬ OccursAt s sub i := by
  have := strstr_eq_none h (i - b)
  rwa [OccursAt, List.drop_drop, Nat.add_sub_cancel' hi] at this

theorem strstr_drop_some (h : strstr sub (s.drop b) = some p) :
    OccursAt s sub (b + p) ∧ ∀ i, b ≤ i → OccursAt s sub i → b + p ≤ i := by
  obtain ⟨hocc, hleast⟩ := strstr_eq_some h
  refine ⟨by rwa [Set.mem_ofPred_eq, OccursAt, List.drop_drop] at hocc, fun i hi hoi => ?_⟩
  have : p ≤ i - b := hleast (by
    rwa [Set.mem_ofPred_eq, OccursAt, List.drop_drop, Nat.add_sub_cancel' hi])
  omega

theorem countLoop_spec (hsub : sub ≠ []) {turns pos : ℕ} (cnt : ℕ) (hpos : pos < e)
    (hturns : e ≤ turns + pos) : ∃ n, countLoop s sub e turns pos cnt = some (cnt + n) ∧
      IsGreatest (sizes (OccursAt s sub) sub.length pos e) n := by
  have hm : 0 < sub.length := List.length_pos_iff.mpr hsub
  induction turns generalizing pos cnt with
  | zero => omega
  | succ turns ih =>
    rw [countLoop]
    cases hstr : strstr sub (s.drop pos) with
    | none => exact ⟨0, rfl, isGreatest_zero fun i hi _ => strstr_drop_none hstr hi⟩
    | some p =>
      obtain ⟨hocc, hfirst⟩ := strstr_drop_some hstr
      simp only
      split_ifs with hend hlast
      · refine ⟨0, rfl, isGreatest_zero fun i hi hie hoi => ?_⟩
        have := hfirst i hi hoi
        omega
      · refine ⟨1, rfl, isGreatest_succ hm (by omega) (by omega) hocc hfirst
          (isGreatest_zero fun i hi hie _ => ?_)⟩
        omega
      · obtain ⟨n, hn, hbest⟩ := ih (cnt + 1) (Nat.lt_of_not_le hlast) (by omega)
        exact ⟨n + 1, by rw [hn]; congr 1; omega,
          isGreatest_succ hm (by omega) (by omega) hocc hfirst hbest⟩

theorem countLoop_nil (h : b < e) (turns cnt : ℕ) : countLoop s [] e turns b cnt = none := by
  have hstr : strstr [] (s.drop b) = some 0 := by
    cases s.drop b <;> rfl
  induction turns generalizing cnt with
  | zero => rfl
  | succ turns ih =>
    simp only [countLoop, hstr, List.length_nil, Nat.add_zero]
    rw [if_neg (by omega), if_neg (by omega), ih]

/-- The least place that is asked for, or -1. -/
def IsFound (s sub : Str) (start end_ i : Int) : Prop :=
  (∃ k : ℕ, i = k ∧
    IsLeast {k : ℕ | start ≤ k ∧ OccursAt s sub k ∧ k + sub.length ≤ lastEnd s.length end_} k) ∨
  (i = -1 ∧ ∀ k : ℕ, start ≤ k → OccursAt s sub k → ¬ k + sub.length ≤ lastEnd s.length end_)

/-- From an index that is not negative on, the search finds the first occurrence that ends in time,
and as many are counted as fit without overlapping. -/
theorem find_count_spec (s sub : Str) (start end_ : Int) (hs : s.length < 2 ^ 31) (hsub : sub ≠ [])
    (hstart : 0 ≤ start) : IsFound s sub start end_ (find s sub start end_) ∧
      ∃ turns n, count s sub start end_ turns = some n ∧ IsGreatest
          (sizes (OccursAt s sub) sub.length start.toNat (lastEnd s.length end_).toNat) n := by
  have hm : 0 < sub.length := List.length_pos_iff.mpr hsub
  have hlen : toInt s.length = s.length := toInt_eq_self.mpr (by omega)
  have hlast : lastEnd s.length end_ ≤ s.length := by
    rw [lastEnd]
    split_ifs <;> omega
  by_cases hw : start < lastEnd s.length end_
  · have hwindow : window s.length start end_ =
        some (start.toNat, (lastEnd s.length end_).toNat) := by
      rw [window_eq, hlen, if_pos ⟨hstart, hw⟩]
    constructor
    · simp only [find, hwindow]
      cases hstr : strstr sub (s.drop start.toNat) with
      | none => exact .inr ⟨rfl, fun k hk hocc _ => strstr_drop_none hstr (by omega) hocc⟩
      | some p =>
        obtain ⟨hocc, hfirst⟩ := strstr_drop_some hstr
        simp only
        split_ifs with hend
        · refine .inr ⟨rfl, fun k hk hoccs hle => ?_⟩
          have := hfirst k (by omega) hoccs
          omega
        · refine .inl ⟨start.toNat + p, toInt_eq_self.mpr (by omega),
            ⟨by omega, hocc, by omega⟩, ?_⟩
          exact fun k hk => hfirst k (by have := hk.1; omega) hk.2.1
    · obtain ⟨n, hn, hbest⟩ := countLoop_spec (s := s) hsub 0 (by omega)
        (Nat.le_add_right (lastEnd s.length end_).toNat start.toNat)
      exact ⟨_, n, by simpa only [count, hwindow, Nat.zero_add] using hn, hbest⟩
  · -- nothing is searched, and nothing of the substring's length fits
    have hwindow : window s.length start end_ = none := by
      rw [window_eq, hlen, if_neg (by omega)]
    simp only [find, count, hwindow]
    refine ⟨.inr ⟨rfl, fun k hk _ hle => by omega⟩, 0, 0, rfl, ?_⟩
    exact isGreatest_zero fun i hi hie _ => by omega

theorem find_count_spec_overlapping :
    IsFound "ababa".toList "aba".toList 0 0 (find "ababa".toList "aba".toList 0 0) ∧
      ∃ turns n, count "ababa".toList "aba".toList 0 0 turns = some n ∧
        IsGreatest (sizes (OccursAt "ababa".toList "aba".toList) 3 0 5) n :=
  find_count_spec "ababa".toList "aba".toList 0 0 (by decide) (by decide) (by decide)

theorem find_negative_start :
    find ['a'] ['a'] (-1) 0 = -1 ∧ ¬ IsFound ['a'] ['a'] (-1) 0 (find ['a'] ['a'] (-1) 0) := by
  refine ⟨rfl, ?_⟩
  rintro (⟨k, hk, -⟩ | ⟨-, h⟩)
  · have : find ['a'] ['a'] (-1) 0 = -1 := rfl
    omega
  · exact h 0 (by decide) (List.prefix_refl _) (by decide)

/-- Counting ends exactly when there is something to look for, or nowhere to look. -/
theorem count_ends_iff (s sub : Str) (start end_ : Int) :
    (∃ turns n, count s sub start end_ turns = some n) ↔
      sub ≠ [] ∨ ¬ (0 ≤ start ∧ start < lastEnd (toInt s.length) end_) := by
  by_cases hw : 0 ≤ start ∧ start < lastEnd (toInt s.length) end_
  · simp only [count, window_eq, hw, and_self, if_true, not_true_eq_false, or_false]
    constructor
    · rintro ⟨turns, n, h⟩ rfl
      rw [countLoop_nil (by omega)] at h
      simp at h
    · intro hsub
      obtain ⟨n, hn, -⟩ := countLoop_spec (s := s) hsub 0 (by omega)
        (Nat.le_add_right (lastEnd (toInt s.length) end_).toNat start.toNat)
      exact ⟨_, _, hn⟩
  · simp [count, window_eq, hw]

theorem count_empty_sub_runs_on : ¬ ∃ turns n, count ['a'] [] 0 0 turns = some n := by
  rintro ⟨turns, n, h⟩
  cases (countLoop_nil (by decide) turns 0).symm.trans h

end MuggleC.Base.Str

namespace MuggleC.Base.Str

open List Option

variable {s t rest ds pf : Str} {c : Char} {r : ℕ} {base : Int}

def digitVal (c : Char) : Option ℕ :=
  if '0' ≤ c ∧ c ≤ '9' then some (c.toNat - '0'.toNat)
  else if 'a' ≤ c ∧ c ≤ 'z' then some (c.toNat - 'a'.toNat + 10)
  else if 'A' ≤ c ∧ c ≤ 'Z' then some (c.toNat - 'A'.toNat + 10)
  else none

def isDigit (r : ℕ) (c : Char) : Bool := (digitVal c).any (· < r)

def digitsVal (r : ℕ) (ds : Str) : ℕ := ds.foldl (fun v c => v * r + (digitVal c).getD 0) 0

def sign : Str → Bool × Str
  | '-' :: s => (true, s)
  | '+' :: s => (false, s)
  | s => (false, s)

def hexPrefixed : Str → Bool
  | '0' :: x :: d :: _ => (x = 'x' || x = 'X') && isDigit 16 d
  | _ => false

/-- The bases that `strtol` supports. -/
def Supported (base : Int) : Prop := base = 0 ∨ 2 ≤ base ∧ base ≤ 36

instance (base : Int) : Decidable (Supported base) := inferInstanceAs (Decidable (_ ∨ _))

def radix (base : Int) (s : Str) : Option (ℕ × Str) :=
  if (base = 0 ∨ base = 16) ∧ hexPrefixed s then some (16, s.drop 2)
  else if base = 0 then some (if s.head? = some '0' then 8 else 10, s)
  else if 2 ≤ base ∧ base ≤ 36 then some (base.toNat, s)
  else none

/-- The numeral a text starts with, and what stands behind it. -/
structure Subject where
  neg : Bool
  mag : ℕ
  rest : Str
  deriving DecidableEq

def Subject.val (p : Subject) : Int := if p.neg then -p.mag else p.mag

def subject (base : Int) (s : Str) : Option Subject := do
  let (neg, t) := sign (s.dropWhile isspace)
  let (r, t) ← radix base t
  if t.takeWhile (isDigit r) = [] then none
  else some ⟨neg, digitsVal r (t.takeWhile (isDigit r)), t.dropWhile (isDigit r)⟩

def longMax : Int := 2 ^ 63 - 1

def longMin : Int := -2 ^ 63

def ulongMax : Int := 2 ^ 64 - 1

/-- The result, the end pointer (`none` for the string itself), and whether `errno` is `ERANGE`. A
base that is not supported leaves the end pointer unset, and what is read of it then is not known. -/
def strtol (s : Str) (base : Int) : Option (Int × Option Str × Bool) :=
  if Supported base then
    match subject base s with
    | none => some (0, none, false)
    | some p =>
      if p.val > longMax then some (longMax, some p.rest, true)
      else if p.val < longMin then some (longMin, some p.rest, true)
      else some (p.val, some p.rest, false)
  else none

def strtoul (s : Str) (base : Int) : Option (Int × Option Str × Bool) :=
  if Supported base then
    match subject base s with
    | none => some (0, none, false)
    | some p =>
      if p.mag > ulongMax then some (ulongMax, some p.rest, true)
      else some (p.val % 2 ^ 64, some p.rest, false)
  else none

/-! ### The conversions: whether one succeeds, and the value at `pval` afterwards -/

-- text behind the number decides alone: the ranges are looked at only where there is none
def toi (s : Str) (pval base : Int) : Option (Bool × Int) :=
  (strtol s base).map fun
    | (_, none, _) => (false, pval)
    | (ret, some endptr, erange) =>
      if endptr ≠ [] then
        if lstripIdx endptr ≠ -1 then (false, pval) else (true, toInt ret)
      else if (ret = longMax ∨ ret = longMin) ∧ erange then (false, pval)
      else if ret > 2 ^ 31 - 1 ∨ ret < -2 ^ 31 then (false, pval)
      else (true, toInt ret)

-- the result of `strtoul` goes through a `long`
def tou (s : Str) (pval base : Int) : Option (Bool × Int) :=
  (strtoul s base).map fun
    | (_, none, _) => (false, pval)
    | (ret, some endptr, _) =>
      if endptr ≠ [] ∧ lstripIdx endptr ≠ -1 then (false, pval)
      else if ret.bmod (2 ^ 64) % 2 ^ 64 = ulongMax then (false, pval)
      else (true, ret.bmod (2 ^ 64) % 2 ^ 32)

/-- The four functions that store before they check. -/
def convert (read : Option (Int × Option Str × Bool)) (outOfRange : Int → Bool) :
    Option (Bool × Int) :=
  read.map fun
    | (ret, none, _) => (false, ret)
    | (ret, some endptr, _) =>
      if endptr ≠ [] ∧ lstripIdx endptr ≠ -1 then (false, ret)
      else if outOfRange ret then (false, ret)
      else (true, ret)

def tol (s : Str) (base : Int) : Option (Bool × Int) :=
  convert (strtol s base) fun v => v = longMax || v = longMin

def toll (s : Str) (base : Int) : Option (Bool × Int) :=
  convert (strtol s base) fun v => v = longMax || v = longMin

def toul (s : Str) (base : Int) : Option (Bool × Int) :=
  convert (strtoul s base) fun v => v = ulongMax

def toull (s : Str) (base : Int) : Option (Bool × Int) :=
  convert (strtoul s base) fun v => v = ulongMax

inductive Radix (base : Int) : Str → Str → ℕ → Prop
  | plain (ds : Str) : 2 ≤ base → base ≤ 36 → Radix base [] ds base.toNat
  | hex (x : Char) (ds : Str) : base = 0 ∨ base = 16 → x = 'x' ∨ x = 'X' → Radix base ['0', x] ds 16
  | octal (ds : Str) : base = 0 → Radix base [] ('0' :: ds) 8
  | decimal (c : Char) (ds : Str) : base = 0 → c ≠ '0' → Radix base [] (c :: ds) 10

inductive Sign : Str → Bool → Prop
  | minus : Sign ['-'] true
  | plus : Sign ['+'] false
  | absent : Sign [] false

def Reads (base : Int) (s : Str) (p : Subject) : Prop :=
  ∃ l sg pf ds r, s = l ++ (sg ++ (pf ++ (ds ++ p.rest))) ∧ Blank l ∧ Sign sg p.neg ∧
    Radix base pf ds r ∧ ds ≠ [] ∧ (∀ c ∈ ds, isDigit r c = true) ∧ p.mag = digitsVal r ds

def Written (base : Int) (s : Str) (v : Int) : Prop :=
  ∃ p, Reads base s p ∧ Blank p.rest ∧ p.val = v

theorem isDigit_of_isspace (h : isspace c = true) : isDigit r c = false := by
  simp only [isspace, Bool.or_eq_true, decide_eq_true_eq] at h
  rcases h with ((((rfl | rfl) | rfl) | rfl) | rfl) | rfl <;> rfl

private theorem isDigit_x (hc : c = 'x' ∨ c = 'X') (hr : r ≤ 16) : isDigit r c = false := by
  have hval : digitVal c = some 33 := by rcases hc with rfl | rfl <;> rfl
  simp [isDigit, hval]
  omega

private theorem isspace_of_isDigit (h : isDigit r c = true) : isspace c = false := by
  by_contra hc
  simp [isDigit_of_isspace (r := r) (by simpa using hc)] at h

theorem sign_of_isDigit (h : isDigit r c = true) (t : Str) : sign (c :: t) = (false, c :: t) := by
  have hm : c ≠ '-' := by rintro rfl; simp [isDigit, digitVal] at h
  have hp : c ≠ '+' := by rintro rfl; simp [isDigit, digitVal] at h
  simp [sign, hm, hp]

theorem hexPrefixed_eq_false (hr : r ≤ 16) (h : ∀ c ∈ s, isDigit r c = true ∨ isspace c = true) :
    hexPrefixed s = false := by
  unfold hexPrefixed
  split
  · rename_i x d u
    by_contra hx
    have hx : x = 'x' ∨ x = 'X' := by simp at hx; exact hx.1
    rcases h x (by simp) with hd | hb
    · simp [isDigit_x hx hr] at hd
    · rcases hx with rfl | rfl <;> simp [isspace] at hb
  · rfl

theorem radix_complete (h : Radix base pf ds r) (hne : ds ≠ []) (hds : ∀ c ∈ ds, isDigit r c = true)
    (hrest : Blank rest) : radix base (pf ++ (ds ++ rest)) = some (r, ds ++ rest) := by
  have hall : ∀ c ∈ ds ++ rest, isDigit r c = true ∨ isspace c = true := by
    intro c hc
    exact (mem_append.mp hc).imp (hds c) (hrest c)
  cases h with
  | plain _ h2 h36 =>
    have hnot : ¬ ((base = 0 ∨ base = 16) ∧ hexPrefixed (ds ++ rest)) := by
      rintro ⟨h16, hhex⟩
      simp [hexPrefixed_eq_false (by omega) hall] at hhex
    rw [nil_append, radix, if_neg hnot, if_neg (by omega), if_pos ⟨h2, h36⟩]
  | hex x _ hbase hx =>
    obtain ⟨d, ds, rfl⟩ := exists_cons_of_ne_nil hne
    have hd : isDigit 16 d = true := hds d (by simp)
    rw [radix, if_pos ⟨hbase, by simpa [hexPrefixed, hd] using hx⟩]
    rfl
  | octal ds hbase =>
    have hhex : hexPrefixed ('0' :: (ds ++ rest)) = false := hexPrefixed_eq_false (by omega) hall
    simp [radix, hhex, hbase]
  | decimal c ds hbase hc =>
    have hhex : hexPrefixed (c :: (ds ++ rest)) = false := by simp [hexPrefixed, hc]
    simp [radix, hhex, hbase, hc]

private theorem radix_sound {u : Str} (h : radix base t = some (r, u)) :
    ∃ pf, t = pf ++ u ∧ ∀ ds, ds <+: u → ds ≠ [] → Radix base pf ds r := by
  simp only [radix] at h
  split_ifs at h with hhex hzero h0 hbase
  · obtain ⟨rfl, rfl⟩ : 16 = r ∧ t.drop 2 = u := by simpa using h
    obtain ⟨hb, ht⟩ := hhex
    unfold hexPrefixed at ht
    split at ht
    · rename_i x d u
      simp only [Bool.and_eq_true, Bool.or_eq_true, decide_eq_true_eq] at ht
      exact ⟨['0', x], rfl, fun ds _ _ => .hex x ds hb ht.1⟩
    · simp at ht
  · obtain ⟨rfl, rfl⟩ : 8 = r ∧ t = u := by simpa using h
    refine ⟨[], rfl, fun ds hpre hne => ?_⟩
    obtain ⟨d, ds, rfl⟩ := exists_cons_of_ne_nil hne
    obtain ⟨w, rfl⟩ := hpre
    obtain rfl : d = '0' := by simpa using h0
    exact .octal ds hzero
  · obtain ⟨rfl, rfl⟩ : 10 = r ∧ t = u := by simpa using h
    refine ⟨[], rfl, fun ds hpre hne => ?_⟩
    obtain ⟨d, ds, rfl⟩ := exists_cons_of_ne_nil hne
    obtain ⟨w, rfl⟩ := hpre
    exact .decimal d ds hzero (by simpa using h0)
  · obtain ⟨rfl, rfl⟩ : base.toNat = r ∧ t = u := by simpa using h
    exact ⟨[], rfl, fun ds _ _ => .plain ds hbase.1 hbase.2⟩

private theorem sign_complete {sg : Str} {neg : Bool} (h : Sign sg neg) (hc : isDigit r c = true) :
    sign (sg ++ c :: t) = (neg, c :: t) := by
  cases h with
  | minus => rfl
  | plus => rfl
  | absent => exact sign_of_isDigit hc t

private theorem sign_sound (t : Str) : ∃ sg, t = sg ++ (sign t).2 ∧ Sign sg (sign t).1 := by
  unfold sign
  split
  · exact ⟨_, rfl, .minus⟩
  · exact ⟨_, rfl, .plus⟩
  · exact ⟨_, rfl, .absent⟩

private theorem dropWhile_blank {p : Char → Bool} (hs : ∀ c ∈ s, p c = true)
    (ht : ∀ c ∈ t.head?, p c = false) : (s ++ t).takeWhile p = s ∧ (s ++ t).dropWhile p = t := by
  rw [takeWhile_append_of_pos hs, dropWhile_append_of_pos hs]
  cases t with
  | nil => simp
  | cons c t => simp [ht c (by simp)]

private theorem subject_complete {p : Subject} (h : Reads base s p) (hrest : Blank p.rest) :
    subject base s = some p := by
  obtain ⟨neg, mag, rest⟩ := p
  obtain ⟨l, sg, pf, ds, r, rfl, hl, hsg, hradix, hne, hds, rfl⟩ := h
  -- the character behind the sign is a digit, in a prefix as well
  obtain ⟨c, u, hcu, q, hc⟩ : ∃ c u, pf ++ (ds ++ rest) = c :: u ∧ ∃ q, isDigit q c = true := by
    have hpf : pf = [] ∨ ∃ x, pf = ['0', x] := by cases hradix <;> simp
    rcases hpf with rfl | ⟨x, rfl⟩
    · obtain ⟨d, ds, rfl⟩ := exists_cons_of_ne_nil hne
      exact ⟨d, _, rfl, r, hds d (by simp)⟩
    · exact ⟨'0', _, rfl, 1, rfl⟩
  have hdrop : (l ++ (sg ++ c :: u)).dropWhile isspace = sg ++ c :: u := by
    refine (dropWhile_blank hl ?_).2
    cases hsg <;> simp [isspace_of_isDigit hc] <;> rfl
  have hdigits : (ds ++ rest).takeWhile (isDigit r) = ds ∧
      (ds ++ rest).dropWhile (isDigit r) = rest :=
    dropWhile_blank hds fun c hc => isDigit_of_isspace (hrest c (mem_of_mem_head? hc))
  have hread := radix_complete hradix hne hds hrest
  rw [hcu] at hread ⊢
  simp only [subject, hdrop, sign_complete hsg hc, hread, bind_eq_bind, bind_some,
    hdigits, hne, if_false]

private theorem subject_sound {p : Subject} (h : subject base s = some p) : Reads base s p := by
  simp only [subject, bind_eq_bind, bind_eq_some_iff] at h
  obtain ⟨⟨r, u⟩, hradix, h⟩ := h
  split_ifs at h with hne
  obtain ⟨sg, hsg, hsign⟩ := sign_sound (s.dropWhile isspace)
  obtain ⟨pf, hpf, hform⟩ := radix_sound hradix
  obtain rfl := some.inj h
  refine ⟨s.takeWhile isspace, sg, pf, _, r, ?_, fun c hc => mem_takeWhile_imp hc, hsign,
    hform _ ( takeWhile_prefix _) hne, hne, fun c hc => mem_takeWhile_imp hc, rfl⟩
  rw [takeWhile_append_dropWhile, ← hpf, ← hsg, takeWhile_append_dropWhile]

theorem written_iff {v : Int} :
    Written base s v ↔ ∃ p, subject base s = some p ∧ Blank p.rest ∧ p.val = v :=
  ⟨fun ⟨p, h, hrest, hv⟩ => ⟨p, subject_complete h hrest, hrest, hv⟩,
    fun ⟨p, h, hrest, hv⟩ => ⟨p, subject_sound h, hrest, hv⟩⟩

/-- The text behind a number starts with as many blanks as the check for one word looks at. -/
def StartsBlank (rest : Str) : Prop := Blank (rest.take (max 1 (toInt rest.length).toNat))

/-- The check for one word lets the text behind a number pass. -/
def Passes (rest : Str) : Prop := rest = [] ∨ StartsBlank rest

theorem passes_iff : Passes rest ↔ ¬ (rest ≠ [] ∧ lstripIdx rest ≠ -1) := by
  by_cases h : rest = []
  · simp [Passes, h]
  · simp [Passes, h, lstripIdx_eq_neg_one h, StartsBlank]

theorem Blank.passes (h : Blank rest) : Passes rest :=
  .inr fun c hc => h c (mem_of_mem_take hc)

/-- A conversion returns, succeeds exactly on the numerals of its range, and then stores their
value. -/
def Converts (out : Option (Bool × Int)) (base : Int) (s : Str) (lo hi : Int) : Prop :=
  out.isSome ∧ ∀ v, out = some (true, v) ↔ Written base s v ∧ lo ≤ v ∧ v ≤ hi

theorem converts_iff {out : Option (Bool × Int)} {lo hi : Int} (accepts : Subject → Prop)
    (stored : Subject → Int) (hsome : out.isSome ↔ Supported base)
    (hout : ∀ v, out = some (true, v) ↔
      ∃ p, subject base s = some p ∧ Passes p.rest ∧ accepts p ∧ stored p = v)
    (hstored : ∀ p : Subject, lo ≤ p.val → p.val ≤ hi → accepts p → stored p = p.val) :
    Converts out base s lo hi ↔ Supported base ∧ ∀ p, subject base s = some p → Passes p.rest →
      (accepts p ↔ Blank p.rest ∧ lo ≤ p.val ∧ p.val ≤ hi) := by
  rw [Converts, hsome]
  refine and_congr_right fun _ => ?_
  simp only [hout, written_iff]
  constructor
  · intro h p hp hpass
    constructor
    · intro hacc
      obtain ⟨⟨q, hq, hblank, hval⟩, hlo, hhi⟩ := (h (stored p)).mp ⟨p, hp, hpass, hacc, rfl⟩
      obtain rfl : p = q := by simpa [hp] using hq
      exact ⟨hblank, hval ▸ hlo, hval ▸ hhi⟩
    · rintro ⟨hblank, hrange⟩
      obtain ⟨q, hq, -, hacc, -⟩ := (h p.val).mpr ⟨⟨p, hp, hblank, rfl⟩, hrange⟩
      obtain rfl : p = q := by simpa [hp] using hq
      exact hacc
  · intro h v
    constructor
    · rintro ⟨p, hp, hpass, hacc, rfl⟩
      obtain ⟨hblank, hlo, hhi⟩ := (h p hp hpass).mp hacc
      rw [hstored p hlo hhi hacc]
      exact ⟨⟨p, hp, hblank, rfl⟩, hlo, hhi⟩
    · rintro ⟨⟨p, hp, hblank, rfl⟩, hlo, hhi⟩
      have hacc := (h p hp hblank.passes).mpr ⟨hblank, hlo, hhi⟩
      exact ⟨p, hp, hblank.passes, hacc, hstored p hlo hhi hacc⟩

def Subject.long (p : Subject) : Int := max longMin (min p.val longMax)

theorem supported_of_subject {p : Subject} (h : subject base s = some p) : Supported base := by
  obtain ⟨⟨r, u⟩, hr, _⟩ := bind_eq_some_iff.mp h
  unfold radix at hr
  unfold Supported
  split_ifs at hr <;> omega

theorem strtol_eq (s : Str) (base : Int) : strtol s base =
    if Supported base then some ((subject base s).elim (0, none, false)
      fun p => (p.long, some p.rest, decide (p.long ≠ p.val))) else none := by
  unfold strtol Subject.long
  refine if_congr Iff.rfl ?_ rfl
  cases subject base s with
  | none => rfl
  | some p =>
    have : longMin ≤ longMax := by decide
    simp only [elim_some]
    split_ifs <;> simp <;> omega

def Subject.ulong (p : Subject) : Int := if p.mag > ulongMax then ulongMax else p.val % 2 ^ 64

theorem strtoul_eq (s : Str) (base : Int) :
    ∃ erange, strtoul s base = if Supported base then some ((subject base s).elim (0, none, false)
      fun p => (p.ulong, some p.rest, erange)) else none := by
  unfold strtoul Subject.ulong
  cases subject base s with
  | none => exact ⟨false, rfl⟩
  | some p =>
    simp only [elim_some]
    split_ifs
    · exact ⟨_, rfl⟩
    · exact ⟨_, rfl⟩
    · exact ⟨false, rfl⟩

theorem convert_eq_true {read : Option (Int × Option Str × Bool)} {outOfRange : Int → Bool}
    {stored : Subject → Int} {erange : Subject → Bool}
    (hread : read = if Supported base then some ((subject base s).elim (0, none, false)
      fun p => (stored p, some p.rest, erange p)) else none) (v : Int) :
    convert read outOfRange = some (true, v) ↔ ∃ p, subject base s = some p ∧ Passes p.rest ∧
      outOfRange (stored p) = false ∧ stored p = v := by
  subst hread
  cases hp : subject base s with
  | none => split_ifs <;> simp [convert]
  | some p =>
    rw [if_pos (supported_of_subject hp)]
    simp only [convert, map_some, elim_some, some.injEq, exists_eq_left', passes_iff]
    split_ifs with h1 h2 <;> simp_all

theorem isSome_map_strtol {α : Type} (s : Str) (base : Int) (f : Int × Option Str × Bool → α) :
    ((strtol s base).map f).isSome ↔ Supported base := by
  rw [isSome_map, strtol_eq]
  split_ifs with h <;> simp [h]

theorem isSome_map_strtoul {α : Type} (s : Str) (base : Int) (f : Int × Option Str × Bool → α) :
    ((strtoul s base).map f).isSome ↔ Supported base := by
  obtain ⟨erange, hread⟩ := strtoul_eq s base
  rw [isSome_map, hread]
  split_ifs with h <;> simp [h]

def Subject.IsInt (p : Subject) : Prop := -2 ^ 31 ≤ p.val ∧ p.val ≤ 2 ^ 31 - 1

private theorem toi_eq_true (s : Str) (pval base v : Int) :
    toi s pval base = some (true, v) ↔ ∃ p, subject base s = some p ∧ Passes p.rest ∧
      (p.rest ≠ [] ∨ p.IsInt) ∧ toInt p.long = v := by
  rw [toi, strtol_eq]
  cases hp : subject base s with
  | none => split_ifs <;> simp
  | some p =>
    rw [if_pos (supported_of_subject hp), map_some]
    have hlong : p.long = max longMin (min p.val longMax) := rfl
    have hmin : longMin = -2 ^ 63 := rfl
    have hmax : longMax = 2 ^ 63 - 1 := rfl
    simp only [elim_some, some.injEq, exists_eq_left', passes_iff, Subject.IsInt]
    split_ifs with hrest hidx herange hint
    · simp [hrest, hidx]
    · simp [hrest, hidx]
    · simp only [ne_eq, decide_eq_true_eq] at herange
      simp [hrest]
      omega
    · simp [hrest]
      omega
    · simp [hrest]
      omega

/-- `muggle_str_toi` is right exactly when the base is supported, a number with blanks behind it is an
`int`, and these blanks are all that stands behind it. -/
theorem toi_iff (s : Str) (pval base : Int) :
    (Converts (toi s pval base) base s (-2 ^ 31) (2 ^ 31 - 1) ∧
        ∀ v, toi s pval base = some (false, v) → v = pval) ↔
      Supported base ∧ ∀ p, subject base s = some p → p.rest ≠ [] → StartsBlank p.rest →
        Blank p.rest ∧ -2 ^ 31 ≤ p.val ∧ p.val ≤ 2 ^ 31 - 1 := by
  have hkeeps : ∀ v, toi s pval base = some (false, v) → v = pval := by
    intro v hv
    obtain ⟨⟨ret, endptr, erange⟩, -, hv⟩ := map_eq_some_iff.mp hv
    cases endptr with
    | none => exact (Prod.mk.inj hv).2.symm
    | some endptr =>
      dsimp only at hv
      split_ifs at hv <;> cases hv <;> rfl
  have hstored : ∀ p : Subject, -2 ^ 31 ≤ p.val → p.val ≤ 2 ^ 31 - 1 →
      (p.rest ≠ [] ∨ p.IsInt) → toInt p.long = p.val := by
    intro p hlo hhi _
    have hlong : p.long = p.val := by
      unfold Subject.long longMin longMax
      omega
    rw [hlong, toInt_eq_self]
    omega
  have hsome : (toi s pval base).isSome ↔ Supported base := isSome_map_strtol s base _
  rw [and_iff_left hkeeps, converts_iff _ _ hsome (toi_eq_true s pval base) hstored]
  refine and_congr_right fun _ => forall₂_congr fun p _ => ?_
  by_cases hrest : p.rest = []
  · simp [hrest, Passes, Subject.IsInt, Blank]
  · simp [hrest, Passes]

theorem toi_blank_behind : toi "2147483648 ".toList 0 10 = some (true, -2147483648) ∧
    ¬ Written 10 "2147483648 ".toList (-2147483648) := by
  have hread : subject 10 "2147483648 ".toList = some ⟨false, 2147483648, [' ']⟩ := by
    decide +kernel
  refine ⟨by decide +kernel, fun h => ?_⟩
  obtain ⟨p, hp, -, hval⟩ := written_iff.mp h
  obtain rfl := Option.some.inj (hread.symm.trans hp)
  simp [Subject.val] at hval

inductive Unsigned
  | tou
  | toul
  | toull

namespace Unsigned

def run : Unsigned → Str → Int → Int → Option (Bool × Int)
  | tou, s, pval, base => Str.tou s pval base
  | toul, s, _, base => Str.toul s base
  | toull, s, _, base => Str.toull s base

def max : Unsigned → Int
  | tou => 2 ^ 32 - 1
  | toul => ulongMax
  | toull => ulongMax

/-- The values of the numerals that are taken or refused as they should be, if only blanks stand behind
them. -/
def Right (f : Unsigned) (v : Int) : Prop :=
  v = -1 ∨ v ≤ -2 ^ 64 ∨ 0 ≤ v ∧
    match f with
    | tou => v < 2 ^ 32 ∨ 2 ^ 64 - 1 ≤ v
    | _ => v ≠ 2 ^ 64 - 1

end Unsigned

def Subject.Largest (p : Subject) : Prop :=
  if p.neg then p.mag = 1 ∨ 2 ^ 64 ≤ p.mag else 2 ^ 64 - 1 ≤ p.mag

theorem Subject.ulong_eq_max (p : Subject) : p.ulong = ulongMax ↔ p.Largest := by
  obtain ⟨neg, mag, rest⟩ := p
  cases neg <;> simp only [ulong, ulongMax, Largest, val, if_true, Bool.false_eq_true, if_false] <;>
    split_ifs <;> omega

private theorem unsigned_run_eq_true (f : Unsigned) (s : Str) (pval base v : Int) :
    f.run s pval base = some (true, v) ↔ ∃ p, subject base s = some p ∧ Passes p.rest ∧
      ¬ p.Largest ∧ p.ulong % (f.max + 1) = v := by
  obtain ⟨erange, hread⟩ := strtoul_eq s base
  have hulong : ∀ p : Subject, p.ulong % (ulongMax + 1) = p.ulong := by
    intro p
    unfold Subject.ulong ulongMax
    split_ifs <;> omega
  have hconvert := @convert_eq_true s base _ (fun v => decide (v = ulongMax)) _ _ hread v
  simp only [decide_eq_false_iff_not, Subject.ulong_eq_max] at hconvert
  cases f with
  | toul => simpa only [Unsigned.max, hulong, Unsigned.run, Str.toul] using hconvert
  | toull => simpa only [Unsigned.max, hulong, Unsigned.run, Str.toull] using hconvert
  | tou =>
    rw [Unsigned.run, Str.tou, hread]
    cases hp : subject base s with
    | none => split_ifs <;> simp
    | some p =>
      rw [if_pos (supported_of_subject hp), map_some]
      have hmod : p.ulong.bmod (2 ^ 64) % 2 ^ 64 = p.ulong := by
        have := hulong p
        unfold ulongMax at this
        rw [Int.bmod_def]
        omega
      have hmod32 : p.ulong.bmod (2 ^ 64) % 2 ^ 32 = p.ulong % (2 ^ 32 - 1 + 1) := by
        omega
      simp only [elim_some, some.injEq, exists_eq_left', passes_iff, hmod, hmod32,
        Unsigned.max, ← Subject.ulong_eq_max]
      split_ifs with h1 h2 <;> simp_all

theorem Subject.not_largest_iff (p : Subject) :
    ¬ p.Largest ↔ p.val ≠ -1 ∧ -2 ^ 64 < p.val ∧ p.val < 2 ^ 64 - 1 := by
  obtain ⟨neg, mag, rest⟩ := p
  cases neg <;> simp only [Largest, val, if_true, Bool.false_eq_true, if_false] <;> omega

/-- The unsigned conversions are right exactly when the base is supported and the number with blanks
behind it is one that the check for the largest value of `strtoul` gets right. With text behind
`2 ^ 31` or more blanks `strtoul` has to map it to that value. -/
theorem unsigned_iff (f : Unsigned) (s : Str) (pval base : Int) :
    Converts (f.run s pval base) base s 0 f.max ↔ Supported base ∧
      ∀ p, subject base s = some p → Passes p.rest → (Blank p.rest → f.Right p.val) ∧
        (¬ Blank p.rest → p.val = -1 ∨ p.val ≤ -2 ^ 64 ∨ 2 ^ 64 - 1 ≤ p.val) := by
  have hsome : (f.run s pval base).isSome ↔ Supported base := by
    cases f <;> exact isSome_map_strtoul s base _
  rw [converts_iff _ _ hsome (unsigned_run_eq_true f s pval base) fun p hlo hhi _ => ?_]
  · refine and_congr_right fun _ => forall₃_congr fun p _ _ => ?_
    rw [Subject.not_largest_iff]
    cases f <;> by_cases hblank : Blank p.rest <;>
      simp only [hblank, Unsigned.Right, Unsigned.max, ulongMax, true_and, false_and, not_true,
        not_false_iff, forall_true_left, IsEmpty.forall_iff, and_true, iff_false] <;> omega
  · have hle : f.max ≤ ulongMax := by cases f <;> decide
    have hulong : p.ulong = p.val := by
      unfold ulongMax at hle
      unfold Subject.ulong Subject.val ulongMax at *
      split_ifs at * <;> omega
    rw [hulong]
    exact Int.emod_eq_of_lt hlo (by omega)

theorem unsigned_takes_negative :
    tou "-5".toList 0 10 = some (true, 2 ^ 32 - 5) ∧ toul "-5".toList 10 = some (true, 2 ^ 64 - 5) ∧
      toull "-5".toList 10 = some (true, 2 ^ 64 - 5) ∧
      ¬ Written 10 "-5".toList (2 ^ 32 - 5) ∧ ¬ Written 10 "-5".toList (2 ^ 64 - 5) := by
  have hread : subject 10 "-5".toList = some ⟨true, 5, []⟩ := by decide +kernel
  have hwritten : ∀ v, Written 10 "-5".toList v → v = -5 := by
    intro v h
    obtain ⟨p, hp, -, rfl⟩ := written_iff.mp h
    obtain rfl := Option.some.inj (hread.symm.trans hp)
    rfl
  refine ⟨by decide +kernel, by decide +kernel, by decide +kernel, fun h => ?_, fun h => ?_⟩
  · exact absurd (hwritten _ h) (by decide)
  · exact absurd (hwritten _ h) (by decide)

inductive Signed
  | tol
  | toll

def Signed.run : Signed → Str → Int → Option (Bool × Int)
  | tol, s, base => Str.tol s base
  | toll, s, base => Str.toll s base

/-- The signed conversions are right exactly when the base is supported, the number with blanks behind
it is no limit of its type, and with text behind `2 ^ 31` or more blanks it is a limit or beyond. -/
theorem signed_iff (f : Signed) (s : Str) (base : Int) :
    Converts (f.run s base) base s longMin longMax ↔ Supported base ∧
      ∀ p, subject base s = some p → Passes p.rest →
        (Blank p.rest → p.val ≠ longMin ∧ p.val ≠ longMax) ∧
        (¬ Blank p.rest → p.val ≤ longMin ∨ longMax ≤ p.val) := by
  have hmin : longMin = -2 ^ 63 := rfl
  have hmax : longMax = 2 ^ 63 - 1 := rfl
  have hlong : ∀ p : Subject, p.long = max longMin (min p.val longMax) := fun _ => rfl
  have hsome : (f.run s base).isSome ↔ Supported base := by
    cases f <;> exact isSome_map_strtol s base _
  have hrun : ∀ v, f.run s base = some (true, v) ↔ ∃ p, subject base s = some p ∧ Passes p.rest ∧
      (longMin < p.val ∧ p.val < longMax) ∧ p.long = v := by
    intro v
    have hout : f.run s base = convert (strtol s base) fun v => v = longMax || v = longMin := by
      cases f <;> rfl
    rw [hout, convert_eq_true (strtol_eq s base)]
    refine exists_congr fun p => and_congr_right fun _ => and_congr_right fun _ =>
      and_congr_left fun _ => ?_
    simp only [hlong, Bool.or_eq_false_iff, decide_eq_false_iff_not]
    omega
  rw [converts_iff _ Subject.long hsome hrun fun p hlo hhi _ => by rw [hlong]; omega]
  refine and_congr_right fun _ => forall₃_congr fun p _ _ => ?_
  by_cases hblank : Blank p.rest
  · simp only [hblank, true_and, forall_true_left, not_true, IsEmpty.forall_iff, and_true]
    omega
  · simp only [hblank, false_and, iff_false, IsEmpty.forall_iff, true_and, not_false_iff,
      forall_true_left]
    omega

theorem signed_refuses_limit :
    tol "9223372036854775807".toList 10 = some (false, longMax) ∧
      toll "9223372036854775807".toList 10 = some (false, longMax) ∧
      Written 10 "9223372036854775807".toList longMax := by
  have hread : subject 10 "9223372036854775807".toList = some ⟨false, 9223372036854775807, []⟩ := by
    decide +kernel
  exact ⟨by decide +kernel, by decide +kernel, written_iff.mpr ⟨_, hread, by simp [Blank], rfl⟩⟩

end MuggleC.Base.Str
