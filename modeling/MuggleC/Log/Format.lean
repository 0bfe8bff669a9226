/- source: log/log_fmt.h, log/log_msg.h, base/macro.h
   digest: Bounded printing, decimal numbers in file names, and what a format function leaves. -/

import Mathlib.Data.Nat.Basic
import Mathlib.Data.List.Basic

set_option autoImplicit false

namespace MuggleC.Log

/-- A string of `char`, without its terminator. -/
abbrev Str := List Char

def maxPath : ℕ := 1024

def msgMaxLen : ℕ := 4096

def snprintf (size : ℕ) (text : Str) : Str := text.take (size - 1)

/-- `strncpy` into a handler's `filepath`, whose last byte it does not write. A long path leaves a
string only if that byte was zero before. -/
def copyPath (terminated : Bool) (path : Str) : Option Str :=
  if path.length < maxPath - 1 then some path
  else if terminated then some (path.take (maxPath - 1))
  else none

def decimal (i : ℤ) : Str :=
  if i < 0 then '-' :: Nat.toDigits 10 i.natAbs else Nat.toDigits 10 i.natAbs

structure Formatted where
  ret : ℤ
  buf : Str
  size : buf.length = msgMaxLen

def Formatted.print (text : Str) : Formatted where
  ret := text.length
  buf := snprintf msgMaxLen text ++
    List.replicate (msgMaxLen - (snprintf msgMaxLen text).length) '\x00'
  size := by
    have h : (snprintf msgMaxLen text).length ≤ msgMaxLen := by
      rw [snprintf, List.length_take]
      omega
    rw [List.length_append, List.length_replicate]
    omega

theorem snprintf_of_fits {size : ℕ} {text : Str} (h : text.length < size) :
    snprintf size text = text := List.take_of_length_le (by omega)

theorem length_snprintf_lt {size : ℕ} (text : Str) (h : 0 < size) :
    (snprintf size text).length < size := by
  rw [snprintf, List.length_take]
  omega

@[simp] theorem decimal_natCast (k : ℕ) : decimal k = Nat.toDigits 10 k := by
  rw [decimal, if_neg (by omega), Int.natAbs_natCast]

theorem toDigits_injective : Function.Injective (Nat.toDigits 10) := by
  intro k l h
  rw [← Nat.ofDigitChars_ten_toDigits (n := k), h, Nat.ofDigitChars_ten_toDigits]

theorem length_toDigits_mono {k l : ℕ} (h : k ≤ l) :
    (Nat.toDigits 10 k).length ≤ (Nat.toDigits 10 l).length := by
  rw [Nat.length_toDigits_le_iff (by omega) Nat.length_toDigits_pos]
  exact Nat.lt_of_le_of_lt h
    ((Nat.length_toDigits_le_iff (by omega) Nat.length_toDigits_pos).mp (Nat.le_refl _))

end MuggleC.Log
