/- source: sync/channel.c, sync/ring_buffer.c
   digest: Which capacities let the first message through a fresh channel or ring buffer. -/

import MuggleC.Sync.Channel
import MuggleC.Sync.RingBuffer

set_option autoImplicit false

namespace MuggleC.Sync.FirstMessage

open Base

private theorem lt_exponent_iff {c k : Nat} (hle : c ≤ 2 ^ k) (hlt : 2 ^ k < 2 * c) (j : Nat) :
    j < k ↔ 2 ^ j < c := by
  constructor
  · intro hk
    have hpow : 2 ^ (j + 1) ≤ 2 ^ k := Nat.pow_le_pow_right (by omega) hk
    omega
  · intro hc
    exact (Nat.pow_lt_pow_iff_right (by omega)).mp (Nat.lt_of_lt_of_le hc hle)

/-- On every accepted capacity, the first message of a channel is visible from three on, and that
of a ring buffer from two on unless the compare-exchange of the busy loop fails spuriously. -/
theorem first_message_visible_iff {D : Type} (data : D) (spurious : Bool)
    (capacity flags : BitVec 32) :
    (∀ (null : D) (mutexInit : Err) (malloc : Bool) (chan : Channel D),
      Channel.init null capacity flags mutexInit malloc = .ok chan →
        (chan.FirstMessageVisible data spurious ↔ 3 ≤ capacity.toInt)) ∧
    (∀ (env : RingBuffer.Env D) (r : RingBuffer D), RingBuffer.init capacity flags env = .ok r →
        (r.FirstMessageVisible data spurious ↔ 2 ≤ capacity.toInt ∧
          (RingBuffer.getWriteMode flags = .busyLoop → spurious = false))) := by
  constructor
  · intro null mutexInit malloc chan hi
    obtain ⟨k, hk⟩ := Channel.init_fresh hi
    have hc := lt_exponent_iff hk.le_capacity hk.capacity_lt 1
    have hr := hk.requested
    rw [hk.firstMessageVisible_iff]
    omega
  · intro env r hi
    obtain ⟨k, hk⟩ := RingBuffer.init_fresh hi
    have hc := lt_exponent_iff hk.le_capacity hk.capacity_lt 0
    have hr := hk.requested
    have hcap : 1 ≤ k ↔ 2 ≤ capacity.toInt := by omega
    rw [hk.firstMessageVisible_iff, hk.writeMode_eq, hcap]

def twoDatas : RingBuffer Nat := ⟨2#32, 4#32, .busyLoop, .wait, 0#32, 0#32, 0#32, [9, 9]⟩

theorem first_message_visible_iff_four :
    ((Channel.fourBlocks 0).FirstMessageVisible 7 false ↔ 3 ≤ (4#32).toInt) ∧
      (twoDatas.FirstMessageVisible 7 false ↔ 2 ≤ (2#32).toInt ∧
        (RingBuffer.getWriteMode 4#32 = .busyLoop → false = false)) :=
  ⟨(first_message_visible_iff 7 false 4#32 0#32).1 0 .ok true (.fourBlocks 0) rfl,
    (first_message_visible_iff 7 false 2#32 4#32).2 ⟨.ok, .ok, .ok, some fun _ => 9⟩ twoDatas rfl⟩

/-- Capacity one hides the message from the reader of either structure, and a channel of capacity
two refuses it. -/
theorem small_capacity_loses_message : ¬ ((∀ (capacity flags : BitVec 32) (chan : Channel Nat),
          Channel.init 0 capacity flags .ok true = .ok chan → chan.FirstMessageVisible 7 false) ∨
        (∀ (capacity flags : BitVec 32) (chan : Channel Nat),
          Channel.init 0 capacity flags .ok true = .ok chan → ∃ chan',
            chan.write 7 false = some (.ok, chan')) ∨
        (∀ (capacity flags : BitVec 32) (r : RingBuffer Nat),
          RingBuffer.init capacity flags ⟨.ok, .ok, .ok, some fun _ => 9⟩ = .ok r →
            r.FirstMessageVisible 7 false)) := by
  rintro (h | h | h)
  · obtain ⟨chan', hw, hr⟩ := h 1#32 0#32 ⟨1#32, 0#32, .mutex, .futex, 0#32, 0#32, .unlock, [0]⟩ rfl
    obtain rfl : chan' = ⟨1#32, 0#32, .mutex, .futex, 1#32, 0#32, .unlock, [7]⟩ :=
      (Prod.mk.inj (Option.some.inj hw)).2.symm
    exact absurd hr (by decide)
  · obtain ⟨chan', hw⟩ := h 2#32 0#32 ⟨2#32, 0#32, .mutex, .futex, 0#32, 1#32, .unlock, [0, 0]⟩ rfl
    exact absurd (Prod.mk.inj (Option.some.inj hw)).1 (by decide)
  · obtain ⟨r', hw, hr⟩ := h 1#32 0#32 ⟨1#32, 0#32, .lock, .wait, 0#32, 0#32, 0#32, [9]⟩ rfl
    obtain rfl : r' = ⟨1#32, 0#32, .lock, .wait, 0#32, 1#32, 0#32, [7]⟩ :=
      (Prod.mk.inj (Option.some.inj hw)).2.symm
    exact absurd hr (by decide)

end MuggleC.Sync.FirstMessage
