/- digest: Comparators, the maps that entries in their order are, and those of entries in buckets. -/

import Mathlib.Data.List.Nodup

namespace MuggleC.Foundation.OrderedMap

open List

variable {κ ν : Type}

/-- The sign of the comparator orders the keys totally; zero says that two keys are the same. -/
structure TotalOrder (cmp : κ → κ → Int) : Prop where
  swap : ∀ a b, cmp a b < 0 ↔ 0 < cmp b a
  trans : ∀ a b c, cmp a b ≤ 0 → cmp b c ≤ 0 → cmp a c ≤ 0

namespace TotalOrder

variable {cmp : κ → κ → Int} (h : TotalOrder cmp) {a b c : κ}

include h

theorem zero_comm (hab : cmp a b = 0) : cmp b a = 0 := by
  have hlt := h.swap a b
  have hgt := h.swap b a
  omega

theorem lt_of_lt_of_le (hab : cmp a b < 0) (hbc : cmp b c ≤ 0) : cmp a c < 0 := by
  have hba := (h.swap a b).mp hab
  have hac := h.trans a b c (by omega) hbc
  rcases Int.lt_or_eq_of_le hac with hlt | heq
  · exact hlt
  · have hle := h.trans b c a hbc (Int.le_of_eq (h.zero_comm heq))
    omega

theorem lt_of_le_of_lt (hab : cmp a b ≤ 0) (hbc : cmp b c < 0) : cmp a c < 0 := by
  have hcb := (h.swap b c).mp hbc
  have hac := h.trans a b c hab (by omega)
  rcases Int.lt_or_eq_of_le hac with hlt | heq
  · exact hlt
  · have hle := h.trans c a b (Int.le_of_eq (h.zero_comm heq)) hab
    omega

end TotalOrder

theorem totalOrder_sub (measure : κ → Int) : TotalOrder fun a b => measure a - measure b := by
  constructor
  · omega
  · omega

/-- What is absent counts as zero. -/
def difference (measure : κ → Int) (a b : Option κ) : Int := a.elim 0 measure - b.elim 0 measure

theorem difference_total (measure : κ → Int) : TotalOrder (difference measure) :=
  totalOrder_sub fun k : Option κ => k.elim 0 measure

theorem difference_equivalence (measure : κ → Int) :
    Equivalence fun a b => difference measure a b = 0 := by
  simp only [difference, Int.sub_eq_zero]
  exact ⟨fun _ => rfl, Eq.symm, Eq.trans⟩

theorem exists_totalOrder {P : κ → Prop} {cmp : κ → κ → Int}
    (h : TotalOrder fun a b : {k // P k} => cmp a.1 b.1) :
    ∃ order : κ → κ → Int, TotalOrder order ∧ ∀ a b, P a → P b → cmp a b = order a b := by
  classical
  -- the other keys are the same to each other and come last
  refine ⟨fun a b => if P a then (if P b then cmp a b else -1) else if P b then 1 else 0, ⟨?_, ?_⟩, ?_⟩
  · intro a b
    by_cases ha : P a
    · by_cases hb : P b
      · simpa [ha, hb] using h.swap ⟨a, ha⟩ ⟨b, hb⟩
      · simp [ha, hb]
    · by_cases hb : P b
      · simp [ha, hb]
      · simp [ha, hb]
  · intro a b c
    by_cases ha : P a
    · by_cases hc : P c
      · by_cases hb : P b
        · simpa [ha, hb, hc] using h.trans ⟨a, ha⟩ ⟨b, hb⟩ ⟨c, hc⟩
        · simp [ha, hb, hc]
      · simp [ha, hc]
    · by_cases hb : P b
      · simp [ha, hb]
      · by_cases hc : P c
        · simp [ha, hb, hc]
        · simp [ha, hc]
  · intro a b ha hb
    simp [ha, hb]

section Entries

variable (cmp : κ → κ → Int)

def Ordered (l : List (κ × ν)) : Prop := l.Pairwise fun e f => cmp e.1 f.1 < 0

def lookup (l : List (κ × ν)) (k : κ) : Option (κ × ν) := l.find? fun e => cmp k e.1 = 0

/-- The map with one more entry, and the map without one key. -/
def added (m : κ → Option (κ × ν)) (e : κ × ν) (k : κ) : Option (κ × ν) :=
  if cmp k e.1 = 0 then some e else m k

def erased (m : κ → Option (κ × ν)) (key k : κ) : Option (κ × ν) :=
  if cmp k key = 0 then none else m k

variable {cmp} {l A B : List (κ × ν)} {e : κ × ν} {k : κ}

theorem lookup_eq_none : lookup cmp l k = none ↔ ∀ e ∈ l, cmp k e.1 ≠ 0 := by
  simp [lookup]

theorem ordered_middle (h : Ordered cmp (A ++ e :: B)) :
    (∀ f ∈ A, cmp f.1 e.1 < 0) ∧ (∀ f ∈ B, cmp e.1 f.1 < 0) ∧ Ordered cmp (A ++ B) := by
  rw [Ordered, pairwise_append, pairwise_cons] at h
  obtain ⟨hA, ⟨heB, hB⟩, hAB⟩ := h
  refine ⟨fun f hf => hAB f hf e mem_cons_self, heB, ?_⟩
  exact pairwise_append.mpr ⟨hA, hB, fun f hf g hg => hAB f hf g (mem_cons_of_mem e hg)⟩

variable (ho : TotalOrder cmp)

include ho

theorem ordered_added (h : Ordered cmp (A ++ B)) (hA : ∀ f ∈ A, cmp f.1 e.1 < 0)
    (hB : ∀ f ∈ B, cmp e.1 f.1 < 0) : Ordered cmp (A ++ e :: B) := by
  obtain ⟨hA', hB', hAB⟩ := pairwise_append.mp h
  refine pairwise_append.mpr ⟨hA', pairwise_cons.mpr ⟨hB, hB'⟩, ?_⟩
  intro f hf g hg
  rcases mem_cons.mp hg with rfl | hg
  · exact hA f hf
  · exact ho.lt_of_lt_of_le (hA f hf) (Int.le_of_lt (hB g hg))

theorem absent_beside (hA : ∀ f ∈ A, cmp f.1 e.1 < 0) (hB : ∀ f ∈ B, cmp e.1 f.1 < 0)
    (hk : cmp k e.1 = 0) : lookup cmp (A ++ B) k = none := by
  rw [lookup_eq_none]
  intro f hf hkf
  rcases mem_append.mp hf with hf | hf
  · have hlt := ho.lt_of_lt_of_le (hA f hf) (Int.le_of_eq (ho.zero_comm hk))
    have hzero := ho.zero_comm hkf
    omega
  · have hlt := ho.lt_of_le_of_lt (Int.le_of_eq hk) (hB f hf)
    omega

theorem lookup_middle (h : Ordered cmp (A ++ e :: B)) :
    lookup cmp (A ++ e :: B) = added cmp (lookup cmp (A ++ B)) e := by
  obtain ⟨hA, hB, _⟩ := ordered_middle h
  funext k
  rw [added]
  split
  · next hk =>
    have hnone := absent_beside ho hA hB hk
    rw [lookup, find?_append, Option.or_eq_none_iff] at hnone
    rw [lookup, find?_append, hnone.1, Option.none_or, find?_cons_of_pos (by simpa using hk)]
  · next hk =>
    rw [lookup, lookup, find?_append, find?_append, find?_cons_of_neg (by simpa using hk)]

theorem lookup_of_mem (h : Ordered cmp l) (he : e ∈ l) (hk : cmp k e.1 = 0) :
    lookup cmp l k = some e := by
  obtain ⟨A, B, rfl⟩ := append_of_mem he
  rw [lookup_middle ho h, added, if_pos hk]

theorem lookup_removed (h : Ordered cmp (A ++ e :: B)) :
    lookup cmp (A ++ B) = erased cmp (lookup cmp (A ++ e :: B)) e.1 := by
  obtain ⟨hA, hB, _⟩ := ordered_middle h
  funext k
  rw [erased]
  split
  · next hk => exact absent_beside ho hA hB hk
  · next hk => rw [lookup_middle ho h, added, if_neg hk]

end Entries

section Unordered

/-- The map takes every key to the entry that has the same key. -/
def IsMapOf (cmp : κ → κ → Int) (stored : κ × ν → Prop) (m : κ → Option (κ × ν)) : Prop :=
  ∀ k e, m k = some e ↔ stored e ∧ cmp k e.1 = 0

variable {cmp : κ → κ → Int} {stored stored' : κ × ν → Prop} {m : κ → Option (κ × ν)} {e : κ × ν}

theorem IsMapOf.eq_none (h : IsMapOf cmp stored m) {k : κ} :
    m k = none ↔ ∀ f, stored f → cmp k f.1 ≠ 0 := by
  rw [Option.eq_none_iff_forall_ne_some]
  constructor
  · intro hm f hf hk
    exact hm f ((h k f).mpr ⟨hf, hk⟩)
  · intro hall f hm
    obtain ⟨hf, hk⟩ := (h k f).mp hm
    exact hall f hf hk

variable (heq : Equivalence fun a b => cmp a b = 0)

include heq

theorem IsMapOf.added (h : IsMapOf cmp stored m) (hnew : ∀ f, stored f → cmp f.1 e.1 ≠ 0)
    (hstored : ∀ f, stored' f ↔ f = e ∨ stored f) : IsMapOf cmp stored' (added cmp m e) := by
  intro k f
  rw [OrderedMap.added, hstored]
  split
  · next hk =>
    constructor
    · intro he
      cases he
      exact ⟨.inl rfl, hk⟩
    · rintro ⟨rfl | hf, hkf⟩
      · rfl
      · exact absurd (heq.trans (heq.symm hkf) hk) (hnew f hf)
  · next hk =>
    rw [h k f]
    constructor
    · intro ⟨hf, hkf⟩
      exact ⟨.inr hf, hkf⟩
    · rintro ⟨rfl | hf, hkf⟩
      · exact absurd hkf hk
      · exact ⟨hf, hkf⟩

theorem IsMapOf.erased (h : IsMapOf cmp stored m) (hother : ∀ f, stored' f → cmp f.1 e.1 ≠ 0)
    (hstored : ∀ f, stored f ↔ f = e ∨ stored' f) : IsMapOf cmp stored' (erased cmp m e.1) := by
  intro k f
  rw [OrderedMap.erased]
  split
  · next hk =>
    constructor
    · intro hf
      cases hf
    · intro ⟨hf, hkf⟩
      exact absurd (heq.trans (heq.symm hkf) hk) (hother f hf)
  · next hk =>
    rw [h k f, hstored]
    constructor
    · rintro ⟨rfl | hf, hkf⟩
      · exact absurd hkf hk
      · exact ⟨hf, hkf⟩
    · intro ⟨hf, hkf⟩
      exact ⟨.inr hf, hkf⟩

end Unordered

end MuggleC.Foundation.OrderedMap

namespace MuggleC.Foundation.Buckets

open Foundation.OrderedMap Function List

variable {α κ ν : Type} [DecidableEq α] {stored : α → Option (κ × ν)} {a : α} {e : κ × ν}

/-- Every stored entry is once in the bucket of its key, and the buckets hold nothing else. -/
structure Filed (size : Nat) (idx : κ → Nat) (stored : α → Option (κ × ν))
    (chains : Nat → List α) : Prop where
  distinct : ∀ i, i < size → (chains i).Nodup
  stored_of_mem : ∀ i, i < size → ∀ a ∈ chains i, ∃ e, stored a = some e ∧ idx e.1 = i
  mem_of_stored : ∀ a e, stored a = some e → idx e.1 < size ∧ a ∈ chains (idx e.1)

section Filed

variable {size : Nat} {idx : κ → Nat} {chains : Nat → List α}

omit [DecidableEq α] in
theorem Filed.apart (h : Filed size idx stored chains) {i j : Nat} (hi : i < size) (hj : j < size)
    (hai : a ∈ chains i) (haj : a ∈ chains j) : i = j := by
  obtain ⟨e, he, hie⟩ := h.stored_of_mem i hi a hai
  obtain ⟨f, hf, hjf⟩ := h.stored_of_mem j hj a haj
  obtain rfl := Option.some.inj (he.symm.trans hf)
  exact hie.symm.trans hjf

omit [DecidableEq α] in
theorem Filed.not_mem (h : Filed size idx stored chains) (ha : stored a = none) {i : Nat}
    (hi : i < size) : a ∉ chains i := by
  intro hmem
  obtain ⟨e, he, _⟩ := h.stored_of_mem i hi a hmem
  rw [ha] at he
  cases he

theorem Filed.insert (h : Filed size idx stored chains) (ha : stored a = none)
    (hidx : idx e.1 < size) : Filed size idx (update stored a (some e))
      (update chains (idx e.1) (a :: chains (idx e.1))) := by
  have hself : a ∈ update chains (idx e.1) (a :: chains (idx e.1)) (idx e.1) := by
    rw [update_self]
    exact mem_cons_self
  have hold : ∀ i b, b ∈ chains i → b ∈ update chains (idx e.1) (a :: chains (idx e.1)) i := by
    intro i b hb
    by_cases hi : i = idx e.1
    · rw [hi] at hb ⊢
      rw [update_self]
      exact mem_cons_of_mem a hb
    · rwa [update_of_ne hi]
  constructor
  · intro i hi
    by_cases hie : i = idx e.1
    · rw [hie, update_self]
      exact nodup_cons.mpr ⟨h.not_mem ha hidx, h.distinct _ hidx⟩
    · rw [update_of_ne hie]
      exact h.distinct i hi
  · intro i hi b hb
    by_cases hba : b = a
    · rw [hba, update_self]
      refine ⟨e, rfl, ?_⟩
      by_contra hie
      rw [update_of_ne fun he => hie he.symm, hba] at hb
      exact h.not_mem ha hi hb
    · rw [update_of_ne hba]
      refine h.stored_of_mem i hi b ?_
      by_cases hie : i = idx e.1
      · rw [hie, update_self] at hb
        exact hie ▸ mem_of_ne_of_mem hba hb
      · rwa [update_of_ne hie] at hb
  · intro b f hf
    by_cases hba : b = a
    · rw [hba, update_self] at hf
      cases hf
      exact ⟨hidx, hba ▸ hself⟩
    · rw [update_of_ne hba] at hf
      obtain ⟨hlt, hmem⟩ := h.mem_of_stored b f hf
      exact ⟨hlt, hold _ b hmem⟩

theorem Filed.erase (h : Filed size idx stored chains) :
    Filed size idx (update stored a none) fun i => (chains i).erase a := by
  constructor
  · intro i hi
    exact (h.distinct i hi).erase a
  · intro i hi b hb
    obtain ⟨hba, hmem⟩ := (h.distinct i hi).mem_erase_iff.mp hb
    rw [update_of_ne hba]
    exact h.stored_of_mem i hi b hmem
  · intro b f hf
    by_cases hba : b = a
    · rw [hba, update_self] at hf
      cases hf
    · rw [update_of_ne hba] at hf
      obtain ⟨hlt, hmem⟩ := h.mem_of_stored b f hf
      exact ⟨hlt, (mem_erase_of_ne hba).mpr hmem⟩

end Filed

/-- No two stored keys are the same, and the entries are those of the map. -/
structure Keyed (cmp : κ → κ → Int) (stored : α → Option (κ × ν)) (m : κ → Option (κ × ν)) :
    Prop where
  unique : ∀ a b e f, stored a = some e → stored b = some f → cmp e.1 f.1 = 0 → a = b
  contents : IsMapOf cmp (fun e => ∃ a, stored a = some e) m

section Keyed

variable {cmp : κ → κ → Int} {m : κ → Option (κ × ν)} (heq : Equivalence fun a b => cmp a b = 0)

include heq

theorem Keyed.insert (h : Keyed cmp stored m) (ha : stored a = none) (he : m e.1 = none) :
    Keyed cmp (update stored a (some e)) (added cmp m e) := by
  have hnew : ∀ b f, stored b = some f → cmp e.1 f.1 ≠ 0 := fun b f hf =>
    h.contents.eq_none.mp he f ⟨b, hf⟩
  have hsome : ∀ b f, update stored a (some e) b = some f ↔
      (b = a ∧ f = e) ∨ stored b = some f := by
    intro b f
    by_cases hba : b = a
    · rw [hba, update_self, ha, Option.some.injEq, and_iff_right rfl, eq_comm]
      exact (or_iff_left (Option.some_ne_none f).symm).symm
    · rw [update_of_ne hba]
      exact (or_iff_right fun hf => hba hf.1).symm
  constructor
  · intro b c f g hf hg hfg
    rcases (hsome b f).mp hf with ⟨hba, hfe⟩ | hf
    · rcases (hsome c g).mp hg with ⟨hca, _⟩ | hg
      · exact hba.trans hca.symm
      · exact absurd hfg (hfe ▸ hnew c g hg)
    · rcases (hsome c g).mp hg with ⟨_, hge⟩ | hg
      · exact absurd (heq.symm hfg) (hge ▸ hnew b f hf)
      · exact h.unique b c f g hf hg hfg
  · refine h.contents.added heq ?_ ?_
    · intro f ⟨b, hf⟩ hzero
      exact hnew b f hf (heq.symm hzero)
    · intro f
      constructor
      · intro ⟨b, hf⟩
        exact ((hsome b f).mp hf).imp And.right fun hf => ⟨b, hf⟩
      · rintro (rfl | ⟨b, hf⟩)
        · exact ⟨a, (hsome a f).mpr (.inl ⟨rfl, rfl⟩)⟩
        · exact ⟨b, (hsome b f).mpr (.inr hf)⟩

theorem Keyed.erase (h : Keyed cmp stored m) (ha : stored a = some e) :
    Keyed cmp (update stored a none) (erased cmp m e.1) := by
  have hsome : ∀ b f, update stored a none b = some f ↔ b ≠ a ∧ stored b = some f := by
    intro b f
    by_cases hba : b = a
    · rw [hba, update_self]
      exact iff_of_false (Option.some_ne_none f).symm fun hf => hf.1 rfl
    · rw [update_of_ne hba]
      exact (and_iff_right hba).symm
  constructor
  · intro b c f g hf hg
    exact h.unique b c f g ((hsome b f).mp hf).2 ((hsome c g).mp hg).2
  · refine h.contents.erased heq ?_ ?_
    · intro f ⟨b, hf⟩ hzero
      obtain ⟨hba, hf⟩ := (hsome b f).mp hf
      exact hba (h.unique b a f e hf ha hzero)
    · intro f
      constructor
      · intro ⟨b, hf⟩
        by_cases hba : b = a
        · rw [hba, ha] at hf
          exact .inl (Option.some.inj hf).symm
        · exact .inr ⟨b, (hsome b f).mpr ⟨hba, hf⟩⟩
      · rintro (rfl | ⟨b, hf⟩)
        · exact ⟨a, ha⟩
        · exact ⟨b, ((hsome b f).mp hf).2⟩

end Keyed

/-- A list of the places that are in use. -/
structure Lists (nodes : List α) (stored : α → Option (κ × ν)) : Prop where
  nodup : nodes.Nodup
  mem_iff : ∀ a, a ∈ nodes ↔ ∃ e, stored a = some e

theorem Lists.insert {nodes : List α} (h : Lists nodes stored) (ha : stored a = none) :
    Lists (a :: nodes) (update stored a (some e)) := by
  constructor
  · refine nodup_cons.mpr ⟨?_, h.nodup⟩
    intro hmem
    obtain ⟨f, hf⟩ := (h.mem_iff a).mp hmem
    rw [ha] at hf
    cases hf
  · intro b
    rw [mem_cons, h.mem_iff]
    by_cases hba : b = a
    · rw [hba, update_self]
      exact ⟨fun _ => ⟨e, rfl⟩, fun _ => .inl rfl⟩
    · rw [update_of_ne hba]
      exact or_iff_right hba

theorem Lists.erase {nodes : List α} (h : Lists nodes stored) :
    Lists (nodes.erase a) (update stored a none) := by
  constructor
  · exact h.nodup.erase a
  · intro b
    rw [h.nodup.mem_erase_iff, h.mem_iff]
    by_cases hba : b = a
    · rw [hba, update_self]
      exact iff_of_false (fun hb => hb.1 rfl) fun ⟨f, hf⟩ => Option.some_ne_none f hf.symm
    · rw [update_of_ne hba]
      exact and_iff_right hba

end MuggleC.Foundation.Buckets
