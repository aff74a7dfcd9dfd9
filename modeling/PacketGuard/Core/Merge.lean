import PacketGuard.Core.Ip
import PacketGuard.Lib.Uncovered

/-! # Merging address ranges

`merge_ranges` sorts the ranges and drops each one that a range kept before it
covers.  Two ranges with masked networks are apart or one lies in the other, and
the wider one comes first in the order; so the ranges that stay are disjoint.
-/
namespace PacketGuard.Core
open PacketGuard.Lib

/-- The order that `merge_ranges` sorts by. -/
def CIDRRange.less (a b : CIDRRange) : Bool :=
  if a.network.value ≠ b.network.value then decide (a.network.value < b.network.value)
  else decide (a.prefixLength < b.prefixLength)

/-- `existing.prefix <= r.prefix && existing.contains(r.network)`. -/
def CIDRRange.covers (existing r : CIDRRange) : Bool :=
  decide (existing.prefixLength ≤ r.prefixLength) && existing.contains r.network

/-- `std::sort`, then the loop.  No two ranges that differ are equal in the order, so a stable
sort has the same result. -/
def mergeRanges (ranges : List CIDRRange) : List CIDRRange :=
  keepSorted CIDRRange.covers (fun a b => !b.less a) ranges

/-! ## The order -/

theorem CIDRRange.not_less_iff (a b : CIDRRange) :
    (!b.less a) = true ↔ a.network.value.toNat < b.network.value.toNat ∨
      a.network.value.toNat = b.network.value.toNat ∧ a.prefixLength ≤ b.prefixLength := by
  rw [Bool.not_eq_true', CIDRRange.less]
  split
  · rename_i hne
    rw [ne_eq, BitVec.toNat_inj.symm] at hne
    rw [decide_eq_false_iff_not, BitVec.lt_def]
    omega
  · rename_i heq
    rw [ne_eq, not_not, BitVec.toNat_inj.symm] at heq
    rw [decide_eq_false_iff_not]
    omega

theorem CIDRRange.ext_toNat {a b : CIDRRange}
    (hnetwork : a.network.value.toNat = b.network.value.toNat)
    (hlength : a.prefixLength = b.prefixLength) : a = b := by
  obtain ⟨⟨network⟩, length⟩ := a
  obtain ⟨⟨network'⟩, length'⟩ := b
  cases hlength
  cases BitVec.eq_of_toNat_eq hnetwork
  rfl

/-! ## Masked ranges -/

/-- The bits beyond the prefix of the network are zero. -/
def CIDRRange.Masked (r : CIDRRange) : Prop := r.masked = r

instance (r : CIDRRange) : Decidable r.Masked := inferInstanceAs (Decidable (r.masked = r))

theorem CIDRRange.Masked.network_and {r : CIDRRange} (h : r.Masked) :
    r.network.value &&& cidrMask r.prefixLength = r.network.value :=
  congrArg (fun r : CIDRRange => r.network.value) h

theorem CIDRRange.Masked.contains_iff {r : CIDRRange} (h : r.Masked) (ip : IPv4Address) :
    r.contains ip = true ↔ ip.value &&& cidrMask r.prefixLength = r.network.value := by
  rw [CIDRRange.contains, beq_iff_eq, h.network_and]

theorem CIDRRange.covers_iff {r s : CIDRRange} :
    r.covers s = true ↔ r.prefixLength ≤ s.prefixLength ∧ r.contains s.network = true := by
  rw [CIDRRange.covers, Bool.and_eq_true, decide_eq_true_iff]

theorem CIDRRange.Masked.contains_network {r : CIDRRange} (h : r.Masked) :
    r.contains r.network = true :=
  (h.contains_iff r.network).mpr h.network_and

/-- What an inner range contains, the outer one does. -/
theorem CIDRRange.Masked.contains_of_covers {r s : CIDRRange} (hr : r.Masked) (hs : s.Masked)
    (hcovers : r.covers s = true) {ip : IPv4Address} (h : s.contains ip = true) :
    r.contains ip = true := by
  obtain ⟨hle, hnetwork⟩ := CIDRRange.covers_iff.mp hcovers
  rw [hs.contains_iff] at h
  rw [hr.contains_iff] at hnetwork ⊢
  calc ip.value &&& cidrMask r.prefixLength
      = ip.value &&& cidrMask s.prefixLength &&& cidrMask r.prefixLength := by
        rw [BitVec.and_assoc, cidrMask_and_of_le hle]
    _ = s.network.value &&& cidrMask r.prefixLength := by rw [h]
    _ = r.network.value := hnetwork

/-- **Two ranges with a common address** are nested. -/
theorem CIDRRange.Masked.covers_of_contains {r s : CIDRRange} (hr : r.Masked) (hs : s.Masked)
    {ip : IPv4Address} (hrip : r.contains ip = true) (hsip : s.contains ip = true) :
    r.covers s = true ∨ s.covers r = true := by
  rw [hr.contains_iff] at hrip
  rw [hs.contains_iff] at hsip
  rcases Nat.le_total r.prefixLength s.prefixLength with hle | hle
  · refine .inl (CIDRRange.covers_iff.mpr ⟨hle, (hr.contains_iff _).mpr ?_⟩)
    rw [← hsip, BitVec.and_assoc, cidrMask_and_of_le hle, hrip]
  · refine .inr (CIDRRange.covers_iff.mpr ⟨hle, (hs.contains_iff _).mpr ?_⟩)
    rw [← hrip, BitVec.and_assoc, cidrMask_and_of_le hle, hsip]

/-- The wider range starts at the same address or before. -/
theorem CIDRRange.Masked.network_le_of_covers {r s : CIDRRange} (hr : r.Masked)
    (hcovers : r.covers s = true) :
    r.network.value.toNat ≤ s.network.value.toNat := by
  have hnetwork := (hr.contains_iff _).mp (CIDRRange.covers_iff.mp hcovers).2
  rw [← hnetwork, BitVec.toNat_and]
  exact Nat.and_le_left

theorem forwardCover :
    ForwardCover (fun a b : CIDRRange => !b.less a) CIDRRange.covers CIDRRange.Masked where
  le_trans a b c hab hbc := by
    rw [CIDRRange.not_less_iff] at hab hbc ⊢
    omega
  le_total a b := by
    rw [Bool.or_eq_true, CIDRRange.not_less_iff, CIDRRange.not_less_iff]
    omega
  le_antisymm a b hab hba := by
    rw [CIDRRange.not_less_iff] at hab hba
    exact CIDRRange.ext_toNat (by omega) (by omega)
  refl h := CIDRRange.covers_iff.mpr ⟨Nat.le_refl _, h.contains_network⟩
  trans ha hb hab hbc :=
    have hlength := Nat.le_trans (CIDRRange.covers_iff.mp hab).1 (CIDRRange.covers_iff.mp hbc).1
    CIDRRange.covers_iff.mpr ⟨hlength, ha.contains_of_covers hb hab (CIDRRange.covers_iff.mp hbc).2⟩
  forward {a b} ha hab := by
    have hnetwork := ha.network_le_of_covers hab
    have hlength := (CIDRRange.covers_iff.mp hab).1
    rw [CIDRRange.not_less_iff]
    omega

/-! ## The merged ranges -/

theorem mergeRanges_subperm (ranges : List CIDRRange) : (mergeRanges ranges).Subperm ranges :=
  (ForwardCover.keepSorted_sublist ranges).subperm.trans (List.mergeSort_perm ranges _).subperm

theorem masked_of_mem_mergeRanges {ranges : List CIDRRange} (h : ∀ r ∈ ranges, r.Masked) :
    ∀ r ∈ mergeRanges ranges, r.Masked :=
  fun r hr => h r ((mergeRanges_subperm ranges).subset hr)

/-- Ranges that stay have no address in common. -/
theorem mergeRanges_disjoint {ranges : List CIDRRange} (h : ∀ r ∈ ranges, r.Masked) :
    (mergeRanges ranges).Pairwise fun r s =>
    ∀ ip, ¬ (r.contains ip = true ∧ s.contains ip = true) := by
  refine (forwardCover.pairwise_keepSorted h).imp_of_mem ?_
  rintro r s hr hs ⟨hrs, hsr⟩ ip ⟨hrip, hsip⟩
  have hmasked := masked_of_mem_mergeRanges h
  rcases (hmasked r hr).covers_of_contains (hmasked s hs) hrip hsip with hcovers | hcovers
  · rw [hrs] at hcovers
    cases hcovers
  · rw [hsr] at hcovers
    cases hcovers

theorem mergeRanges_sorted {ranges : List CIDRRange} (h : ∀ r ∈ ranges, r.Masked) :
    (mergeRanges ranges).Pairwise fun r s => r.network.value < s.network.value := by
  refine ((mergeRanges_disjoint h).and (forwardCover.pairwise_le_keepSorted ranges)).imp_of_mem ?_
  rintro r s hr hs ⟨hdisjoint, hle⟩
  have hmasked := masked_of_mem_mergeRanges h
  rw [CIDRRange.not_less_iff] at hle
  rw [BitVec.lt_def]
  refine hle.resolve_right fun heq => ?_
  -- two ranges that start at the same address share it
  refine hdisjoint r.network ⟨(hmasked r hr).contains_network, ?_⟩
  have hstart : r.network = s.network := congrArg IPv4Address.mk (BitVec.eq_of_toNat_eq heq.1)
  rw [hstart]
  exact (hmasked s hs).contains_network

theorem contains_mergeRanges_iff {ranges : List CIDRRange} (h : ∀ r ∈ ranges, r.Masked)
    (ip : IPv4Address) :
    (∃ r ∈ mergeRanges ranges, r.contains ip = true) ↔ ∃ r ∈ ranges, r.contains ip = true := by
  constructor
  · rintro ⟨r, hr, hip⟩
    exact ⟨r, (mergeRanges_subperm ranges).subset hr, hip⟩
  · rintro ⟨r, hr, hip⟩
    obtain ⟨s, hs, hcovers⟩ := forwardCover.exists_covers_keepSorted h hr
    exact ⟨s, hs, (masked_of_mem_mergeRanges h s hs).contains_of_covers (h r hr) hcovers hip⟩

/-- **Merging** keeps the addresses and removes every overlap, whatever the order and the
repetitions of the ranges, and a second time it changes nothing. -/
theorem mergeRanges_merged (ranges : List CIDRRange) (h : ∀ r ∈ ranges, r.Masked) :
    (mergeRanges ranges).Subperm ranges ∧
      ((mergeRanges ranges).Pairwise fun r s =>
        ∀ ip, ¬ (r.contains ip = true ∧ s.contains ip = true)) ∧
      ((mergeRanges ranges).Pairwise fun r s => r.network.value < s.network.value) ∧
      (∀ ip, (∃ r ∈ mergeRanges ranges, r.contains ip = true) ↔
        ∃ r ∈ ranges, r.contains ip = true) ∧
      (∀ ranges', (∀ r, r ∈ ranges' ↔ r ∈ ranges) → mergeRanges ranges' = mergeRanges ranges) ∧
      mergeRanges (mergeRanges ranges) = mergeRanges ranges :=
  ⟨mergeRanges_subperm ranges, mergeRanges_disjoint h, mergeRanges_sorted h,
    contains_mergeRanges_iff h,
    fun _ hsame => forwardCover.keepSorted_congr h hsame, forwardCover.keepSorted_keepSorted h⟩

/-- A range inside another one, and that one twice, in either order. -/
theorem mergeRanges_merged_nested :
    mergeRanges [⟨⟨0x0a000000⟩, 8⟩, ⟨⟨0x0a010000⟩, 16⟩, ⟨⟨0x0a000000⟩, 8⟩] =
      mergeRanges [⟨⟨0x0a010000⟩, 16⟩, ⟨⟨0x0a000000⟩, 8⟩] :=
  (mergeRanges_merged [⟨⟨0x0a010000⟩, 16⟩, ⟨⟨0x0a000000⟩, 8⟩] (by decide)).2.2.2.2.1
    [⟨⟨0x0a000000⟩, 8⟩, ⟨⟨0x0a010000⟩, 16⟩, ⟨⟨0x0a000000⟩, 8⟩]
    (by
      intro r
      simp only [List.mem_cons, List.not_mem_nil, or_false]
      tauto)

end PacketGuard.Core
