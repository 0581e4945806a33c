import Mathlib.Algebra.Ring.Nat
import Mathlib.Tactic.Common
import BareKernel.Heap.Layout
import BareKernel.Proofs.Heap.Guarantees

/-! Bytes and numbers in the kernel's memory. A write is seen at its own address and nowhere else;
what a client writes into its own loan leaves the heap in order and the bytes of every other loan as
they were. -/

namespace BareKernel

namespace Memory

/-! ## Bytes of a unit -/

/-- The bits of byte `k` are the new byte's, all others the unit's. -/
theorem getLsbD_withByte (u : UInt64) {k t : Nat} (hk : k < 8) (ht : t < 64) (b : UInt8) :
    (withByte u k b).toBitVec.getLsbD t =
      if 8 * k ≤ t ∧ t < 8 * k + 8 then b.toBitVec.getLsbD (t - 8 * k)
      else u.toBitVec.getLsbD t := by
  have mask : ∀ t, (255#64).getLsbD t = (decide (t < 64) && decide (t < 8)) := by
    intro t
    rw [BitVec.getLsbD_ofNat]
    exact congrArg _ (Nat.testBit_two_pow_sub_one 8 t)
  have hk' : 8 * k % 64 = 8 * k := Nat.mod_eq_of_lt (by omega)
  have ht' : t - 8 * k < 64 := by omega
  split
  · rename_i h
    have h₁ : ¬t < 8 * k := by omega
    have h₂ : t - 8 * k < 8 := by omega
    simp [withByte, hk', mask, h₁, h₂, ht, ht']
  · rename_i h
    rcases not_and_or.mp h with h | h
    · simp [withByte, hk', ht, Nat.not_le.mp h]
    · have h₁ : ¬t < 8 * k := by omega
      have h₂ : ¬t - 8 * k < 8 := by omega
      have hb : b.toBitVec.getLsbD (t - 8 * k) = false := BitVec.getLsbD_of_ge _ _ (by omega)
      simpa [withByte, hk', mask, h₁, h₂, hb] using fun _ => ht

theorem getLsbD_byte (u : UInt64) {k i : Nat} (hk : k < 8) (hi : i < 8) :
    (u >>> (8 * k).toUInt64).toUInt8.toBitVec.getLsbD i = u.toBitVec.getLsbD (8 * k + i) := by
  have hk' : 8 * k % 64 = 8 * k := Nat.mod_eq_of_lt (by omega)
  simp [hk', hi]

theorem byte_withByte (u : UInt64) {j k : Nat} (hj : j < 8) (hk : k < 8) (b : UInt8) :
    (withByte u k b >>> (8 * j).toUInt64).toUInt8 =
      if j = k then b else (u >>> (8 * j).toUInt64).toUInt8 := by
  rw [← UInt8.toBitVec_inj]
  refine BitVec.eq_of_getLsbD_eq fun i hi => ?_
  rw [getLsbD_byte _ hj hi, getLsbD_withByte u hk (by omega)]
  by_cases hjk : j = k
  · subst hjk
    rw [if_pos rfl, if_pos ⟨by omega, by omega⟩, Nat.add_sub_cancel_left]
  · rw [if_neg hjk, if_neg (by omega), getLsbD_byte u hj hi]

/-! ## Bytes of a memory -/

variable {m : Memory} {addr addr' : Nat} {b : UInt8}

theorem contains_iff : m.contains addr = true ↔ m.base ≤ addr ∧ addr < m.base + 8 * m.len := by
  simp only [contains, Bool.and_eq_true, decide_eq_true_eq]

@[simp] theorem contains_setByte : (m.setByte addr b).contains addr' = m.contains addr' := by
  unfold setByte
  split
  · simp [contains]
  · rfl

theorem byteAt_setByte : (m.setByte addr b).byteAt addr' =
    if addr = addr' ∧ m.contains addr = true then b else m.byteAt addr' := by
  by_cases hc : m.contains addr = true
  swap
  · rw [if_neg fun h => hc h.2, setByte, if_neg hc]
  simp only [hc, and_true]
  by_cases hc' : m.contains addr' = true
  swap
  · have hne : addr ≠ addr' := fun h => hc' (h ▸ hc)
    rw [if_neg hne, byteAt, byteAt, unitOf, unitOf, contains_setByte, if_neg hc', if_neg hc']
    simp only [setByte, hc, if_true, base_setUnit]
  have hin := contains_iff.mp hc
  have hin' := contains_iff.mp hc'
  have hlt : (addr - m.base) / 8 < m.units.size := by
    unfold len at hin
    omega
  simp only [byteAt, unitOf, contains_setByte, hc', if_true]
  simp only [setByte, hc, if_true, setUnit, Array.getD_eq_getD_getElem?,
    Array.getElem?_setIfInBounds, hlt]
  by_cases hu : (addr - m.base) / 8 = (addr' - m.base) / 8
  · simp only [hu, if_true, Option.getD_some, UInt64.toUInt64_toInt64]
    rw [byte_withByte _ (Nat.mod_lt _ (by decide)) (Nat.mod_lt _ (by decide))]
    by_cases hk : (addr' - m.base) % 8 = (addr - m.base) % 8
    · rw [if_pos hk, if_pos (by omega)]
    · rw [if_neg hk, if_neg fun h => hk (by rw [h])]
  · rw [if_neg hu, if_neg fun h => hu (by rw [h])]

end Memory

namespace KernelMemory

variable {m m' : KernelMemory} {h : Heap} {addr addr' len n : Nat} {b : UInt8} {bytes : List UInt8}

/-! ## Writes elsewhere and at the place itself -/

theorem byteAt_setByte_ne (hne : addr ≠ addr') (b : UInt8) :
    (m.setByte addr b).byteAt addr' = m.byteAt addr' := by
  obtain ⟨ram, checks, heap⟩ := m
  cases heap with
  | none => simp only [setByte, byteAt, Memory.byteAt_setByte, hne, false_and, if_false]
  | some h =>
    unfold setByte
    by_cases hc : h.arena.contains addr = true
    · simp only [hc, if_true, byteAt, Memory.contains_setByte, Memory.byteAt_setByte, hne,
        false_and, if_false]
    · simp only [hc, Bool.false_eq_true, if_false, byteAt, Memory.byteAt_setByte, hne, false_and]

theorem byteAt_setByte_self (hh : m.heap = some h) (hc : h.arena.contains addr = true)
    (b : UInt8) : (m.setByte addr b).byteAt addr = b := by
  obtain ⟨ram, checks, heap⟩ := m
  obtain rfl : heap = some h := hh
  simp only [setByte, hc, if_true, byteAt, Memory.contains_setByte, Memory.byteAt_setByte,
    and_self]

theorem byteAt_setBytes_ne (hout : addr' < addr ∨ addr + bytes.length ≤ addr') :
    (m.setBytes addr bytes).byteAt addr' = m.byteAt addr' := by
  induction bytes generalizing m addr with
  | nil => rfl
  | cons b bytes ih =>
    simp only [List.length_cons] at hout
    rw [setBytes, ih (by omega), byteAt_setByte_ne (by omega)]

/-! ## Bytes in a row -/

theorem bytesAt_congr (h : ∀ k < len, m'.byteAt (addr + k) = m.byteAt (addr + k)) :
    m'.bytesAt addr len = m.bytesAt addr len :=
  List.map_congr_left fun k hk => h k (List.mem_range.mp hk)

@[simp] theorem length_bytesAt : (m.bytesAt addr len).length = len := by simp [bytesAt]

theorem bytesAt_succ : m.bytesAt addr (len + 1) = m.byteAt addr :: m.bytesAt (addr + 1) len := by
  rw [bytesAt, List.range_succ_eq_map, List.map_cons, List.map_map]
  refine congrArg _ (List.map_congr_left fun k _ => ?_)
  rw [Function.comp_apply, Nat.add_right_comm, Nat.add_assoc]

theorem heap_setByte_of_contains (hh : m.heap = some h) (hc : h.arena.contains addr = true) :
    ∃ h', (m.setByte addr b).heap = some h' ∧
      ∀ a, h'.arena.contains a = h.arena.contains a := by
  obtain ⟨v, hv⟩ := setByte_arena hh hc b
  exact ⟨h.setUnit _ v, congrArg (·.heap) hv, Heap.contains_congr rfl (Heap.len_setUnit h _ v)⟩

/-- Bytes are read back as they were written. -/
theorem bytesAt_setBytes (hh : m.heap = some h)
    (hc : ∀ k < bytes.length, h.arena.contains (addr + k) = true) :
    (m.setBytes addr bytes).bytesAt addr bytes.length = bytes := by
  induction bytes generalizing m h addr with
  | nil => rfl
  | cons b bytes ih =>
    have hfirst : h.arena.contains addr = true := hc 0 (Nat.zero_lt_succ _)
    obtain ⟨h', hh', hsame⟩ := heap_setByte_of_contains (b := b) hh hfirst
    have hrest : ∀ k < bytes.length, h'.arena.contains (addr + 1 + k) = true := by
      intro k hk
      rw [hsame, Nat.add_assoc, Nat.add_comm 1]
      exact hc (k + 1) (Nat.succ_lt_succ hk)
    rw [List.length_cons, bytesAt_succ, setBytes, ih hh' hrest,
      byteAt_setBytes_ne (.inl (Nat.lt_succ_self _)), byteAt_setByte_self hh hfirst]

/-! ## Numbers -/

@[simp] theorem length_bytesOf : (bytesOf len n).length = len := by
  induction len generalizing n with
  | zero => rfl
  | succ len ih => rw [bytesOf, List.length_cons, ih]

theorem numberAt_congr (h : ∀ k < len, m'.byteAt (addr + k) = m.byteAt (addr + k)) :
    m'.numberAt addr len = m.numberAt addr len := by
  rw [numberAt, numberAt, bytesAt_congr h]

theorem foldr_bytesOf : (bytesOf len n).foldr (fun b n => b.toNat + 256 * n) 0 = n % 256 ^ len := by
  induction len generalizing n with
  | zero => rw [Nat.pow_zero, Nat.mod_one]; rfl
  | succ len ih =>
    rw [bytesOf, List.foldr_cons, ih, Nat.pow_succ, Nat.mul_comm _ 256, Nat.mod_mul]
    simp

/-- A number is read back as it was written, as far as it fits. -/
theorem numberAt_setNumberAt (hh : m.heap = some h)
    (hc : ∀ k < len, h.arena.contains (addr + k) = true) :
    (m.setNumberAt addr len n).numberAt addr len = n % 256 ^ len := by
  have hread : (m.setBytes addr (bytesOf len n)).bytesAt addr (bytesOf len n).length =
      bytesOf len n := bytesAt_setBytes hh (by simpa using hc)
  rw [length_bytesOf] at hread
  rw [numberAt, setNumberAt, hread, foldr_bytesOf]

end KernelMemory

/-! ## Writes into a loan -/

namespace Session.Follows

open Heap

variable {s : Session} {h : Heap} {p : Plan} {loan other : Loan} {addr k len n : Nat}
  {bytes : List UInt8}

/-- What is held does not depend on the order in which it is listed. -/
theorem perm {live : List Loan} (hf : s.Follows h p) (hp : s.live.Perm live) :
    (Session.mk s.memory live).Follows h p := by
  refine ⟨hf.heap, hf.represents, fun a => ?_, ?_, fun l hl => ?_⟩
  · rw [← (hp.map _).mem_iff]
    exact hf.live a
  · exact (hp.map _).nodup_iff.mp hf.nodup
  · exact hf.fits l (hp.mem_iff.mpr hl)

theorem contains (hf : s.Follows h p) (hl : loan ∈ s.live) (hk : k < loan.bytes) :
    h.arena.contains (loan.addr + k) = true := by
  obtain ⟨e, he, ha, hb⟩ := hf.exists_lent hl
  rw [← ha]
  exact KernelMemory.contains_payload hf.represents he.1 (Nat.le_add_right _ _) (by omega)

/-- Bytes written into a loan leave the heap as orderly as it was. -/
theorem setBytes (hf : s.Follows h p) (hl : loan ∈ s.live) (hle : loan.addr ≤ addr)
    (hin : addr + bytes.length ≤ loan.addr + loan.bytes) :
    ∃ h', (Session.mk (s.memory.setBytes addr bytes) s.live).Follows h' p ∧
      h'.arena.base = h.arena.base := by
  induction bytes generalizing s h addr with
  | nil => exact ⟨h, hf, rfl⟩
  | cons b bytes ih =>
    rw [List.length_cons] at hin
    have hperm : s.Permitted (.write addr b) :=
      ⟨loan, hl, hle, Nat.lt_of_lt_of_le (by omega) (Nat.add_le_add_left (hf.inside hl).2 _)⟩
    obtain ⟨h₁, -, hf₁, hb, -⟩ := hf.write hperm
    rw [← hb]
    exact ih (s := (s.step (.write addr b)).2) hf₁ hl (by omega) (by omega)

/-- Another loan's bytes stay as they were. -/
theorem byteAt_setBytes (hf : s.Follows h p) (hl : loan ∈ s.live) (ho : other ∈ s.live)
    (hne : other.addr ≠ loan.addr) (hle : loan.addr ≤ addr)
    (hin : addr + bytes.length ≤ loan.addr + loan.bytes) (hk : k < other.bytes) :
    (s.memory.setBytes addr bytes).byteAt (other.addr + k) = s.memory.byteAt (other.addr + k) := by
  have hap : loan.Apart other :=
    have : Std.Symm Loan.Apart := ⟨fun _ _ => Or.symm⟩
    hf.apart.forall hl ho fun h => hne (congrArg (·.addr) h.symm)
  refine KernelMemory.byteAt_setBytes_ne ?_
  unfold Loan.Apart at hap
  omega

end Session.Follows

end BareKernel
