import AstralOS.Lib.Bytes
import AstralOS.Lib.Run

/-!
# The numbers of the CPUs

`init_bsp` and `register_ap` of `arch/x86_64/cpu.rs`.  The counter of the numbers and that of the CPUs have eight bits, while
the table has 256 entries: the test against the size of the table never fails, the 255th call makes the number of CPUs zero,
and the 256th hands out the number of the bootstrap processor.
-/

namespace AstralOS.Arch

open Function List BitVec

def maxCpus : Nat := 256

structure CpuInfo where
  id : BitVec 8
  apicId : BitVec 32
  online : Bool
  bsp : Bool

structure PerCpuData where
  info : CpuInfo
  kernelStack : BitVec 64
  tssRsp0 : BitVec 64

structure Cpus where
  data : BitVec 8 → PerCpuData
  cpuCount : BitVec 8
  nextCpuId : BitVec 8

/-- A call that registers a CPU; `stack` is the top of the frame for its stack, if there is one. -/
structure Registration where
  apicId : BitVec 32
  stack : Option (BitVec 64)

namespace Cpus

/-- The entry of a CPU in the table. -/
def enter (s : Cpus) (id : BitVec 8) (bsp : Bool) (r : Registration) : BitVec 8 → PerCpuData :=
  let old := s.data id
  update s.data id
    { info := ⟨id, r.apicId, true, bsp⟩, kernelStack := r.stack.getD old.kernelStack, tssRsp0 := r.stack.getD old.tssRsp0 }

def initBsp (s : Cpus) (r : Registration) : Cpus := { s with data := s.enter 0 true r, cpuCount := 1 }

/-- The state after `init_bsp`. -/
def booted (data : BitVec 8 → PerCpuData) (bsp : Registration) : Cpus := initBsp ⟨data, 0, 1⟩ bsp

def registerAp (s : Cpus) (r : Registration) : Option (BitVec 8) × Cpus :=
  let id := s.nextCpuId
  let s := { s with nextCpuId := s.nextCpuId + 1 }
  if id.toNat ≥ maxCpus then (none, s)
  else (some id, { s with data := s.enter id false r, cpuCount := s.cpuCount + 1 })

/-- A call and the results of all calls so far. -/
def register (s : Cpus × List (Option (BitVec 8))) (r : Registration) : Cpus × List (Option (BitVec 8)) :=
  ((s.1.registerAp r).2, s.2 ++ [(s.1.registerAp r).1])

/-- The numbers handed out are distinct and not zero, there are no more than 255, and the CPUs are counted. -/
structure UniqueIds (s : Cpus × List (Option (BitVec 8))) : Prop where
  nodup : (s.2.filterMap id).Nodup
  ne_zero : 0 ∉ s.2.filterMap id
  exhausted : ∀ i id, 255 ≤ i → s.2[i]? ≠ some (some id)
  counted : 1 + (s.2.filterMap id).length ≤ maxCpus → s.1.cpuCount.toNat = 1 + (s.2.filterMap id).length

variable (data : BitVec 8 → PerCpuData) (bsp : Registration) (calls : List Registration)

theorem run_register :
    (run register (booted data bsp, []) calls).2 =
        (List.range calls.length).map (fun i => some (BitVec.ofNat 8 (1 + i))) ∧
      (run register (booted data bsp, []) calls).1.nextCpuId = BitVec.ofNat 8 (1 + calls.length) ∧
      (run register (booted data bsp, []) calls).1.cpuCount = BitVec.ofNat 8 (1 + calls.length) := by
  induction calls using reverseRecOn with
  | nil => exact ⟨rfl, rfl, rfl⟩
  | append_singleton calls r ih =>
    obtain ⟨hres, hnext, hc⟩ := ih
    have hsucc : BitVec.ofNat 8 (1 + calls.length) + 1 = BitVec.ofNat 8 (1 + (calls.length + 1)) := by
      rw [← Nat.add_assoc, ofNat_add _ 1]
      rfl
    rw [run_append, run_cons, run_nil, register, registerAp, hnext, if_neg (by unfold maxCpus; omega)]
    refine ⟨?_, ?_, ?_⟩
    · simp [hres, range_succ]
    · rw [length_append, length_singleton, ← hsucc]
    · rw [length_append, length_singleton, ← hsucc, ← hc]

theorem filterMap_some (n : Nat) : ((List.range n).map fun i => some (BitVec.ofNat 8 (1 + i))).filterMap id =
    (List.range n).map fun i => BitVec.ofNat 8 (1 + i) := by
  simp [filterMap_map, Function.comp_def]

/-- **The numbers of the CPUs.** They are unique and counted exactly if at most 254 CPUs are registered. -/
theorem register_unique_iff :
    UniqueIds (run register (booted data bsp, []) calls) ↔ calls.length ≤ 254 := by
  obtain ⟨hres, -, hc⟩ := run_register data bsp calls
  constructor
  · intro h
    by_contra hgt
    have hfits := h.counted
    rw [hres, filterMap_some, length_map, length_range, hc, toNat_ofNat] at hfits
    by_cases h255 : calls.length = 255
    · simp [h255, maxCpus] at hfits
    · refine h.exhausted 255 0 (Nat.le_refl _) ?_
      rw [hres, getElem?_map, getElem?_range (by omega)]
      rfl
  · intro hle
    have hs : ∀ i < calls.length, (BitVec.ofNat 8 (1 + i)).toNat = 1 + i := by
      intro i hi
      rw [toNat_ofNat]
      omega
    refine ⟨?_, ?_, ?_, ?_⟩
    · rw [hres, filterMap_some]
      refine List.Nodup.map_on (fun i hi j hj heq => ?_) nodup_range
      have := congrArg BitVec.toNat heq
      rw [hs i (mem_range.1 hi), hs j (mem_range.1 hj)] at this
      omega
    · rw [hres, filterMap_some]
      intro hmem
      obtain ⟨i, hi, hzero⟩ := mem_map.1 hmem
      have := hs i (mem_range.1 hi)
      rw [hzero] at this
      change 0 = 1 + i at this
      omega
    · intro i id hi
      rw [hres, List.getElem?_eq_none (by simp; omega)]
      simp
    · intro _
      rw [hres, filterMap_some, length_map, length_range, hc, toNat_ofNat]
      omega

/-- After 255 calls, which all succeed, the number of CPUs is zero. -/
theorem register_counts_zero : ¬ UniqueIds (run register
    (booted (fun _ => ⟨⟨0, 0, false, false⟩, 0, 0⟩) ⟨0, none⟩, []) (List.replicate 255 ⟨1, none⟩)) := by
  intro h
  obtain ⟨hres, -, hc⟩ := run_register (fun _ => ⟨⟨0, 0, false, false⟩, 0, 0⟩) ⟨0, none⟩ (replicate 255 ⟨1, none⟩)
  have hfits := h.counted
  rw [hres, filterMap_some, length_map, length_range, hc, length_replicate] at hfits
  exact absurd (hfits (by decide)) (by decide)

end Cpus

end AstralOS.Arch
