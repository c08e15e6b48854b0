import Supryolo.CpuAvx2
import Supryolo.Cuda
import Supryolo.OpenCl

namespace Supryolo

open Loops

inductive Backend
  | cpu
  | cpuAvx2
  | cuda (device : Cuda)
  | openCl (device : OpenCl)

def Backend.ScansTo (w : Work) (start : UInt64) (count : UInt32) :
    Backend → Except String Scan → Prop
  | .cpu, outcome => outcome = Cpu.scan w start count
  | .cpuAvx2, outcome => outcome = CpuAvx2.scan w start count
  | .cuda device, outcome => Cuda.ScansTo device w start count outcome
  | .openCl device, outcome => OpenCl.ScansTo device w start count outcome

/-- A CPU scan that returns has found every nonce of the range that hits. -/
theorem Cpu.scan_ok {w : Work} {start : UInt64} {count : UInt32} {r : Scan}
    (h : Cpu.scan w start count = .ok r) :
    r = { hashes := count.toUInt64, nonces := (nonceRange start count.toNat).filter (hits w) } := by
  obtain ⟨hrange, -⟩ := guard_eq_ok.mp h
  rw [Cpu.scan_eq w start count (eq_false_of_ne_true hrange)] at h
  exact (Except.ok.inj h).symm

theorem CpuAvx2.scan_ok {w : Work} {start : UInt64} {count : UInt32} {r : Scan}
    (h : CpuAvx2.scan w start count = .ok r) :
    r = { hashes := count.toUInt64, nonces := (nonceRange start count.toNat).filter (hits w) } := by
  obtain ⟨hrange, -⟩ := guard_eq_ok.mp h
  rw [CpuAvx2.scan_eq w start count (eq_false_of_ne_true hrange)] at h
  exact (Except.ok.inj h).symm

/-- Whatever the backend, a scan that returns reports its count and only nonces
of its range that hit. -/
theorem Backend.ScansTo.mem_of_ok {b : Backend} {w : Work} {start : UInt64} {count : UInt32}
    {r : Scan} (h : b.ScansTo w start count (.ok r)) :
    r.hashes = count.toUInt64 ∧
      ∀ n ∈ r.nonces, n ∈ nonceRange start count.toNat ∧ hits w n = true := by
  cases b with
  | cpu =>
      obtain rfl := Cpu.scan_ok h.symm
      exact ⟨rfl, fun n hn => List.mem_filter.mp hn⟩
  | cpuAvx2 =>
      obtain rfl := CpuAvx2.scan_ok h.symm
      exact ⟨rfl, fun n hn => List.mem_filter.mp hn⟩
  | cuda device => exact Cuda.ScansTo.mem_of_ok h
  | openCl device => exact OpenCl.ScansTo.mem_of_ok h

/-- Whatever the backend, a scan that returns has kept every nonce that hits. -/
theorem Backend.ScansTo.perm_of_ok {b : Backend} {w : Work} {start : UInt64} {count : UInt32}
    {r : Scan} (h : b.ScansTo w start count (.ok r)) :
    List.Perm r.nonces ((nonceRange start count.toNat).filter (hits w)) := by
  cases b with
  | cpu =>
      obtain rfl := Cpu.scan_ok h.symm
      exact List.Perm.refl _
  | cpuAvx2 =>
      obtain rfl := CpuAvx2.scan_ok h.symm
      exact List.Perm.refl _
  | cuda device => exact Cuda.ScansTo.perm_of_ok h
  | openCl device => exact List.Perm.of_eq (OpenCl.ScansTo.nonces_of_ok h)

end Supryolo
