import Linuxpedia.RamDisk.RamDevice
import Linuxpedia.Lib.Run

/-! The block driver of the RAM disk, `ram_block.c`. A request moves sectors between the
device and a list of segments, each where the one before it ended. Whole sectors that
add up to the request make it succeed, and then the segmentation does not matter: the
device is an array of bytes that writes are put into and reads are taken from. -/

namespace Linuxpedia.RamDisk

open Lib

def eio : ℤ := 5

inductive Dir where
  | read
  | write
  deriving DecidableEq

/-- What the driver reads of a `struct request`: `rq_data_dir`, `blk_rq_pos`,
`blk_rq_sectors` and the `bv_len` bytes of each segment. -/
structure Request where
  dir : Dir
  startSector : ℕ
  sectorCnt : ℕ
  segs : List (List UInt8)

/-- What a transfer leaves: the device, the buffers of the segments, the sectors moved and
the code. -/
structure Transfer where
  dev : Store
  segs : List (List UInt8)
  sectorOffset : ℕ
  ret : ℤ

/-- `rq_for_each_segment` of `rb_transfer`. A `sector_t` has 64 bits, which no list of
segments in memory fills up. -/
def rbTransferLoop (dir : Dir) (startSector : ℕ) :
    List (List UInt8) → Store → ℕ → ℤ → Transfer
  | [], dev, sectorOffset, ret => ⟨dev, [], sectorOffset, ret⟩
  | buffer :: segs, dev, sectorOffset, ret =>
    let ret := if buffer.length % rbSectorSize ≠ 0 then -eio else ret
    let sectors := buffer.length / rbSectorSize
    match dir with
    | .write =>
      let dev := ramdeviceWrite dev (startSector + sectorOffset) buffer sectors
      let t := rbTransferLoop dir startSector segs dev (sectorOffset + sectors) ret
      { t with segs := buffer :: t.segs }
    | .read =>
      let buffer := ramdeviceRead dev (startSector + sectorOffset) buffer sectors
      let t := rbTransferLoop dir startSector segs dev (sectorOffset + sectors) ret
      { t with segs := buffer :: t.segs }

def rbTransfer (dev : Store) (req : Request) : Transfer :=
  let t := rbTransferLoop req.dir req.startSector req.segs dev 0 0
  { t with ret := if t.sectorOffset ≠ req.sectorCnt then -eio else t.ret }

/-- The device after a request. -/
def step (dev : Store) (req : Request) : Store := (rbTransfer dev req).dev

namespace Request

/-- The sectors of the request lie on the device; `rb_init` makes its size the capacity. -/
def OnDevice (req : Request) : Prop := req.startSector + req.sectorCnt ≤ rbDeviceSize

instance (req : Request) : Decidable req.OnDevice := inferInstanceAs (Decidable (_ ≤ _))

/-- Whole sectors that add up to the request. -/
def Whole (req : Request) : Prop :=
  (∀ b ∈ req.segs, b.length % rbSectorSize = 0) ∧
    (req.segs.map List.length).sum = rbSectorSize * req.sectorCnt

instance (req : Request) : Decidable req.Whole := inferInstanceAs (Decidable (_ ∧ _))

/-- The bytes that a write puts on the device, and their address. -/
def written (req : Request) : Option (ℕ × List UInt8) :=
  match req.dir with
  | .write => some (rbSectorSize * req.startSector, req.segs.flatten)
  | .read => none

end Request

/-! ### The code returned -/

/-- The code is 0 as long as it was and every segment consists of whole sectors. -/
theorem rbTransferLoop_ret (dir : Dir) (start : ℕ) (segs : List (List UInt8)) (dev : Store)
    (off : ℕ) (ret : ℤ) : (rbTransferLoop dir start segs dev off ret).ret = 0 ↔
      ret = 0 ∧ ∀ b ∈ segs, b.length % rbSectorSize = 0 := by
  induction segs generalizing dev off ret with
  | nil => simp [rbTransferLoop]
  | cons b segs ih =>
    have hret : (if b.length % rbSectorSize ≠ 0 then -eio else ret) = 0 ↔
        ret = 0 ∧ b.length % rbSectorSize = 0 := by
      by_cases hb : b.length % rbSectorSize = 0
      · simp [hb]
      · simp [hb, eio]
    cases dir with
    | read => simp only [rbTransferLoop, ih, hret, List.forall_mem_cons, and_assoc]
    | write => simp only [rbTransferLoop, ih, hret, List.forall_mem_cons, and_assoc]

theorem rbTransferLoop_sectorOffset (dir : Dir) (start : ℕ) (segs : List (List UInt8))
    (dev : Store) (off : ℕ) (ret : ℤ) :
    (rbTransferLoop dir start segs dev off ret).sectorOffset =
      off + (segs.map fun b => b.length / rbSectorSize).sum := by
  induction segs generalizing dev off ret with
  | nil => rfl
  | cons b segs ih =>
    cases dir with
    | read => simp only [rbTransferLoop, ih, List.map_cons, List.sum_cons, Nat.add_assoc]
    | write => simp only [rbTransferLoop, ih, List.map_cons, List.sum_cons, Nat.add_assoc]

/-- Whole sectors are counted without loss. -/
theorem sum_sectors {segs : List (List UInt8)} (h : ∀ b ∈ segs, b.length % rbSectorSize = 0) :
    (segs.map List.length).sum =
      rbSectorSize * (segs.map fun b => b.length / rbSectorSize).sum := by
  induction segs with
  | nil => rfl
  | cons b segs ih =>
    obtain ⟨hb, hrest⟩ := List.forall_mem_cons.mp h
    have hdiv := Nat.div_add_mod b.length rbSectorSize
    rw [List.map_cons, List.sum_cons, List.map_cons, List.sum_cons, ih hrest, Nat.mul_add]
    omega

/-- A transfer returns 0 exactly for whole sectors that add up to the request. -/
theorem rbTransfer_ret (dev : Store) (req : Request) :
    (rbTransfer dev req).ret = 0 ↔ req.Whole := by
  have hret := rbTransferLoop_ret req.dir req.startSector req.segs dev 0 0
  have hoff := rbTransferLoop_sectorOffset req.dir req.startSector req.segs dev 0 0
  rw [Nat.zero_add] at hoff
  have hsize : rbSectorSize ≠ 0 := by decide
  unfold rbTransfer Request.Whole
  simp only [hoff]
  constructor
  · intro h
    split_ifs at h with hcnt
    · exact absurd h (by decide)
    · obtain ⟨_, hall⟩ := hret.mp h
      exact ⟨hall, by rw [sum_sectors hall, not_not.mp hcnt]⟩
  · rintro ⟨hall, hsum⟩
    rw [sum_sectors hall] at hsum
    rw [if_neg (not_not_intro (Nat.eq_of_mul_eq_mul_left (by decide) hsum))]
    exact hret.mpr ⟨rfl, hall⟩

/-! ### The bytes moved -/

section Loop

variable {segs : List (List UInt8)} (h : ∀ b ∈ segs, b.length % rbSectorSize = 0)

include h

/-- Segments of whole sectors are written one behind the other. -/
theorem rbTransferLoop_write (start : ℕ) (dev : Store) (off : ℕ) (ret : ℤ) :
    (rbTransferLoop .write start segs dev off ret).dev =
      dev.scatter ((start + off) * rbSectorSize) segs := by
  induction segs generalizing dev off ret with
  | nil => rfl
  | cons b segs ih =>
    obtain ⟨hb, hrest⟩ := List.forall_mem_cons.mp h
    have hlen : b.length / rbSectorSize * rbSectorSize = b.length :=
      Nat.div_mul_cancel (Nat.dvd_of_mod_eq_zero hb)
    have hdev : ramdeviceWrite dev (start + off) b (b.length / rbSectorSize) =
        dev.put ((start + off) * rbSectorSize) b := by
      rw [ramdeviceWrite, hlen, List.take_length]
    rw [rbTransferLoop]
    simp only
    rw [ih hrest, hdev, Store.scatter, ← Nat.add_assoc, Nat.add_mul (start + off), hlen]

/-- Segments of whole sectors are read one behind the other, and the device stays. -/
theorem rbTransferLoop_read (start : ℕ) (dev : Store) (off : ℕ) (ret : ℤ) :
    (rbTransferLoop .read start segs dev off ret).dev = dev ∧
    (rbTransferLoop .read start segs dev off ret).segs =
      dev.gather ((start + off) * rbSectorSize) (segs.map List.length) := by
  induction segs generalizing off ret with
  | nil => exact ⟨rfl, rfl⟩
  | cons b segs ih =>
    obtain ⟨hb, hrest⟩ := List.forall_mem_cons.mp h
    have hlen : b.length / rbSectorSize * rbSectorSize = b.length :=
      Nat.div_mul_cancel (Nat.dvd_of_mod_eq_zero hb)
    have hbuf : ramdeviceRead dev (start + off) b (b.length / rbSectorSize) =
        dev.slice ((start + off) * rbSectorSize) b.length := by
      rw [ramdeviceRead, hlen, List.drop_length, List.append_nil]
    have hi := ih hrest (off + b.length / rbSectorSize)
      (if b.length % rbSectorSize ≠ 0 then -eio else ret)
    rw [rbTransferLoop]
    simp only
    refine ⟨hi.1, ?_⟩
    rw [hi.2, hbuf, List.map_cons, Store.gather, ← Nat.add_assoc, Nat.add_mul (start + off), hlen]

end Loop

/-- A write that succeeds puts the concatenation of its segments on the device. -/
theorem rbTransfer_write (dev : Store) {req : Request} (hdir : req.dir = .write)
    (h : req.Whole) :
    (rbTransfer dev req).dev = dev.put (rbSectorSize * req.startSector) req.segs.flatten := by
  unfold rbTransfer
  rw [hdir]
  simp only
  rw [rbTransferLoop_write h.1, Store.scatter_eq, Nat.add_zero, Nat.mul_comm]

/-- A read that succeeds takes its sectors from the device. -/
theorem rbTransfer_read (dev : Store) {req : Request} (hdir : req.dir = .read) (h : req.Whole) :
    (rbTransfer dev req).dev = dev ∧ (rbTransfer dev req).segs.flatten =
      dev.slice (rbSectorSize * req.startSector) (rbSectorSize * req.sectorCnt) := by
  obtain ⟨hdev, hsegs⟩ := rbTransferLoop_read h.1 req.startSector dev 0 0
  unfold rbTransfer
  rw [hdir]
  simp only
  refine ⟨hdev, ?_⟩
  rw [hsegs, Store.flatten_gather, h.2, Nat.add_zero, Nat.mul_comm]

/-! ### Histories -/

/-- Each request of a history that succeeds changes the device by what it writes. -/
theorem exec_eq (reqs : List Request) (dev : Store) (h : ∀ req ∈ reqs, req.Whole) :
    Run.exec step dev reqs = dev.puts (reqs.filterMap Request.written) := by
  have hstep : ∀ req ∈ reqs, ∀ dev : Store,
      id (step dev req) = (id dev).puts req.written.toList := by
    intro req hreq dev
    cases hdir : req.dir with
    | read =>
      have hw : req.written = none := by rw [Request.written, hdir]
      rw [hw, step, (rbTransfer_read dev hdir (h req hreq)).1]
      rfl
    | write =>
      have hw : req.written = some (rbSectorSize * req.startSector, req.segs.flatten) := by
        rw [Request.written, hdir]
      rw [hw, step, rbTransfer_write dev hdir (h req hreq)]
      rfl
  exact Store.puts_exec hstep dev

/-- The RAM disk is an array of sectors. A request on the device succeeds exactly when it
is whole; a write that succeeds puts the concatenation of its segments on its sectors;
and after a history that succeeds, a read takes from the device, which it leaves alone,
what `ramdevice_init` and the writes in order have put there. -/
theorem rbTransfer_flat (abi : Abi) (mem : Store) :
    (∀ dev req, req.OnDevice → ((rbTransfer dev req).ret = 0 ↔ req.Whole)) ∧
    (∀ dev req, req.OnDevice → req.dir = .write → (rbTransfer dev req).ret = 0 →
      (rbTransfer dev req).dev.slice (rbSectorSize * req.startSector)
        (rbSectorSize * req.sectorCnt) = req.segs.flatten ∧
      ∀ a, a < rbSectorSize * req.startSector ∨
        rbSectorSize * (req.startSector + req.sectorCnt) ≤ a →
        (rbTransfer dev req).dev a = dev a) ∧
    ∃ dev₀, ramdeviceInit abi (some mem) = ((rbDeviceSize : ℤ), some dev₀) ∧
      ∀ reqs, Run.Along step (fun dev req => req.OnDevice ∧ (rbTransfer dev req).ret = 0) dev₀ reqs →
        ∀ req, req.OnDevice → req.dir = .read →
          (rbTransfer (Run.exec step dev₀ reqs) req).ret = 0 →
          (rbTransfer (Run.exec step dev₀ reqs) req).dev = Run.exec step dev₀ reqs ∧
          (rbTransfer (Run.exec step dev₀ reqs) req).segs.flatten =
            (dev₀.puts (reqs.filterMap Request.written)).slice (rbSectorSize * req.startSector)
              (rbSectorSize * req.sectorCnt) := by
  refine ⟨fun dev req _ => rbTransfer_ret dev req, ?_, _, rfl, ?_⟩
  · intro dev req _ hdir hret
    have hw := (rbTransfer_ret dev req).mp hret
    have hlen : req.segs.flatten.length = rbSectorSize * req.sectorCnt := by
      rw [List.length_flatten, hw.2]
    rw [rbTransfer_write dev hdir hw]
    refine ⟨?_, fun a ha => ?_⟩
    · rw [← hlen, Store.slice_put_self]
    · rw [Nat.mul_add, ← hlen] at ha
      exact Store.put_outside _ ha
  · intro reqs hl req _ hdir hret
    have hall : ∀ r ∈ reqs, r.Whole := by
      intro r hr
      obtain ⟨pre, post, rfl⟩ := List.append_of_mem hr
      exact (rbTransfer_ret _ r).mp hl.at.2
    have hw := (rbTransfer_ret _ req).mp hret
    obtain ⟨hdev, hsegs⟩ := rbTransfer_read (Run.exec step (copyMbrNBr abi mem) reqs) hdir hw
    exact ⟨hdev, by rw [hsegs, exec_eq reqs _ hall]⟩

/-- Two sectors written as one segment, then the second one again. -/
def sampleHistory : List Request :=
  [⟨.write, 2, 2, [List.replicate 1024 7]⟩, ⟨.write, 3, 1, [List.replicate 512 9]⟩]

/-- Both read back in two segments. -/
def sampleRead : Request := ⟨.read, 2, 2, [List.replicate 512 0, List.replicate 512 0]⟩

theorem rbTransfer_flat_sample :
    (rbTransfer (Run.exec step (copyMbrNBr .lp64 fun _ => 0) sampleHistory) sampleRead).segs.flatten =
      ((copyMbrNBr .lp64 fun _ => 0).puts (sampleHistory.filterMap Request.written)).slice
        (rbSectorSize * 2) (rbSectorSize * 2) := by
  obtain ⟨_, _, dev₀, hinit, h⟩ := rbTransfer_flat .lp64 fun _ => 0
  obtain rfl : copyMbrNBr .lp64 (fun _ => 0) = dev₀ := Option.some.inj (Prod.mk.inj hinit).2
  refine (h sampleHistory ⟨⟨by decide, ?_⟩, ⟨by decide, ?_⟩, trivial⟩ sampleRead (by decide) rfl ?_).2
  · exact (rbTransfer_ret _ _).mpr (by decide +kernel)
  · exact (rbTransfer_ret _ _).mpr (by decide +kernel)
  · exact (rbTransfer_ret _ _).mpr (by decide +kernel)

end Linuxpedia.RamDisk
