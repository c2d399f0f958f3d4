import Linuxpedia.RamDisk.RamBlock
import Linuxpedia.RamDisk.BootRecord
import Linuxpedia.Lib.Regions

/-! The partitions of the RAM disk. The kernel finds them with a reader of partition tables.
The block layer queues requests, each moved to where its partition starts, in any order;
`rb_request` transfers what is queued and ends it. As long as the segments of each request
stay inside its partition, every run answers as if each partition were a RAM disk of its
own, and the boot records stay. -/

namespace Linuxpedia.RamDisk

open Lib

/-! ### The request queue -/

/-- What a request is ended with: its buffers and the code. -/
structure Ended where
  segs : List (List UInt8)
  ret : ℤ

/-- `rb_request`: the requests that `blk_fetch_request` finds are transferred and ended one
by one. -/
def rbRequest (dev : Store) : List Request → Store × List Ended
  | [] => (dev, [])
  | req :: q =>
    let t := rbTransfer dev req
    let r := rbRequest t.dev q
    (r.1, ⟨t.segs, t.ret⟩ :: r.2)

namespace Request

/-- The request of a partition that starts at a sector. -/
def remap (req : Request) (sector : ℕ) : Request :=
  { req with startSector := sector + req.startSector }

/-- The sectors that the segments cover, a rest left out. -/
def covered (req : Request) : ℕ := (req.segs.map fun b => b.length / rbSectorSize).sum

/-- The transfer of the remapped request. -/
def place (req : Request) (sector : ℕ) (dev : Store) : Store × Ended :=
  let t := rbTransfer dev (req.remap sector)
  (t.dev, ⟨t.segs, t.ret⟩)

end Request

/-! ### A transfer is confined -/

/-- A write stays inside the sectors it is given. -/
theorem ramdeviceWrite_outside (dev : Store) (sector : ℕ) (buffer : List UInt8) {a : ℕ}
    (ha : a < rbSectorSize * sector ∨
      rbSectorSize * (sector + buffer.length / rbSectorSize) ≤ a) :
    ramdeviceWrite dev sector buffer (buffer.length / rbSectorSize) a = dev a := by
  refine Store.put_outside _ ?_
  have hlen : (buffer.take (buffer.length / rbSectorSize * rbSectorSize)).length ≤
      buffer.length / rbSectorSize * rbSectorSize := List.length_take_le _ _
  unfold rbSectorSize at *
  omega

/-- The store as seen from an address on. -/
def Transfer.window (t : Transfer) (o : ℕ) : Transfer := { t with dev := t.dev.window o }

theorem ramdeviceWrite_window (dev : Store) (s sector : ℕ) (buffer : List UInt8) (n : ℕ) :
    (ramdeviceWrite dev (s + sector) buffer n).window (rbSectorSize * s) =
      ramdeviceWrite (dev.window (rbSectorSize * s)) sector buffer n := by
  unfold ramdeviceWrite
  rw [Nat.add_mul, Nat.mul_comm s, Store.window_put]

theorem ramdeviceRead_window (dev : Store) (s sector : ℕ) (buffer : List UInt8) (n : ℕ) :
    ramdeviceRead dev (s + sector) buffer n =
      ramdeviceRead (dev.window (rbSectorSize * s)) sector buffer n := by
  unfold ramdeviceRead
  rw [Store.window_slice, Nat.add_mul, Nat.mul_comm s]

/-- A transfer at a later sector is the transfer in the store as seen from there. -/
theorem rbTransferLoop_window (dir : Dir) (s start : ℕ) (segs : List (List UInt8)) (dev : Store)
    (off : ℕ) (ret : ℤ) :
    rbTransferLoop dir start segs (dev.window (rbSectorSize * s)) off ret =
      (rbTransferLoop dir (s + start) segs dev off ret).window (rbSectorSize * s) := by
  induction segs generalizing dev off ret with
  | nil => rfl
  | cons b segs ih =>
    cases dir with
    | read =>
      simp only [rbTransferLoop]
      rw [ih, Nat.add_assoc s start off, ramdeviceRead_window dev s (start + off)]
      rfl
    | write =>
      simp only [rbTransferLoop]
      rw [Nat.add_assoc s start off, ← ramdeviceWrite_window, ih]
      rfl

/-- What a transfer reads and writes lies in the sectors that its segments cover. -/
theorem rbTransferLoop_congr (dir : Dir) (start : ℕ) {segs : List (List UInt8)} {n : ℕ} (off : ℕ)
    (hn : start + off + (segs.map fun b => b.length / rbSectorSize).sum ≤ n) {f g : Store}
    (h : ∀ i < rbSectorSize * n, f i = g i) (ret : ℤ) :
    (rbTransferLoop dir start segs f off ret).segs =
      (rbTransferLoop dir start segs g off ret).segs ∧
    (rbTransferLoop dir start segs f off ret).ret = (rbTransferLoop dir start segs g off ret).ret ∧
    ∀ i < rbSectorSize * n, (rbTransferLoop dir start segs f off ret).dev i =
      (rbTransferLoop dir start segs g off ret).dev i := by
  induction segs generalizing f g off ret with
  | nil => exact ⟨rfl, rfl, h⟩
  | cons b segs ih =>
    rw [List.map_cons, List.sum_cons] at hn
    cases dir with
    | read =>
      have hread : ramdeviceRead f (start + off) b (b.length / rbSectorSize) =
          ramdeviceRead g (start + off) b (b.length / rbSectorSize) := by
        unfold ramdeviceRead
        rw [Store.slice_congr fun i hi => h _ ?_]
        unfold rbSectorSize at *
        omega
      obtain ⟨hsegs, hret, hdev⟩ := ih (off + b.length / rbSectorSize) (by omega) h
        (if b.length % rbSectorSize ≠ 0 then -eio else ret)
      simp only [rbTransferLoop]
      exact ⟨by rw [hread, hsegs], hret, hdev⟩
    | write =>
      have hwrite : ∀ i < rbSectorSize * n,
          ramdeviceWrite f (start + off) b (b.length / rbSectorSize) i =
            ramdeviceWrite g (start + off) b (b.length / rbSectorSize) i := by
        intro i hi
        unfold ramdeviceWrite
        rw [Store.put_apply, Store.put_apply, h i hi]
      obtain ⟨hsegs, hret, hdev⟩ := ih (off + b.length / rbSectorSize) (by omega) hwrite
        (if b.length % rbSectorSize ≠ 0 then -eio else ret)
      simp only [rbTransferLoop]
      exact ⟨by rw [hsegs], hret, hdev⟩

theorem rbTransferLoop_outside (dir : Dir) (start : ℕ) {segs : List (List UInt8)} {n : ℕ} (off : ℕ)
    (hn : start + off + (segs.map fun b => b.length / rbSectorSize).sum ≤ n) (dev : Store) (ret : ℤ)
    {a : ℕ} (ha : a < rbSectorSize * start ∨ rbSectorSize * n ≤ a) :
    (rbTransferLoop dir start segs dev off ret).dev a = dev a := by
  induction segs generalizing dev off ret with
  | nil => rfl
  | cons b segs ih =>
    rw [List.map_cons, List.sum_cons] at hn
    cases dir with
    | read =>
      simp only [rbTransferLoop]
      exact ih _ (by omega) dev _
    | write =>
      simp only [rbTransferLoop]
      rw [ih _ (by omega)]
      refine ramdeviceWrite_outside dev _ b ?_
      unfold rbSectorSize at *
      omega

/-- A request inside a partition is confined to it. -/
theorem Request.place_confined {req : Request} {n : ℕ} (h : req.startSector + req.covered ≤ n) :
    Regions.Confined rbSectorSize req.place n where
  shift s f := by
    have hwin := rbTransferLoop_window req.dir s req.startSector req.segs f 0 0
    have h0 : (0 : ℕ) + req.startSector = req.startSector := Nat.zero_add _
    simp only [Request.place, rbTransfer, Request.remap, h0, hwin]
    exact ⟨rfl, rfl⟩
  congr f g hfg := by
    have h0 : (0 : ℕ) + req.startSector = req.startSector := Nat.zero_add _
    obtain ⟨hsegs, hret, hdev⟩ := rbTransferLoop_congr req.dir req.startSector 0 h hfg 0
    have hoff := rbTransferLoop_sectorOffset req.dir req.startSector req.segs
    simp only [Request.place, rbTransfer, Request.remap, h0, hoff, hsegs, hret]
    exact ⟨trivial, hdev⟩
  frame s f a ha := by
    have hn : s + req.startSector + 0 + req.covered ≤ s + n := by omega
    refine rbTransferLoop_outside req.dir (s + req.startSector) 0 hn f 0 ?_
    rw [Nat.mul_add]
    omega

/-! ### The queue, served for all partitions -/

/-- What happens at the disk: the block layer queues a request of a partition at some
position, or calls `rb_request`. -/
inductive Action where
  | queue (n : ℕ) (p : Dos.Part) (req : Request)
  | request

/-- The segments of a queued request stay in its partition. -/
def Action.Fits : Action → Prop
  | .queue _ p req => p ∈ rbPartitions ∧ req.startSector + req.covered ≤ p.sectors
  | .request => True

instance : DecidablePred Action.Fits
  | .queue _ _ _ => inferInstanceAs (Decidable (_ ∧ _))
  | .request => .isTrue trivial

/-- The RAM disk and its queue. -/
structure Disk where
  dev : Store
  queue : List Request

/-- The next state, and what requests are ended with. -/
def Disk.step (d : Disk) : Action → Disk × List Ended
  | .queue n p req =>
    ({ d with queue := d.queue.take n ++ req.remap p.start :: d.queue.drop n }, [])
  | .request =>
    let r := rbRequest d.dev d.queue
    (⟨r.1, []⟩, r.2)

/-- A RAM disk for each partition, and the requests to them. -/
structure Disks where
  disk : Dos.Part → Store
  queue : List (Dos.Part × Request)

/-- Each request is transferred on the disk of its partition. -/
def Disks.step (d : Disks) : Action → Disks × List Ended
  | .queue n p req => ({ d with queue := d.queue.take n ++ (p, req) :: d.queue.drop n }, [])
  | .request =>
    (⟨Run.exec (fun F c => (Regions.separate Request.place F c).1) d.disk d.queue, []⟩,
      Run.trace (Regions.separate Request.place) d.disk d.queue)

/-- A queue of requests that are remapped is served as operations on one store. -/
theorem rbRequest_eq (dev : Store) (q : List (Dos.Part × Request)) :
    rbRequest dev (q.map fun c => c.2.remap c.1.start) =
      (Run.exec (fun f c => (Regions.shared Request.place Dos.Part.start f c).1) dev q,
        Run.trace (Regions.shared Request.place Dos.Part.start) dev q) := by
  induction q generalizing dev with
  | nil => rfl
  | cons c q ih =>
    rw [List.map_cons, rbRequest, ih]
    rfl

/-- The partitions do not meet. -/
theorem rbPartitions_apart :
    Regions.Apart Dos.Part.start Dos.Part.sectors { p | p ∈ rbPartitions } := by
  have h : ∀ p ∈ rbPartitions, ∀ q ∈ rbPartitions, p ≠ q →
      p.start + p.sectors ≤ q.start ∨ q.start + q.sectors ≤ p.start := by decide
  exact h

/-- The partitions lie on the disk and leave the boot records out. -/
theorem rbPartitions_tables {p : Dos.Part} (hp : p ∈ rbPartitions) :
    p.start + p.sectors ≤ rbDeviceSize ∧
      ∀ s ∈ tableSectors, s < p.start ∨ p.start + p.sectors ≤ s := by
  have h : ∀ p ∈ rbPartitions, p.start + p.sectors ≤ rbDeviceSize ∧
      ∀ s ∈ tableSectors, s < p.start ∨ p.start + p.sectors ≤ s := by decide
  exact h p hp

/-- The RAM disk with boot records and the disks of the partitions. -/
structure Serves (dev₀ : Store) (d : Disk) (e : Disks) : Prop where
  queue : d.queue = e.queue.map fun c => c.2.remap c.1.start
  legal : ∀ c ∈ e.queue, Regions.Legal rbSectorSize Dos.Part.sectors { p | p ∈ rbPartitions }
    Request.place c
  holds : Regions.Holds rbSectorSize Dos.Part.start Dos.Part.sectors { p | p ∈ rbPartitions }
    d.dev e.disk
  outside : ∀ a, (∀ p ∈ rbPartitions, a < rbSectorSize * p.start ∨
    rbSectorSize * (p.start + p.sectors) ≤ a) → d.dev a = dev₀ a

/-- One action answers alike on both sides. -/
theorem Serves.step {dev₀ : Store} {d : Disk} {e : Disks} (h : Serves dev₀ d e) {a : Action}
    (ha : a.Fits) : (d.step a).2 = (e.step a).2 ∧ Serves dev₀ (d.step a).1 (e.step a).1 := by
  cases a with
  | queue n p req =>
    obtain ⟨hp, hfit⟩ := ha
    refine ⟨rfl, ?_, ?_, h.holds, h.outside⟩
    · simp only [Disk.step, Disks.step]
      rw [h.queue, List.map_append, List.map_cons, List.map_take, List.map_drop]
    · intro c hc
      rcases List.mem_append.mp hc with hc | hc
      · exact h.legal c (List.mem_of_mem_take hc)
      · rcases List.mem_cons.mp hc with rfl | hc
        · exact ⟨hp, Request.place_confined hfit⟩
        · exact h.legal c (List.mem_of_mem_drop hc)
  | request =>
    have hdisk : d.step .request = (⟨Run.exec
          (fun f c => (Regions.shared Request.place Dos.Part.start f c).1) d.dev e.queue, []⟩,
        Run.trace (Regions.shared Request.place Dos.Part.start) d.dev e.queue) := by
      rw [Disk.step, h.queue, rbRequest_eq]
    rw [hdisk]
    refine ⟨Regions.trace_shared rbPartitions_apart h.holds h.legal, rfl,
      fun c hc => absurd hc List.not_mem_nil,
      Regions.exec_shared rbPartitions_apart h.holds h.legal, fun a ha => ?_⟩
    exact (Regions.exec_outside d.dev h.legal ha).trans (h.outside a ha)

/-- The RAM disk after `ramdevice_init` on a 32-bit machine, with the memory that each
partition has of the `vmalloc` area. -/
theorem Serves.init (mem : Store) : Serves (copyMbrNBr .ilp32 mem) ⟨copyMbrNBr .ilp32 mem, []⟩
    ⟨fun p => mem.window (rbSectorSize * p.start), []⟩ where
  queue := rfl
  legal c hc := absurd hc List.not_mem_nil
  holds p hp i hi := by
    refine copyMbrNBr_outside .ilp32 mem fun hs => ?_
    have hout := (rbPartitions_tables hp).2 _ hs
    unfold rbSectorSize at *
    omega
  outside _ _ := rfl

/-- The boot records stay. -/
theorem Serves.records {mem : Store} {d : Disk} {e : Disks}
    (h : Serves (copyMbrNBr .ilp32 mem) d e) : Records d.dev := by
  have hrecord : ∀ s ∈ tableSectors,
      Dos.record d.dev s = Dos.record (copyMbrNBr .ilp32 mem) s := by
    intro s hs
    refine Dos.record_congr fun i hi => h.outside _ fun p hp => ?_
    have hout := (rbPartitions_tables hp).2 s hs
    unfold rbSectorSize
    omega
  obtain ⟨h0, hbr⟩ := records_copyMbrNBr mem
  refine ⟨(hrecord 0 (by decide)).trans h0, fun p hp => (hrecord _ ?_).trans (hbr p hp)⟩
  exact List.mem_cons_of_mem _ (List.mem_map_of_mem (List.of_mem_zip hp).1)

/-- `RB_MINOR_CNT`. -/
def rbMinorCnt : ℕ := 16

/-- Let the kernel read partition tables as documented. On a 32-bit machine the RAM disk is a
disk for each of its five partitions with data: it starts with boot records from which they
and the extended partition are read, and along every run whose requests are for those five and
stay inside them, queued in any order, each request is ended with the buffers and the code that
a disk of its own, which nobody else uses, would give; the same partitions are read ever after,
and nothing behind the device changes. On a 64-bit machine no table is read at all. -/
theorem partitions_are_disks {lead : ℕ} {read : Store → Option (List Dos.Part)}
    (hread : Dos.Reads lead rbMinorCnt rbDeviceSize read) (mem : Store) :
    (∃ dev₀, ramdeviceInit .ilp32 (some mem) = ((rbDeviceSize : ℤ), some dev₀) ∧
      read dev₀ = some (rbDevices lead) ∧
      ∀ as : List Action, (∀ a ∈ as, a.Fits) →
        Run.trace Disk.step ⟨dev₀, []⟩ as =
          Run.trace Disks.step ⟨fun p => mem.window (rbSectorSize * p.start), []⟩ as ∧
        read (Run.exec (fun d a => (d.step a).1) (⟨dev₀, []⟩ : Disk) as).dev =
          some (rbDevices lead) ∧
        ∀ a, rbSectorSize * rbDeviceSize ≤ a →
          (Run.exec (fun d a => (d.step a).1) (⟨dev₀, []⟩ : Disk) as).dev a = mem a) ∧
    ∃ dev₀, ramdeviceInit .lp64 (some mem) = ((rbDeviceSize : ℤ), some dev₀) ∧
      read dev₀ = none := by
  have hminors : 7 < rbMinorCnt := by decide
  refine ⟨⟨_, rfl, (records_copyMbrNBr mem).read_eq hread hminors, fun as has => ?_⟩,
    _, rfl, hread.unsigned _ (record_lp64 mem)⟩
  have hl : Run.Along (fun (e : Disks) a => (e.step a).1) (fun _ a => a.Fits)
      ⟨fun p => mem.window (rbSectorSize * p.start), []⟩ as := Run.along_of_mem _ has
  have hstep : ∀ d e a, Serves (copyMbrNBr .ilp32 mem) d e → a.Fits → (d.step a).2 = (e.step a).2 ∧
      Serves (copyMbrNBr .ilp32 mem) (d.step a).1 (e.step a).1 := fun _ _ _ h ha => h.step ha
  have hend := Run.exec_related hstep (Serves.init mem) hl
  refine ⟨Run.trace_eq hstep (Serves.init mem) hl, hend.records.read_eq hread hminors,
    fun a ha => ?_⟩
  rw [hend.outside a fun p hp => Or.inr ?_]
  · refine copyMbrNBr_outside .ilp32 mem ?_
    have hs : ∀ s ∈ tableSectors, s < rbDeviceSize := by decide
    intro h
    have hlt := hs _ h
    unfold rbSectorSize rbDeviceSize at *
    omega
  · have hle := Nat.mul_le_mul_left rbSectorSize (rbPartitions_tables hp).1
    omega

/-- A reader that gives out two sectors of an extended partition. -/
def scanned : Store → Option (List Dos.Part) := Dos.scan 2 rbMinorCnt

/-- A write to `rb1` queued before a read of `rb5`, which the block layer takes first. -/
def sampleQueue : List Action :=
  [.queue 0 ⟨1, 1, 319⟩ ⟨.write, 318, 1, [List.replicate 512 7]⟩,
    .queue 0 ⟨5, 321, 127⟩ ⟨.read, 0, 1, [List.replicate 512 0]⟩, .request]

theorem partitions_are_disks_sample :
    scanned (copyMbrNBr .ilp32 fun _ => 1) = some (rbDevices 2) ∧
    Run.trace Disk.step ⟨copyMbrNBr .ilp32 fun _ => 1, []⟩ sampleQueue =
      Run.trace Disks.step ⟨fun p => Store.window (fun _ => 1) (rbSectorSize * p.start), []⟩
        sampleQueue := by
  have hread : Dos.Reads 2 rbMinorCnt rbDeviceSize scanned := Dos.scan_reads _ _ _
  obtain ⟨⟨dev₀, hinit, hdev, h⟩, _⟩ := partitions_are_disks hread fun _ => 1
  obtain rfl : copyMbrNBr .ilp32 (fun _ => 1) = dev₀ := Option.some.inj (Prod.mk.inj hinit).2
  exact ⟨hdev, (h sampleQueue (by decide +kernel)).1⟩

end Linuxpedia.RamDisk
