import Linuxpedia.RealFs.Contents
import Linuxpedia.Lib.Run

/-! The shell and the driver on one image. On every image that the shell can make,
the driver finds a file in the slot where the shell finds it, maps each block that
the size covers, and these blocks hold what the shell prints. Stale pointers and a
stored -1 do not matter: they lie behind the size. -/

namespace Linuxpedia.RealFs

open Lib Sfs

/-- A command, or `quit` and a new start on the same device. -/
inductive Session where
  | command (c : Command)
  | restart

def Session.step (s : Shell) : Session → Shell
  | .command c => RealFs.step .bits32 s c
  | .restart => RealFs.restart .bits32 s

/-- The bytes of the blocks that the driver maps for the pages of an inode, in
order and cut to `size`. -/
def driverBytes (κ : Kernel) (m : Mount) (ino : ℤ) (size : ℕ) : List UInt8 :=
  ((List.range ((size + 511) / 512)).flatMap fun k =>
    (m.dev.window (512 * ((sfsGetBlock κ m ino k false).2.2.getD 0).toNat)).bytes 512).take size

variable {s : Shell}

theorem Orderly.step (h : Orderly s) (a : Session) : Orderly (a.step s) := by
  cases a with
  | command c => exact h.command c
  | restart => exact h.restart

section Driver

variable {κ : Kernel} {m : Mount}

/-- The driver searches the slots that the shell searches. -/
theorem slotOf_mount (hdev : m.dev = s.dev) (hsb : m.sb = s.sb) (fn : List UInt8) :
    m.volume.slotOf fn = s.volume.slotOf fn := by
  apply Volume.slotOf_congr
  · change m.sb.entryCount.toNat = s.sb.entryCount.toNat
    rw [hsb]
  · intro i _
    change ((entryAt m.dev i).Named ∧ (entryAt m.dev i).cname = fn) ↔ _
    rw [hdev]
    exact Iff.rfl

/-- The driver maps the pointers that a size covers. -/
theorem Orderly.mapped (h : Orderly s) (hκ : κ.Reliable) (hdev : m.dev = s.dev)
    (hsb : m.sb = s.sb) {i : ℕ} (hi : s.volume.Live i) {k : ℕ}
    (hk : 512 * k < (s.volume.entry i).size.toNat) : ∃ hk9 : k < 9,
      (sfsGetBlock κ m ((i : ℤ) + 1) k false).2 =
        (0, some ((s.volume.entry i).blocks ⟨k, hk9⟩)) := by
  obtain ⟨hle, hb⟩ := h.sized i hi
  have hk9 : k < 9 := by omega
  have hr := hb ⟨k, hk9⟩ hk
  have hstart := h.start_pos
  have hne : (entryAt m.dev i).blocks ⟨k, hk9⟩ ≠ 0 := by
    rw [hdev]
    intro hz
    have hlo : s.volume.start ≤ ((entryAt s.dev i).blocks ⟨k, hk9⟩).toNat := hr.1
    rw [hz, UInt32.toNat_zero] at hlo
    omega
  have hget := sfsGetBlock_pointer hκ.toSound (hsb ▸ h.geometry) (by rw [hsb]; exact hi.1)
    ⟨k, hk9⟩ false (hκ.bread _ _) hne
  refine ⟨hk9, ?_⟩
  rw [show sfsGetBlock κ m ((i : ℤ) + 1) k false = _ from hget, hdev]
  rfl

/-- The blocks mapped hold what the shell prints. -/
theorem Orderly.driverBytes_eq (h : Orderly s) (hκ : κ.Reliable) (hdev : m.dev = s.dev)
    (hsb : m.sb = s.sb) {i : ℕ} (hi : s.volume.Live i) :
    driverBytes κ m ((i : ℤ) + 1) (s.volume.entry i).size.toNat =
      contents s.dev (List.ofFn (s.volume.entry i).blocks) (s.volume.entry i).size.toNat := by
  have hle := (h.sized i hi).1
  have hcount : ((s.volume.entry i).size.toNat + 511) / 512 ≤
      (List.ofFn (s.volume.entry i).blocks).length := by
    rw [List.length_ofFn]
    omega
  have hptrs : (List.ofFn (s.volume.entry i).blocks).take
      (((s.volume.entry i).size.toNat + 511) / 512) =
      (List.range (((s.volume.entry i).size.toNat + 511) / 512)).map
        fun k => (sfsGetBlock κ m ((i : ℤ) + 1) k false).2.2.getD 0 := by
    apply List.ext_getElem
    · rw [List.length_take, List.length_map, List.length_range, Nat.min_eq_left hcount]
    · intro k hk hk'
      rw [List.length_map, List.length_range] at hk'
      obtain ⟨hk9, hmap⟩ := h.mapped hκ hdev hsb hi (k := k) (by omega)
      rw [List.getElem_take, List.getElem_ofFn, List.getElem_map, List.getElem_range, hmap]
      rfl
  unfold driverBytes
  rw [contents_eq_take _ _ _ hcount, hptrs, List.flatMap_map, hdev]

end Driver

/-- After any session on a formatted partition of at most `2 ^ 22` blocks the driver
finds, maps and reads what the shell reads. -/
theorem shell_driver_agree {κ : Kernel} (hκ : κ.Reliable) {bytes : ℕ}
    (hP : bytes / 512 ≤ 2 ^ 22) {s₀ : Shell} (hs : Started .bits32 bytes s₀)
    (session : List Session) {s t : Shell} (hrun : s = Run.exec Session.step s₀ session)
    {fn : List UInt8} {i : ℕ} {fe : SfsFileEntry}
    (hfind : sfsLookup .bits32 s fn = (t, (i : ℤ), fe)) (hread : fe.perms &&& 4 ≠ 0)
    {m : Mount} (hdev : m.dev = s.dev) (hsb : m.sb = SfsSuperBlock.ofBytes s.dev) :
    (Sfs.sfsLookup κ m fn).2.1 = (i : ℤ) + 1 ∧
    (∀ k, 512 * k < fe.size.toNat → k < 9 ∧ ∃ b,
      (sfsGetBlock κ m ((i : ℤ) + 1) k false).2 = (0, some b) ∧
        s.sb.dataBlockStart ≤ b ∧ b < s.sb.partitionSize) ∧
    (sfsRead .bits32 s fn).2 = [.data (driverBytes κ m ((i : ℤ) + 1) fe.size.toNat)] := by
  have hstep : ∀ (s : Shell) (a : Session), Orderly s → Orderly (Session.step s a) :=
    fun s a h => h.step a
  have h : Orderly s := by
    rw [hrun]
    exact Run.exec_of_step hstep ((hs.fresh (by omega)).orderly hP) session
  have hsb' : m.sb = s.sb := hsb.trans h.onDevice
  obtain ⟨hi, rfl⟩ := sfsLookup_inv h.geometry hfind
  have hlive := Volume.live_of_slotOf hi
  have hfound := Sfs.sfsLookup_found (m := m) hκ.toSound (hsb' ▸ h.geometry)
    ((slotOf_mount hdev hsb' fn).trans hi) (hκ.scans _)
  refine ⟨by rw [hfound], ?_, ?_⟩
  · intro k hk
    obtain ⟨hk9, hmap⟩ := h.mapped hκ hdev hsb' hlive hk
    obtain ⟨hlo, hhi⟩ := (h.sized i hlive).2 ⟨k, hk9⟩ hk
    rw [show s.volume.used.size = s.sb.partitionSize.toNat from h.size] at hhi
    exact ⟨hk9, _, hmap, UInt32.le_iff_toNat_le.mpr hlo, UInt32.lt_iff_toNat_lt.mpr hhi⟩
  · rw [sfsRead_out h.toWf h.small h.sized, h.driverBytes_eq hκ hdev hsb' hlive]
    unfold Shell.reading
    rw [hi]
    exact if_neg hread

/-- A session on the small partition: a file is created and written, and the shell
is started again. -/
def sampleSession : Shell :=
  Run.exec Session.step sampleShell
    [.command (.create [97] 5), .command (.write [97] [[1, 2, 3], [4]] 6), .restart]

/-- The driver reads that file as the shell does. -/
theorem shell_driver_agree_sample : (sfsRead .bits32 sampleSession [97]).2 =
    [.data (driverBytes sampleKernel
      { kzallocInfo sampleSession.dev with sb := .ofBytes sampleSession.dev } 1 4)] := by
  have hfind : sfsLookup .bits32 sampleSession [97] =
      ((sfsLookup .bits32 sampleSession [97]).1, ((0 : ℕ) : ℤ),
        (sfsLookup .bits32 sampleSession [97]).2.2) :=
    Prod.ext rfl (Prod.ext (by decide +kernel) rfl)
  have hsize : (sfsLookup .bits32 sampleSession [97]).2.2.size.toNat = 4 := by decide +kernel
  have h := (shell_driver_agree sampleKernel_reliable (by decide) sampleShell_started
    [.command (.create [97] 5), .command (.write [97] [[1, 2, 3], [4]] 6), .restart] rfl hfind
    (by decide +kernel)
    (m := { kzallocInfo sampleSession.dev with sb := .ofBytes sampleSession.dev }) rfl rfl).2.2
  rw [hsize] at h
  exact h

end Linuxpedia.RealFs
