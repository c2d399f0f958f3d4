import Mathlib.Data.Int.Notation
import Linuxpedia.Lib.Unwind

/-! Loading and unloading the modules. Each module takes what it needs with calls to the
kernel, any of which may fail, and tests what they return. The tests of the character drivers
and of the RAM disk miss some failures, and two error paths give back too little. -/

namespace Linuxpedia.Modules

open Lib Lib.Unwind

/-! ### Calls -/

/-- What the calls are made for. -/
inductive Resource where
  | chrdevRegion
  | cdev
  | deviceClass
  | device
  | vram
  | memory
  | blockMajor
  | queue
  | disk
  | liveDisk
  | portRegion
  | procDir
  | procJiffies
  | procFoo
  | procBar
  | procFile
  | procLink
  deriving DecidableEq

/-- What a call returns: a number, `NULL`, an error pointer or a pointer to what was taken. -/
inductive Ret where
  | int (n : ℤ)
  | null
  | err (n : ℕ)
  | ptr
  deriving DecidableEq

namespace Ret

/-- The kernel has given what was asked for. -/
def took : Ret → Bool
  | .int n => 0 ≤ n
  | .null => false
  | .err _ => false
  | .ptr => true

/-- `< 0`. -/
def negative : Ret → Bool
  | .int n => n < 0
  | _ => false

/-- `<= 0` once the number is stored in an `u_int`, where only zero meets it. -/
def notPositiveUnsigned : Ret → Bool
  | .int n => UInt32.ofInt n ≤ 0
  | _ => false

/-- `== -1`. -/
def minusOne : Ret → Bool
  | .int n => n = -1
  | _ => false

/-- `!= 0`. -/
def nonzero : Ret → Bool
  | .int n => n ≠ 0
  | _ => false

/-- `== NULL`. -/
def isNull : Ret → Bool
  | .null => true
  | _ => false

/-- `IS_ERR`. -/
def isErr : Ret → Bool
  | .err _ => true
  | _ => false

/-- The number, or `PTR_ERR` of an error pointer. -/
def value : Ret → ℤ
  | .int n => n
  | .err n => -(n + 1)
  | _ => 0

end Ret

abbrev Returns := Resource → Ret

/-- What the kernel documents of each call; a major number is an `int`. -/
def Resource.MayReturn : Resource → Ret → Prop
  | .chrdevRegion, v => ∃ n ≤ 0, v = .int n
  | .cdev, v => ∃ n ≤ 0, v = .int n
  | .blockMajor, v => ∃ n ≠ 0, -2147483648 ≤ n ∧ n ≤ 2147483647 ∧ v = .int n
  | .deviceClass, v => v = .ptr ∨ ∃ n, v = .err n
  | .device, v => v = .ptr ∨ ∃ n, v = .err n
  | .liveDisk, v => v = .ptr
  | _, v => v = .ptr ∨ v = .null

def Documented (ret : Returns) : Prop := ∀ r : Resource, r.MayReturn (ret r)

/-! ### The modules -/

section Source

variable (ret : Returns) (h : Held Resource)

/-- One call. -/
def ask (r : Resource) (h : Held Resource) : Held Resource := h.call r (ret r).took

def enomem : ℤ := 12

def ebusy : ℤ := 16

def ofcdInit : Held Resource × ℤ :=
  let h := ask ret .chrdevRegion h
  if (ret .chrdevRegion).negative then (h, -1)
  else
    let h := ask ret .deviceClass h
    if (ret .deviceClass).isNull then (h.giveAll [.chrdevRegion], -1)
    else
      let h := ask ret .device h
      if (ret .device).isNull then (h.giveAll [.deviceClass, .chrdevRegion], -1)
      else
        let h := ask ret .cdev h
        if (ret .cdev).minusOne then (h.giveAll [.device, .deviceClass, .chrdevRegion], -1)
        else (h, 0)

def ofcdExit : List Resource := [.cdev, .device, .deviceClass, .chrdevRegion]

/-- `vram_init`: the mapping is not given back where a later call fails. -/
def vramInit : Held Resource × ℤ :=
  let h := ask ret .vram h
  if (ret .vram).isNull then (h, -1)
  else
    let h := ask ret .chrdevRegion h
    if (ret .chrdevRegion).negative then (h, -1)
    else
      let h := ask ret .deviceClass h
      if (ret .deviceClass).isNull then (h.giveAll [.chrdevRegion], -1)
      else
        let h := ask ret .device h
        if (ret .device).isNull then (h.giveAll [.deviceClass, .chrdevRegion], -1)
        else
          let h := ask ret .cdev h
          if (ret .cdev).minusOne then (h.giveAll [.device, .deviceClass, .chrdevRegion], -1)
          else (h, 0)

def vramExit : List Resource := [.cdev, .device, .deviceClass, .chrdevRegion, .vram]

/-- `query_ioctl_init`: the region is not given back where `cdev_add` fails. -/
def queryIoctlInit : Held Resource × ℤ :=
  let h := ask ret .chrdevRegion h
  if (ret .chrdevRegion).negative then (h, (ret .chrdevRegion).value)
  else
    let h := ask ret .cdev h
    if (ret .cdev).negative then (h, (ret .cdev).value)
    else
      let h := ask ret .deviceClass h
      if (ret .deviceClass).isErr then
        (h.giveAll [.cdev, .chrdevRegion], (ret .deviceClass).value)
      else
        let h := ask ret .device h
        if (ret .device).isErr then
          (h.giveAll [.deviceClass, .cdev, .chrdevRegion], (ret .device).value)
        else (h, 0)

def queryIoctlExit : List Resource := [.device, .deviceClass, .cdev, .chrdevRegion]

/-- `ramdevice_init` is the call for the memory; `rb_major` is an `u_int`. -/
def rbInit : Held Resource × ℤ :=
  let h := ask ret .memory h
  if (ret .memory).isNull then (h, -enomem)
  else
    let h := ask ret .blockMajor h
    if (ret .blockMajor).notPositiveUnsigned then (h.giveAll [.memory], -ebusy)
    else
      let h := ask ret .queue h
      if (ret .queue).isNull then (h.giveAll [.blockMajor, .memory], -enomem)
      else
        let h := ask ret .disk h
        if (ret .disk).isNull then (h.giveAll [.queue, .blockMajor, .memory], -enomem)
        else (ask ret .liveDisk h, 0)

def rbCleanup : List Resource := [.liveDisk, .disk, .queue, .blockMajor, .memory]

def procWinInit : Held Resource × ℤ :=
  let h := ask ret .procDir h
  if (ret .procDir).isNull then (h, -1)
  else
    let h := ask ret .procFile h
    if (ret .procFile).isNull then (h.giveAll [.procDir], -1)
    else
      let h := ask ret .procLink h
      if (ret .procLink).isNull then (h.giveAll [.procFile, .procDir], -1)
      else (h, 0)

def procWinExit : List Resource := [.procLink, .procFile, .procDir]

/-- `init_procfs_example`; the labels fall through to the calls below them. -/
def initProcfsExample : Held Resource × ℤ :=
  let h := ask ret .procDir h
  if (ret .procDir).isNull then (h, -enomem)
  else
    let h := ask ret .procJiffies h
    if (ret .procJiffies).isNull then (h.giveAll [.procDir], -enomem)
    else
      let h := ask ret .procFoo h
      if (ret .procFoo).isNull then (h.giveAll [.procJiffies, .procDir], -enomem)
      else
        let h := ask ret .procBar h
        if (ret .procBar).isNull then (h.giveAll [.procFoo, .procJiffies, .procDir], -enomem)
        else
          let h := ask ret .procLink h
          if (ret .procLink).isNull then
            (h.giveAll [.procBar, .procFoo, .procJiffies, .procDir], -enomem)
          else (h, 0)

def cleanupProcfsExample : List Resource :=
  [.procLink, .procBar, .procFoo, .procJiffies, .procDir]

/-- `initialize_module4` and `initialize_module5`: the port is used even if it is not got. -/
def initializeModule : Held Resource × ℤ :=
  let h := ask ret .chrdevRegion h
  if (ret .chrdevRegion).negative then (h, (ret .chrdevRegion).value)
  else
    let h := ask ret .cdev h
    if (ret .cdev).nonzero then (h.giveAll [.chrdevRegion], (ret .cdev).value)
    else (ask ret .portRegion h, 0)

/-- `cleanup_module4` and `cleanup_module5`. -/
def cleanupModule : List Resource :=
  (if (ret .portRegion).isNull then [] else [.portRegion]) ++ [.cdev, .chrdevRegion]

/-- `init_module` of `sleep.c`, which removes an entry that was not made. -/
def sleepInit : Held Resource × ℤ :=
  let h := ask ret .procFile h
  if (ret .procFile).isNull then (h.giveAll [.procFile], -enomem) else (h, 0)

def sleepCleanup : List Resource := [.procFile]

end Source

inductive Driver where
  | ofcd
  | vram
  | queryIoctl
  | rb
  | procWin
  | procfsExample
  | module4
  | module5
  | sleep
  deriving DecidableEq

namespace Driver

def init : Driver → Returns → Held Resource → Held Resource × ℤ
  | .ofcd => ofcdInit
  | .vram => vramInit
  | .queryIoctl => queryIoctlInit
  | .rb => rbInit
  | .procWin => procWinInit
  | .procfsExample => initProcfsExample
  | .module4 => initializeModule
  | .module5 => initializeModule
  | .sleep => sleepInit

def exit : Driver → Returns → List Resource
  | .ofcd, _ => ofcdExit
  | .vram, _ => vramExit
  | .queryIoctl, _ => queryIoctlExit
  | .rb, _ => rbCleanup
  | .procWin, _ => procWinExit
  | .procfsExample, _ => cleanupProcfsExample
  | .module4, ret => cleanupModule ret
  | .module5, ret => cleanupModule ret
  | .sleep, _ => sleepCleanup

/-- The module as the kernel sees it: a negative result fails the load. -/
def asModule (d : Driver) : Module Resource Ret where
  init ret h := ((d.init ret h).1, 0 ≤ (d.init ret h).2)
  exit := d.exit

/-! ### Their stages -/

/-- The stages of the character drivers, of which the last three test for the wrong errors. -/
def nodeStages : List (Stage Resource Ret) :=
  [⟨.chrdevRegion, Ret.negative, [], true⟩, ⟨.deviceClass, Ret.isNull, [.chrdevRegion], true⟩,
    ⟨.device, Ret.isNull, [.deviceClass, .chrdevRegion], true⟩,
    ⟨.cdev, Ret.minusOne, [.device, .deviceClass, .chrdevRegion], true⟩]

/-- The stages of the RAM disk behind the call for a major number. -/
def diskStages : List (Stage Resource Ret) :=
  [⟨.queue, Ret.isNull, [.blockMajor, .memory], true⟩,
    ⟨.disk, Ret.isNull, [.queue, .blockMajor, .memory], true⟩,
    ⟨.liveDisk, fun _ => false, [.disk, .queue, .blockMajor, .memory], true⟩]

def stages : Driver → List (Stage Resource Ret)
  | .ofcd => nodeStages
  | .vram => ⟨.vram, Ret.isNull, [], true⟩ :: nodeStages
  | .queryIoctl => [⟨.chrdevRegion, Ret.negative, [], true⟩, ⟨.cdev, Ret.negative, [], true⟩,
      ⟨.deviceClass, Ret.isErr, [.cdev, .chrdevRegion], true⟩,
      ⟨.device, Ret.isErr, [.deviceClass, .cdev, .chrdevRegion], true⟩]
  | .rb => ⟨.memory, Ret.isNull, [], true⟩ ::
      ⟨.blockMajor, Ret.notPositiveUnsigned, [.memory], true⟩ :: diskStages
  | .procWin => [⟨.procDir, Ret.isNull, [], true⟩, ⟨.procFile, Ret.isNull, [.procDir], true⟩,
      ⟨.procLink, Ret.isNull, [.procFile, .procDir], true⟩]
  | .procfsExample => [⟨.procDir, Ret.isNull, [], true⟩,
      ⟨.procJiffies, Ret.isNull, [.procDir], true⟩,
      ⟨.procFoo, Ret.isNull, [.procJiffies, .procDir], true⟩,
      ⟨.procBar, Ret.isNull, [.procFoo, .procJiffies, .procDir], true⟩,
      ⟨.procLink, Ret.isNull, [.procBar, .procFoo, .procJiffies, .procDir], true⟩]
  | .module4 => portStages
  | .module5 => portStages
  | .sleep => [⟨.procFile, Ret.isNull, [.procFile], true⟩]
where
  portStages : List (Stage Resource Ret) := [⟨.chrdevRegion, Ret.negative, [], true⟩,
    ⟨.cdev, Ret.nonzero, [.chrdevRegion], true⟩, ⟨.portRegion, fun _ => false, [], false⟩]

/-- When a load goes well or fails without a trace. -/
def Handled : Driver → Returns → Prop
  | .ofcd, ret => (ret .chrdevRegion).took = true → (ret .deviceClass).took = true ∧
      (ret .device).took = true ∧ ((ret .cdev).took = true ∨ ret .cdev = .int (-1))
  | .vram, ret => (ret .vram).took = true → (ret .chrdevRegion).took = true ∧
      (ret .deviceClass).took = true ∧ (ret .device).took = true ∧ (ret .cdev).took = true
  | .queryIoctl, ret => (ret .chrdevRegion).took = true → (ret .cdev).took = true
  | .rb, ret => (ret .memory).took = true → (ret .blockMajor).took = true
  | .sleep, ret => (ret .procFile).took = true
  | _, _ => True

end Driver

/-! ### What the tests see -/

section Tests

theorem negative_eq {v : Ret} (h : ∃ n ≤ 0, v = .int n) : v.negative = !v.took := by
  obtain ⟨n, _, rfl⟩ := h
  simp only [Ret.negative, Ret.took, ← decide_not, decide_eq_decide]
  omega

theorem nonzero_eq {v : Ret} (h : ∃ n ≤ 0, v = .int n) : v.nonzero = !v.took := by
  obtain ⟨n, hn, rfl⟩ := h
  simp only [Ret.nonzero, Ret.took, ← decide_not, decide_eq_decide]
  omega

/-- A number that is not zero stays so in an `u_int`. -/
theorem notPositiveUnsigned_eq {v : Ret}
    (h : ∃ n ≠ 0, -2147483648 ≤ n ∧ n ≤ 2147483647 ∧ v = .int n) :
    v.notPositiveUnsigned = false := by
  obtain ⟨n, hn, hlo, hhi, rfl⟩ := h
  rw [Ret.notPositiveUnsigned, decide_eq_false_iff_not, UInt32.le_iff_toNat_le, UInt32.toNat_zero,
    UInt32.ofInt, UInt32.toNat_ofNat']
  omega

theorem isNull_eq {v : Ret} (h : v = .ptr ∨ v = .null) : v.isNull = !v.took := by
  rcases h with rfl | rfl <;> rfl

theorem isErr_eq {v : Ret} (h : v = .ptr ∨ ∃ n, v = .err n) : v.isErr = !v.took := by
  rcases h with rfl | ⟨n, rfl⟩ <;> rfl

/-- An error pointer is not `NULL`. -/
theorem isNull_err {v : Ret} (h : v = .ptr ∨ ∃ n, v = .err n) : v.isNull = false := by
  rcases h with rfl | ⟨n, rfl⟩ <;> rfl

theorem minusOne_eq_true {v : Ret} : v.minusOne = true ↔ v = .int (-1) := by
  cases v <;> simp [Ret.minusOne]

theorem minusOne_of_took {v : Ret} (h : v.took = true) : v.minusOne = false := by
  cases v with
  | int n =>
    simp only [Ret.took, decide_eq_true_eq] at h
    simp only [Ret.minusOne, decide_eq_false_iff_not]
    omega
  | _ => rfl

theorem value_of_negative {v : Ret} (h : v.negative = true) : v.value < 0 := by
  cases v with
  | int n => exact of_decide_eq_true h
  | _ => cases h

theorem value_of_nonzero {v : Ret} (hv : ∃ n ≤ 0, v = .int n) (h : v.nonzero = true) :
    v.value < 0 :=
  value_of_negative (by rw [negative_eq hv, ← nonzero_eq hv, h])

theorem value_of_isErr {v : Ret} (h : v.isErr = true) : v.value < 0 := by
  cases v with
  | err n =>
    simp only [Ret.value]
    omega
  | _ => cases h

end Tests

open Driver

/-- The code goes through its stages. -/
theorem init_eq {ret : Returns} (hret : Documented ret) (d : Driver) (h : Held Resource) :
    d.asModule.init ret h = start Ret.took ret d.stages h := by
  have hport : ∀ h : Held Resource,
      ((initializeModule ret h).1, decide (0 ≤ (initializeModule ret h).2)) =
        start Ret.took ret stages.portStages h := by
    intro h
    simp only [initializeModule, stages.portStages, start, ask, Bool.false_eq_true, ↓reduceIte]
    split_ifs with h1 h2
    · simp [value_of_negative h1]
    · simp [value_of_nonzero (hret .cdev) h2]
    · simp
  cases d with
  | module4 => exact hport h
  | module5 => exact hport h
  | queryIoctl =>
    simp only [asModule, Driver.init, queryIoctlInit, stages, start, ask]
    split_ifs with h1 h2 h3 h4
    · simp [value_of_negative h1]
    · simp [value_of_negative h2]
    · simp [value_of_isErr h3]
    · simp [value_of_isErr h4]
    · simp
  | ofcd =>
    simp only [asModule, Driver.init, ofcdInit, stages, nodeStages, start, ask]
    split_ifs <;> simp
  | vram =>
    simp only [asModule, Driver.init, vramInit, stages, nodeStages, start, ask]
    split_ifs <;> simp
  | rb =>
    simp only [asModule, Driver.init, rbInit, stages, diskStages, start, ask, Bool.false_eq_true,
      ↓reduceIte]
    split_ifs <;> simp [enomem, ebusy]
  | procWin =>
    simp only [asModule, Driver.init, procWinInit, stages, start, ask]
    split_ifs <;> simp
  | procfsExample =>
    simp only [asModule, Driver.init, initProcfsExample, stages, start, ask]
    split_ifs <;> simp [enomem]
  | sleep =>
    simp only [asModule, Driver.init, sleepInit, stages, start, ask]
    split_ifs <;> simp [enomem]

theorem cleanupModule_eq {ret : Returns} (hret : Documented ret)
    (hc : Complete Ret.took ret stages.portStages) :
    cleanupModule ret = kept Ret.took ret stages.portStages := by
  have hport := isNull_eq (hret .portRegion)
  simp only [Complete, stages.portStages, List.forall_mem_cons, forall_const] at hc
  obtain ⟨hregion, hcdev, -⟩ := hc
  simp only [cleanupModule, stages.portStages, kept, hregion, hcdev, hport]
  cases (ret .portRegion).took <;> rfl

/-- The exit gives back what was taken, the last first. -/
theorem exit_eq {ret : Returns} (hret : Documented ret) (d : Driver)
    (hc : Complete Ret.took ret d.stages) : d.asModule.exit ret = kept Ret.took ret d.stages := by
  cases d with
  | module4 => exact cleanupModule_eq hret hc
  | module5 => exact cleanupModule_eq hret hc
  | _ => exact (kept_eq (by decide) hc).symm

/-- The tests of the other modules are exact. -/
theorem tests_exact {ret : Returns} (hret : Documented ret) {d : Driver} (hofcd : d ≠ .ofcd)
    (hvram : d ≠ .vram) (hrb : d ≠ .rb) : ∀ s ∈ d.stages, s.Exact Ret.took ret := by
  have hport : ∀ s ∈ stages.portStages, s.Exact Ret.took ret := by
    simp only [stages.portStages, List.forall_mem_cons]
    exact ⟨negative_eq (hret .chrdevRegion), nonzero_eq (hret .cdev), rfl, by simp⟩
  cases d with
  | ofcd => exact absurd rfl hofcd
  | vram => exact absurd rfl hvram
  | queryIoctl =>
    simp only [stages, List.forall_mem_cons]
    exact ⟨negative_eq (hret .chrdevRegion), negative_eq (hret .cdev),
      isErr_eq (hret .deviceClass), isErr_eq (hret .device), by simp⟩
  | rb => exact absurd rfl hrb
  | procWin =>
    simp only [stages, List.forall_mem_cons]
    exact ⟨isNull_eq (hret .procDir), isNull_eq (hret .procFile), isNull_eq (hret .procLink),
      by simp⟩
  | procfsExample =>
    simp only [stages, List.forall_mem_cons]
    exact ⟨isNull_eq (hret .procDir), isNull_eq (hret .procJiffies), isNull_eq (hret .procFoo),
      isNull_eq (hret .procBar), isNull_eq (hret .procLink), by simp⟩
  | module4 => exact hport
  | module5 => exact hport
  | sleep =>
    simp only [stages, List.forall_mem_cons]
    exact ⟨isNull_eq (hret .procFile), by simp⟩

/-- What the last stages of a character driver miss, they believe in. -/
theorem plain_nodeStages {ret : Returns} (hret : Documented ret) :
    Plain Ret.took ret nodeStages := by
  constructor
  · simp only [nodeStages, List.forall_mem_cons]
    refine ⟨fun h => ?_, fun _ => isNull_err (hret .deviceClass),
      fun _ => isNull_err (hret .device), minusOne_of_took, by simp⟩
    rw [negative_eq (hret .chrdevRegion), h, Bool.not_true]
  · have hbelieved : nodeStages.Pairwise fun s s' =>
        s.resource ≠ s'.resource ∧ s.resource ∈ s'.undo := by decide
    exact hbelieved.imp fun h => ⟨h.1, fun _ _ _ => h.2⟩

/-- The tests of the RAM disk once it has asked for a major number. -/
theorem diskStages_exact {ret : Returns} (hret : Documented ret) :
    ∀ s ∈ diskStages, s.Exact Ret.took ret := by
  have hlive : ret .liveDisk = .ptr := hret .liveDisk
  simp only [diskStages, List.forall_mem_cons]
  exact ⟨isNull_eq (hret .queue), isNull_eq (hret .disk),
    by simp [Stage.Exact, hlive, Ret.took], by simp⟩

/-- Every later stage of the RAM disk believes that it has its major number. -/
theorem plain_rb {ret : Returns} (hret : Documented ret) :
    Plain Ret.took ret (stages .rb) := by
  have hdisk : Plain Ret.took ret diskStages := .of_exact (diskStages_exact hret) (by decide)
  have hmajor : Plain Ret.took ret
      (⟨.blockMajor, Ret.notPositiveUnsigned, [.memory], true⟩ :: diskStages) := by
    have hbelieved : ∀ s ∈ diskStages,
        Resource.blockMajor ≠ s.resource ∧ Resource.blockMajor ∈ s.undo := by decide
    exact ⟨List.forall_mem_cons.mpr
        ⟨fun _ => notPositiveUnsigned_eq (hret .blockMajor), hdisk.honest⟩,
      List.pairwise_cons.mpr
        ⟨fun s hs => ⟨(hbelieved s hs).1, fun _ _ _ => (hbelieved s hs).2⟩, hdisk.apart⟩⟩
  exact hmajor.cons (isNull_eq (hret .memory)) (by decide)

theorem plain {ret : Returns} (hret : Documented ret) (d : Driver) :
    Plain Ret.took ret d.stages := by
  cases d with
  | ofcd => exact plain_nodeStages hret
  | vram => exact (plain_nodeStages hret).cons (isNull_eq (hret .vram)) (by decide)
  | rb => exact plain_rb hret
  | _ => exact .of_exact (tests_exact hret (by decide) (by decide) (by decide)) (by decide)

theorem staged (d : Driver) : d.asModule.Staged Ret.took d.stages Documented :=
  ⟨fun _ hret h => init_eq hret d h, fun _ hret hc => exit_eq hret d hc,
    fun _ hret => plain hret d⟩

/-! ### Sound loads -/

/-- The stages of a character driver that has taken `base` before. -/
theorem sound_nodeStages {ret : Returns} (hret : Documented ret) (base : List Resource) :
    Sound Ret.took ret base nodeStages ↔
      ((ret .chrdevRegion).took = false → base = []) ∧
      ((ret .chrdevRegion).took = true → (ret .deviceClass).took = true ∧
        (ret .device).took = true ∧
        ((ret .cdev).took = true ∨ ret .cdev = .int (-1) ∧ base = [])) := by
  simp only [nodeStages, Sound, negative_eq (hret .chrdevRegion),
    isNull_err (hret .deviceClass), isNull_err (hret .device), ← minusOne_eq_true]
  cases (ret .chrdevRegion).took with
  | false => simp
  | true =>
    cases (ret .deviceClass).took with
    | false => simp
    | true =>
      cases (ret .device).took with
      | false => simp
      | true =>
        cases (ret .cdev).took with
        | true => simp
        | false => simp

/-- The loads that are sound. -/
theorem sound_iff {ret : Returns} (hret : Documented ret) (d : Driver) :
    Sound Ret.took ret [] d.stages ↔ d.Handled ret := by
  cases d with
  | ofcd =>
    rw [stages, sound_nodeStages hret]
    simp [Handled]
  | vram =>
    simp only [stages, Sound, Handled, isNull_eq (hret .vram), sound_nodeStages hret]
    cases (ret .vram).took with
    | false => simp
    | true => cases (ret .chrdevRegion).took <;> simp
  | queryIoctl =>
    simp only [stages, Sound, Handled, negative_eq (hret .chrdevRegion), negative_eq (hret .cdev),
      isErr_eq (hret .deviceClass), isErr_eq (hret .device)]
    cases (ret .chrdevRegion).took with
    | false => simp
    | true => cases (ret .cdev).took <;> simp
  | rb =>
    have hdisk : Sound Ret.took ret [.blockMajor, .memory] diskStages :=
      Unwound.sound (diskStages_exact hret) (by decide)
    simp only [stages, Sound, Handled, isNull_eq (hret .memory),
      notPositiveUnsigned_eq (hret .blockMajor)]
    cases (ret .memory).took with
    | false => simp
    | true => cases (ret .blockMajor).took <;> simp [hdisk]
  | sleep =>
    simp only [stages, Sound, Handled, isNull_eq (hret .procFile)]
    cases (ret .procFile).took <;> simp
  | _ =>
    exact iff_of_true (Unwound.sound (tests_exact hret (by decide) (by decide) (by decide))
      (by decide)) trivial

/-! ### Histories -/

namespace Driver

/-- What the code of a loaded module relies on. -/
def needs : Driver → List Resource
  | .ofcd => ofcdExit
  | .vram => vramExit
  | .queryIoctl => queryIoctlExit
  | .rb => rbCleanup
  | .procWin => procWinExit
  | .procfsExample => cleanupProcfsExample
  | .module4 => [.cdev, .chrdevRegion]
  | .module5 => [.cdev, .chrdevRegion]
  | .sleep => sleepCleanup

/-- A module that is not loaded holds nothing. A loaded one has got all that it relies on and
holds what its exit gives back. Nothing was given back that was not the last thing taken. -/
def InOrder (d : Driver) (s : State Resource Ret) : Prop :=
  (s.running = none → s.held = ⟨[], false⟩) ∧
  ∀ ret, s.running = some ret →
    (∀ r ∈ d.needs, (ret r).took = true) ∧ s.held = ⟨d.exit ret, false⟩

end Driver

theorem complete_iff (ret : Returns) (d : Driver) :
    Complete Ret.took ret d.stages ↔ ∀ r ∈ d.needs, (ret r).took = true := by
  have hneeds : d.needs = ((d.stages.filter Stage.needed).map Stage.resource).reverse := by
    cases d <;> rfl
  simp only [hneeds, Complete, List.mem_reverse, List.mem_map, List.mem_filter]
  constructor
  · rintro h r ⟨s, ⟨hs, hn⟩, rfl⟩
    exact h s hs hn
  · exact fun h s hs hn => h _ ⟨s, ⟨hs, hn⟩, rfl⟩

/-- In every history of loads and unloads, whatever the kernel's calls return within what is
documented of them, a module is in order after every action exactly if every load that
happens is one that its code handles. -/
theorem drivers_unwind (d : Driver) {acts : List (Act Resource Ret)}
    (hacts : ∀ a ∈ acts, a.Legal Documented) :
    Run.Along d.asModule.step (fun s a => d.InOrder (d.asModule.step s a)) .fresh acts ↔
      Run.Along d.asModule.step
        (fun s a => ∀ ret, a = .load ret → s.running = none → d.Handled ret) .fresh acts := by
  have horder : ∀ s, d.InOrder s ↔ Tidy Ret.took d.asModule d.stages s := by
    intro s
    simp only [InOrder, Tidy, complete_iff]
    rfl
  have hload : ∀ (s : State Resource Ret) (a : Act Resource Ret), True → a.Legal Documented →
      (SoundLoad Ret.took d.stages s a ↔
        ∀ ret, a = .load ret → s.running = none → d.Handled ret) := by
    intro s a _ ha
    cases a with
    | unload => simp [SoundLoad]
    | load ret => simp [SoundLoad, sound_iff (show Documented ret from ha)]
  simp only [horder]
  exact ((staged d).along_iff hacts).trans
    (Run.along_iff (fun _ _ _ _ _ => trivial) hload trivial (Run.along_of_mem _ hacts))

/-- All calls succeed. -/
def allGranted : Returns
  | .chrdevRegion => .int 0
  | .cdev => .int 0
  | .blockMajor => .int 250
  | _ => .ptr

/-- All calls but `ioremap`. -/
def notMapped : Returns := Function.update allGranted .vram .null

/-- All calls but `alloc_chrdev_region`. -/
def noRegion : Returns := Function.update allGranted .chrdevRegion (.int (-16))

theorem documented_allGranted : Documented allGranted := by
  intro r
  cases r <;> simp [Resource.MayReturn, allGranted]

theorem documented_notMapped : Documented notMapped := by
  intro r
  cases r <;> simp [Resource.MayReturn, notMapped, allGranted]

/-- The video RAM module is loaded and unloaded, and then not loaded. -/
theorem drivers_unwind_sample : Run.Along Driver.vram.asModule.step
    (fun s a => Driver.vram.InOrder (Driver.vram.asModule.step s a)) .fresh
    [.load allGranted, .unload, .load notMapped] := by
  refine (@drivers_unwind .vram [.load allGranted, .unload, .load notMapped] ?_).mpr ?_
  · simp [Act.Legal, documented_allGranted, documented_notMapped]
  · simp [Handled, Ret.took, allGranted, notMapped]

/-- The mapping stays where the region is refused. -/
example : vramInit noRegion ⟨[], false⟩ = (⟨[.vram], false⟩, -1) := by decide

end Linuxpedia.Modules
