import Linuxpedia.Lib.Buffer
import Linuxpedia.Lib.ByteFile
import Linuxpedia.Lib.CString
import Linuxpedia.Lib.Run

/-! The message device, `chardev.c`. A message is stored by `device_write` or by
`IOCTL_SET_MSG`, which writes the string found in user memory; it is taken by
`IOCTL_GET_MSG` or by `device_read` calls. A store of no zero byte leaves the rest of an
older and longer message behind the new one. -/

namespace Linuxpedia.CharDev

open Lib

/-- `BUF_LEN`. -/
def bufLen : ℕ := 80

/-- The memory from `Message` on, with whatever lies behind the buffer, and the distance of
`Message_Ptr` from `Message`. -/
structure Device where
  mem : Store
  ptr : ℕ

/-- What a call leaves: the device, the bytes put to the user from the pointer on and the
value returned. -/
structure Result where
  dev : Device
  bytes : List UInt8
  ret : ℤ

/-- `while (length && *Message_Ptr)`: the bytes put and the pointer behind them. -/
def readLoop (mem : Store) : ℕ → ℕ → List UInt8 × ℕ
  | 0, p => ([], p)
  | length + 1, p =>
    if mem p = 0 then ([], p)
    else
      let r := readLoop mem length (p + 1)
      (mem p :: r.1, r.2)

def deviceRead (d : Device) (length : ℕ) : Result :=
  if d.mem d.ptr = 0 then ⟨d, [], 0⟩
  else
    let r := readLoop d.mem length d.ptr
    ⟨{ d with ptr := r.2 }, r.1, asInt (UInt32.ofNat r.1.length)⟩

/-- `for (; i < length && i < BUF_LEN; i++) get_user(Message[i], buffer + i)`. -/
def writeLoop (buffer : Store) (length : ℕ) : ℕ → ℕ → Store → Store × ℕ
  | 0, i, mem => (mem, i)
  | n + 1, i, mem =>
    if i < length ∧ i < bufLen then
      writeLoop buffer length n (i + 1) (Function.update mem i (buffer i))
    else (mem, i)

def deviceWrite (d : Device) (buffer : Store) (length : ℕ) : Result :=
  let r := writeLoop buffer length bufLen 0 d.mem
  ⟨⟨r.1, 0⟩, [], r.2⟩

/-- `for (; ch && i < BUF_LEN; i++, temp++) get_user(ch, temp)`, with `temp` at `i`. -/
def lengthLoop (message : Store) : ℕ → UInt8 → ℕ → ℕ
  | 0, _, i => i
  | n + 1, ch, i =>
    if ch ≠ 0 ∧ i < bufLen then lengthLoop message n (message i) (i + 1) else i

/-- The length that `IOCTL_SET_MSG` finds; the first byte is fetched twice. -/
def setLength (message : Store) : ℕ := lengthLoop message bufLen (message 0) 0

inductive IoctlNum where
  | setMsg
  | getMsg
  | getNthByte
  | other

/-- `ioctl_param` is an address in user memory or an index. -/
def deviceIoctl (d : Device) (num : IoctlNum) (user : Store) (param : ℕ) : Result :=
  match num with
  | .setMsg =>
    let message := user.window param
    ⟨(deviceWrite d message (setLength message)).dev, [], 0⟩
  | .getMsg =>
    let r := deviceRead d 99
    ⟨r.dev, r.bytes ++ [0], 0⟩
  | .getNthByte => ⟨d, [], (d.mem param).toInt8.toInt⟩
  | .other => ⟨d, [], 0⟩

/-- A call with the user memory that it finds. -/
inductive Call where
  | read (length : ℕ)
  | write (user : Store) (buffer length : ℕ)
  | ioctl (num : IoctlNum) (user : Store) (param : ℕ)

def step (d : Device) : Call → Device
  | .read length => (deviceRead d length).dev
  | .write user buffer length => (deviceWrite d (user.window buffer) length).dev
  | .ioctl num user param => (deviceIoctl d num user param).dev

/-- The device after `device_open` on the fresh module; `behind` is what lies in memory
behind `Message`. -/
def opened (behind : Store) : Device := ⟨fun i => if i < bufLen then 0 else behind i, 0⟩

/-! ### What is delivered -/

/-- Reads of the given lengths until one returns 0. -/
def readUntil (d : Device) : List ℕ → Option (List UInt8)
  | [] => none
  | length :: lengths =>
    let r := deviceRead d length
    if r.ret = 0 then some r.bytes else (readUntil r.dev lengths).map (r.bytes ++ ·)

/-- `IOCTL_GET_MSG` delivers the message, terminated. -/
def ByIoctl (d : Device) (m : List UInt8) : Prop :=
  ∀ user param, (deviceIoctl d .getMsg user param).bytes = m ++ [0]

/-- Reads of any positive lengths come to an end and deliver the message. -/
def ByReads (d : Device) (m : List UInt8) : Prop :=
  ∀ lengths : ℕ → ℕ, (∀ i, 1 ≤ lengths i) →
    ∃ k, readUntil d ((List.range k).map lengths) = some m

/-! ### The loops -/

theorem readLoop_eq (mem : Store) (n p : ℕ) : readLoop mem n p =
    ((mem.window p).cstr n, p + ((mem.window p).cstr n).length) := by
  induction n generalizing p with
  | zero => rfl
  | succ n ih =>
    have hw : (mem.window p).window 1 = mem.window (p + 1) := by
      funext i
      simp only [Store.window_apply, Nat.add_assoc]
    rw [readLoop, Store.cstr_succ, hw]
    by_cases h : mem p = 0
    · simp [h]
    · simp [h, ih]
      omega

/-- A read takes the string at the pointer, as far as its length goes. -/
theorem deviceRead_eq (d : Device) (n : ℕ) : deviceRead d n =
    ⟨{ d with ptr := d.ptr + ((d.mem.window d.ptr).cstr n).length }, (d.mem.window d.ptr).cstr n,
      asInt (UInt32.ofNat ((d.mem.window d.ptr).cstr n).length)⟩ := by
  unfold deviceRead
  by_cases h : d.mem d.ptr = 0
  · have hnil : (d.mem.window d.ptr).cstr n = [] := by
      cases n with
      | zero => rfl
      | succ n => exact (Store.cstr_eq_nil (Nat.succ_pos n)).mpr h
    rw [if_pos h, hnil]
    rfl
  · rw [if_neg h, readLoop_eq]

theorem writeLoop_eq (buffer : Store) (length n i : ℕ) (mem : Store) (hi : i + n = bufLen) :
    writeLoop buffer length n i mem =
      (mem.put i (buffer.slice i (min (length - i) n)), i + min (length - i) n) := by
  induction n generalizing i mem with
  | zero => simp [writeLoop]
  | succ n ih =>
    rw [writeLoop]
    by_cases h : i < length
    · have hlt : i < bufLen := by omega
      have hmin : min (length - i) (n + 1) = 1 + min (length - (i + 1)) n := by omega
      have hone : buffer.slice i 1 = [buffer i] := rfl
      rw [if_pos ⟨h, hlt⟩, ih _ _ (by omega), hmin, Store.slice_add, Store.put_append, hone,
        Store.put_singleton, List.length_singleton, Nat.add_assoc]
    · have hmin : min (length - i) (n + 1) = 0 := by omega
      rw [if_neg (fun hc => h hc.1), hmin]
      simp

/-- A write puts as much of the user's bytes as the buffer holds. -/
theorem deviceWrite_eq (d : Device) (buffer : Store) (length : ℕ) : deviceWrite d buffer length =
    ⟨⟨d.mem.put 0 (buffer.slice 0 (min length bufLen)), 0⟩, [], (min length bufLen : ℕ)⟩ := by
  unfold deviceWrite
  rw [writeLoop_eq buffer length bufLen 0 d.mem (Nat.zero_add _)]
  simp

/-- Past the first byte the loop counts the terminator. -/
theorem lengthLoop_eq {message : Store} {l : ℕ} (hne : ∀ j < l, message j ≠ 0)
    (h0 : message l = 0) (hl : l < bufLen) {n i : ℕ} (hi : i < l) (hn : bufLen ≤ n + i + 1) :
    lengthLoop message n (message i) (i + 1) = l + 1 := by
  induction n generalizing i with
  | zero => omega
  | succ n ih =>
    rw [lengthLoop, if_pos ⟨hne i hi, by omega⟩]
    rcases Nat.eq_or_lt_of_le hi with hil | hil
    · subst hil
      cases n with
      | zero => rfl
      | succ n => simp [lengthLoop, h0]
    · exact ih hil (by omega)

/-- `IOCTL_SET_MSG` takes the terminator with the message, except for the empty message,
of which it takes nothing. -/
theorem setLength_eq {message : Store} {l : ℕ} (hne : ∀ j < l, message j ≠ 0)
    (h0 : message l = 0) (hl : l < bufLen) : setLength message = if l = 0 then 0 else l + 1 := by
  unfold setLength
  rcases Nat.eq_zero_or_pos l with rfl | hpos
  · simp [bufLen, lengthLoop, h0]
  · have hb : bufLen = 79 + 1 := rfl
    rw [if_neg hpos.ne', hb, lengthLoop, if_pos ⟨hne 0 hpos, by omega⟩]
    exact lengthLoop_eq hne h0 hl hpos (by omega)

/-! ### Readers -/

section Readers

variable {d : Device}

/-- Up to a NUL in reach the reads deliver everything. -/
theorem readUntil_nul {l : ℕ} (hne : ∀ j < l, d.mem (d.ptr + j) ≠ 0)
    (h0 : d.mem (d.ptr + l) = 0) (hl : l < bufLen) {lengths : List ℕ}
    (hpos : ∀ n ∈ lengths, 1 ≤ n) (hlen : l < lengths.length) :
    readUntil d lengths = some (d.mem.slice d.ptr l) := by
  induction lengths generalizing d l with
  | nil => simp at hlen
  | cons n ns ih =>
    have hb : bufLen = 80 := rfl
    obtain ⟨hn, hns⟩ := List.forall_mem_cons.mp hpos
    have hstr : (d.mem.window d.ptr).cstr n = d.mem.slice d.ptr (min n l) := by
      rcases Nat.lt_or_ge l n with h | h
      · rw [Nat.min_eq_right h.le]
        exact Store.cstr_eq h hne h0
      · rw [Nat.min_eq_left h]
        exact Store.cstr_eq_bytes fun j hj => hne j (by omega)
    have hret : asInt (UInt32.ofNat (min n l)) = (min n l : ℕ) := asInt_ofNat (by omega)
    simp only [readUntil, deviceRead_eq, hstr, Store.length_slice, hret]
    rcases Nat.eq_zero_or_pos l with rfl | hl'
    · simp
    · have hz : ¬ ((min n l : ℕ) : ℤ) = 0 := by omega
      rw [if_neg hz, ih (l := l - min n l) ?_ ?_ (by omega) hns (by simp at hlen; omega)]
      · simp [← Store.slice_add, show min n l + (l - min n l) = l by omega]
      · intro j hj
        rw [Nat.add_assoc]
        exact hne _ (by omega)
      · rw [Nat.add_assoc, show min n l + (l - min n l) = l by omega]
        exact h0

/-- Reads stop at a NUL only, if they do not deliver billions of bytes first. -/
theorem nul_of_readUntil {lengths : List ℕ} (hpos : ∀ n ∈ lengths, 1 ≤ n) {b : List UInt8}
    (hb : b.length < 2 ^ 31) (h : readUntil d lengths = some b) :
    d.mem (d.ptr + b.length) = 0 := by
  induction lengths generalizing d b with
  | nil => cases h
  | cons n ns ih =>
    obtain ⟨hn, hns⟩ := List.forall_mem_cons.mp hpos
    simp only [readUntil, deviceRead_eq] at h
    generalize hs : (d.mem.window d.ptr).cstr n = s at h
    by_cases hret : asInt (UInt32.ofNat s.length) = 0
    · obtain rfl : s = b := by simpa [hret] using h
      rw [asInt_ofNat hb] at hret
      have hnil : s = [] := List.eq_nil_of_length_eq_zero (by omega)
      rw [hnil] at hs ⊢
      exact (Store.cstr_eq_nil hn).mp hs
    · rw [if_neg hret] at h
      obtain ⟨c, hc, rfl⟩ := Option.map_eq_some_iff.mp h
      rw [List.length_append] at hb ⊢
      have hi := ih hns (by omega) hc
      rwa [Nat.add_assoc] at hi

variable {m : List UInt8} (hm : (0 : UInt8) ∉ m) (hlen : m.length < bufLen) (hptr : d.ptr = 0)
  (hstart : d.mem.slice 0 m.length = m)

include hm hlen hptr hstart

theorem byIoctl_iff : ByIoctl d m ↔ d.mem m.length = 0 := by
  have hb : bufLen = 80 := rfl
  have hget : ∀ user param, (deviceIoctl d .getMsg user param).bytes =
      (d.mem.window 0).cstr 99 ++ [0] := by
    intro user param
    simp only [deviceIoctl, deviceRead_eq, hptr]
  have hstr : (d.mem.window 0).cstr 99 = m ↔ d.mem m.length = 0 := by
    rw [Store.cstr_eq_iff hm (by omega) hstart, Store.window_apply, Nat.zero_add]
  rw [← hstr]
  constructor
  · intro h
    exact List.append_cancel_right ((hget d.mem 0).symm.trans (h d.mem 0))
  · intro h user param
    rw [hget, h]

theorem byReads_iff : ByReads d m ↔ d.mem m.length = 0 := by
  have hb : bufLen = 80 := rfl
  have hne : ∀ j < m.length, d.mem (d.ptr + j) ≠ 0 := by
    intro j hj h0
    have hmem : d.mem (0 + j) ∈ d.mem.slice 0 m.length :=
      List.mem_map_of_mem (List.mem_range.mpr hj)
    rw [hstart, ← hptr, h0] at hmem
    exact hm hmem
  constructor
  · intro h
    obtain ⟨k, hk⟩ := h (fun _ => 1) (fun _ => le_rfl)
    have h0 := nul_of_readUntil (by simp) (by omega) hk
    rwa [hptr, Nat.zero_add] at h0
  · intro h0 lengths hpos
    refine ⟨m.length + 1, ?_⟩
    rw [readUntil_nul hne (by rwa [hptr, Nat.zero_add]) hlen (by simpa using fun i _ => hpos i)
      (by simp), hptr, hstart]

end Readers

/-! ### Stores -/

/-- What a call puts at the start of the buffer. -/
def Call.stored : Call → Option (ℕ × List UInt8)
  | .read _ => none
  | .write user buffer length => some (0, user.slice buffer (min length bufLen))
  | .ioctl .setMsg user param =>
    some (0, user.slice param (min (setLength (user.window param)) bufLen))
  | .ioctl _ _ _ => none

/-- The byte that the last store reaching byte `j` of the buffer put there; 0 if none did. -/
def lastStored (hs : List Call) (j : ℕ) : UInt8 :=
  (Store.lastByte (hs.filterMap Call.stored) j).getD 0

theorem step_mem (d : Device) (c : Call) : (step d c).mem = d.mem.puts c.stored.toList := by
  cases c with
  | read length => simp only [step, deviceRead_eq, Call.stored, Option.toList_none, Store.puts_nil]
  | write user buffer length => simp [step, deviceWrite_eq, Call.stored, Store.window_slice]
  | ioctl num user param =>
    cases num with
    | setMsg => simp [step, deviceIoctl, deviceWrite_eq, Call.stored, Store.window_slice]
    | getMsg => simp only [step, deviceIoctl, deviceRead_eq, Call.stored, Option.toList_none,
        Store.puts_nil]
    | getNthByte => rfl
    | other => rfl

/-- After a history a byte of the buffer is the one stored last. -/
theorem mem_exec (behind : Store) (hs : List Call) {j : ℕ} (hj : j < bufLen) :
    (Run.exec step (opened behind) hs).mem j = lastStored hs j := by
  have hmem : (Run.exec step (opened behind) hs).mem =
      (opened behind).mem.puts (hs.filterMap Call.stored) :=
    Store.puts_exec (fun c _ d => step_mem d c) _
  have h0 : (opened behind).mem j = 0 := if_pos hj
  rw [hmem, Store.puts_apply, h0]
  rfl

section Stored

variable (d : Device) {m : List UInt8} (hm : (0 : UInt8) ∉ m) (hlen : m.length < bufLen)
  {user : Store} {buffer : ℕ} (huser : user.slice buffer m.length = m)

include hlen huser

/-- `device_write` of the message puts its bytes. -/
theorem deviceWrite_dev :
    (deviceWrite d (user.window buffer) m.length).dev = ⟨d.mem.put 0 m, 0⟩ := by
  rw [deviceWrite_eq, Nat.min_eq_left hlen.le, Store.window_slice, Nat.add_zero, huser]

include hm

/-- `IOCTL_SET_MSG` of the message puts its bytes and a NUL, and nothing if there is none. -/
theorem deviceIoctl_setMsg_dev (h0 : user (buffer + m.length) = 0) :
    (deviceIoctl d .setMsg user buffer).dev =
      ⟨d.mem.put 0 (if m = [] then [] else m ++ [0]), 0⟩ := by
  have hne : ∀ j < m.length, (user.window buffer) j ≠ 0 := by
    intro j hj hz
    have hmem : (user.window buffer) j ∈ user.slice buffer m.length :=
      List.mem_map_of_mem (List.mem_range.mpr hj)
    rw [huser, hz] at hmem
    exact hm hmem
  simp only [deviceIoctl, deviceWrite_eq, setLength_eq hne h0 hlen, List.length_eq_zero_iff]
  by_cases hnil : m = []
  · simp [hnil]
  · have hmin : min (m.length + 1) bufLen = m.length + 1 := Nat.min_eq_left hlen
    have hlast : user.slice (buffer + m.length) 1 = [0] := by rw [← h0]; rfl
    rw [if_neg hnil, if_neg hnil, hmin, Store.window_slice, Nat.add_zero, Store.slice_add, huser,
      hlast]

end Stored

/-- After any history, a message stored by `device_write` is delivered exactly when the byte
behind it was zero before; one stored by `IOCTL_SET_MSG` is, exactly when it is not empty or
the buffer started with a zero byte. -/
theorem message_delivered_iff (behind : Store) (hs : List Call) {m : List UInt8}
    (hm : (0 : UInt8) ∉ m) (hlen : m.length ≤ 79) (user : Store) (buffer : ℕ)
    (huser : user.slice buffer m.length = m) :
    let d := Run.exec step (opened behind) hs
    ((ByIoctl (deviceWrite d (user.window buffer) m.length).dev m ↔ lastStored hs m.length = 0) ∧
      (ByReads (deviceWrite d (user.window buffer) m.length).dev m ↔
        lastStored hs m.length = 0)) ∧
    (user (buffer + m.length) = 0 →
      (ByIoctl (deviceIoctl d .setMsg user buffer).dev m ↔ m ≠ [] ∨ lastStored hs 0 = 0) ∧
      (ByReads (deviceIoctl d .setMsg user buffer).dev m ↔ m ≠ [] ∨ lastStored hs 0 = 0)) := by
  intro d
  have hb : m.length < bufLen := Nat.lt_succ_of_le hlen
  refine ⟨?_, fun h0 => ?_⟩
  · have hstart : (d.mem.put 0 m).slice 0 m.length = m := Store.slice_put_self _ 0 m
    have hend : (d.mem.put 0 m) m.length = lastStored hs m.length := by
      rw [Store.put_outside _ (Or.inr (Nat.zero_add _).le)]
      exact mem_exec behind hs hb
    rw [deviceWrite_dev d hb huser, ← hend]
    exact ⟨byIoctl_iff hm hb rfl hstart, byReads_iff hm hb rfl hstart⟩
  · rw [deviceIoctl_setMsg_dev d hm hb huser h0]
    by_cases hnil : m = []
    · subst hnil
      have hend : d.mem 0 = lastStored hs 0 := mem_exec behind hs (by decide)
      simp only [ne_eq, not_true_eq_false, false_or, if_true, Store.put_nil, ← hend]
      exact ⟨byIoctl_iff hm hb rfl rfl, byReads_iff hm hb rfl rfl⟩
    · have hstart : (d.mem.put 0 (m ++ [0])).slice 0 m.length = m := by
        have hslice := Store.slice_put_self d.mem 0 (m ++ [0])
        rw [List.length_append, Store.slice_add] at hslice
        exact (List.append_inj hslice (by simp)).1
      have hend : (d.mem.put 0 (m ++ [0])) m.length = 0 := by
        rw [Store.put_apply]
        simp
      rw [if_neg hnil, byIoctl_iff hm hb rfl hstart, byReads_iff hm hb rfl hstart]
      simp [hnil, hend]

/-- User memory with `"hello"` at address 0. -/
def helloUser : Store := fun i => [104, 101, 108, 108, 111].getD i 0

/-- User memory with `"hi"` at address 0. -/
def hiUser : Store := fun i => [104, 105].getD i 0

theorem message_delivered_sample :
    ¬ ByReads (deviceWrite (Run.exec step (opened fun _ => 0) [.write helloUser 0 5])
      (hiUser.window 0) 2).dev [104, 105] ∧
    ByReads (deviceIoctl (Run.exec step (opened fun _ => 0) [.write helloUser 0 5]) .setMsg
      hiUser 0).dev [104, 105] := by
  obtain ⟨⟨_, hwrite⟩, hset⟩ := message_delivered_iff (fun _ => 0) [.write helloUser 0 5]
    (m := [104, 105]) (by decide) (by decide) hiUser 0 (by decide)
  exact ⟨hwrite.not.mpr (by decide), (hset rfl).2.mpr (Or.inl (by decide))⟩

/-- `"hi"` written over `"hello"` reads `"hillo"`, and the empty message set over it reads
`"hello"`. -/
theorem message_keeps_tail :
    (deviceIoctl (Run.exec step (opened fun _ => 0) [.write helloUser 0 5, .write hiUser 0 2])
      .getMsg hiUser 0).bytes = [104, 105, 108, 108, 111, 0] ∧
    readUntil (Run.exec step (opened fun _ => 0) [.write helloUser 0 5, .write hiUser 0 2])
      [2, 1, 5, 5] = some [104, 105, 108, 108, 111] ∧
    (deviceIoctl (Run.exec step (opened fun _ => 0)
      [.ioctl .setMsg helloUser 0, .ioctl .setMsg (fun _ => 0) 0]) .getMsg hiUser 0).bytes =
      [104, 101, 108, 108, 111, 0] := by
  refine ⟨?_, ?_, ?_⟩
  · decide +kernel
  · decide +kernel
  · decide +kernel

end Linuxpedia.CharDev
