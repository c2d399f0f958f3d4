import Linuxpedia.CharDev.Message
import Linuxpedia.Lib.Simulation

/-! The message device among processes. One process at a time has it open; the others are
turned away. To all of them together it is a notice board: a text stays until something is
written over its beginning, every opening and every store starts the reading anew, and
reads take the text piece by piece. -/

namespace Linuxpedia.CharDev

open Lib

def ebusy : ℤ := 16

/-! ### The device -/

/-- The device, `Device_Open`, the module use count and the processes whose open succeeded and
has not been closed. -/
structure Shared (P : Type*) where
  dev : Device
  deviceOpen : ℤ
  useCount : ℤ
  holders : List P

inductive Action (P : Type*) where
  | deviceOpen (p : P)
  | deviceRelease (p : P)
  | call (p : P) (c : Call)

/-- What a process gets: the value of an open or a release, the bytes and the value of a call,
or nothing for what is no open file. -/
inductive Answer where
  | value (n : ℤ)
  | result (bytes : List UInt8) (ret : ℤ)
  | noFile
  deriving DecidableEq

/-- A call on the open file. -/
def Call.run (d : Device) : Call → Result
  | .read length => deviceRead d length
  | .write user buffer length => deviceWrite d (user.window buffer) length
  | .ioctl num user param => deviceIoctl d num user param

section Model

variable {P : Type*} [DecidableEq P]

namespace Shared

def deviceOpenBy (s : Shared P) (p : P) : Shared P × Answer :=
  if s.deviceOpen ≠ 0 then (s, .value (-ebusy))
  else (⟨⟨s.dev.mem, 0⟩, s.deviceOpen + 1, s.useCount + 1, p :: s.holders⟩, .value 0)

def deviceReleaseBy (s : Shared P) (p : P) : Shared P × Answer :=
  (⟨s.dev, s.deviceOpen - 1, s.useCount - 1, s.holders.erase p⟩, .value 0)

/-- Only who has the file open calls or closes it. -/
def step (s : Shared P) : Action P → Shared P × Answer
  | .deviceOpen p => s.deviceOpenBy p
  | .deviceRelease p => if p ∈ s.holders then s.deviceReleaseBy p else (s, .noFile)
  | .call p c =>
    if p ∈ s.holders then ({ s with dev := (c.run s.dev).dev },
      .result (c.run s.dev).bytes (c.run s.dev).ret) else (s, .noFile)

/-- The module just loaded. -/
def loaded (behind : Store) : Shared P := ⟨opened behind, 0, 0, []⟩

end Shared

/-! ### The board -/

/-- Who is at the board, the 80 bytes on it and what is still to be read. -/
structure Board (P : Type*) where
  user : Option P
  text : List UInt8
  unread : List UInt8

/-- The text up to its first NUL. -/
def message (text : List UInt8) : List UInt8 := text.takeWhile (· != 0)

namespace Board

def empty : Board P := ⟨none, List.replicate bufLen 0, []⟩

/-- Write over the beginning of the text. -/
def post (b : Board P) (m : List UInt8) : Board P :=
  { b with text := m ++ b.text.drop m.length, unread := message (m ++ b.text.drop m.length) }

/-- What the user does: a read takes a piece of the message, a store writes over the text. -/
def call (b : Board P) : Call → Board P × Answer
  | .read length => ({ b with unread := b.unread.drop length },
      .result (b.unread.take length) (b.unread.take length).length)
  | .write user buffer length =>
    (b.post (user.slice buffer (min length bufLen)), .result [] (min length bufLen : ℕ))
  | .ioctl .setMsg user param =>
    let m := (user.window param).cstr bufLen
    (b.post (if m = [] then [] else m ++ [0]), .result [] 0)
  | .ioctl .getMsg _ _ => ({ b with unread := [] }, .result (b.unread ++ [0]) 0)
  | .ioctl .getNthByte _ i => (b, .result [] (b.text.getD i 0).toInt8.toInt)
  | .ioctl .other _ _ => (b, .result [] 0)

/-- One user at a time. -/
def step (b : Board P) : Action P → Board P × Answer
  | .deviceOpen p =>
    if b.user = none then ({ b with user := some p, unread := message b.text }, .value 0)
    else (b, .value (-ebusy))
  | .deviceRelease p =>
    if b.user = some p then ({ b with user := none }, .value 0) else (b, .noFile)
  | .call p c => if b.user = some p then b.call c else (b, .noFile)

end Board

/-- A store leaves the last byte of the buffer zero, a string to be set ends within the buffer,
and a byte asked for lies in it. -/
def Call.Bounded : Call → Prop
  | .write user buffer length => bufLen ≤ length → user (buffer + 79) = 0
  | .ioctl .setMsg user param => ∃ j < bufLen, user (param + j) = 0
  | .ioctl .getNthByte _ i => i < bufLen
  | _ => True

def Action.Bounded : Action P → Prop
  | .call _ c => c.Bounded
  | _ => True

/-! ### The device is the board -/

/-- The memory has the text of the board in the buffer, with a NUL at its end, the pointer is
where the unread message is, and nothing behind the buffer has changed. -/
structure Bears (behind : Store) (d : Device) (b : Board P) : Prop where
  text : d.mem.bytes bufLen = b.text
  last : d.mem 79 = 0
  ptr : d.ptr ≤ 79
  unread : (d.mem.window d.ptr).cstr (bufLen - d.ptr) = b.unread
  outside : ∀ j, bufLen ≤ j → d.mem j = behind j

variable {behind : Store} {d : Device} {b : Board P}

omit [DecidableEq P] in
/-- Whoever is at the board. -/
theorem Bears.of_user (h : Bears behind d b) {u : Option P} :
    Bears behind d { b with user := u } :=
  ⟨h.text, h.last, h.ptr, h.unread, h.outside⟩

omit [DecidableEq P] in
/-- From the start of the buffer the whole message is unread. -/
theorem Bears.restart (h : Bears behind d b) :
    Bears behind ⟨d.mem, 0⟩ { b with unread := message b.text } where
  text := h.text
  last := h.last
  ptr := Nat.zero_le 79
  unread := by
    rw [Store.window_zero, ← h.text]
    rfl
  outside := h.outside

omit [DecidableEq P] in
/-- Storing bytes that leave the last one of the buffer zero. -/
theorem Bears.post (h : Bears behind d b) {m : List UInt8} (hm : m.length ≤ bufLen)
    (hlast : ∀ hlt : 79 < m.length, m[79] = 0) : Bears behind ⟨d.mem.put 0 m, 0⟩ (b.post m) := by
  have htext : (d.mem.put 0 m).bytes bufLen = m ++ b.text.drop m.length := by
    rw [Store.bytes_put _ hm, h.text]
  refine ⟨htext, ?_, Nat.zero_le 79, ?_, fun j hj => ?_⟩
  · simp only [Store.put_apply]
    by_cases hlt : 79 < m.length
    · simp [List.getElem?_eq_getElem hlt, hlast hlt]
    · simp [List.getElem?_eq_none (Nat.not_lt.mp hlt), h.last]
  · rw [Store.window_zero, Board.post, ← htext]
    rfl
  · exact (Store.put_outside _ (Or.inr (by omega))).trans (h.outside j hj)

omit [DecidableEq P] in
/-- Reading from the pointer on. -/
theorem Bears.read (h : Bears behind d b) (n : ℕ) :
    Bears behind (deviceRead d n).dev { b with unread := b.unread.drop n } ∧
    (deviceRead d n).bytes = b.unread.take n ∧
    (deviceRead d n).ret = (b.unread.take n).length := by
  have hptr := h.ptr
  have hend : d.mem.window d.ptr (79 - d.ptr) = 0 := by
    rw [Store.window_apply, Nat.add_sub_cancel' hptr]
    exact h.last
  have hlt : 79 - d.ptr < bufLen - d.ptr := by
    unfold bufLen
    omega
  have hbytes : (d.mem.window d.ptr).cstr n = b.unread.take n := by
    rw [Store.cstr_eq_take hend hlt n, h.unread]
  obtain ⟨hle, hrest⟩ := Store.cstr_window hend hlt n
  rw [h.unread, Store.window_window, Nat.sub_sub] at hrest
  rw [deviceRead_eq]
  refine ⟨⟨h.text, h.last, ?_, hrest, h.outside⟩, hbytes, ?_⟩
  · simp only
    omega
  · simp only
    rw [hbytes] at hle ⊢
    exact asInt_ofNat (by omega)

omit [DecidableEq P] in
theorem Bears.length_unread (h : Bears behind d b) : b.unread.length ≤ bufLen := by
  have hle := (List.takeWhile_prefix (l := (d.mem.window d.ptr).bytes (bufLen - d.ptr))
    (· != 0)).length_le
  rw [Store.length_bytes] at hle
  rw [← h.unread]
  exact hle.trans (Nat.sub_le _ _)

omit [DecidableEq P] in
/-- `IOCTL_SET_MSG` of a string that ends within the buffer. -/
theorem Bears.setMsg (h : Bears behind d b) {user : Store} {param : ℕ}
    (hc : ∃ j < bufLen, user (param + j) = 0) :
    Bears behind (deviceIoctl d .setMsg user param).dev
      (b.post (if (user.window param).cstr bufLen = [] then []
        else (user.window param).cstr bufLen ++ [0])) := by
  obtain ⟨j, hj, h0⟩ := hc
  obtain ⟨hnul, hle, hbytes, hend⟩ := Store.cstr_spec (f := user.window param) h0 hj
  generalize (user.window param).cstr bufLen = m at hnul hle hbytes hend ⊢
  have hlen : m.length < bufLen := Nat.lt_of_le_of_lt hle hj
  rw [deviceIoctl_setMsg_dev d hnul hlen hbytes hend]
  refine h.post ?_ fun hlt => ?_
  · split_ifs
    · exact Nat.zero_le bufLen
    · rw [List.length_append]
      exact hlen
  · by_cases hnil : m = []
    · simp [hnil] at hlt
    · have hmlen : m.length = 79 := by
        simp only [hnil, if_false, List.length_append, List.length_singleton] at hlt
        unfold bufLen at hlen
        omega
      simp [hnil, hmlen]

omit [DecidableEq P] in
/-- A call does to the board what it does to the device, and gives what the board gives. -/
theorem Bears.call (h : Bears behind d b) {c : Call} (hc : c.Bounded) :
    (b.call c).2 = .result (c.run d).bytes (c.run d).ret ∧
    Bears behind (c.run d).dev (b.call c).1 ∧ (b.call c).1.user = b.user := by
  cases c with
  | read length =>
    obtain ⟨hbears, hbytes, hret⟩ := h.read length
    refine ⟨?_, hbears, rfl⟩
    rw [Call.run, hbytes, hret]
    rfl
  | write user buffer length =>
    rw [Call.run, deviceWrite_eq, Store.window_slice, Nat.add_zero]
    refine ⟨rfl, h.post (by simp) fun hlt => ?_, rfl⟩
    rw [Store.length_slice] at hlt
    have hzero := hc (by unfold bufLen at *; omega)
    simpa [Store.slice, Store.bytes] using hzero
  | ioctl num user param =>
    cases num with
    | setMsg => exact ⟨rfl, h.setMsg hc, rfl⟩
    | getMsg =>
      obtain ⟨hbears, hbytes, -⟩ := h.read 99
      have hle : b.unread.length ≤ 99 := h.length_unread.trans (by decide)
      rw [List.drop_eq_nil_of_le hle] at hbears
      rw [List.take_of_length_le hle] at hbytes
      refine ⟨?_, hbears, rfl⟩
      simp only [Call.run, deviceIoctl, hbytes]
      rfl
    | getNthByte =>
      have hi : param < bufLen := hc
      have hbyte : b.text.getD param 0 = d.mem param := by
        rw [← h.text]
        simp [Store.bytes, hi]
      refine ⟨?_, h, rfl⟩
      rw [Board.call, hbyte]
      rfl
    | other => exact ⟨rfl, h, rfl⟩

/-- The device and the board have the same user and the same text. -/
structure Follows (behind : Store) (s : Shared P) (b : Board P) : Prop where
  holders : s.holders = b.user.toList
  deviceOpen : s.deviceOpen = s.holders.length
  useCount : s.useCount = s.holders.length
  bears : Bears behind s.dev b

omit [DecidableEq P] in
theorem Follows.mem_holders {s : Shared P} (h : Follows behind s b) (p : P) :
    p ∈ s.holders ↔ b.user = some p := by
  rw [h.holders, Option.mem_toList]

omit [DecidableEq P] in
theorem follows_loaded (behind : Store) :
    Follows behind (Shared.loaded behind : Shared P) Board.empty where
  holders := rfl
  deviceOpen := rfl
  useCount := rfl
  bears :=
    { text := rfl
      last := rfl
      ptr := Nat.zero_le 79
      unread := rfl
      outside := fun _ hj => if_neg (Nat.not_lt.mpr hj) }

/-- One step of the device is one step of the board. -/
theorem Follows.step {s : Shared P} (h : Follows behind s b) {a : Action P} (ha : a.Bounded) :
    (s.step a).2 = (b.step a).2 ∧ Follows behind (s.step a).1 (b.step a).1 := by
  cases a with
  | deviceOpen p =>
    cases hu : b.user with
    | none =>
      have h0 : s.holders = [] := by rw [h.holders, hu]; rfl
      have hopen : s.deviceOpen = 0 := by rw [h.deviceOpen, h0]; rfl
      have huse : s.useCount = 0 := by rw [h.useCount, h0]; rfl
      simp only [Shared.step, Shared.deviceOpenBy, Board.step, hopen, hu, ne_eq, not_true_eq_false,
        if_false, if_true]
      exact ⟨trivial, by simp [h0], by simp [h0], by simp [h0, huse], h.bears.restart.of_user⟩
    | some q =>
      have hopen : s.deviceOpen ≠ 0 := by simp [h.deviceOpen, h.holders, hu]
      simp only [Shared.step, Shared.deviceOpenBy, Board.step, hu, if_pos hopen, reduceCtorEq,
        if_false]
      exact ⟨trivial, h⟩
  | deviceRelease p =>
    simp only [Shared.step, Board.step, h.mem_holders]
    by_cases hu : b.user = some p
    · have h1 : s.holders = [p] := by rw [h.holders, hu]; rfl
      have hopen : s.deviceOpen = 1 := by rw [h.deviceOpen, h1]; rfl
      have huse : s.useCount = 1 := by rw [h.useCount, h1]; rfl
      rw [if_pos hu, if_pos hu]
      exact ⟨rfl, by simp [Shared.deviceReleaseBy, h1], by simp [Shared.deviceReleaseBy, h1, hopen],
        by simp [Shared.deviceReleaseBy, h1, huse], h.bears.of_user⟩
    · rw [if_neg hu, if_neg hu]
      exact ⟨rfl, h⟩
  | call p c =>
    simp only [Shared.step, Board.step, h.mem_holders]
    by_cases hu : b.user = some p
    · obtain ⟨hans, hbears, huser⟩ := h.bears.call ha
      rw [if_pos hu, if_pos hu, hans]
      refine ⟨rfl, ?_, h.deviceOpen, h.useCount, hbears⟩
      rw [huser]
      exact h.holders
    · rw [if_neg hu, if_neg hu]
      exact ⟨rfl, h⟩

/-- Whatever processes do with the device, they get what the board gives. One of them has it
open, `Device_Open` and the use count say so, and the memory behind the buffer is neither
seen nor changed. -/
theorem device_is_board (behind : Store) {as : List (Action P)} (has : ∀ a ∈ as, a.Bounded) :
    let s := Run.exec (fun s a => (Shared.step s a).1) (Shared.loaded behind) as
    let b := Run.exec (fun b a => (Board.step b a).1) Board.empty as
    Run.trace Shared.step (Shared.loaded behind) as = Run.trace Board.step Board.empty as ∧
    s.holders = b.user.toList ∧ s.deviceOpen = s.holders.length ∧
      s.useCount = s.holders.length ∧ ∀ j, bufLen ≤ j → s.dev.mem j = behind j := by
  have hstep : ∀ (s : Shared P) (b : Board P) (a : Action P), Follows behind s b → a.Bounded →
      (s.step a).2 = (b.step a).2 ∧ Follows behind (s.step a).1 (b.step a).1 :=
    fun _ _ _ h ha => h.step ha
  have hl : Run.Along (fun b a => (Board.step b a).1) (fun _ a => a.Bounded) Board.empty as :=
    Run.along_of_mem Board.empty has
  have hend := Run.exec_related hstep (follows_loaded behind) hl
  exact ⟨Run.trace_eq hstep (follows_loaded behind) hl, hend.holders, hend.deviceOpen,
    hend.useCount, hend.bears.outside⟩

end Model

/-- One process sets `"hi"`, a second one is turned away, and then it reads in pieces. -/
def boardActions : List (Action ℕ) :=
  [.deviceOpen 0, .call 0 (.ioctl .setMsg hiUser 0), .deviceOpen 1, .deviceRelease 0,
    .deviceOpen 1, .call 1 (.read 1), .call 1 (.read 5), .call 1 (.read 5)]

theorem device_is_board_sample :
    Run.trace Shared.step (Shared.loaded fun _ => 7) boardActions =
    [.value 0, .result [] 0, .value (-16), .value 0, .value 0, .result [104] 1,
      .result [105] 1, .result [] 0] := by
  have hbounded : ∀ a ∈ boardActions, a.Bounded := by
    simp only [boardActions, List.forall_mem_cons, Action.Bounded, Call.Bounded]
    exact ⟨trivial, ⟨2, by decide, rfl⟩, trivial, trivial, trivial, trivial, trivial, trivial,
      by simp⟩
  rw [(device_is_board (fun _ => 7) hbounded).1]
  decide

end Linuxpedia.CharDev
