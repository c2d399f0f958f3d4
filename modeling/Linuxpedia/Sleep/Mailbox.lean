import Linuxpedia.Lib.CString
import Linuxpedia.Lib.Simulation
import Linuxpedia.Sleep.ExclusiveOpen

/-! Reading and writing the `/proc` file of `sleep.c`. `module_input` fetches its bytes one
by one and `module_output` puts them one by one; each may sleep on a page of the user, so
the loops of different processes interleave byte by byte, and with opens, closes and
signals. The exclusive open makes each call whole: the calls that end are those of a
mailbox with one user, read and written in single steps. -/

namespace Linuxpedia.Sleep

open Lib

def eacces : ℤ := 13

/-- `MESSAGE_LENGTH`. -/
def messageLength : ℕ := 80

/-- What a process asks for when it opens the file. -/
inductive Access where
  | read
  | write
  | readWrite
  deriving DecidableEq

namespace Access

/-- 4 to read and 2 to write. -/
def op : Access → ℤ
  | read => 4
  | write => 2
  | readWrite => 6

def CanRead (a : Access) : Prop := a ≠ write

def CanWrite (a : Access) : Prop := a ≠ read

instance (a : Access) : Decidable a.CanRead := inferInstanceAs (Decidable (_ ≠ _))

instance (a : Access) : Decidable a.CanWrite := inferInstanceAs (Decidable (_ ≠ _))

end Access

def modulePermission (op : ℤ) (euid : UInt32) : ℤ :=
  if op = 4 ∨ (op = 2 ∧ euid = 0) then 0 else -eacces

/-- The file is opened to read, or by root to write, and never for both. -/
theorem modulePermission_eq_zero {a : Access} {euid : UInt32} :
    modulePermission a.op euid = 0 ↔ a = .read ∨ (a = .write ∧ euid = 0) := by
  cases a <;> simp [modulePermission, Access.op, eacces]

/-- A call inside its loop, before the pass for `i`. `message` is the local one of
`module_output`. -/
inductive Call where
  | input (buf : List UInt8) (i : ℕ)
  | output (len : ℕ) (message : List UInt8) (i : ℕ)
  deriving DecidableEq

/-- The lock, the memory from `Message` on, `finished`, what each process asked for in its
last open, what its open file allows, and the call that it is in. -/
structure Device (P : Type*) where
  lock : State P
  message : Store
  finished : ℤ
  asked : P → Access × UInt32
  mode : P → Access
  calls : P → Option Call

/-- `run` is the next pass of the loop that the process is in. An open file is not shared. -/
inductive Move (P : Type*) where
  | openFile (p : P) (access : Access) (euid : UInt32) (nonblock : Bool)
  | resume (p : P)
  | closeFile (p : P)
  | signal (p : P) (σ : Signals)
  | write (p : P) (buf : List UInt8)
  | read (p : P) (len : ℕ)
  | run (p : P)

/-- A call that ends, with what it was given and what it returns. A read shows the bytes put
to the user. In an overrun `sprintf` finds no end of `Message`. -/
inductive Event (P : Type*) where
  | opened (p : P) (access : Access) (euid : UInt32)
  | closed (p : P)
  | wrote (p : P) (buf : List UInt8) (ret : ℕ)
  | read (p : P) (len : ℕ) (bytes : List UInt8)
  | overrun (p : P)

/-- `Last input:` -/
def lastInput : List UInt8 := [76, 97, 115, 116, 32, 105, 110, 112, 117, 116, 58]

/-- `sprintf(message, "Last input:%s\n", Message)`, without the NUL that ends it. -/
def sprintf (message : Store) : Option (List UInt8) :=
  if (0 : UInt8) ∈ message.bytes messageLength then
    some (lastInput ++ message.cstr messageLength ++ [10])
  else none

section Model

variable {P : Type*} [DecidableEq P]

namespace Device

variable (n : ℕ) (d : Device P) (p : P)

/-- The process is in a read, a write or an open. -/
def Busy : Prop := d.calls p ≠ none ∨ d.lock.Waits p

instance : Decidable (d.Busy p) := inferInstanceAs (Decidable (_ ∨ _))

/-- The process has an open file and may call a function of it. -/
def Ready : Prop := p ∈ d.lock.holders ∧ ¬ d.Busy p

instance : Decidable (d.Ready p) := inferInstanceAs (Decidable (_ ∧ _))

/-- A return of 0 from `module_open` gives the process its file. -/
def lockStep (a : Action P) : Device P × Option (Event P) :=
  let d' := { d with lock := next n d.lock a }
  if outcome n d.lock a = some (.returns 0) then
    match a with
    | .moduleOpen p _ | .resume p =>
      ({ d' with mode := Function.update d.mode p (d.asked p).1 },
        some (.opened p (d.asked p).1 (d.asked p).2))
    | .moduleClose p => (d', some (.closed p))
    | .signal _ _ => (d', none)
  else (d', none)

/-- The permission is checked before the file is opened. -/
def openFile (access : Access) (euid : UInt32) (nonblock : Bool) : Device P × Option (Event P) :=
  if d.Busy p ∨ modulePermission access.op euid ≠ 0 then (d, none)
  else lockStep n { d with asked := Function.update d.asked p (access, euid) }
    (.moduleOpen p nonblock)

def setCall (c : Option Call) : Device P := { d with calls := Function.update d.calls p c }

/-- `module_output` up to its loop. -/
def startOutput (len : ℕ) : Device P × Option (Event P) :=
  if d.finished ≠ 0 then ({ d with finished := 0 }, some (.read p len []))
  else
    match sprintf d.message with
    | some message => (d.setCall p (some (.output len message 0)), none)
    | none => (d, some (.overrun p))

/-- One pass of the loop of `module_input`, or what follows it. -/
def inputPass (buf : List UInt8) (i : ℕ) : Device P × Option (Event P) :=
  if i < messageLength - 1 ∧ i < buf.length then
    ({ d.setCall p (some (.input buf (i + 1))) with
      message := Function.update d.message i (buf.getD i 0) }, none)
  else
    ({ d.setCall p none with message := Function.update d.message i 0 }, some (.wrote p buf i))

/-- One pass of the loop of `module_output`, or what follows it. -/
def outputPass (len : ℕ) (message : List UInt8) (i : ℕ) : Device P × Option (Event P) :=
  if i < len ∧ message.getD i 0 ≠ 0 then (d.setCall p (some (.output len message (i + 1))), none)
  else ({ d.setCall p none with finished := 1 }, some (.read p len (message.take i)))

def pass : Device P × Option (Event P) :=
  match d.calls p with
  | none => (d, none)
  | some (.input buf i) => d.inputPass p buf i
  | some (.output len message i) => d.outputPass p len message i

/-- What a process cannot do at the moment changes nothing. -/
def step : Move P → Device P × Option (Event P)
  | .openFile p access euid nonblock => d.openFile n p access euid nonblock
  | .resume p => d.lockStep n (.resume p)
  | .closeFile p => if d.Busy p then (d, none) else d.lockStep n (.moduleClose p)
  | .signal p σ => d.lockStep n (.signal p σ)
  | .write p buf =>
    if d.Ready p ∧ (d.mode p).CanWrite then (d.setCall p (some (.input buf 0)), none) else (d, none)
  | .read p len => if d.Ready p ∧ (d.mode p).CanRead then d.startOutput p len else (d, none)
  | .run p => d.pass p

/-- The module just loaded; `Message` is zero and `behind` is what lies behind it. -/
def loaded (signals : P → Signals) (behind : Store) : Device P where
  lock := Sleep.loaded signals
  message := fun i => if i < messageLength then 0 else behind i
  finished := 0
  asked := fun _ => (.read, 0)
  mode := fun _ => .read
  calls := fun _ => none

end Device

/-! ### The mailbox -/

/-- The one user, the last text written, and whether the next read tells the end of the
file. -/
structure Mailbox (P : Type*) where
  user : Option (P × Access)
  text : List UInt8
  ended : Bool

namespace Mailbox

/-- Everything that was told so far is nothing. -/
def empty : Mailbox P := ⟨none, [], false⟩

/-- The text that a write leaves: what fits, up to the first NUL. -/
def accepted (buf : List UInt8) : List UInt8 :=
  (buf.take (messageLength - 1)).takeWhile (· != 0)

/-- The bytes that a read gives. -/
def answer (b : Mailbox P) (len : ℕ) : List UInt8 :=
  if b.ended then [] else (lastInput ++ b.text ++ [10]).take len

/-- A call in a single step; there is none for an event that the mailbox would not show. -/
def step (b : Mailbox P) : Event P → Option (Mailbox P)
  | .opened p access euid =>
    if b.user = none ∧ (access = .read ∨ (access = .write ∧ euid = 0)) then
      some { b with user := some (p, access) }
    else none
  | .closed p => if b.user.map Prod.fst = some p then some { b with user := none } else none
  | .wrote p buf ret =>
    if b.user = some (p, .write) ∧ ret = min (messageLength - 1) buf.length then
      some { b with text := accepted buf }
    else none
  | .read p len bytes =>
    if b.user = some (p, .read) ∧ bytes = b.answer len then some { b with ended := !b.ended }
    else none
  | .overrun _ => none

end Mailbox

/-! ### The texts -/

/-- Bytes with a NUL behind them are read up to their first NUL. -/
theorem cstr_stored {f : Store} {l : List UInt8} {n : ℕ} (hn : l.length < n)
    (hf : f.bytes l.length = l) (h0 : f l.length = 0) : f.cstr n = l.takeWhile (· != 0) := by
  have hlast : f.bytes (l.length + 1) = l ++ [0] := by
    rw [Store.bytes_add, hf]
    exact congrArg (fun c => l ++ [c]) h0
  rw [Store.cstr_take hn h0, Store.cstr, hlast, List.takeWhile_append]
  split_ifs with h
  · simp [List.Sublist.eq_of_length (List.takeWhile_sublist _) h]
  · rfl

theorem bytes_update (f : Store) (b : UInt8) (i : ℕ) :
    Store.bytes (Function.update f i b) (i + 1) = f.bytes i ++ [b] := by
  have hi : Store.bytes (Function.update f i b) i = f.bytes i :=
    Store.bytes_congr fun j hj => Function.update_of_ne hj.ne _ _
  rw [Store.bytes_add, hi]
  simp [Store.bytes]

theorem zero_notMem_accepted (buf : List UInt8) : (0 : UInt8) ∉ Mailbox.accepted buf := by
  intro h
  have hne := List.mem_takeWhile_imp h
  simp at hne

/-- `message` has room for every text. -/
theorem length_accepted_le (buf : List UInt8) : (Mailbox.accepted buf).length ≤ messageLength - 1 :=
  (List.takeWhile_sublist _).length_le.trans (List.length_take_le _ _)

/-- While the last byte is zero `sprintf` ends in the buffer. -/
theorem sprintf_eq {message : Store} (h : message (messageLength - 1) = 0) :
    sprintf message = some (lastInput ++ message.cstr messageLength ++ [10]) :=
  if_pos (List.mem_map.mpr ⟨messageLength - 1, by decide, h⟩)

/-! ### The mailbox that the device shows -/

/-- What a call in its loop has done so far. -/
def CallShows (f : Store) (b : Mailbox P) (p : P) : Call → Prop
  | .input buf i => b.user = some (p, .write) ∧ i ≤ messageLength - 1 ∧ i ≤ buf.length ∧
      f.bytes i = buf.take i
  | .output len message i => b.user = some (p, .read) ∧ b.ended = false ∧
      message = lastInput ++ b.text ++ [10] ∧ i ≤ len ∧ i ≤ message.length

/-- No process is in `module_input`. -/
def Device.Unwritten (d : Device P) : Prop := ∀ p buf i, d.calls p ≠ some (.input buf i)

/-- The device, with the given memory behind `Message`, shows the mailbox. The text is in
`Message` except while it is being written. -/
structure Device.Shows (behind : Store) (d : Device P) (b : Mailbox P) : Prop where
  inv : Inv d.lock
  user : d.lock.holders = (b.user.map Prod.fst).toList
  mode : ∀ p a, b.user = some (p, a) → d.mode p = a ∧ a ≠ .readWrite
  asked : ∀ p, d.lock.Waits p → modulePermission (d.asked p).1.op (d.asked p).2 = 0
  finished : d.finished = if b.ended then 1 else 0
  plain : (0 : UInt8) ∉ b.text
  last : d.message (messageLength - 1) = 0
  outside : ∀ j, messageLength ≤ j → d.message j = behind j
  call : ∀ p c, d.calls p = some c → CallShows d.message b p c
  text : d.Unwritten → d.message.cstr messageLength = b.text

/-- The events of a small step are taken, and the mailbox after them is the one shown. -/
def Follows (behind : Store) (b : Mailbox P) (r : Device P × Option (Event P)) : Prop :=
  ∃ b', Run.accept Mailbox.step b r.2.toList = some b' ∧ r.1.Shows behind b'

/-! ### The lock -/

omit [DecidableEq P] in
theorem waits_map {s : State P} {f : P × Bool → P × Bool} (hf : ∀ e, (f e).1 = e.1) {q : P}
    (h : ∃ e ∈ s.waitQ.map f, e.1 = q) : s.Waits q := by
  obtain ⟨e, he, rfl⟩ := h
  obtain ⟨e', he', rfl⟩ := List.mem_map.mp he
  exact ⟨e', he', (hf e').symm⟩

/-- Only a process that calls `module_open` begins to wait. -/
theorem waits_of_step {s s' : State P} {a : Action P} {o : Outcome} (h : Step s a s' o) {q : P}
    (hq : s'.Waits q) : s.Waits q ∨ a.opener = some q := by
  cases h with
  | again hopen => exact Or.inl hq
  | opened hopen => exact Or.inl hq
  | slept hopen hwait =>
    obtain ⟨e, he, rfl⟩ := hq
    rcases List.mem_cons.mp he with rfl | he
    · exact Or.inr rfl
    · exact Or.inl ⟨e, he, rfl⟩
  | refused => exact Or.inl hq
  | granted hopen hwait =>
    obtain ⟨e, he, rfl⟩ := hq
    exact Or.inl ⟨e, List.mem_of_mem_filter he, rfl⟩
  | dozed hopen => exact Or.inl (waits_map fst_dozing hq)
  | aborted hwait =>
    obtain ⟨e, he, rfl⟩ := hq
    exact Or.inl ⟨e, List.mem_of_mem_filter he, rfl⟩
  | closed hold => exact Or.inl (waits_map (f := fun e => (e.1, true)) (fun _ => rfl) hq)
  | signalled => exact Or.inl hq

namespace Device.Shows

variable {behind : Store} {d : Device P} {b : Mailbox P} (h : d.Shows behind b)

omit [DecidableEq P] in
include h in
/-- Only the user of the mailbox is in a call. -/
theorem user_of_call {p : P} {c : Call} (hc : d.calls p = some c) : ∃ a, b.user = some (p, a) := by
  have hcall := h.call p c hc
  cases c with
  | input buf i => exact ⟨.write, hcall.1⟩
  | output len message i => exact ⟨.read, hcall.1⟩

omit [DecidableEq P] in
include h in
theorem holder {p : P} : p ∈ d.lock.holders ↔ ∃ a, b.user = some (p, a) := by
  rw [h.user]
  cases b.user with
  | none => simp
  | some u =>
    obtain ⟨q, a⟩ := u
    simp [eq_comm]

omit [DecidableEq P] in
include h in
/-- A change of the lock that leaves the holders. -/
theorem relock {l : State P} (hinv : Inv l) (hholders : l.holders = d.lock.holders)
    (hasked : ∀ p, l.Waits p → modulePermission (d.asked p).1.op (d.asked p).2 = 0) :
    Device.Shows behind { d with lock := l } b :=
  { h with inv := hinv, user := hholders.trans h.user, asked := hasked }

include h

/-- The mailbox gets a user. -/
theorem take {l : State P} {p : P} (hinv : Inv l) (hfree : b.user = none)
    (hholders : l.holders = [p])
    (hasked : ∀ p, l.Waits p → modulePermission (d.asked p).1.op (d.asked p).2 = 0)
    (hallowed : modulePermission (d.asked p).1.op (d.asked p).2 = 0) :
    Device.Shows behind { d with
      lock := l
      mode := Function.update d.mode p (d.asked p).1 } { b with user := some (p, (d.asked p).1) } where
  inv := hinv
  user := hholders
  mode q a hq := by
    obtain ⟨rfl, rfl⟩ := Prod.mk.inj (Option.some.inj hq)
    refine ⟨Function.update_self _ _ _, fun hboth => ?_⟩
    rcases modulePermission_eq_zero.mp hallowed with hr | ⟨hw, _⟩
    · rw [hr] at hboth
      cases hboth
    · rw [hw] at hboth
      cases hboth
  asked := hasked
  finished := h.finished
  plain := h.plain
  last := h.last
  outside := h.outside
  call q c hc := by
    obtain ⟨a, ha⟩ := h.user_of_call hc
    rw [hfree] at ha
    cases ha
  text := h.text

omit [DecidableEq P] in
/-- The mailbox loses its user. -/
theorem drop {l : State P} (hinv : Inv l) (hholders : l.holders = [])
    (hasked : ∀ p, l.Waits p → modulePermission (d.asked p).1.op (d.asked p).2 = 0)
    (hidle : ∀ p, d.calls p = none) :
    Device.Shows behind { d with lock := l } { b with user := none } where
  inv := hinv
  user := hholders
  mode q a hq := by cases hq
  asked := hasked
  finished := h.finished
  plain := h.plain
  last := h.last
  outside := h.outside
  call q c hc := by
    rw [show d.calls q = none from hidle q] at hc
    cases hc
  text := fun _ => h.text fun p buf i hc => by
    rw [hidle p] at hc
    cases hc

variable {n : ℕ} {a : Action P} (hinv : Inv (next n d.lock a))
  (hasked : ∀ p, (next n d.lock a).Waits p →
    modulePermission (d.asked p).1.op (d.asked p).2 = 0)
  (ho : outcome n d.lock a = some (.returns 0))

include hinv hasked ho

theorem granted {p : P} (hp : a.opener = some p) (hopen : d.lock.alreadyOpen = 0)
    (hholders : (next n d.lock a).holders = p :: d.lock.holders)
    (hallowed : modulePermission (d.asked p).1.op (d.asked p).2 = 0) :
    Follows behind b (d.lockStep n a) := by
  have hnil := free_of_inv h.inv hopen
  have hfree : b.user = none := by
    have hu := h.user
    rw [hnil] at hu
    cases hb : b.user with
    | none => rfl
    | some u => simp [hb] at hu
  have hgrant : d.lockStep n a = ({ d with
      lock := next n d.lock a
      mode := Function.update d.mode p (d.asked p).1 },
      some (.opened p (d.asked p).1 (d.asked p).2)) := by
    unfold Device.lockStep
    rw [if_pos ho]
    cases a with
    | moduleOpen q nonblock => cases hp; rfl
    | resume q => cases hp; rfl
    | moduleClose q => cases hp
    | signal q σ => cases hp
  rw [hgrant]
  refine ⟨_, ?_, h.take hinv hfree (hnil ▸ hholders) hasked hallowed⟩
  simp only [Option.toList_some, Run.accept, Mailbox.step, hfree,
    modulePermission_eq_zero.mp hallowed, and_self, if_true, Option.bind_some]

theorem closed {p : P} (ha : a = .moduleClose p) (hmem : p ∈ d.lock.holders)
    (hholders : (next n d.lock a).holders = d.lock.holders.erase p) (hc : d.calls p = none) :
    Follows behind b (d.lockStep n a) := by
  subst ha
  obtain ⟨access, hu⟩ := h.holder.mp hmem
  have hone : d.lock.holders = [p] := by
    rw [h.user, hu]
    rfl
  -- no other process is in a call: it would be the user
  have hidle : ∀ q, d.calls q = none := by
    intro q
    cases hq : d.calls q with
    | none => rfl
    | some c =>
      obtain ⟨_, hu'⟩ := h.user_of_call hq
      rw [hu] at hu'
      cases hu'
      exact absurd (hq.symm.trans hc) (Option.some_ne_none c)
  rw [hone, List.erase_cons_head] at hholders
  have hgone : d.lockStep n (.moduleClose p) =
      ({ d with lock := next n d.lock (.moduleClose p) }, some (.closed p)) := by
    unfold Device.lockStep
    rw [if_pos ho]
  rw [hgone]
  refine ⟨_, ?_, h.drop hinv hholders hasked hidle⟩
  simp [Run.accept, Mailbox.step, hu]

omit hinv hasked ho

theorem lockStep (n : ℕ) {a : Action P}
    (hopener : ∀ p, a.opener = some p → modulePermission (d.asked p).1.op (d.asked p).2 = 0)
    (hclose : ∀ p, a = .moduleClose p → d.calls p = none) :
    Follows behind b (d.lockStep n a) := by
  have hinv := inv_next n d.lock a h.inv
  rcases next_cases n d.lock a with ⟨hs, ho⟩ | ⟨o, hs, ho⟩
  · have hstay : d.lockStep n a = (d, none) := by
      unfold Device.lockStep
      rw [hs, ho]
      rfl
    rw [hstay]
    exact ⟨b, rfl, h⟩
  · have hasked : ∀ p, (next n d.lock a).Waits p →
        modulePermission (d.asked p).1.op (d.asked p).2 = 0 := by
      intro p hp
      rcases waits_of_step hs hp with hold | hnew
      · exact h.asked p hold
      · exact hopener p hnew
    by_cases hret : o = .returns 0
    · subst hret
      rcases holders_of_return hs with ⟨p, hp, hopen, hholders⟩ | ⟨p, hp, hmem, hholders⟩
      · exact h.granted hinv hasked ho hp hopen hholders (hopener p hp)
      · exact h.closed hinv hasked ho hp hmem hholders (hclose p hp)
    · have hkeep : d.lockStep n a = ({ d with lock := next n d.lock a }, none) := by
        unfold Device.lockStep
        rw [ho, if_neg fun he => hret (Option.some.inj he)]
      rw [hkeep]
      exact ⟨b, rfl, h.relock hinv (holders_of_step hs hret) hasked⟩

omit [DecidableEq P] in
/-- A file that the process may use is the user's. -/
theorem user_of_ready {p : P} (hp : d.Ready p) :
    ∃ a, b.user = some (p, a) ∧ d.mode p = a ∧ a ≠ .readWrite := by
  obtain ⟨a, ha⟩ := h.holder.mp hp.1
  exact ⟨a, ha, h.mode p a ha⟩

/-- The user's call goes on, or ends; nothing else is in a call. -/
theorem advance {p : P} {a : Access} (hu : b.user = some (p, a)) {f : Store} {z : ℤ}
    {c : Option Call} {text : List UInt8} {ended : Bool} (hz : z = if ended then 1 else 0)
    (hplain : (0 : UInt8) ∉ text) (hlast : f (messageLength - 1) = 0)
    (houtside : ∀ j, messageLength ≤ j → f j = d.message j)
    (hcall : ∀ c', c = some c' → CallShows f ⟨b.user, text, ended⟩ p c')
    (htext : (∀ buf i, c ≠ some (.input buf i)) → f.cstr messageLength = text) :
    Device.Shows behind { d with
      message := f
      finished := z
      calls := Function.update d.calls p c } ⟨b.user, text, ended⟩ where
  inv := h.inv
  user := h.user
  mode := h.mode
  asked := h.asked
  finished := hz
  plain := hplain
  last := hlast
  outside j hj := (houtside j hj).trans (h.outside j hj)
  call q c' hc := by
    by_cases hq : q = p
    · subst hq
      exact hcall c' ((Function.update_self q c d.calls).symm.trans hc)
    · obtain ⟨a', ha'⟩ := h.user_of_call ((Function.update_of_ne hq c d.calls).symm.trans hc)
      rw [hu] at ha'
      cases ha'
      exact absurd rfl hq
  text hw := htext fun buf i hc => hw p buf i ((Function.update_self _ _ _).trans hc)

omit [DecidableEq P] in
/-- Unless its user is in `module_input` the text is in `Message`. -/
theorem text_of_user {p : P} {a : Access} (hu : b.user = some (p, a))
    (hc : ∀ buf i, d.calls p ≠ some (.input buf i)) : d.message.cstr messageLength = b.text := by
  refine h.text fun q buf i hq => ?_
  obtain ⟨a', ha'⟩ := h.user_of_call hq
  rw [hu] at ha'
  cases ha'
  exact hc buf i hq

theorem startInput {p : P} (hp : d.Ready p) (hw : (d.mode p).CanWrite) (buf : List UInt8) :
    (d.setCall p (some (.input buf 0))).Shows behind b := by
  obtain ⟨a, hu, hmode, hone⟩ := h.user_of_ready hp
  rw [hmode] at hw
  have ha : a = .write := by
    cases a with
    | read => exact absurd rfl hw
    | write => rfl
    | readWrite => exact absurd rfl hone
  subst ha
  refine h.advance hu h.finished h.plain h.last (fun _ _ => rfl) ?_ fun hc => absurd rfl (hc buf 0)
  intro c' hc'
  cases hc'
  exact ⟨hu, Nat.zero_le _, Nat.zero_le _, rfl⟩

theorem startOutput {p : P} (hp : d.Ready p) (hr : (d.mode p).CanRead) (len : ℕ) :
    Follows behind b (d.startOutput p len) := by
  obtain ⟨a, hu, hmode, hone⟩ := h.user_of_ready hp
  rw [hmode] at hr
  have ha : a = .read := by
    cases a with
    | read => rfl
    | write => exact absurd rfl hr
    | readWrite => exact absurd rfl hone
  subst ha
  have hnone : d.calls p = none := not_not.mp (not_or.mp hp.2).1
  have hidle : Function.update d.calls p none = d.calls := by
    rw [← hnone, Function.update_eq_self]
  have htext := h.text_of_user hu fun buf i hc => by
    rw [hnone] at hc
    cases hc
  have hcases : d.finished = 0 ∧ b.ended = false ∨ d.finished = 1 ∧ b.ended = true := by
    have hz := h.finished
    cases hb : b.ended with
    | false => exact Or.inl ⟨by simpa [hb] using hz, rfl⟩
    | true => exact Or.inr ⟨by simpa [hb] using hz, rfl⟩
  unfold Device.startOutput
  rcases hcases with ⟨hz, hended⟩ | ⟨hz, hended⟩
  · rw [if_neg (not_not.mpr hz), sprintf_eq h.last, htext]
    refine ⟨b, rfl, h.advance hu h.finished h.plain h.last (fun _ _ => rfl) ?_ fun _ => htext⟩
    intro c' hc'
    cases hc'
    exact ⟨hu, hended, rfl, Nat.zero_le _, Nat.zero_le _⟩
  · rw [if_pos (by omega)]
    have hnext : Device.Shows behind { d with finished := 0 } ⟨b.user, b.text, false⟩ := by
      rw [← hidle]
      exact h.advance hu rfl h.plain h.last (fun _ _ => rfl) (fun c' hc' => by cases hc')
        fun _ => htext
    refine ⟨_, ?_, hnext⟩
    simp [Run.accept, Mailbox.step, Mailbox.answer, hu, hended]

theorem inputPass {p : P} {buf : List UInt8} {i : ℕ} (hc : d.calls p = some (.input buf i)) :
    Follows behind b (d.inputPass p buf i) := by
  have hm : messageLength = 80 := rfl
  obtain ⟨hu, hi, hbuf, hbytes⟩ := h.call p _ hc
  unfold Device.inputPass
  by_cases hpass : i < messageLength - 1 ∧ i < buf.length
  · rw [if_pos hpass]
    refine ⟨b, rfl, h.advance hu h.finished h.plain ?_ (fun j hj => ?_) ?_
      fun hc => absurd rfl (hc buf (i + 1))⟩
    · exact (Function.update_of_ne (by omega) _ _).trans h.last
    · exact Function.update_of_ne (by omega) _ _
    · intro c' hc'
      cases hc'
      refine ⟨hu, hpass.1, hpass.2, ?_⟩
      rw [bytes_update, hbytes, List.getD_eq_getElem _ _ hpass.2, List.take_append_getElem]
  · rw [if_neg hpass]
    have hret : i = min (messageLength - 1) buf.length := by omega
    have htake : buf.take i = buf.take (messageLength - 1) := by
      rw [hret]
      exact List.take_eq_take_min.symm
    have hstring : Store.cstr (Function.update d.message i 0) messageLength =
        Mailbox.accepted buf := by
      have hlen : (buf.take i).length = i := List.length_take_of_le hbuf
      have hold : Store.bytes (Function.update d.message i 0) i = buf.take i :=
        (Store.bytes_congr fun j hj => Function.update_of_ne hj.ne _ _).trans hbytes
      rw [Mailbox.accepted, ← htake]
      apply cstr_stored
      · omega
      · rw [hlen, hold]
      · rw [hlen, Function.update_self]
    refine ⟨⟨b.user, Mailbox.accepted buf, b.ended⟩, ?_, h.advance hu h.finished
      (zero_notMem_accepted buf) ?_ (fun j hj => Function.update_of_ne (by omega) _ _)
      (fun c' hc' => by cases hc') fun _ => hstring⟩
    · simp [Run.accept, Mailbox.step, hu, ← hret]
    · by_cases hend : i = messageLength - 1
      · rw [hend, Function.update_self]
      · rw [Function.update_of_ne (Ne.symm hend), h.last]

theorem outputPass {p : P} {len : ℕ} {message : List UInt8} {i : ℕ}
    (hc : d.calls p = some (.output len message i)) :
    Follows behind b (d.outputPass p len message i) := by
  obtain ⟨hu, hended, hmessage, hi, hle⟩ := h.call p _ hc
  have htext := h.text_of_user hu fun buf j hj => by
    rw [hc] at hj
    cases hj
  unfold Device.outputPass
  by_cases hpass : i < len ∧ message.getD i 0 ≠ 0
  · rw [if_pos hpass]
    have hlt : i < message.length := by
      by_contra hge
      exact hpass.2 (List.getD_eq_default _ _ (not_lt.mp hge))
    refine ⟨b, rfl, h.advance hu h.finished h.plain h.last (fun _ _ => rfl) ?_ fun _ => htext⟩
    intro c' hc'
    cases hc'
    exact ⟨hu, hended, hmessage, hpass.1, hlt⟩
  · rw [if_neg hpass]
    -- the loop ends at the length or at the NUL, and there is none in the text
    have hne : (0 : UInt8) ∉ message := by
      rw [hmessage]
      have hlast : (0 : UInt8) ∉ lastInput := by decide
      simp [hlast, h.plain]
    have hend : i = len ∨ i = message.length := by
      rcases Nat.lt_or_ge i message.length with hlt | hge
      · left
        by_contra hlen
        refine hpass ⟨by omega, fun h0 => hne ?_⟩
        rw [List.getD_eq_getElem _ _ hlt] at h0
        exact h0 ▸ List.getElem_mem hlt
      · right
        omega
    have hbytes : message.take i = b.answer len := by
      rw [Mailbox.answer, hended, if_neg Bool.false_ne_true, ← hmessage]
      rcases hend with rfl | rfl
      · rfl
      · rw [List.take_length, List.take_of_length_le hi]
    refine ⟨⟨b.user, b.text, true⟩, ?_, h.advance hu rfl h.plain h.last (fun _ _ => rfl)
      (fun c' hc' => by cases hc') fun _ => htext⟩
    simp [Run.accept, Mailbox.step, hu, hbytes, hended]

theorem pass (p : P) : Follows behind b (d.pass p) := by
  unfold Device.pass
  cases hc : d.calls p with
  | none => exact ⟨b, rfl, h⟩
  | some c =>
    cases c with
    | input buf i => exact h.inputPass hc
    | output len message i => exact h.outputPass hc

theorem openFile (n : ℕ) (p : P) (access : Access) (euid : UInt32) (nonblock : Bool) :
    Follows behind b (d.openFile n p access euid nonblock) := by
  unfold Device.openFile
  by_cases hno : d.Busy p ∨ modulePermission access.op euid ≠ 0
  · rw [if_pos hno]
    exact ⟨b, rfl, h⟩
  · rw [if_neg hno]
    obtain ⟨hidle, hallowed⟩ := not_or.mp hno
    have hasked : Device.Shows behind { d with
        asked := Function.update d.asked p (access, euid) } b :=
      { h with
        asked := fun q hq => by
          have hne : q ≠ p := fun he => hidle (Or.inr (he ▸ hq))
          simp only [Function.update_of_ne hne]
          exact h.asked q hq }
    refine hasked.lockStep n (fun q hq => ?_) fun q hq => by cases hq
    cases hq
    simp only [Function.update_self]
    exact not_not.mp hallowed

/-- Every step of the device is a step of the mailbox or shows nothing. -/
theorem step (n : ℕ) (m : Move P) : Follows behind b (d.step n m) := by
  cases m with
  | openFile p access euid nonblock => exact h.openFile n p access euid nonblock
  | resume p =>
    by_cases hp : d.lock.Waits p
    · refine h.lockStep n (fun q hq => ?_) fun q hq => by cases hq
      cases hq
      exact h.asked p hp
    · have hstay : d.lockStep n (.resume p) = (d, none) := by
        have hr : ¬ d.lock.Runnable p := fun hr => hp hr.waits
        simp [Device.lockStep, next, outcome, Sleep.step, hr]
      rw [Device.step, hstay]
      exact ⟨b, rfl, h⟩
  | closeFile p =>
    rw [Device.step]
    by_cases hp : d.Busy p
    · rw [if_pos hp]
      exact ⟨b, rfl, h⟩
    · rw [if_neg hp]
      refine h.lockStep n (fun q hq => by cases hq) fun q hq => ?_
      cases hq
      exact not_not.mp (not_or.mp hp).1
  | signal p σ => exact h.lockStep n (fun q hq => by cases hq) fun q hq => by cases hq
  | write p buf =>
    rw [Device.step]
    by_cases hp : d.Ready p ∧ (d.mode p).CanWrite
    · rw [if_pos hp]
      exact ⟨b, rfl, h.startInput hp.1 hp.2 buf⟩
    · rw [if_neg hp]
      exact ⟨b, rfl, h⟩
  | read p len =>
    rw [Device.step]
    by_cases hp : d.Ready p ∧ (d.mode p).CanRead
    · rw [if_pos hp]
      exact h.startOutput hp.1 hp.2 len
    · rw [if_neg hp]
      exact ⟨b, rfl, h⟩
  | run p => exact h.pass p

end Device.Shows

omit [DecidableEq P] in
theorem shows_loaded (signals : P → Signals) (behind : Store) :
    (Device.loaded signals behind).Shows behind Mailbox.empty where
  inv := inv_loaded signals
  user := rfl
  mode p a h := by cases h
  asked p h := by
    obtain ⟨e, he, _⟩ := h
    cases he
  finished := rfl
  plain := List.not_mem_nil
  last := rfl
  outside j hj := if_neg (by omega)
  call p c h := by cases h
  text _ := (Store.cstr_eq_nil (by decide)).mpr rfl

/-! ### Calls end -/

/-- The passes that the loop has left at most. -/
def Call.left : Call → ℕ
  | .input buf i => min (messageLength - 1) buf.length - i
  | .output len message i => min len message.length - i

/-- The event is the end of the call. -/
def Event.Ends (p : P) (c : Call) : Event P → Prop
  | .wrote q buf _ => q = p ∧ ∃ i, c = .input buf i
  | .read q len _ => q = p ∧ ∃ message i, c = .output len message i
  | _ => False

def Move.runs (p : P) : Move P → Bool
  | .run q => q = p
  | _ => false

namespace Device

variable {n : ℕ} {d : Device P} {p : P} {c : Call}

/-- A pass ends the call or brings it nearer to its end. -/
theorem pass_cases (hc : d.calls p = some c) : (∃ e, (d.pass p).2 = some e ∧ e.Ends p c) ∨
    ∃ c', (d.pass p).1.calls p = some c' ∧ c'.left < c.left ∧
      ∀ e : Event P, e.Ends p c' → e.Ends p c := by
  unfold Device.pass
  rw [hc]
  cases c with
  | input buf i =>
    simp only [inputPass]
    by_cases hpass : i < messageLength - 1 ∧ i < buf.length
    · rw [if_pos hpass]
      refine Or.inr ⟨.input buf (i + 1), Function.update_self _ _ _, ?_, fun e he => ?_⟩
      · simp only [Call.left]
        omega
      · cases e with
        | wrote q buf' ret =>
          obtain ⟨hq, j, hj⟩ := he
          cases hj
          exact ⟨hq, i, rfl⟩
        | read q len bytes =>
          obtain ⟨_, _, _, hj⟩ := he
          cases hj
        | _ => exact he
    · rw [if_neg hpass]
      exact Or.inl ⟨_, rfl, rfl, i, rfl⟩
  | output len message i =>
    simp only [outputPass]
    by_cases hpass : i < len ∧ message.getD i 0 ≠ 0
    · rw [if_pos hpass]
      have hlt : i < message.length := by
        by_contra hge
        exact hpass.2 (List.getD_eq_default _ _ (not_lt.mp hge))
      refine Or.inr ⟨.output len message (i + 1), Function.update_self _ _ _, ?_, fun e he => ?_⟩
      · simp only [Call.left]
        omega
      · cases e with
        | wrote q buf ret =>
          obtain ⟨_, _, hj⟩ := he
          cases hj
        | read q len' bytes =>
          obtain ⟨hq, _, _, hj⟩ := he
          cases hj
          exact ⟨hq, message, i, rfl⟩
        | _ => exact he
    · rw [if_neg hpass]
      exact Or.inl ⟨_, rfl, rfl, message, i, rfl⟩

theorem calls_lockStep (n : ℕ) (d : Device P) (a : Action P) :
    (d.lockStep n a).1.calls = d.calls := by
  unfold lockStep
  split_ifs
  · cases a <;> rfl
  · rfl

/-- Whatever the others do, a call is where its process left it. -/
theorem calls_step (hc : d.calls p = some c) {m : Move P} (hm : m.runs p = false) :
    (d.step n m).1.calls p = some c := by
  have hset : ∀ q ≠ p, ∀ x : Option Call, Function.update d.calls q x p = some c :=
    fun q hq x => (Function.update_of_ne (Ne.symm hq) _ _).trans hc
  have hbusy : d.Busy p := Or.inl fun h0 => Option.some_ne_none c (hc.symm.trans h0)
  cases m with
  | openFile q access euid nonblock =>
    rw [step, openFile]
    split_ifs
    · exact hc
    · rw [calls_lockStep]
      exact hc
  | resume q =>
    rw [step, calls_lockStep]
    exact hc
  | closeFile q =>
    rw [step]
    split_ifs
    · exact hc
    · rw [calls_lockStep]
      exact hc
  | signal q σ =>
    rw [step, calls_lockStep]
    exact hc
  | write q buf =>
    rw [step]
    split_ifs with hq
    · exact hset q (fun h => hq.1.2 (h ▸ hbusy)) _
    · exact hc
  | read q len =>
    rw [step]
    split_ifs with hq
    · unfold startOutput
      split_ifs
      · exact hc
      · cases sprintf d.message with
        | none => exact hc
        | some message => exact hset q (fun h => hq.1.2 (h ▸ hbusy)) _
    · exact hc
  | run q =>
    have hq : q ≠ p := of_decide_eq_false hm
    rw [step, pass]
    cases d.calls q with
    | none => exact hc
    | some c' =>
      cases c' with
      | input buf i =>
        simp only [inputPass]
        split_ifs <;> exact hset q hq _
      | output len message i =>
        simp only [outputPass]
        split_ifs <;> exact hset q hq _

/-- A call ends when its process has run long enough. -/
theorem call_ends (hc : d.calls p = some c) {ms : List (Move P)}
    (hms : c.left < ms.countP (Move.runs p)) :
    ∃ e ∈ Run.emitted (Device.step n) d ms, e.Ends p c := by
  induction ms generalizing d c with
  | nil => simp at hms
  | cons m ms ih =>
    rw [List.countP_cons] at hms
    simp only [Run.emitted, List.mem_append]
    cases hm : m.runs p with
    | false =>
      rw [hm] at hms
      obtain ⟨e, he, hends⟩ := ih (calls_step hc hm) (by simpa using hms)
      exact ⟨e, Or.inr he, hends⟩
    | true =>
      rw [hm, if_pos rfl] at hms
      have hrun : d.step n m = d.pass p := by
        cases m with
        | run q =>
          obtain rfl : q = p := of_decide_eq_true hm
          rfl
        | _ => cases hm
      rw [hrun]
      rcases pass_cases hc with ⟨e, he, hends⟩ | ⟨c', hc', hleft, hback⟩
      · exact ⟨e, Or.inl (by simp [he]), hends⟩
      · obtain ⟨e, he, hends⟩ := ih hc' (show c'.left < ms.countP (Move.runs p) by omega)
        exact ⟨e, Or.inr he, hback e hends⟩

/-- A write by a process that may write starts its call. -/
theorem calls_write (n : ℕ) (hp : d.Ready p) (hw : (d.mode p).CanWrite) (buf : List UInt8) :
    (d.step n (.write p buf)).1.calls p = some (.input buf 0) := by
  rw [step, if_pos ⟨hp, hw⟩]
  exact Function.update_self _ _ _

/-- A read by a process that may read tells the end of the file or starts its call. -/
theorem calls_read (n : ℕ) (hp : d.Ready p) (hr : (d.mode p).CanRead)
    (hlast : d.message (messageLength - 1) = 0) (len : ℕ) :
    (d.step n (.read p len)).2 = some (.read p len []) ∨
      ∃ message, (d.step n (.read p len)).1.calls p = some (.output len message 0) := by
  rw [step, if_pos ⟨hp, hr⟩, startOutput]
  split_ifs
  · exact Or.inl rfl
  · rw [sprintf_eq hlast]
    exact Or.inr ⟨_, Function.update_self _ _ _⟩

end Device

/-- The device is a mailbox. In every run of processes that open, read, write and close the
file in any order, whose loops interleave byte by byte, the calls that end are those of a
mailbox with one user at a time: a write by a process that was root leaves its text, as far
as it fits and up to its first NUL, and a read gives the last text and then the end of the
file. `sprintf` never reads on behind `Message` and nothing is written there. A read or a
write of a process that has the file open for it starts its call or tells the end of the file
at once, and a call ends once its process has run as many passes as it has bytes left,
whatever the others do. -/
theorem device_is_mailbox (n : ℕ) (signals : P → Signals) (behind : Store) (ms : List (Move P)) :
    let d := Run.exec (fun d m => (Device.step n d m).1) (Device.loaded signals behind) ms
    (∃ b, Run.accept Mailbox.step Mailbox.empty
        (Run.emitted (Device.step n) (Device.loaded signals behind) ms) = some b ∧
      d.lock.holders = (b.user.map Prod.fst).toList ∧
      (d.Unwritten → d.message.cstr messageLength = b.text) ∧
      ∀ j, messageLength ≤ j → d.message j = behind j) ∧
    (∀ p c, d.calls p = some c → ∀ ms', c.left < ms'.countP (Move.runs p) →
      ∃ e ∈ Run.emitted (Device.step n) d ms', e.Ends p c) ∧
    (∀ p, d.Ready p → (d.mode p).CanWrite → ∀ buf,
      (d.step n (.write p buf)).1.calls p = some (.input buf 0)) ∧
    ∀ p, d.Ready p → (d.mode p).CanRead → ∀ len,
      (d.step n (.read p len)).2 = some (.read p len []) ∨
        ∃ message, (d.step n (.read p len)).1.calls p = some (.output len message 0) := by
  intro d
  obtain ⟨b, hacc, h⟩ := Run.accept_emitted (fun d b m h => Device.Shows.step h n m)
    (shows_loaded signals behind) ms
  exact ⟨⟨b, hacc, h.user, h.text, h.outside⟩, fun p c hc ms' => Device.call_ends hc,
    fun p hp hw => Device.calls_write n hp hw, fun p hp hr => Device.calls_read n hp hr h.last⟩

end Model

/-- A write of two bytes, with an open by another process in its midst. -/
theorem device_is_mailbox_sample :
    let d := Run.exec (fun d m => (Device.step 1 d m).1)
      (Device.loaded (fun _ : ℕ => quiet) fun _ => 7)
      [.openFile 0 .write 0 false, .write 0 [104, 105], .run 0, .openFile 1 .read 500 false]
    0 < (Run.emitted (Device.step 1) d [.run 0, .signal 1 interrupted, .run 0]).length := by
  intro d
  obtain ⟨_, h, _⟩ := device_is_mailbox 1 (fun _ : ℕ => quiet) (fun _ => 7)
    [.openFile 0 .write 0 false, .write 0 [104, 105], .run 0, .openFile 1 .read 500 false]
  obtain ⟨e, he, _⟩ := h 0 (.input [104, 105] 1) (by decide)
    [.run 0, .signal 1 interrupted, .run 0] (by decide)
  exact List.length_pos_of_mem he

end Linuxpedia.Sleep
