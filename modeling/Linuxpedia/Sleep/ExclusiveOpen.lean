import Linuxpedia.Lib.Buffer
import Linuxpedia.Lib.Run
import Mathlib.Data.List.Nodup

/-! The `/proc` file of `sleep.c`, which one process at a time may have open. The others
sleep in `module_open` until a close or a signal. A process's kernel code runs from one
sleep to the next without interruption, so a step is such a piece of code, from the entry
of a function or from the return of `schedule` on, or a signal. The module stays loaded,
so `try_module_get` succeeds. -/

namespace Linuxpedia.Sleep

open Lib

def eagain : ℤ := 11

def eintr : ℤ := 4

/-- What is pending for a process: whether `signal_pending` holds, and the words of
`pending.signal.sig` and `blocked.sig`. -/
structure Signals where
  sigPending : Bool
  words : List (UInt64 × UInt64)

/-- `for (i = 0; i < _NSIG_WORDS && !is_sig; i++)`; the words are cut to an `int`. -/
def sigLoop : List (UInt64 × UInt64) → ℤ → ℤ
  | [], isSig => isSig
  | (pending, blocked) :: words, isSig =>
    if isSig = 0 then sigLoop words (asInt (pending &&& ~~~blocked).toUInt32) else isSig

def Signals.isSig (σ : Signals) : ℤ := sigLoop σ.words 0

/-- `Already_Open`, the module use count, the processes whose open succeeded and has not
been closed, and `WaitQ`: the processes asleep and whether they have been woken. -/
structure State (P : Type*) where
  alreadyOpen : ℤ
  useCount : ℤ
  holders : List P
  waitQ : List (P × Bool)
  signals : P → Signals

inductive Action (P : Type*) where
  | moduleOpen (p : P) (nonblock : Bool)
  | resume (p : P)
  | moduleClose (p : P)
  | signal (p : P) (σ : Signals)

/-- What a step ends with. -/
inductive Outcome where
  | sleeps
  | returns (value : ℤ)
  | signalled
  deriving DecidableEq

section Model

variable {P : Type*} [DecidableEq P]

namespace State

variable (s : State P) (p : P)

/-- The process is in `WaitQ`. -/
def Waits : Prop := ∃ e ∈ s.waitQ, e.1 = p

/-- The process can run on from `schedule`. -/
def Runnable : Prop := ∃ e ∈ s.waitQ, e.1 = p ∧ (e.2 = true ∨ (s.signals p).sigPending = true)

instance : Decidable (s.Waits p) := List.decidableBEx _ _

instance : Decidable (s.Runnable p) := List.decidableBEx _ _

/-- `wait_event_interruptible(WaitQ, !Already_Open)` goes to sleep. -/
def Blocks : Prop := s.alreadyOpen ≠ 0 ∧ (s.signals p).sigPending = false

instance : Decidable (s.Blocks p) := inferInstanceAs (Decidable (_ ∧ _))

def enqueue : State P := { s with waitQ := (p, false) :: s.waitQ }

def leave : State P := { s with waitQ := s.waitQ.filter fun e => e.1 ≠ p }

/-- Back to sleep in the queue. -/
def doze : State P :=
  { s with waitQ := s.waitQ.map fun e => if e.1 = p then (e.1, false) else e }

/-- `wake_up(&WaitQ)`. -/
def wakeUp : State P := { s with waitQ := s.waitQ.map fun e => (e.1, true) }

def tryModuleGet : State P := { s with useCount := s.useCount + 1 }

def modulePut : State P := { s with useCount := s.useCount - 1 }

/-- `Already_Open = 1; return 0`. -/
def hold : State P := { s with alreadyOpen := 1, holders := p :: s.holders }

end State

/-- `while (Already_Open)`, at most `n` times. Where a signal is pending that does not count
in `is_sig`, the next pass finds the same state and the source stays in the loop. -/
def openLoop (p : P) : ℕ → State P → Option (State P × Outcome)
  | 0, _ => none
  | n + 1, s =>
    if s.alreadyOpen = 0 then some (s.hold p, .returns 0)
    else if s.Blocks p then some (s.enqueue p, .sleeps)
    else if (s.signals p).isSig ≠ 0 then some (s.modulePut, .returns (-eintr))
    else openLoop p n s

def moduleOpen (n : ℕ) (s : State P) (p : P) (nonblock : Bool) : Option (State P × Outcome) :=
  if nonblock = true ∧ s.alreadyOpen ≠ 0 then some (s, .returns (-eagain))
  else openLoop p n s.tryModuleGet

/-- `module_open` from the return of `schedule` on. -/
def resume (n : ℕ) (s : State P) (p : P) : Option (State P × Outcome) :=
  if s.Blocks p then some (s.doze p, .sleeps)
  else if (s.signals p).isSig ≠ 0 then some ((s.leave p).modulePut, .returns (-eintr))
  else openLoop p n (s.leave p)

def moduleClose (s : State P) (p : P) : State P :=
  State.modulePut (State.wakeUp { s with alreadyOpen := 0, holders := s.holders.erase p })

/-- A process asleep opens nothing, only a runnable one runs on, and only a holder closes;
`n` bounds the passes of the loop. -/
def step (n : ℕ) (s : State P) : Action P → Option (State P × Outcome)
  | .moduleOpen p nonblock => if s.Waits p then none else moduleOpen n s p nonblock
  | .resume p => if s.Runnable p then resume n s p else none
  | .moduleClose p => if p ∈ s.holders then some (moduleClose s p, .returns 0) else none
  | .signal p σ => some ({ s with signals := Function.update s.signals p σ }, .signalled)

/-- A step that cannot be taken, or that does not end, changes nothing. -/
def next (n : ℕ) (s : State P) (a : Action P) : State P := ((step n s a).map Prod.fst).getD s

def outcome (n : ℕ) (s : State P) (a : Action P) : Option Outcome := (step n s a).map Prod.snd

/-- The module just loaded. -/
def loaded (signals : P → Signals) : State P := ⟨0, 0, [], [], signals⟩

/-! ### What a step does -/

/-- The ends that a step can come to. -/
inductive Step (s : State P) : Action P → State P → Outcome → Prop where
  | again {p nonblock} (hopen : s.alreadyOpen ≠ 0) :
      Step s (.moduleOpen p nonblock) s (.returns (-eagain))
  | opened {p nonblock} (hopen : s.alreadyOpen = 0) :
      Step s (.moduleOpen p nonblock) (s.tryModuleGet.hold p) (.returns 0)
  | slept {p nonblock} (hopen : s.alreadyOpen ≠ 0) (hwait : ¬ s.Waits p) :
      Step s (.moduleOpen p nonblock) (s.tryModuleGet.enqueue p) .sleeps
  | refused {p nonblock} : Step s (.moduleOpen p nonblock) s (.returns (-eintr))
  | granted {p} (hopen : s.alreadyOpen = 0) (hwait : s.Waits p) :
      Step s (.resume p) ((s.leave p).hold p) (.returns 0)
  | dozed {p} (hopen : s.alreadyOpen ≠ 0) : Step s (.resume p) (s.doze p) .sleeps
  | aborted {p} (hwait : s.Waits p) :
      Step s (.resume p) (s.leave p).modulePut (.returns (-eintr))
  | closed {p} (hold : p ∈ s.holders) :
      Step s (.moduleClose p) (moduleClose s p) (.returns 0)
  | signalled {p σ} :
      Step s (.signal p σ) { s with signals := Function.update s.signals p σ } .signalled

omit [DecidableEq P] in
@[simp] theorem modulePut_tryModuleGet (s : State P) : s.tryModuleGet.modulePut = s := by
  simp [State.modulePut, State.tryModuleGet]

omit [DecidableEq P] in
/-- The loop holds the file, goes to sleep or gives up. -/
theorem openLoop_cases {p : P} {n : ℕ} {s s' : State P} {o : Outcome}
    (h : openLoop p n s = some (s', o)) :
    (s.alreadyOpen = 0 ∧ s' = s.hold p ∧ o = .returns 0) ∨
    (s.Blocks p ∧ s' = s.enqueue p ∧ o = .sleeps) ∨
    (s.alreadyOpen ≠ 0 ∧ s' = s.modulePut ∧ o = .returns (-eintr)) := by
  induction n with
  | zero => cases h
  | succ n ih =>
    rw [openLoop] at h
    by_cases hopen : s.alreadyOpen = 0
    · rw [if_pos hopen] at h
      cases h
      exact Or.inl ⟨hopen, rfl, rfl⟩
    · rw [if_neg hopen] at h
      by_cases hb : s.Blocks p
      · rw [if_pos hb] at h
        cases h
        exact Or.inr (Or.inl ⟨hb, rfl, rfl⟩)
      · rw [if_neg hb] at h
        by_cases hsig : (s.signals p).isSig ≠ 0
        · rw [if_pos hsig] at h
          cases h
          exact Or.inr (Or.inr ⟨hopen, rfl, rfl⟩)
        · rw [if_neg hsig] at h
          exact ih h

omit [DecidableEq P] in
/-- One pass decides: a second one finds the same state. -/
theorem openLoop_succ (p : P) (n : ℕ) (s : State P) : openLoop p (n + 1) s = openLoop p 1 s := by
  induction n with
  | zero => rfl
  | succ n ih =>
    rw [openLoop, ih]
    simp only [openLoop]
    split_ifs <;> rfl

omit [DecidableEq P] in
theorem State.Runnable.waits {s : State P} {p : P} (h : s.Runnable p) : s.Waits p := by
  obtain ⟨e, he, hp, _⟩ := h
  exact ⟨e, he, hp⟩

theorem step_cases {n : ℕ} {s s' : State P} {a : Action P} {o : Outcome}
    (h : step n s a = some (s', o)) : Step s a s' o := by
  cases a with
  | moduleOpen p nonblock =>
    simp only [step] at h
    by_cases hw : s.Waits p
    · rw [if_pos hw] at h
      cases h
    · rw [if_neg hw, moduleOpen] at h
      by_cases hn : nonblock = true ∧ s.alreadyOpen ≠ 0
      · rw [if_pos hn] at h
        cases h
        exact .again hn.2
      · rw [if_neg hn] at h
        rcases openLoop_cases h with ⟨hopen, rfl, rfl⟩ | ⟨hb, rfl, rfl⟩ | ⟨_, rfl, rfl⟩
        · exact .opened hopen
        · exact .slept hb.1 hw
        · rw [modulePut_tryModuleGet]
          exact .refused
  | resume p =>
    simp only [step] at h
    by_cases hr : s.Runnable p
    · rw [if_pos hr, resume] at h
      by_cases hb : s.Blocks p
      · rw [if_pos hb] at h
        cases h
        exact .dozed hb.1
      · rw [if_neg hb] at h
        by_cases hsig : (s.signals p).isSig ≠ 0
        · rw [if_pos hsig] at h
          cases h
          exact .aborted hr.waits
        · rw [if_neg hsig] at h
          rcases openLoop_cases h with ⟨hopen, rfl, rfl⟩ | ⟨hb', rfl, rfl⟩ | ⟨_, rfl, rfl⟩
          · exact .granted hopen hr.waits
          · exact absurd hb' hb
          · exact .aborted hr.waits
    · rw [if_neg hr] at h
      cases h
  | moduleClose p =>
    simp only [step] at h
    by_cases hp : p ∈ s.holders
    · rw [if_pos hp] at h
      cases h
      exact .closed hp
    · rw [if_neg hp] at h
      cases h
  | signal p σ =>
    cases h
    exact .signalled

/-! ### The lock -/

/-- The file is free or has one holder, the driver's use count is the number of holders and
sleepers, no process sleeps twice, and none sleeps on while the file is free. -/
structure Inv (s : State P) : Prop where
  flag : (s.alreadyOpen = 0 ∧ s.holders = []) ∨ (s.alreadyOpen = 1 ∧ ∃ p, s.holders = [p])
  count : s.useCount = s.holders.length + s.waitQ.length
  nodup : (s.waitQ.map Prod.fst).Nodup
  woken : s.alreadyOpen = 0 → ∀ e ∈ s.waitQ, e.2 = true

omit [DecidableEq P] in
theorem inv_loaded (signals : P → Signals) : Inv (loaded signals) where
  flag := Or.inl ⟨rfl, rfl⟩
  count := rfl
  nodup := List.nodup_nil
  woken := by simp [loaded]

/-- A process that leaves the queue leaves one place. -/
theorem length_leave {q : List (P × Bool)} (hq : (q.map Prod.fst).Nodup) {p : P}
    (hp : ∃ e ∈ q, e.1 = p) : (q.filter fun e => e.1 ≠ p).length + 1 = q.length := by
  induction q with
  | nil => simp at hp
  | cons e q ih =>
    rw [List.map_cons, List.nodup_cons] at hq
    by_cases he : e.1 = p
    · have hself : (q.filter fun e => e.1 ≠ p) = q := by
        refine List.filter_eq_self.mpr fun d hd => ?_
        have hne : d.1 ≠ p := fun h => hq.1 (List.mem_map.mpr ⟨d, hd, h.trans he.symm⟩)
        simpa using hne
      rw [List.filter_cons_of_neg (by simpa using he), hself, List.length_cons]
    · obtain ⟨d, hd, hdp⟩ := hp
      rcases List.mem_cons.mp hd with rfl | hd
      · exact absurd hdp he
      · rw [List.filter_cons_of_pos (by simpa using he), List.length_cons, ih hq.2 ⟨d, hd, hdp⟩,
          List.length_cons]

theorem nodup_leave {s : State P} (h : (s.waitQ.map Prod.fst).Nodup) (p : P) :
    ((s.leave p).waitQ.map Prod.fst).Nodup :=
  h.sublist (List.filter_sublist.map _)

theorem fst_doze (s : State P) (p : P) : (s.doze p).waitQ.map Prod.fst = s.waitQ.map Prod.fst := by
  unfold State.doze
  rw [List.map_map]
  apply List.map_congr_left
  intro e _
  by_cases he : e.1 = p <;> simp [he]

omit [DecidableEq P] in
theorem free_of_inv {s : State P} (h : Inv s) (h0 : s.alreadyOpen = 0) : s.holders = [] := by
  rcases h.flag with ⟨_, hh⟩ | ⟨h1, _⟩
  · exact hh
  · omega

theorem inv_step {s s' : State P} {a : Action P} {o : Outcome} (h : Inv s)
    (hs : Step s a s' o) : Inv s' := by
  cases hs with
  | again hopen => exact h
  | @opened p _ hopen =>
    have hh := free_of_inv h hopen
    refine ⟨Or.inr ⟨rfl, p, ?_⟩, ?_, h.nodup, fun h0 => ?_⟩
    · simp [State.hold, State.tryModuleGet, hh]
    · have hc := h.count
      simp [State.hold, State.tryModuleGet, hc]
      omega
    · cases h0
  | @slept p _ hopen hwait =>
    refine ⟨h.flag, ?_, ?_, fun h0 => absurd h0 hopen⟩
    · have hc := h.count
      simp [State.enqueue, State.tryModuleGet, hc]
      omega
    · refine List.nodup_cons.mpr ⟨fun hm => ?_, h.nodup⟩
      obtain ⟨e, he, hp⟩ := List.mem_map.mp hm
      exact hwait ⟨e, he, hp⟩
  | refused => exact h
  | @granted p hopen hwait =>
    have hh := free_of_inv h hopen
    have hl := length_leave h.nodup hwait
    refine ⟨Or.inr ⟨rfl, p, ?_⟩, ?_, nodup_leave h.nodup p, fun h0 => ?_⟩
    · simp [State.hold, State.leave, hh]
    · have hc := h.count
      simp only [State.hold, State.leave, List.length_cons]
      omega
    · cases h0
  | @dozed p hopen =>
    refine ⟨h.flag, ?_, (fst_doze s p).symm ▸ h.nodup, fun h0 => absurd h0 hopen⟩
    simp only [State.doze, List.length_map]
    exact h.count
  | @aborted p hwait =>
    have hl := length_leave h.nodup hwait
    refine ⟨h.flag, ?_, nodup_leave h.nodup p, fun h0 e he => ?_⟩
    · have hc := h.count
      simp only [State.leave, State.modulePut]
      omega
    · exact h.woken h0 e (List.mem_of_mem_filter he)
  | @closed p hold =>
    have hc := h.count
    rcases h.flag with ⟨_, hh⟩ | ⟨_, q, hh⟩
    · rw [hh] at hold
      cases hold
    · rw [hh, List.mem_singleton] at hold
      subst hold
      refine ⟨Or.inl ⟨rfl, ?_⟩, ?_, ?_, fun _ e he => ?_⟩
      · simp [moduleClose, State.wakeUp, State.modulePut, hh]
      · simp [moduleClose, State.wakeUp, State.modulePut, hh, hc]
      · have hfst : (moduleClose s p).waitQ.map Prod.fst = s.waitQ.map Prod.fst := by
          simp [moduleClose, State.wakeUp, State.modulePut, Function.comp_def]
        rw [hfst]
        exact h.nodup
      · obtain ⟨d, _, rfl⟩ := List.mem_map.mp he
        rfl
  | signalled => exact ⟨h.flag, h.count, h.nodup, h.woken⟩

/-- What is shown of the ends of a step holds of a step that cannot be taken too. -/
theorem next_cases (n : ℕ) (s : State P) (a : Action P) :
    next n s a = s ∧ outcome n s a = none ∨
      ∃ o, Step s a (next n s a) o ∧ outcome n s a = some o := by
  unfold next outcome
  cases h : step n s a with
  | none => exact Or.inl ⟨rfl, rfl⟩
  | some r => exact Or.inr ⟨r.2, step_cases h, rfl⟩

theorem inv_next (n : ℕ) (s : State P) (a : Action P) (h : Inv s) : Inv (next n s a) := by
  rcases next_cases n s a with ⟨hs, _⟩ | ⟨o, hs, _⟩
  · rwa [hs]
  · exact inv_step h hs

/-! ### Who holds the file -/

/-- The process that calls `module_open` or is inside it. -/
def Action.opener : Action P → Option P
  | .moduleOpen p _ => some p
  | .resume p => some p
  | .moduleClose _ => none
  | .signal _ _ => none

/-- An open or a close that does not return 0 leaves the holders. -/
theorem holders_of_step {s s' : State P} {a : Action P} {o : Outcome} (h : Step s a s' o)
    (ho : o ≠ .returns 0) : s'.holders = s.holders := by
  cases h with
  | opened hopen => exact absurd rfl ho
  | granted hopen hwait => exact absurd rfl ho
  | closed hold => exact absurd rfl ho
  | _ => rfl

/-- What a return of 0 means to the holders. -/
theorem holders_of_return {s s' : State P} {a : Action P} (h : Step s a s' (.returns 0)) :
    (∃ p, a.opener = some p ∧ s.alreadyOpen = 0 ∧ s'.holders = p :: s.holders) ∨
      ∃ p, a = .moduleClose p ∧ p ∈ s.holders ∧ s'.holders = s.holders.erase p := by
  generalize ho : Outcome.returns 0 = o at h
  cases h with
  | @opened p _ hopen => exact Or.inl ⟨p, rfl, hopen, rfl⟩
  | @granted p hopen hwait => exact Or.inl ⟨p, rfl, hopen, rfl⟩
  | @closed p hold => exact Or.inr ⟨p, rfl, hold, rfl⟩
  | again => exact absurd ho (by decide)
  | refused => exact absurd ho (by decide)
  | aborted => exact absurd ho (by decide)
  | _ => cases ho

/-- A step that returns 0 is an open of the free file, whose process is the holder then, or
the close of its holder. -/
theorem holders_of_outcome {n : ℕ} {s : State P} (h : Inv s) {a : Action P}
    (ho : outcome n s a = some (.returns 0)) :
    (∃ p, a.opener = some p ∧ s.holders = [] ∧ (next n s a).holders = [p]) ∨
      ∃ p, a = .moduleClose p ∧ s.holders = [p] ∧ (next n s a).holders = [] := by
  rcases next_cases n s a with ⟨_, hnone⟩ | ⟨o, hs, hsome⟩
  · rw [hnone] at ho
    cases ho
  · rw [ho] at hsome
    obtain rfl := Option.some.inj hsome
    rcases holders_of_return hs with ⟨p, hp, hopen, hholders⟩ | ⟨p, rfl, hmem, hholders⟩
    · have hfree := free_of_inv h hopen
      exact Or.inl ⟨p, hp, hfree, by rw [hholders, hfree]⟩
    · rcases h.flag with ⟨_, hh⟩ | ⟨_, q, hh⟩
      · rw [hh] at hmem
        cases hmem
      · rw [hh, List.mem_singleton] at hmem
        subst hmem
        exact Or.inr ⟨p, rfl, hh, by simp [hholders, hh]⟩

/-- Any other step leaves the holder. -/
theorem holders_of_outcome_ne {n : ℕ} {s : State P} {a : Action P}
    (ho : outcome n s a ≠ some (.returns 0)) : (next n s a).holders = s.holders := by
  rcases next_cases n s a with ⟨hs, _⟩ | ⟨o, hs, hsome⟩
  · rw [hs]
  · exact holders_of_step hs fun hz => ho (hz ▸ hsome)

/-! ### An open that fails -/

/-- The state as if a sleeper had not called. -/
def State.without (s : State P) (p : P) : State P := (s.leave p).modulePut

section Without

variable (s : State P) {p q : P}

@[simp] theorem without_alreadyOpen : (s.without p).alreadyOpen = s.alreadyOpen := rfl

@[simp] theorem without_holders : (s.without p).holders = s.holders := rfl

@[simp] theorem without_signals : (s.without p).signals = s.signals := rfl

@[simp] theorem blocks_without : (s.without p).Blocks q ↔ s.Blocks q := Iff.rfl

theorem without_leave : (s.leave q).without p = (s.without p).leave q := by
  simp [State.without, State.leave, State.modulePut, Bool.and_comm]

theorem without_tryModuleGet : s.tryModuleGet.without p = (s.without p).tryModuleGet := by
  simp [State.without, State.tryModuleGet, State.leave, State.modulePut]

/-- A change of the places that keeps the processes commutes with leaving. -/
theorem filter_map_fst {f : P × Bool → P × Bool} (hf : ∀ e, (f e).1 = e.1) (l : List (P × Bool)) :
    ((l.map f).filter fun e => e.1 ≠ p) = (l.filter fun e => e.1 ≠ p).map f := by
  have hcomp : ((fun e : P × Bool => decide (e.1 ≠ p)) ∘ f) = fun e => decide (e.1 ≠ p) := by
    funext e
    simp only [Function.comp_apply, hf]
  rw [List.filter_map, hcomp]

theorem fst_dozing (e : P × Bool) : (if e.1 = q then (e.1, false) else e).1 = e.1 := by
  by_cases he : e.1 = q <;> simp [he]

theorem without_doze : (s.doze q).without p = (s.without p).doze q :=
  congrArg (fun l => ({ s with waitQ := l } : State P).modulePut) (filter_map_fst fst_dozing s.waitQ)

theorem without_moduleClose : (moduleClose s q).without p = moduleClose (s.without p) q :=
  congrArg (fun l => (State.mk 0 s.useCount (s.holders.erase q) l s.signals).modulePut.modulePut)
    (filter_map_fst (f := fun e => (e.1, true)) (fun _ => rfl) s.waitQ)

theorem doze_without : (s.doze p).without p = s.without p := by
  have hmap : ((s.waitQ.filter fun e => e.1 ≠ p).map fun e => if e.1 = p then (e.1, false) else e) =
      s.waitQ.filter fun e => e.1 ≠ p := by
    refine (List.map_congr_left fun e he => ?_).trans (List.map_id _)
    have hne : e.1 ≠ p := by simpa using (List.mem_filter.mp he).2
    simp [hne]
  rw [without_doze]
  exact congrArg (fun l => ({ s with waitQ := l } : State P).modulePut) hmap

variable (h : q ≠ p)

include h

theorem without_enqueue : (s.enqueue q).without p = (s.without p).enqueue q := by
  simp [State.without, State.enqueue, State.leave, State.modulePut, h]

theorem mem_without {e : P × Bool} (he : e.1 = q) : e ∈ (s.without p).waitQ ↔ e ∈ s.waitQ := by
  have hne : e.1 ≠ p := he ▸ h
  simp [State.without, State.leave, State.modulePut, hne]

theorem waits_without : (s.without p).Waits q ↔ s.Waits q :=
  exists_congr fun _ => and_congr_left fun he => mem_without s h he

theorem runnable_without : (s.without p).Runnable q ↔ s.Runnable q :=
  exists_congr fun _ => and_congr_left fun he => mem_without s h he.1

theorem openLoop_without (n : ℕ) : openLoop q n (s.without p) =
    (openLoop q n s).map (Prod.map (State.without · p) id) := by
  induction n with
  | zero => rfl
  | succ n ih =>
    simp only [openLoop, ih, without_alreadyOpen, without_signals, blocks_without,
      ← without_enqueue s h]
    split_ifs <;> rfl

omit h in
/-- Other processes do not notice a sleeper. -/
theorem step_without (n : ℕ) {a : Action P} (ha : a.opener ≠ some p) :
    step n (s.without p) a = (step n s a).map (Prod.map (State.without · p) id) := by
  cases a with
  | moduleOpen q nonblock =>
    have h : q ≠ p := fun hq => ha (congrArg some hq)
    have hloop := openLoop_without s.tryModuleGet h n
    rw [without_tryModuleGet] at hloop
    simp only [step, moduleOpen, waits_without s h, without_alreadyOpen, hloop]
    split_ifs <;> rfl
  | resume q =>
    have h : q ≠ p := fun hq => ha (congrArg some hq)
    simp only [step, resume, runnable_without s h, blocks_without, without_signals,
      ← without_doze, ← without_leave, openLoop_without (s.leave q) h n]
    split_ifs <;> rfl
  | moduleClose q =>
    simp only [step, without_holders, ← without_moduleClose]
    split_ifs <;> rfl
  | signal q σ => rfl

omit h in
theorem next_without (n : ℕ) {a : Action P} (ha : a.opener ≠ some p) :
    next n (s.without p) a = (next n s a).without p := by
  unfold next
  rw [step_without s n ha]
  cases step n s a with
  | none => rfl
  | some r => rfl

end Without

/-- No call of `module_open` by the process returns. -/
def Inside (n : ℕ) (p : P) (s : State P) (a : Action P) : Prop :=
  a.opener = some p → ∀ value, outcome n s a ≠ some (.returns value)

/-- While its open does not return a sleeper stays in the queue. -/
theorem waits_next {n : ℕ} {p : P} {s : State P} {a : Action P} (hw : s.Waits p)
    (ha : Inside n p s a) : (next n s a).Waits p := by
  have hleave : ∀ q ≠ p, ∃ e ∈ (s.leave q).waitQ, e.1 = p := by
    intro q hq
    obtain ⟨e, he, hp⟩ := hw
    have hne : e.1 ≠ q := fun h => hq (h.symm.trans hp)
    exact ⟨e, List.mem_filter.mpr ⟨he, by simpa using hne⟩, hp⟩
  have hmap : ∀ f : P × Bool → P × Bool, (∀ e, (f e).1 = e.1) → ∃ e ∈ s.waitQ.map f, e.1 = p := by
    intro f hf
    obtain ⟨e, he, hp⟩ := hw
    exact ⟨f e, List.mem_map_of_mem he, (hf e).trans hp⟩
  rcases next_cases n s a with ⟨hs, _⟩ | ⟨o, hs, ho⟩
  · rwa [hs]
  · generalize next n s a = s' at hs
    cases hs with
    | again hopen => exact hw
    | opened hopen => exact hw
    | slept hopen hwait =>
      obtain ⟨e, he, hp⟩ := hw
      exact ⟨e, List.mem_cons_of_mem _ he, hp⟩
    | refused => exact hw
    | @granted q hopen hwait =>
      by_cases hq : q = p
      · exact absurd ho (ha (congrArg some hq) 0)
      · exact hleave q hq
    | @dozed q hopen => exact hmap _ fst_dozing
    | @aborted q hwait =>
      by_cases hq : q = p
      · exact absurd ho (ha (congrArg some hq) (-eintr))
      · exact hleave q hq
    | closed hold => exact hmap (fun e => (e.1, true)) fun _ => rfl
    | signalled => exact hw

/-- A step of a sleeper inside `module_open` leaves nothing but the sleeper. -/
theorem next_inside {n : ℕ} {p : P} {s : State P} {a : Action P} (hw : s.Waits p)
    (hp : a.opener = some p) (ha : Inside n p s a) : (next n s a).without p = s.without p := by
  rcases next_cases n s a with ⟨hs, _⟩ | ⟨o, hs, ho⟩
  · rw [hs]
  · generalize next n s a = s' at hs
    cases hs with
    | again hopen => rfl
    | opened hopen => exact absurd ho (ha hp 0)
    | @slept q _ hopen hwait =>
      obtain rfl : q = p := Option.some.inj hp
      exact absurd hw hwait
    | refused => rfl
    | granted hopen hwait => exact absurd ho (ha hp 0)
    | @dozed q hopen =>
      obtain rfl : q = p := Option.some.inj hp
      exact doze_without s
    | aborted hwait => exact absurd ho (ha hp (-eintr))
    | closed hold => cases hp
    | signalled => cases hp

/-- While a process is inside `module_open` the others run as if it were not there. -/
theorem exec_without {n : ℕ} {p : P} {s : State P} {as : List (Action P)} (hw : s.Waits p)
    (h : Run.Along (next n) (Inside n p) s as) : (Run.exec (next n) s as).without p =
      Run.exec (next n) (s.without p) (as.filter fun a => !decide (a.opener = some p)) := by
  have hkeep : ∀ s a, s.Waits p → Inside n p s a → (next n s a).Waits p := fun _ _ => waits_next
  have hwaits : Run.Along (next n) (fun s a => s.Waits p ∧ Inside n p s a) s as :=
    Run.along_of_inv hkeep (fun _ _ hs ha => ⟨hs, ha⟩) hw h
  have hothers : ∀ s a, decide (a.opener = some p) = false →
      (next n s a).without p = next n (s.without p) a :=
    fun s a ha => (next_without s n (of_decide_eq_false ha)).symm
  have hown : ∀ s a, decide (a.opener = some p) = true → s.Waits p ∧ Inside n p s a →
      (next n s a).without p = s.without p :=
    fun s a ha hl => next_inside hl.1 (of_decide_eq_true ha) hl.2
  exact Run.exec_filter (State.without · p) (fun a => decide (a.opener = some p)) hothers hown hwaits

/-- An open that returns an error at once changes nothing. -/
theorem next_of_error {n : ℕ} {s : State P} {p : P} {nonblock : Bool} {value : ℤ}
    (h : outcome n s (.moduleOpen p nonblock) = some (.returns value)) (hv : value ≠ 0) :
    next n s (.moduleOpen p nonblock) = s := by
  rcases next_cases n s (.moduleOpen p nonblock) with ⟨hs, _⟩ | ⟨o, hs, ho⟩
  · exact hs
  · generalize next n s (.moduleOpen p nonblock) = s' at hs
    rw [h] at ho
    cases hs with
    | again hopen => rfl
    | opened hopen => exact absurd (Outcome.returns.inj (Option.some.inj ho)) hv
    | slept hopen hwait => cases ho
    | refused => rfl

theorem leave_of_not_waits {s : State P} {p : P} (h : ¬ s.Waits p) : s.leave p = s := by
  have hself : (s.waitQ.filter fun e => e.1 ≠ p) = s.waitQ := by
    refine List.filter_eq_self.mpr fun e he => ?_
    simpa using fun hp => h ⟨e, he, hp⟩
  unfold State.leave
  rw [hself]

theorem enqueue_without (s : State P) (p : P) :
    (s.tryModuleGet.enqueue p).without p = s.leave p := by
  simp [State.without, State.enqueue, State.tryModuleGet, State.leave, State.modulePut]

/-- A process that goes to sleep in its open is the only change. -/
theorem next_of_sleeps {n : ℕ} {s : State P} {p : P} {nonblock : Bool}
    (h : outcome n s (.moduleOpen p nonblock) = some .sleeps) :
    (next n s (.moduleOpen p nonblock)).Waits p ∧
      (next n s (.moduleOpen p nonblock)).without p = s := by
  rcases next_cases n s (.moduleOpen p nonblock) with ⟨_, ho⟩ | ⟨o, hs, ho⟩
  · rw [h] at ho
    cases ho
  · generalize next n s (.moduleOpen p nonblock) = s' at hs
    rw [h] at ho
    cases hs with
    | again hopen => cases ho
    | opened hopen => cases ho
    | slept hopen hwait =>
      refine ⟨⟨(p, false), List.mem_cons_self, rfl⟩, ?_⟩
      rw [enqueue_without, leave_of_not_waits hwait]
    | refused => cases ho

/-- An interrupted sleeper takes itself out. -/
theorem next_of_aborted {n : ℕ} {s : State P} {p : P}
    (h : outcome n s (.resume p) = some (.returns (-eintr))) :
    next n s (.resume p) = s.without p := by
  rcases next_cases n s (.resume p) with ⟨_, ho⟩ | ⟨o, hs, ho⟩
  · rw [h] at ho
    cases ho
  · generalize next n s (.resume p) = s' at hs
    rw [h] at ho
    cases hs with
    | granted hopen hwait => cases ho
    | dozed hopen => cases ho
    | aborted hwait => rfl

/-- A sleeper whose open is interrupted leaves what the run without it has. -/
theorem exec_aborted {n : ℕ} {s : State P} {p : P} {nonblock : Bool} {mid : List (Action P)}
    (hsleep : outcome n s (.moduleOpen p nonblock) = some .sleeps)
    (hmid : Run.Along (next n) (Inside n p) (next n s (.moduleOpen p nonblock)) mid)
    (hend : outcome n (Run.exec (next n) s (.moduleOpen p nonblock :: mid)) (.resume p) =
      some (.returns (-eintr))) :
    Run.exec (next n) s (.moduleOpen p nonblock :: mid ++ [.resume p]) =
      Run.exec (next n) s (mid.filter fun a => !decide (a.opener = some p)) := by
  obtain ⟨hw, hs⟩ := next_of_sleeps hsleep
  rw [Run.exec_append, Run.exec_cons, Run.exec_nil, next_of_aborted hend, Run.exec_cons,
    exec_without hw hmid, hs]

/-- The file is open once at most. In every state that processes, closes and signals reach
in any order, `Already_Open` is 1 exactly while one process holds the file and 0 otherwise,
the driver's use count is the number of holders and sleepers, and no sleeper has missed that
the file is free. A process becomes the holder where its open returns 0, at once or after a
sleep, which happens only while nobody holds the file, and stays it until its close. An open
that fails with `-EAGAIN` or at once with `-EINTR` changes nothing; one interrupted in its
sleep leaves the state of the run in which it was never made. -/
theorem exclusive_open (n : ℕ) (signals : P → Signals) (as : List (Action P)) :
    let s := Run.exec (next n) (loaded signals) as
    (s.holders.length ≤ 1 ∧ (s.alreadyOpen = 1 ↔ s.holders.length = 1) ∧
      (s.alreadyOpen = 0 ↔ s.holders = []) ∧
      s.useCount = s.holders.length + s.waitQ.length ∧ (s.waitQ.map Prod.fst).Nodup ∧
      (s.alreadyOpen = 0 → ∀ e ∈ s.waitQ, e.2 = true)) ∧
    (∀ a, outcome n s a = some (.returns 0) →
      (∃ p, a.opener = some p ∧ s.holders = [] ∧ (next n s a).holders = [p]) ∨
        ∃ p, a = .moduleClose p ∧ s.holders = [p] ∧ (next n s a).holders = []) ∧
    (∀ a, outcome n s a ≠ some (.returns 0) → (next n s a).holders = s.holders) ∧
    (∀ p nonblock value, outcome n s (.moduleOpen p nonblock) = some (.returns value) →
      value ≠ 0 → next n s (.moduleOpen p nonblock) = s) ∧
    ∀ p nonblock mid, outcome n s (.moduleOpen p nonblock) = some .sleeps →
      Run.Along (next n) (Inside n p) (next n s (.moduleOpen p nonblock)) mid →
      outcome n (Run.exec (next n) s (.moduleOpen p nonblock :: mid)) (.resume p) =
        some (.returns (-eintr)) →
      Run.exec (next n) s (.moduleOpen p nonblock :: mid ++ [.resume p]) =
        Run.exec (next n) s (mid.filter fun a => !decide (a.opener = some p)) := by
  intro s
  have h : Inv s := Run.exec_of_step (fun s a => inv_next n s a) (inv_loaded signals) as
  refine ⟨?_, fun a => holders_of_outcome h, fun a => holders_of_outcome_ne,
    fun p nonblock value => next_of_error, fun p nonblock mid => exec_aborted⟩
  rcases h.flag with ⟨h0, hh⟩ | ⟨h1, p, hh⟩
  · exact ⟨by simp [hh], by simp [h0, hh], by simp [h0, hh], h.count, h.nodup, h.woken⟩
  · exact ⟨by simp [hh], by simp [h1, hh], by simp [h1, hh], h.count, h.nodup, h.woken⟩

end Model

/-- No signal is pending. -/
def quiet : Signals := ⟨false, [(0, 0)]⟩

/-- A signal is pending that is not blocked. -/
def interrupted : Signals := ⟨true, [(2, 0)]⟩

theorem exclusive_open_sample :
    Run.exec (next 1) (loaded fun _ => quiet) ([.moduleOpen 0 false] ++
        (.moduleOpen 1 false :: [.moduleClose 0, .moduleOpen 2 true, .signal 1 interrupted] ++
          [.resume 1])) =
      Run.exec (next 1) (loaded fun _ : ℕ => quiet) ([.moduleOpen 0 false] ++
        [.moduleClose 0, .moduleOpen 2 true, .signal 1 interrupted]) := by
  obtain ⟨_, _, _, _, h⟩ := exclusive_open 1 (fun _ : ℕ => quiet) [.moduleOpen 0 false]
  rw [Run.exec_append, Run.exec_append]
  exact h 1 false [.moduleClose 0, .moduleOpen 2 true, .signal 1 interrupted] (by decide)
    ⟨fun h => absurd h (by decide), fun h => absurd h (by decide),
      fun h => absurd h (by decide), trivial⟩ (by decide)

end Linuxpedia.Sleep
