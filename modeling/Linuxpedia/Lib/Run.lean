import Mathlib.Data.List.Infix

/-! Runs of a deterministic machine. A run is the list of its actions; `exec`
gives the state after them and `Along` says that every step of the run, taken
from the state it starts in, satisfies a predicate. An invariant is proved once
for a step and then for every run, and a step property that is equivalent to a
condition on the state before the step is equivalent to it along whole runs. -/

namespace Linuxpedia.Lib.Run

variable {S A : Type*} (step : S → A → S)

/-- The state after a list of actions. -/
def exec (s : S) : List A → S
  | [] => s
  | a :: as => exec (step s a) as

/-- Every step of the run from `s` satisfies `P` at the state before it. -/
def Along (P : S → A → Prop) (s : S) : List A → Prop
  | [] => True
  | a :: as => P s a ∧ Along P (step s a) as

@[simp] theorem exec_nil (s : S) : exec step s [] = s := rfl

@[simp] theorem exec_cons (s : S) (a : A) (as : List A) :
    exec step s (a :: as) = exec step (step s a) as := rfl

@[simp] theorem along_nil (P : S → A → Prop) (s : S) : Along step P s [] := trivial

@[simp] theorem along_cons (P : S → A → Prop) (s : S) (a : A) (as : List A) :
    Along step P s (a :: as) ↔ P s a ∧ Along step P (step s a) as := Iff.rfl

instance decidableAlong (P : S → A → Prop) [∀ s a, Decidable (P s a)] :
    ∀ (s : S) (as : List A), Decidable (Along step P s as)
  | _, [] => .isTrue trivial
  | s, a :: as => @instDecidableAnd _ _ _ (decidableAlong P (step s a) as)

theorem exec_append (s : S) (as bs : List A) :
    exec step s (as ++ bs) = exec step (exec step s as) bs := by
  induction as generalizing s with
  | nil => rfl
  | cons a as ih => exact ih (step s a)

theorem along_append (P : S → A → Prop) (s : S) (as bs : List A) :
    Along step P s (as ++ bs) ↔ Along step P s as ∧ Along step P (exec step s as) bs := by
  induction as generalizing s with
  | nil => simp
  | cons a as ih => simp [ih, and_assoc]

variable {step}

theorem Along.and {P Q : S → A → Prop} {s : S} {as : List A} (hp : Along step P s as)
    (hq : Along step Q s as) : Along step (fun s a => P s a ∧ Q s a) s as := by
  induction as generalizing s with
  | nil => trivial
  | cons a as ih => exact ⟨⟨hp.1, hq.1⟩, ih hp.2 hq.2⟩

theorem Along.imp {P Q : S → A → Prop} (hPQ : ∀ s a, P s a → Q s a) {s : S} {as : List A}
    (h : Along step P s as) : Along step Q s as := by
  induction as generalizing s with
  | nil => trivial
  | cons a as ih => exact ⟨hPQ s a h.1, ih h.2⟩

/-- What every action of a list satisfies holds along its run. -/
theorem along_of_mem {Q : A → Prop} (s : S) {as : List A} (h : ∀ a ∈ as, Q a) :
    Along step (fun _ a => Q a) s as := by
  induction as generalizing s with
  | nil => trivial
  | cons a as ih =>
    exact ⟨h a List.mem_cons_self, ih (step s a) fun b hb => h b (List.mem_cons_of_mem a hb)⟩

/-- The step at any position of a run satisfies what holds along it. -/
theorem Along.at {P : S → A → Prop} {s : S} {pre post : List A} {a : A}
    (h : Along step P s (pre ++ a :: post)) : P (exec step s pre) a :=
  ((along_append step P s pre (a :: post)).mp h).2.1

section Invariant

variable {Inv : S → Prop} {legal : S → A → Prop}

/-- An invariant kept by every legal step holds after every legal run. -/
theorem exec_inv (hstep : ∀ s a, Inv s → legal s a → Inv (step s a)) {s : S} (hs : Inv s)
    {as : List A} (h : Along step legal s as) : Inv (exec step s as) := by
  induction as generalizing s with
  | nil => exact hs
  | cons a as ih => exact ih (hstep s a hs h.1) h.2

/-- An invariant kept by every step holds after every run. -/
theorem exec_of_step (hstep : ∀ s a, Inv s → Inv (step s a)) {s : S} (hs : Inv s) (as : List A) :
    Inv (exec step s as) := by
  induction as generalizing s with
  | nil => exact hs
  | cons a as ih => exact ih (hstep s a hs)

/-- A step property that follows from the invariant holds along every legal run. -/
theorem along_of_inv {P : S → A → Prop} (hstep : ∀ s a, Inv s → legal s a → Inv (step s a))
    (hP : ∀ s a, Inv s → legal s a → P s a) {s : S} (hs : Inv s) {as : List A}
    (h : Along step legal s as) : Along step P s as := by
  induction as generalizing s with
  | nil => trivial
  | cons a as ih => exact ⟨hP s a hs h.1, ih (hstep s a hs h.1) h.2⟩

/-- Where the invariant makes `P` and `Q` equivalent at each legal step, and a
step with `Q` keeps the invariant, `P` and `Q` are equivalent along legal runs:
the first step without `Q` already fails `P`. -/
theorem along_iff {P Q : S → A → Prop}
    (hstep : ∀ s a, Inv s → legal s a → Q s a → Inv (step s a))
    (hPQ : ∀ s a, Inv s → legal s a → (P s a ↔ Q s a)) {s : S} (hs : Inv s) {as : List A}
    (h : Along step legal s as) : Along step P s as ↔ Along step Q s as := by
  induction as generalizing s with
  | nil => exact Iff.rfl
  | cons a as ih =>
    have ha := hPQ s a hs h.1
    constructor
    · rintro ⟨hp, hr⟩
      exact ⟨ha.mp hp, (ih (hstep s a hs h.1 (ha.mp hp)) h.2).mp hr⟩
    · rintro ⟨hq, hr⟩
      exact ⟨ha.mpr hq, (ih (hstep s a hs h.1 hq) h.2).mpr hr⟩

/-- A run with a step outside `P` ends in a bad state, where such a step leads to one
and every step leads from one to another. -/
theorem exec_of_not_along {P : S → A → Prop} {Bad : S → Prop}
    (hstep : ∀ s a, Inv s → Inv (step s a)) (hbreak : ∀ s a, Inv s → ¬ P s a → Bad (step s a))
    (hbad : ∀ s a, Bad s → Bad (step s a)) {s : S} (hs : Inv s) {as : List A}
    (h : ¬ Along step P s as) : Bad (exec step s as) := by
  induction as generalizing s with
  | nil => exact absurd trivial h
  | cons a as ih =>
    by_cases ha : P s a
    · exact ih (hstep s a hs) fun has => h ⟨ha, has⟩
    · exact exec_of_step hbad (hbreak s a hs ha) as

/-- A run of steps in `P` keeps the invariant; with the first step outside `P` it turns bad,
and stays so. -/
theorem exec_or_bad {P : S → A → Prop} {Bad : S → Prop}
    (hstep : ∀ s a, Inv s → legal s a → P s a → Inv (step s a))
    (hbreak : ∀ s a, Inv s → legal s a → ¬ P s a → Bad (step s a))
    (hbad : ∀ s a, Bad s → legal s a → Bad (step s a)) {s : S} (hs : Inv s) {as : List A}
    (h : Along step legal s as) :
    Along step P s as ∧ Inv (exec step s as) ∨ ¬ Along step P s as ∧ Bad (exec step s as) := by
  induction as generalizing s with
  | nil => exact Or.inl ⟨trivial, hs⟩
  | cons a as ih =>
    by_cases ha : P s a
    · rcases ih (hstep s a hs h.1 ha) h.2 with ⟨has, hinv⟩ | ⟨has, hend⟩
      · exact Or.inl ⟨⟨ha, has⟩, hinv⟩
      · exact Or.inr ⟨fun hall => has hall.2, hend⟩
    · exact Or.inr ⟨fun hall => ha hall.1, exec_inv hbad (hbreak s a hs h.1 ha) h.2⟩

end Invariant

/-- Where a view of the state does not see some actions and commutes with the others, the
run without these actions ends in the view of the full run. -/
theorem exec_filter (view : S → S) (hidden : A → Bool) {legal : S → A → Prop}
    (hvisible : ∀ s a, hidden a = false → view (step s a) = step (view s) a)
    (hhidden : ∀ s a, hidden a = true → legal s a → view (step s a) = view s) {s : S} {as : List A}
    (h : Along step legal s as) :
    view (exec step s as) = exec step (view s) (as.filter fun a => !hidden a) := by
  induction as generalizing s with
  | nil => rfl
  | cons a as ih =>
    rw [exec_cons, ih h.2]
    cases ha : hidden a with
    | false => simp [ha, hvisible s a ha]
    | true => simp [ha, hhidden s a ha h.1]

/-- A state property holds after every prefix of a run exactly when it holds at
the start and after each step. -/
theorem forall_prefix_iff (Q : S → Prop) (s : S) (as : List A) :
    (∀ pre, pre <+: as → Q (exec step s pre)) ↔
      Q s ∧ Along step (fun s a => Q (step s a)) s as := by
  induction as generalizing s with
  | nil => simp
  | cons a as ih =>
    have hi := ih (step s a)
    constructor
    · intro h
      have ht := hi.mp (fun pre hp => h (a :: pre) (by simpa using hp))
      exact ⟨h [] List.nil_prefix, ht⟩
    · rintro ⟨hs, ht⟩ pre hp
      cases pre with
      | nil => exact hs
      | cons b pre =>
        obtain ⟨hb, hpre⟩ := List.cons_prefix_cons.mp hp
        subst hb
        exact hi.mpr ht pre hpre

end Linuxpedia.Lib.Run
