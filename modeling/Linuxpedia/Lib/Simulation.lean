import Linuxpedia.Lib.Run

/-! Machines that answer. A machine takes an action to its next state and an answer, and
a run gives the list of the answers. Two machines with related states that answer alike,
step by step, give the same answers along every run that is legal for the second one. A
machine of small steps shows an event at some of them only; it follows a machine of
whole events when that one takes the events of every run. -/

namespace Linuxpedia.Lib.Run

variable {S T A O : Type*}

/-- The answers of a machine along a run. -/
def trace (f : S → A → S × O) (s : S) : List A → List O
  | [] => []
  | a :: as => (f s a).2 :: trace f (f s a).1 as

variable {f : S → A → S × O} {g : T → A → T × O}

section Simulation

variable {R : S → T → Prop} {legal : T → A → Prop}
  (hstep : ∀ s t a, R s t → legal t a → (f s a).2 = (g t a).2 ∧ R (f s a).1 (g t a).1)

include hstep

/-- A simulation gives the same answers. -/
theorem trace_eq {s : S} {t : T} (h : R s t) {as : List A}
    (hl : Along (fun t a => (g t a).1) legal t as) : trace f s as = trace g t as := by
  induction as generalizing s t with
  | nil => rfl
  | cons a as ih =>
    obtain ⟨hans, hnext⟩ := hstep s t a h hl.1
    rw [trace, trace, hans, ih hnext hl.2]

/-- The states stay related. -/
theorem exec_related {s : S} {t : T} (h : R s t) {as : List A}
    (hl : Along (fun t a => (g t a).1) legal t as) :
    R (exec (fun s a => (f s a).1) s as) (exec (fun t a => (g t a).1) t as) := by
  induction as generalizing s t with
  | nil => exact h
  | cons a as ih => exact ih (hstep s t a h hl.1).2 hl.2

end Simulation

section Events

variable {E : Type*}

/-- The events along a run. -/
def emitted (f : S → A → S × Option E) (s : S) : List A → List E
  | [] => []
  | a :: as => (f s a).2.toList ++ emitted f (f s a).1 as

/-- The state after the events, if every one of them is taken. -/
def accept (g : T → E → Option T) (t : T) : List E → Option T
  | [] => some t
  | e :: es => (g t e).bind fun t => accept g t es

theorem accept_append (g : T → E → Option T) (t : T) (es es' : List E) :
    accept g t (es ++ es') = (accept g t es).bind fun t => accept g t es' := by
  induction es generalizing t with
  | nil => rfl
  | cons e es ih =>
    rw [List.cons_append, accept, accept]
    cases g t e with
    | none => rfl
    | some t => exact ih t

/-- Where every small step shows nothing or an event that is taken, the events of every run
are. -/
theorem accept_emitted {f : S → A → S × Option E} {g : T → E → Option T} {R : S → T → Prop}
    (hstep : ∀ s t a, R s t → ∃ t', accept g t (f s a).2.toList = some t' ∧ R (f s a).1 t')
    {s : S} {t : T} (h : R s t) (as : List A) : ∃ t', accept g t (emitted f s as) = some t' ∧
      R (exec (fun s a => (f s a).1) s as) t' := by
  induction as generalizing s t with
  | nil => exact ⟨t, rfl, h⟩
  | cons a as ih =>
    obtain ⟨t₁, hacc, hnext⟩ := hstep s t a h
    obtain ⟨t₂, hrest, hend⟩ := ih hnext
    refine ⟨t₂, ?_, hend⟩
    rw [emitted, accept_append, hacc]
    exact hrest

end Events

end Linuxpedia.Lib.Run
