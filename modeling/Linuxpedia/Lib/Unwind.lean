import Linuxpedia.Lib.Run

/-! Taking resources in stages. An initialization makes one call after the other, tests what
the call returned, and where the test fires gives back a list of resources and fails. What is
held is a stack; giving back anything but the last resource taken leaves a mark. A stage is
sound where its test fires for a call that took nothing and then gives back all that was
taken before, in reverse order. A history of loads and unloads leaves nothing behind exactly
if each of its loads is sound. -/

namespace Linuxpedia.Lib.Unwind

variable {R V : Type*} [DecidableEq R]

/-! ### What is held -/

/-- The resources held, the last taken first, and whether one was given back out of turn. -/
@[ext]
structure Held (R : Type*) where
  stack : List R
  stray : Bool
  deriving DecidableEq

namespace Held

def take (h : Held R) (r : R) : Held R := ⟨r :: h.stack, h.stray⟩

def give (h : Held R) (r : R) : Held R :=
  if h.stack.head? = some r then ⟨h.stack.tail, h.stray⟩ else ⟨h.stack.erase r, true⟩

def giveAll (h : Held R) (rs : List R) : Held R := rs.foldl give h

/-- A call for `r`, which is taken or not. -/
def call (h : Held R) (r : R) (took : Bool) : Held R := if took then h.take r else h

@[simp] theorem giveAll_nil (h : Held R) : h.giveAll [] = h := rfl

@[simp] theorem giveAll_cons (h : Held R) (r : R) (rs : List R) :
    h.giveAll (r :: rs) = (h.give r).giveAll rs := rfl

theorem give_eq_iff {h : Held R} {r : R} {t : List R} :
    h.give r = ⟨t, false⟩ ↔ h = ⟨r :: t, false⟩ := by
  obtain ⟨stack, stray⟩ := h
  unfold give
  cases stack with
  | nil => simp
  | cons a stack =>
    by_cases ha : a = r
    · simp [ha]
    · simp [ha]

/-- Giving back leaves no mark exactly if it undoes the last calls. -/
theorem giveAll_eq_iff {h : Held R} {rs t : List R} :
    h.giveAll rs = ⟨t, false⟩ ↔ h = ⟨rs ++ t, false⟩ := by
  induction rs generalizing h with
  | nil => simp
  | cons r rs ih => rw [giveAll_cons, ih, give_eq_iff, List.cons_append]

end Held

/-! ### Stages -/

/-- A call for a resource: the test of the code on what it returned, what is given back where
the test fires, and whether the module cannot do without the resource. -/
structure Stage (R V : Type*) where
  resource : R
  fails : V → Bool
  undo : List R
  needed : Bool

variable (took : V → Bool) (ret : R → V)

/-- The calls in turn; `ret` is what they return. -/
def start : List (Stage R V) → Held R → Held R × Bool
  | [], h => (h, true)
  | s :: ss, h =>
    if s.fails (ret s.resource) then
      ((h.call s.resource (took (ret s.resource))).giveAll s.undo, false)
    else start ss (h.call s.resource (took (ret s.resource)))

/-- What the calls have taken, the last first. -/
def kept : List (Stage R V) → List R
  | [] => []
  | s :: ss => kept ss ++ if took (ret s.resource) then [s.resource] else []

/-- Where `taken` was taken before, the first call that fails is seen to fail and all of
`taken` is given back. -/
def Sound : List R → List (Stage R V) → Prop
  | _, [] => True
  | taken, s :: ss =>
    if took (ret s.resource) then Sound (s.resource :: taken) ss
    else if s.fails (ret s.resource) then s.undo = taken
    else s.needed = false ∧ Sound taken ss

/-- Every resource that the module needs was taken. -/
def Complete (ss : List (Stage R V)) : Prop :=
  ∀ s ∈ ss, s.needed = true → took (ret s.resource) = true

/-- Nothing was taken from `base`, or all that is needed. -/
def Settles (ss : List (Stage R V)) (h : Held R) (base : List R) : Prop :=
  start took ret ss h = (⟨base, false⟩, false) ∨
  Complete took ret ss ∧ start took ret ss h = (⟨kept took ret ss ++ h.stack, false⟩, true)

/-- The resources differ, a test does not fire for a resource that was taken, and where a
missing resource that is needed is not noticed, every later stage believes it is there. -/
structure Plain (ss : List (Stage R V)) : Prop where
  honest : ∀ s ∈ ss, took (ret s.resource) = true → s.fails (ret s.resource) = false
  apart : ss.Pairwise fun s s' => s.resource ≠ s'.resource ∧
    (s.needed = true → took (ret s.resource) = false → s.fails (ret s.resource) = false →
      s.resource ∈ s'.undo)

variable {took ret}

omit [DecidableEq R] in
theorem Plain.tail {s : Stage R V} {ss : List (Stage R V)} (h : Plain took ret (s :: ss)) :
    Plain took ret ss :=
  ⟨fun s' hs' => h.honest s' (List.mem_cons_of_mem s hs'), h.apart.of_cons⟩

variable (took ret) in
/-- The test of a stage fires exactly where nothing was taken; a resource that is not needed
is not tested. -/
def Stage.Exact (s : Stage R V) : Prop :=
  if s.needed then s.fails (ret s.resource) = !took (ret s.resource)
  else s.fails (ret s.resource) = false

/-- Each error path gives back what was taken before it, the last first; only the last
resource may be one that is not needed. -/
def Unwound : List R → List (Stage R V) → Prop
  | _, [] => True
  | taken, s :: ss =>
    if s.needed then s.undo = taken ∧ Unwound (s.resource :: taken) ss else ss.isEmpty = true

instance decidableUnwound : ∀ (taken : List R) (ss : List (Stage R V)), Decidable (Unwound taken ss)
  | _, [] => .isTrue trivial
  | taken, s :: ss =>
    have := decidableUnwound (s.resource :: taken) ss
    inferInstanceAs (Decidable (if s.needed then s.undo = taken ∧
      Unwound (s.resource :: taken) ss else ss.isEmpty = true))

omit [DecidableEq R] in
theorem Stage.Exact.honest {s : Stage R V} (h : s.Exact took ret)
    (ht : took (ret s.resource) = true) : s.fails (ret s.resource) = false := by
  unfold Stage.Exact at h
  split_ifs at h
  · rw [h, ht, Bool.not_true]
  · exact h

omit [DecidableEq R] in
theorem Plain.cons {s : Stage R V} {ss : List (Stage R V)} (h : Plain took ret ss)
    (hs : s.Exact took ret) (hne : ∀ s' ∈ ss, s.resource ≠ s'.resource) :
    Plain took ret (s :: ss) := by
  refine ⟨List.forall_mem_cons.mpr ⟨hs.honest, h.honest⟩,
    List.pairwise_cons.mpr ⟨fun s' hs' => ⟨hne s' hs', fun hn ht hf => ?_⟩, h.apart⟩⟩
  rw [Stage.Exact, if_pos hn, ht, hf] at hs
  cases hs

omit [DecidableEq R] in
theorem Plain.of_exact {ss : List (Stage R V)} (hs : ∀ s ∈ ss, s.Exact took ret)
    (hne : ss.Pairwise fun s s' => s.resource ≠ s'.resource) : Plain took ret ss := by
  induction ss with
  | nil => exact ⟨fun s hs => absurd hs List.not_mem_nil, List.Pairwise.nil⟩
  | cons s ss ih =>
    obtain ⟨hs, hrest⟩ := List.forall_mem_cons.mp hs
    obtain ⟨hne, hne'⟩ := List.pairwise_cons.mp hne
    exact (ih hrest hne').cons hs hne

omit [DecidableEq R] in
/-- An initialization with exact tests and complete error paths is always sound. -/
theorem Unwound.sound {ss : List (Stage R V)} (hexact : ∀ s ∈ ss, s.Exact took ret)
    {taken : List R} (h : Unwound taken ss) : Sound took ret taken ss := by
  induction ss generalizing taken with
  | nil => trivial
  | cons s ss ih =>
    obtain ⟨hs, hrest⟩ := List.forall_mem_cons.mp hexact
    unfold Unwound at h
    unfold Stage.Exact at hs
    unfold Sound
    cases hn : s.needed with
    | true =>
      rw [hn, if_pos rfl] at h hs
      rw [hs]
      cases took (ret s.resource) with
      | true => exact ih hrest h.2
      | false => exact h.1
    | false =>
      rw [hn, if_neg Bool.false_ne_true] at h hs
      obtain rfl := List.isEmpty_iff.mp h
      rw [hs]
      simp [Sound]

/-- A stage that believes in a resource that is missing cannot give back what was taken. -/
theorem start_missing {r : R} {ss : List (Stage R V)} {taken base : List R} (hr : r ∉ taken)
    (hss : ∀ s ∈ ss, r ≠ s.resource ∧ r ∈ s.undo) :
    start took ret ss ⟨taken ++ base, false⟩ ≠ (⟨base, false⟩, false) := by
  induction ss generalizing taken with
  | nil => simp [start]
  | cons s ss ih =>
    obtain ⟨hs, hss⟩ := List.forall_mem_cons.mp hss
    obtain ⟨taken', hcall, hr'⟩ : ∃ taken',
        Held.call ⟨taken ++ base, false⟩ s.resource (took (ret s.resource)) =
          ⟨taken' ++ base, false⟩ ∧ r ∉ taken' := by
      cases took (ret s.resource) with
      | false => exact ⟨taken, rfl, hr⟩
      | true => exact ⟨s.resource :: taken, rfl, by simp [hs.1, hr]⟩
    unfold start
    rw [hcall]
    split_ifs
    · intro h
      have hgive := Held.giveAll_eq_iff.mp (Prod.mk.inj h).1
      have htaken := List.append_cancel_right (congrArg Held.stack hgive)
      exact hr' (htaken ▸ hs.2)
    · exact ih hr' hss

omit [DecidableEq R] in
theorem complete_cons {s : Stage R V} {ss : List (Stage R V)} : Complete took ret (s :: ss) ↔
    (s.needed = true → took (ret s.resource) = true) ∧ Complete took ret ss := by
  simp [Complete]

omit [DecidableEq R] in
/-- Where every resource is needed, all of them are held in the end. -/
theorem kept_eq {ss : List (Stage R V)} (hneeded : ∀ s ∈ ss, s.needed = true)
    (hc : Complete took ret ss) : kept took ret ss = (ss.map Stage.resource).reverse := by
  induction ss with
  | nil => rfl
  | cons s ss ih =>
    obtain ⟨hn, hneeded⟩ := List.forall_mem_cons.mp hneeded
    obtain ⟨ht, hc⟩ := complete_cons.mp hc
    rw [kept, ih hneeded hc, ht hn, List.map_cons, List.reverse_cons]
    rfl

/-- An initialization takes nothing or all that is needed exactly where it is sound. -/
theorem settles_iff {ss : List (Stage R V)} (hp : Plain took ret ss) {taken base : List R}
    (hfresh : ∀ s ∈ ss, s.resource ∉ taken) :
    Settles took ret ss ⟨taken ++ base, false⟩ base ↔ Sound took ret taken ss := by
  induction ss generalizing taken with
  | nil => simp [Settles, start, Sound, Complete, kept]
  | cons s ss ih =>
    have hhonest := hp.honest s List.mem_cons_self
    have hapart := (List.pairwise_cons.mp hp.apart).1
    obtain ⟨hs, hfresh⟩ := List.forall_mem_cons.mp hfresh
    unfold Settles at ih ⊢
    unfold start Sound kept
    rw [complete_cons]
    cases ht : took (ret s.resource) with
    | true =>
      rw [hhonest ht]
      have hnext : ∀ s' ∈ ss, s'.resource ∉ s.resource :: taken := fun s' hs' =>
        List.not_mem_cons_of_ne_of_not_mem (hapart s' hs').1.symm (hfresh s' hs')
      simpa [Held.call, Held.take] using ih hp.tail hnext
    | false =>
      cases hf : s.fails (ret s.resource) with
      | true =>
        simp only [Held.call, ↓reduceIte, Bool.false_eq_true, Prod.mk.injEq, and_true,
          Held.giveAll_eq_iff, Held.mk.injEq, List.append_cancel_right_eq, and_false, or_false]
        exact eq_comm
      | false =>
        cases hn : s.needed with
        | true =>
          -- the missing resource is noticed too late or not at all
          have hmiss : start took ret ss ⟨taken ++ base, false⟩ ≠ (⟨base, false⟩, false) :=
            start_missing hs fun s' hs' => ⟨(hapart s' hs').1, (hapart s' hs').2 hn ht hf⟩
          simpa [Held.call] using hmiss
        | false => simpa [Held.call] using ih hp.tail hfresh

/-! ### Histories -/

/-- What a module does when it is loaded, and what it gives back when it is unloaded; both
depend on what its calls returned when it was loaded. -/
structure Module (R V : Type*) where
  init : (R → V) → Held R → Held R × Bool
  exit : (R → V) → List R

/-- What a module holds and, while it is loaded, what its calls have returned. -/
structure State (R V : Type*) where
  held : Held R
  running : Option (R → V)

def State.fresh : State R V := ⟨⟨[], false⟩, none⟩

inductive Act (R V : Type*) where
  | load (ret : R → V)
  | unload

/-- A loaded module is not loaded again, and only a loaded one is unloaded. -/
def Module.step (m : Module R V) (s : State R V) : Act R V → State R V
  | .load ret =>
    match s.running with
    | some _ => s
    | none => ⟨(m.init ret s.held).1, if (m.init ret s.held).2 then some ret else none⟩
  | .unload =>
    match s.running with
    | some ret => ⟨s.held.giveAll (m.exit ret), none⟩
    | none => s

variable (took)

/-- The module has these stages, and its exit undoes them, for what its calls may return. -/
structure Module.Staged (m : Module R V) (ss : List (Stage R V)) (legal : (R → V) → Prop) :
    Prop where
  init_eq : ∀ ret, legal ret → ∀ h, m.init ret h = start took ret ss h
  exit_eq : ∀ ret, legal ret → Complete took ret ss → m.exit ret = kept took ret ss
  plain : ∀ ret, legal ret → Plain took ret ss

/-- An unloaded module holds nothing, a loaded one all that it needs and what its exit gives
back, and nothing was given back out of turn. -/
def Tidy (m : Module R V) (ss : List (Stage R V)) (s : State R V) : Prop :=
  (s.running = none → s.held = ⟨[], false⟩) ∧
  ∀ ret, s.running = some ret → Complete took ret ss ∧ s.held = ⟨m.exit ret, false⟩

/-- A load that happens is sound. -/
def SoundLoad (ss : List (Stage R V)) (s : State R V) : Act R V → Prop
  | .load ret => s.running = none → Sound took ret [] ss
  | .unload => True

def Act.Legal (legal : (R → V) → Prop) : Act R V → Prop
  | .load ret => legal ret
  | .unload => True

variable {took} {m : Module R V} {ss : List (Stage R V)} {legal : (R → V) → Prop}

omit [DecidableEq R] in
theorem tidy_none (h : Held R) : Tidy took m ss (⟨h, none⟩ : State R V) ↔ h = ⟨[], false⟩ := by
  simp [Tidy]

omit [DecidableEq R] in
theorem tidy_some (h : Held R) (ret : R → V) : Tidy took m ss ⟨h, some ret⟩ ↔
    Complete took ret ss ∧ h = ⟨m.exit ret, false⟩ := by
  simp [Tidy]

/-- A load leaves the module in order exactly if it is sound. -/
theorem Module.Staged.load_iff (hm : m.Staged took ss legal) {ret : R → V} (hret : legal ret) :
    Tidy took m ss (m.step .fresh (.load ret)) ↔ Sound took ret [] ss := by
  have hsettles : Settles took ret ss ⟨[] ++ [], false⟩ [] ↔ Sound took ret [] ss :=
    settles_iff (hm.plain ret hret) fun _ _ => List.not_mem_nil
  rw [← hsettles]
  simp only [Module.step, State.fresh, hm.init_eq ret hret, Settles, List.append_nil]
  obtain ⟨h, ok⟩ := start took ret ss ⟨[], false⟩
  cases ok with
  | false => simp [tidy_none]
  | true =>
    simp only [↓reduceIte, tidy_some, Prod.mk.injEq, Bool.true_eq_false, and_false, and_true,
      false_or]
    exact and_congr_right fun hc => by rw [hm.exit_eq ret hret hc]

/-- Unloading a module that is in order. -/
theorem Tidy.unload {s : State R V} (hs : Tidy took m ss s) :
    Tidy took m ss (m.step s .unload) := by
  obtain ⟨held, running⟩ := s
  cases running with
  | none => exact hs
  | some ret =>
    obtain ⟨hc, rfl⟩ := (tidy_some _ ret).mp hs
    refine (tidy_none _).mpr ?_
    rw [Held.giveAll_eq_iff, List.append_nil]

/-- In every history of loads and unloads, whatever the calls return, the module is in order
after every action exactly if every load that happens is sound. -/
theorem Module.Staged.along_iff (hm : m.Staged took ss legal) {acts : List (Act R V)}
    (hacts : ∀ a ∈ acts, a.Legal legal) :
    Run.Along m.step (fun s a => Tidy took m ss (m.step s a)) .fresh acts ↔
      Run.Along m.step (SoundLoad took ss) .fresh acts := by
  have hkey : ∀ (s : State R V) (a : Act R V), Tidy took m ss s → a.Legal legal →
      (Tidy took m ss (m.step s a) ↔ SoundLoad took ss s a) := by
    rintro ⟨held, running⟩ a hs ha
    cases a with
    | unload => exact iff_of_true hs.unload trivial
    | load ret =>
      cases running with
      | some ret' => exact iff_of_true hs (by simp [SoundLoad])
      | none =>
        obtain rfl := (tidy_none held).mp hs
        exact (hm.load_iff ha).trans (by simp [SoundLoad])
  have hstep : ∀ (s : State R V) (a : Act R V), Tidy took m ss s → a.Legal legal →
      SoundLoad took ss s a → Tidy took m ss (m.step s a) :=
    fun s a hs ha hq => (hkey s a hs ha).mpr hq
  exact Run.along_iff hstep hkey ((tidy_none _).mpr rfl) (Run.along_of_mem _ hacts)

end Linuxpedia.Lib.Unwind
