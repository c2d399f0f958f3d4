import Linuxpedia.Lib.Run

/-! Losing power behind a write-back cache. Writes go to the cache; each sector of the medium
is written back on its own, at any time, so after a loss of power every sector is the one of
some moment since the cache was last flushed. A machine works on the medium and starts again
from what it finds there. It finds the medium in order when no two versions of it since the
flush stand in each other's way, and what no action touches it finds as it was. -/

namespace Linuxpedia.Lib.PowerLoss

variable {α σ ι : Type*}

/-! ### Mixed versions -/

/-- Every sector of `n` cells is that of one of the versions. -/
def Mix (n : ℕ) (versions : List (ℕ → α)) (dev : ℕ → α) : Prop :=
  ∀ b, ∃ u ∈ versions, ∀ a, a / n = b → dev a = u a

variable {n : ℕ} {versions : List (ℕ → α)} {dev : ℕ → α}

theorem mix_of_mem (h : dev ∈ versions) : Mix n versions dev :=
  fun _ => ⟨dev, h, fun _ _ => rfl⟩

/-- Sectors may be picked from different versions. -/
theorem mix_pick {pick : ℕ → ℕ → α} (h : ∀ b, pick b ∈ versions) :
    Mix n versions fun a => pick (a / n) a :=
  fun b => ⟨pick b, h b, fun a ha => congrArg (pick · a) ha⟩

/-- Where the versions agree the mix agrees with them. -/
theorem Mix.agree (h : Mix n versions dev) {a : ℕ} {x : α} (hall : ∀ u ∈ versions, u a = x) :
    dev a = x := by
  obtain ⟨u, hu, he⟩ := h (a / n)
  rw [he a rfl, hall u hu]

/-! ### The machine behind the cache -/

/-- The machine, and the versions of its medium since the last flush, latest first. -/
structure State (σ α : Type*) where
  now : σ
  versions : List (ℕ → α)

/-- An action, a flush, or a loss of power that leaves `dev`. -/
inductive Event (ι α : Type*) where
  | act (a : ι)
  | sync
  | lose (dev : ℕ → α)

section Machine

variable (next : σ → ι → σ) (medium : σ → ℕ → α) (boot : (ℕ → α) → σ)

/-- The machine with its medium written back. -/
def flushed (t : σ) : State σ α := ⟨t, [medium t]⟩

def step (s : State σ α) : Event ι α → State σ α
  | .act a => ⟨next s.now a, medium (next s.now a) :: s.versions⟩
  | .sync => flushed medium s.now
  | .lose dev => ⟨boot dev, [dev]⟩

/-- Actions satisfy `ok`, and a loss of power leaves a mix. -/
def Legal (n : ℕ) (ok : State σ α → ι → Prop) (s : State σ α) : Event ι α → Prop
  | .act a => ok s a
  | .sync => True
  | .lose dev => Mix n s.versions dev

/-- The machine is in order, every version is the medium of one in order, and no two versions
are in each other's way. -/
structure Good (Inv : σ → Prop) (Apart : (ℕ → α) → (ℕ → α) → Prop) (s : State σ α) : Prop where
  now : Inv s.now
  head : medium s.now ∈ s.versions
  made : ∀ u ∈ s.versions, ∃ t, Inv t ∧ medium t = u
  apart : ∀ u ∈ s.versions, ∀ v ∈ s.versions, Apart u v

/-- What a machine owes to be in order after every loss: an action leaves it in order and its
medium in no version's way, and any mix of versions that are in nobody's way is a medium of a
machine in order. -/
structure Restarts (n : ℕ) (ok : State σ α → ι → Prop) (Inv : σ → Prop)
    (Apart : (ℕ → α) → (ℕ → α) → Prop) : Prop where
  self : ∀ t, Inv t → Apart (medium t) (medium t)
  symm : ∀ u v, Apart u v → Apart v u
  act : ∀ s a, Good medium Inv Apart s → ok s a →
    Inv (next s.now a) ∧ ∀ u ∈ s.versions, Apart u (medium (next s.now a))
  boot : ∀ s dev, Good medium Inv Apart s → Mix n s.versions dev →
    Inv (boot dev) ∧ medium (boot dev) = dev

end Machine

section Rules

variable {next : σ → ι → σ} {medium : σ → ℕ → α} {boot : (ℕ → α) → σ}
  {ok : State σ α → ι → Prop} {Inv : σ → Prop} {Apart : (ℕ → α) → (ℕ → α) → Prop}
  {s : State σ α} (hr : Restarts next medium boot n ok Inv Apart)

include hr

theorem Restarts.flushed {t : σ} (ht : Inv t) : Good medium Inv Apart (flushed medium t) where
  now := ht
  head := List.mem_singleton_self _
  made := by
    intro u hu
    exact ⟨t, ht, (List.mem_singleton.mp hu).symm⟩
  apart := by
    intro u hu v hv
    rw [List.mem_singleton.mp hu, List.mem_singleton.mp hv]
    exact hr.self t ht

/-- One event. -/
theorem Restarts.step (h : Good medium Inv Apart s) {e : Event ι α} (he : Legal n ok s e) :
    Good medium Inv Apart (PowerLoss.step next medium boot s e) := by
  cases e with
  | act a =>
    obtain ⟨hinv, hnew⟩ := hr.act s a h he
    refine ⟨hinv, List.mem_cons_self, fun u hu => ?_, fun u hu v hv => ?_⟩
    · rcases List.mem_cons.mp hu with rfl | hu
      · exact ⟨_, hinv, rfl⟩
      · exact h.made u hu
    · rcases List.mem_cons.mp hu with rfl | hu <;> rcases List.mem_cons.mp hv with rfl | hv
      · exact hr.self _ hinv
      · exact hr.symm v _ (hnew v hv)
      · exact hnew u hu
      · exact h.apart u hu v hv
  | sync => exact hr.flushed h.now
  | lose dev =>
    obtain ⟨hinv, hdev⟩ := hr.boot s dev h he
    have hgood := hr.flushed hinv
    rwa [PowerLoss.flushed, hdev] at hgood

/-- Every run. -/
theorem Restarts.run (h : Good medium Inv Apart s) {events : List (Event ι α)}
    (hl : Run.Along (PowerLoss.step next medium boot) (Legal n ok) s events) :
    Good medium Inv Apart (Run.exec (PowerLoss.step next medium boot) s events) := by
  have hstep : ∀ s e, Good medium Inv Apart s → Legal n ok s e →
      Good medium Inv Apart (PowerLoss.step next medium boot s e) := fun _ _ hs he => hr.step hs he
  exact Run.exec_inv hstep h hl

/-- A property of the medium that mixes keep and no action changes holds on, once it was
flushed. -/
theorem Restarts.keeps {P : (ℕ → α) → Prop}
    (hmix : ∀ (versions : List (ℕ → α)) dev, (∀ u ∈ versions, P u) → Mix n versions dev → P dev)
    (h : Good medium Inv Apart s) (hP : ∀ u ∈ s.versions, P u) {events : List (Event ι α)}
    (hl : Run.Along (PowerLoss.step next medium boot) (fun s e => Legal n ok s e ∧
      ∀ a, e = .act a → Inv s.now → P (medium s.now) → P (medium (next s.now a))) s events) :
    ∀ u ∈ (Run.exec (PowerLoss.step next medium boot) s events).versions, P u := by
  have hstep : ∀ s e, (Good medium Inv Apart s ∧ ∀ u ∈ s.versions, P u) →
      (Legal n ok s e ∧ ∀ a, e = .act a → Inv s.now → P (medium s.now) →
        P (medium (next s.now a))) →
      Good medium Inv Apart (PowerLoss.step next medium boot s e) ∧
        ∀ u ∈ (PowerLoss.step next medium boot s e).versions, P u := by
    rintro s e ⟨hs, hPs⟩ ⟨he, hk⟩
    refine ⟨hr.step hs he, ?_⟩
    cases e with
    | act a =>
      intro u hu
      rcases List.mem_cons.mp hu with rfl | hu
      · exact hk a rfl hs.now (hPs _ hs.head)
      · exact hPs u hu
    | sync =>
      intro u hu
      rw [List.mem_singleton.mp hu]
      exact hPs _ hs.head
    | lose dev =>
      intro u hu
      rw [List.mem_singleton.mp hu]
      exact hmix s.versions dev hPs he
  exact (Run.exec_inv hstep ⟨h, hP⟩ hl).2

end Rules

end Linuxpedia.Lib.PowerLoss
