import Linuxpedia.Lib.Run
import Mathlib.Logic.Function.Basic

/-! Two requests on one record, each of which reads the whole record, changes its
copy and writes the copy back. A keyed request fills its own index of the record,
where that is a hole; a request without a key stays away from the other's index. An
index filled is lost when its request writes while the other holds an older copy, or
when its own writing fails without being noticed; in every other interleaving it is
kept. -/

namespace Linuxpedia.Lib.ReadModifyWrite

variable {ι V : Type*}

/-- Where a request stands. `mine` is what it filled its index with. -/
inductive Phase (ι V : Type*) where
  | idle
  | holds (copy : ι → V) (mine : Option V)
  | ended (ok : Bool) (mine : Option V)

namespace Phase

/-- The record as a request sees it: its copy, where it holds one. -/
def view (entry : ι → V) : Phase ι V → ι → V
  | .holds copy _ => copy
  | _ => entry

/-- A request is not done. -/
def Open (φ : Phase ι V) : Prop := ∀ ok mine, φ ≠ .ended ok mine

@[simp] theorem open_idle : (.idle : Phase ι V).Open := by
  intro ok mine h
  cases h

@[simp] theorem open_holds (e : ι → V) (m : Option V) : (.holds e m : Phase ι V).Open := by
  intro ok mine h
  cases h

@[simp] theorem not_open_ended (ok : Bool) (m : Option V) : ¬ (.ended ok m : Phase ι V).Open :=
  fun h => h ok m rfl

/-- A write of the record is seen at most where it changes something. -/
theorem view_eq {φ : Phase ι V} {e e' : ι → V} {k : ι} {a : V} (h : φ.view e k = a)
    (he : e' k = a) : φ.view e' k = a := by
  cases φ with
  | idle => exact he
  | holds f m => exact h
  | ended ok m => exact he

end Phase

/-- The record and the two requests. -/
structure State (ι V : Type*) where
  entry : ι → V
  phase : Bool → Phase ι V

namespace State

variable (s : State ι V) (who : Bool) (e : ι → V) (φ : Phase ι V)

def view : ι → V := (s.phase who).view s.entry

/-- Write the record and move one request. -/
def moved : State ι V := ⟨e, Function.update s.phase who φ⟩

@[simp] theorem moved_entry : (s.moved who e φ).entry = e := rfl

@[simp] theorem moved_phase_self : (s.moved who e φ).phase who = φ := by
  simp [moved]

@[simp] theorem moved_phase_other : (s.moved who e φ).phase (!who) = s.phase (!who) := by
  simp [moved]

@[simp] theorem moved_view_self : (s.moved who e φ).view who = φ.view e := by
  rw [view, moved_phase_self, moved_entry]

theorem view_idle {s : State ι V} {who : Bool} (h : s.phase who = .idle) :
    s.view who = s.entry := by
  rw [view, h]
  rfl

theorem view_holds {s : State ι V} {who : Bool} {e : ι → V} {m : Option V}
    (h : s.phase who = .holds e m) : s.view who = e := by
  rw [view, h]
  rfl

theorem view_ended {s : State ι V} {who : Bool} {ok : Bool} {m : Option V}
    (h : s.phase who = .ended ok m) : s.view who = s.entry := by
  rw [view, h]
  rfl

end State

/-! ### Steps -/

section Steps

variable (key : Bool → Option ι) (hole : V) (who : Bool)

/-- The steps of request `who` that lose an index filled. -/
inductive Lossy : State ι V → State ι V → Prop where
  | overwrite (s) (k e v f n) (hk : key who = some k) (hp : s.phase who = .holds e (some v))
      (hq : s.phase (!who) = .holds f n) : Lossy s (s.moved who e (.ended true (some v)))
  | slip (s) (k e v) (hk : key who = some k) (hp : s.phase who = .holds e (some v)) :
      Lossy s (s.moved who s.entry (.ended true (some v)))

/-- The steps of request `who` that lose nothing. -/
inductive Safe [DecidableEq ι] : State ι V → State ι V → Prop where
  | stay (s) : Safe s s
  | refuse (s) (hp : (s.phase who).Open) : Safe s (s.moved who s.entry (.ended false none))
  | found (s) (k) (hk : key who = some k) (hp : s.phase who = .idle) (hv : s.entry k ≠ hole) :
      Safe s (s.moved who s.entry (.ended true (some (s.entry k))))
  | read (s) (hp : s.phase who = .idle) (hv : ∀ k, key who = some k → s.entry k = hole) :
      Safe s (s.moved who s.entry (.holds s.entry none))
  | take (s) (k e v) (hk : key who = some k) (hp : s.phase who = .holds e none) (hv : v ≠ hole) :
      Safe s (s.moved who s.entry (.holds (Function.update e k v) (some v)))
  | change (s) (j e v) (hk : key who = none) (hj : key (!who) ≠ some j)
      (hp : s.phase who = .holds e none) :
      Safe s (s.moved who s.entry (.holds (Function.update e j v) none))
  | commit (s) (e m) (hp : s.phase who = .holds e m)
      (halone : ∀ v, m = some v → (∀ f n, s.phase (!who) ≠ .holds f n)) :
      Safe s (s.moved who e (.ended true m))

/-- A step of request `who`. -/
def Moves [DecidableEq ι] (s s' : State ι V) : Prop :=
  Safe key hole who s s' ∨ Lossy key who s s'

end Steps

/-- Two requests do not fill the same index. -/
def Apart (key : Bool → Option ι) : Prop := ∀ w k, key w = some k → key (!w) ≠ some k

theorem bool_cases (w who : Bool) : w = who ∨ w = !who := by
  cases w <;> cases who <;> simp

/-- A change at an index that is not the other's key. -/
theorem update_avoids [DecidableEq ι] {key : Bool → Option ι} {w : Bool} {j k : ι}
    (hj : key w ≠ some j) (hk : key w = some k) (e : ι → V) (v : V) :
    Function.update e j v k = e k := by
  refine Function.update_of_ne ?_ _ _
  rintro rfl
  exact hj hk

variable {key : Bool → Option ι} {hole : V} {s s' : State ι V} {who : Bool}

/-! ### The other request's index -/

theorem Lossy.phase_other (hs : Lossy key who s s') : s'.phase (!who) = s.phase (!who) := by
  cases hs with
  | overwrite => exact State.moved_phase_other ..
  | slip => exact State.moved_phase_other ..

/-- A step writes the record as it is or as its request sees it. -/
theorem Lossy.entry_or (hs : Lossy key who s s') : s'.entry = s.entry ∨ s'.entry = s.view who := by
  cases hs with
  | overwrite k e v f n hk hp hq => exact Or.inr (State.view_holds hp).symm
  | slip k e v hk hp => exact Or.inl rfl

theorem Lossy.view_or (hs : Lossy key who s s') : s'.view who = s'.entry := by
  cases hs with
  | overwrite => exact State.moved_view_self ..
  | slip => exact State.moved_view_self ..

section Other

variable [DecidableEq ι]

theorem Safe.phase_other (hs : Safe key hole who s s') : s'.phase (!who) = s.phase (!who) := by
  cases hs with
  | stay => rfl
  | refuse => exact State.moved_phase_other ..
  | found => exact State.moved_phase_other ..
  | read => exact State.moved_phase_other ..
  | take => exact State.moved_phase_other ..
  | change => exact State.moved_phase_other ..
  | commit => exact State.moved_phase_other ..

theorem Safe.entry_or (hs : Safe key hole who s s') :
    s'.entry = s.entry ∨ s'.entry = s.view who := by
  cases hs with
  | stay => exact Or.inl rfl
  | refuse => exact Or.inl rfl
  | found => exact Or.inl rfl
  | read => exact Or.inl rfl
  | take => exact Or.inl rfl
  | change => exact Or.inl rfl
  | commit e m hp _ => exact Or.inr (State.view_holds hp).symm

/-- What a request sees of the other's index is the same after its step, unless it
refused. -/
theorem Safe.view_or (hs : Safe key hole who s s') (hkey : Apart key) {l : ι}
    (hl : key (!who) = some l) : s'.view who l = s.view who l ∨
      s'.view who = s.entry ∧ ∃ m, s'.phase who = .ended false m := by
  cases hs with
  | stay => exact Or.inl rfl
  | refuse hp =>
    exact Or.inr ⟨State.moved_view_self .., none, State.moved_phase_self ..⟩
  | found k hk hp hv =>
    left
    rw [State.moved_view_self, State.view_idle hp]
    rfl
  | read hp hv =>
    left
    rw [State.moved_view_self, State.view_idle hp]
    rfl
  | take k e v hk hp hv =>
    left
    rw [State.moved_view_self, State.view_holds hp]
    exact update_avoids (hkey who k hk) hl e v
  | change j e v hk hj hp =>
    left
    rw [State.moved_view_self, State.view_holds hp]
    exact update_avoids hj hl e v
  | commit e m hp _ =>
    left
    rw [State.moved_view_self, State.view_holds hp]
    rfl

/-- A request that is done makes no more steps. -/
theorem Safe.eq_of_ended (hs : Safe key hole who s s') {ok : Bool} {m : Option V}
    (h : s.phase who = .ended ok m) : s' = s := by
  have hdone : ¬ (s.phase who).Open := by
    rw [h]
    exact Phase.not_open_ended ok m
  cases hs with
  | stay => rfl
  | refuse hp => exact absurd hp hdone
  | found k _ hp _ => exact absurd (hp ▸ Phase.open_idle) hdone
  | read hp _ => exact absurd (hp ▸ Phase.open_idle) hdone
  | take k e v _ hp _ => exact absurd (hp ▸ Phase.open_holds e none) hdone
  | change j e v _ _ hp => exact absurd (hp ▸ Phase.open_holds e none) hdone
  | commit e m hp _ => exact absurd (hp ▸ Phase.open_holds e m) hdone

theorem Moves.phase_other (hs : Moves key hole who s s') : s'.phase (!who) = s.phase (!who) :=
  hs.elim Safe.phase_other Lossy.phase_other

/-- A value that the record and the copy have at the other's index stays in both. -/
theorem Moves.other (hs : Moves key hole who s s') (hkey : Apart key) {l : ι} {a : V}
    (hl : key (!who) = some l) (he : s.entry l = a) (hv : s.view who l = a) :
    s'.entry l = a ∧ s'.view who l = a := by
  have hentry : s'.entry l = a := by
    rcases hs.elim Safe.entry_or Lossy.entry_or with h | h
    · rw [h, he]
    · rw [h, hv]
  refine ⟨hentry, ?_⟩
  rcases hs with hs | hs
  · rcases hs.view_or hkey hl with h | ⟨h, -⟩
    · rw [h, hv]
    · rw [h, he]
  · rw [hs.view_or, hentry]

end Other

/-! ### The request's own index -/

/-- Index `k` of request `w`, which first held `a`: until the request is done it is as
it was, in the record and as the other sees it; for ever, if it was no hole. -/
structure Owns (hole a : V) (k : ι) (s : State ι V) (w : Bool) : Prop where
  intact : (s.phase w).Open ∨ a ≠ hole → s.entry k = a ∧ s.view (!w) k = a
  empty : ∀ e m, s.phase w = .holds e m → a = hole
  own : ∀ e v, s.phase w = .holds e (some v) → e k = v ∧ v ≠ hole
  result : ∀ v, s.phase w = .ended true (some v) → v ≠ hole ∧ (a ≠ hole → v = a)

variable {a : V} {k : ι}

/-- What a step of request `who` shows about its own index. -/
theorem Owns.moved (h : Owns hole a k s who) {e : ι → V} {φ : Phase ι V}
    (hp : (s.phase who).Open) (hentry : φ.Open ∨ a ≠ hole → e k = a)
    (hcopy : ∀ f m, φ = .holds f m → a = hole ∧ ∀ v, m = some v → f k = v ∧ v ≠ hole)
    (hdone : ∀ v, φ = .ended true (some v) → v ≠ hole ∧ (a ≠ hole → v = a)) :
    Owns hole a k (s.moved who e φ) who where
  intact := fun ho => by
    rw [State.moved_phase_self] at ho
    refine ⟨hentry ho, ?_⟩
    rw [State.view, State.moved_phase_other]
    exact Phase.view_eq (h.intact (Or.inl hp)).2 (hentry ho)
  empty := fun f m hf => by
    rw [State.moved_phase_self] at hf
    exact (hcopy f m hf).1
  own := fun f v hf => by
    rw [State.moved_phase_self] at hf
    exact (hcopy f _ hf).2 v rfl
  result := fun v hv => by
    rw [State.moved_phase_self] at hv
    exact hdone v hv

/-- A request that ends: with nothing, or with what its index was filled with. -/
theorem Owns.ends (h : Owns hole a k s who) {e : ι → V} {ok : Bool} {m : Option V}
    (hp : (s.phase who).Open) (hentry : a ≠ hole → e k = a)
    (hdone : ∀ v, ok = true → m = some v → v ≠ hole ∧ (a ≠ hole → v = a)) :
    Owns hole a k (s.moved who e (.ended ok m)) who := by
  apply h.moved hp
  · rintro (ho | hne)
    · exact absurd ho (Phase.not_open_ended ok m)
    · exact hentry hne
  · intro f n hf
    cases hf
  · intro v hv
    cases hv
    exact hdone v rfl rfl

/-- A request that goes on with a copy. -/
theorem Owns.goes_on (h : Owns hole a k s who) {f : ι → V} {m : Option V}
    (hp : (s.phase who).Open) (h₀ : a = hole) (hm : ∀ v, m = some v → f k = v ∧ v ≠ hole) :
    Owns hole a k (s.moved who s.entry (.holds f m)) who := by
  apply h.moved hp
  · exact fun _ => (h.intact (Or.inl hp)).1
  · intro g n hg
    cases hg
    exact ⟨h₀, hm⟩
  · intro v hv
    cases hv

theorem Safe.owns_self [DecidableEq ι] (hs : Safe key hole who s s') (hk : key who = some k)
    (h : Owns hole a k s who) : Owns hole a k s' who := by
  cases hs with
  | stay => exact h
  | refuse hp =>
    apply h.ends hp
    · exact fun hne => (h.intact (Or.inr hne)).1
    · intro v hok
      cases hok
  | found j hj hp hv =>
    obtain rfl : k = j := Option.some.inj (hk.symm.trans hj)
    apply h.ends (hp ▸ Phase.open_idle)
    · exact fun hne => (h.intact (Or.inr hne)).1
    · rintro v - ⟨⟩
      exact ⟨hv, fun hne => (h.intact (Or.inr hne)).1⟩
  | read hp hv =>
    have ho : (s.phase who).Open := hp ▸ Phase.open_idle
    apply h.goes_on ho
    · rw [← (h.intact (Or.inl ho)).1]
      exact hv k hk
    · intro v hm
      cases hm
  | take j e v hj hp hv =>
    obtain rfl : k = j := Option.some.inj (hk.symm.trans hj)
    apply h.goes_on (hp ▸ Phase.open_holds e none) (h.empty e none hp)
    rintro w ⟨⟩
    exact ⟨Function.update_self .., hv⟩
  | change j e v hno _ _ => cases hno.symm.trans hk
  | commit e m hp _ =>
    apply h.ends (hp ▸ Phase.open_holds e m)
    · exact fun hne => absurd (h.empty e m hp) hne
    · rintro v - rfl
      exact ⟨(h.own e v hp).2, fun hne => absurd (h.empty e _ hp) hne⟩

theorem Lossy.owns_self (hs : Lossy key who s s') (h : Owns hole a k s who) :
    Owns hole a k s' who := by
  -- what the request ends with is what it filled its index with
  have hresult : ∀ {e v}, s.phase who = .holds e (some v) → ∀ w, (true : Bool) = true →
      some v = some w → w ≠ hole ∧ (a ≠ hole → w = a) := by
    rintro e v hp w - ⟨⟩
    exact ⟨(h.own e v hp).2, fun hne => absurd (h.empty e _ hp) hne⟩
  cases hs with
  | overwrite j e v f n _ hp _ =>
    exact h.ends (hp ▸ Phase.open_holds e _) (fun hne => absurd (h.empty e _ hp) hne) (hresult hp)
  | slip j e v _ hp =>
    exact h.ends (hp ▸ Phase.open_holds e _) (fun hne => absurd (h.empty e _ hp) hne) (hresult hp)

/-- A step of one request and the index of the other. -/
theorem Owns.other [DecidableEq ι] (h : Owns hole a k s (!who)) (hs : Moves key hole who s s')
    (hkey : Apart key) (hk : key (!who) = some k) : Owns hole a k s' (!who) where
  intact := fun ho => by
    rw [hs.phase_other] at ho
    obtain ⟨he, hv⟩ := h.intact ho
    rw [Bool.not_not] at hv ⊢
    exact hs.other hkey hk he hv
  empty := fun e m he => h.empty e m (hs.phase_other ▸ he)
  own := fun e v he => h.own e v (hs.phase_other ▸ he)
  result := fun v hv => h.result v (hs.phase_other ▸ hv)

/-! ### What is filled is kept or lost -/

/-- Each request's index is as its request left it; `e₀` is the record at the start. -/
def Inv (key : Bool → Option ι) (hole : V) (e₀ : ι → V) (s : State ι V) : Prop :=
  ∀ w k, key w = some k → Owns hole (e₀ k) k s w

/-- Every index filled is in the record, and in the record as the other sees it. -/
def AllKept (key : Bool → Option ι) (hole : V) (e₀ : ι → V) (s : State ι V) : Prop :=
  ∀ w k v, key w = some k → e₀ k = hole → s.phase w = .ended true (some v) →
    s.entry k = v ∧ s.view (!w) k = v

/-- Some index filled is not in the record as the other sees it, unless the other
refused. -/
def SomeLost (key : Bool → Option ι) (hole : V) (e₀ : ι → V) (s : State ι V) : Prop :=
  ∃ w k v, key w = some k ∧ e₀ k = hole ∧ s.phase w = .ended true (some v) ∧
    (s.view (!w) k = hole ∨ ∃ m, s.phase (!w) = .ended false m)

section Kept

variable {e₀ : ι → V}

theorem Inv.start (e₀ : ι → V) (key : Bool → Option ι) (hole : V) :
    Inv key hole e₀ ⟨e₀, fun _ => .idle⟩ := by
  intro w k _
  refine ⟨fun _ => ⟨rfl, rfl⟩, ?_, ?_, ?_⟩
  · intro e m h
    cases h
  · intro e v h
    cases h
  · intro v h
    cases h

theorem AllKept.start (e₀ : ι → V) (key : Bool → Option ι) (hole : V) :
    AllKept key hole e₀ ⟨e₀, fun _ => .idle⟩ := by
  intro w k v _ _ hv
  cases hv

theorem Lossy.someLost (hs : Lossy key who s s') (hi : Inv key hole e₀ s) :
    SomeLost key hole e₀ s' := by
  -- the other still sees the hole
  have hlost : ∀ {k e e' v}, key who = some k → s.phase who = .holds e (some v) →
      (s.view (!who) k = e₀ k → (s.phase (!who)).view e' k = e₀ k) →
      SomeLost key hole e₀ (s.moved who e' (.ended true (some v))) := by
    intro k e e' v hk hp hview
    have h₀ := (hi who k hk).empty e _ hp
    have hsees := ((hi who k hk).intact (Or.inl (hp ▸ Phase.open_holds e _))).2
    refine ⟨who, k, v, hk, h₀, State.moved_phase_self .., Or.inl ?_⟩
    rw [State.view, State.moved_phase_other, State.moved_entry]
    exact (hview hsees).trans h₀
  cases hs with
  | overwrite k e v f n hk hp hq =>
    refine hlost hk hp fun hsees => ?_
    rw [State.view_holds hq] at hsees
    rwa [hq]
  | slip k e v hk hp => exact hlost hk hp id

/-- When both requests ended well: where every index filled is kept, each request's
index holds what it returned. -/
theorem AllKept.final (h : AllKept key hole e₀ s) (hi : Inv key hole e₀ s) {w : Bool} {v : V}
    (hk : key w = some k) (hv : s.phase w = .ended true (some v)) : s.entry k = v := by
  by_cases h₀ : e₀ k = hole
  · exact (h w k v hk h₀ hv).1
  · rw [((hi w k hk).intact (Or.inr h₀)).1]
    exact (((hi w k hk).result v hv).2 h₀).symm

/-- When both requests ended well: where one index filled is lost, a request returned
what its index does not hold. -/
theorem SomeLost.final (h : SomeLost key hole e₀ s) (hi : Inv key hole e₀ s)
    (hend : ∀ w, ∃ m, s.phase w = .ended true m) :
    ∃ w k v, key w = some k ∧ s.phase w = .ended true (some v) ∧ s.entry k ≠ v := by
  obtain ⟨w, k, v, hk, h₀, hv, hlost⟩ := h
  obtain ⟨m, hm⟩ := hend (!w)
  refine ⟨w, k, v, hk, hv, ?_⟩
  rw [hm, State.view_ended hm] at hlost
  rcases hlost with hhole | ⟨n, hn⟩
  · rw [hhole]
    exact ((hi w k hk).result v hv).1.symm
  · cases hn

variable [DecidableEq ι]

theorem Inv.step (hi : Inv key hole e₀ s) (hs : Moves key hole who s s') (hkey : Apart key) :
    Inv key hole e₀ s' := by
  intro w k hk
  rcases bool_cases w who with rfl | rfl
  · exact hs.elim (fun h => h.owns_self hk (hi w k hk)) fun h => h.owns_self (hi w k hk)
  · exact (hi (!who) k hk).other hs hkey hk

theorem Safe.allKept (hs : Safe key hole who s s') (hkey : Apart key) (hi : Inv key hole e₀ s)
    (h : AllKept key hole e₀ s) : AllKept key hole e₀ s' := by
  intro w k v hk h₀ hv
  rcases bool_cases w who with rfl | rfl
  · cases hs with
    | stay => exact h w k v hk h₀ hv
    | refuse hp =>
      rw [State.moved_phase_self] at hv
      cases hv
    | found j hj hp hne =>
      obtain rfl : k = j := Option.some.inj (hk.symm.trans hj)
      exact absurd (((hi w k hk).intact (Or.inl (hp ▸ Phase.open_idle))).1.trans h₀) hne
    | read hp hv' =>
      rw [State.moved_phase_self] at hv
      cases hv
    | take j e u hj hp hu =>
      rw [State.moved_phase_self] at hv
      cases hv
    | change j e u hno _ _ => cases hno.symm.trans hk
    | commit e m hp halone =>
      rw [State.moved_phase_self] at hv
      cases hv
      have hmine : e k = v := ((hi w k hk).own e v hp).1
      refine ⟨hmine, ?_⟩
      -- no copy of the other is older than the record
      rw [State.view, State.moved_phase_other]
      cases hq : s.phase (!w) with
      | idle => exact hmine
      | holds f n => exact absurd hq (halone v rfl f n)
      | ended ok n => exact hmine
  · have hm : Moves key hole who s s' := Or.inl hs
    rw [hm.phase_other] at hv
    obtain ⟨he, hsees⟩ := h (!who) k v hk h₀ hv
    rw [Bool.not_not] at hsees ⊢
    exact hm.other hkey hk he hsees

theorem SomeLost.step (h : SomeLost key hole e₀ s) (hkey : Apart key) (hi : Inv key hole e₀ s)
    (hs : Moves key hole who s s') : SomeLost key hole e₀ s' := by
  rcases hs with hs | hs
  · obtain ⟨w, k, v, hk, h₀, hv, hlost⟩ := h
    rcases bool_cases w who with rfl | rfl
    · rw [hs.eq_of_ended hv]
      exact ⟨w, k, v, hk, h₀, hv, hlost⟩
    · refine ⟨!who, k, v, hk, h₀, hs.phase_other.trans hv, ?_⟩
      rw [Bool.not_not] at hlost ⊢
      rcases hs.view_or hkey hk with hsame | ⟨-, hrefused⟩
      · rcases hlost with hhole | ⟨m, hm⟩
        · exact Or.inl (hsame.trans hhole)
        · rw [hs.eq_of_ended hm]
          exact Or.inr ⟨m, hm⟩
      · exact Or.inr hrefused
  · exact hs.someLost hi

end Kept

end Linuxpedia.Lib.ReadModifyWrite
