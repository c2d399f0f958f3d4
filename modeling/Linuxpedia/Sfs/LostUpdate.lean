import Linuxpedia.Lib.ReadModifyWrite
import Linuxpedia.Sfs.Interleave
import Linuxpedia.Sfs.Mounting

/-! Entry updates that are lost between two requests. The entry of a slot with the two
copies is the record of `Lib.ReadModifyWrite`: a call of `sfs_get_block` fills the index
of its block and `sfs_update` stays away from it. Each atomic step is a safe step of the
record, or a lossy one where `sfs_get_block` writes the entry while the other request
holds an older copy, or where its writing fails and the code of that is not noticed. -/

namespace Linuxpedia.Sfs

open Lib Lib.ReadModifyWrite

/-- The index that a request fills. -/
def Request.key : Request → Option (Fin 9)
  | .getBlock iblock => if h : iblock < 9 then some ⟨iblock, h⟩ else none
  | .update _ _ _ => none

theorem Request.key_eq_some {req : Request} {k : Fin 9} :
    req.key = some k ↔ req = .getBlock k := by
  cases req with
  | getBlock iblock =>
    rw [key, Request.getBlock.injEq]
    constructor
    · intro h
      split_ifs at h with h9
      cases h
      rfl
    · rintro rfl
      rw [dif_pos k.isLt]
  | update size timestamp perms => simp [key]

namespace Local

/-- Where a request stands as one on the record. -/
def phase : Local → Phase (Fin 9) UInt32
  | .start => .idle
  | .alloc _ fe => .holds fe.blocks none
  | .store _ fe b => .holds fe.blocks (some b)
  | .drop _ fe => .holds fe.blocks none
  | .done code phys => .ended (code = 0) phys

/-- A request of the pair can stand here. -/
def Fits (key : Bool → Option (Fin 9)) (who : Bool) : Local → Prop
  | .alloc k _ => key who = some k
  | .store k _ _ => key who = some k
  | .drop is _ => key who = none ∧ ∀ j ∈ is, key (!who) ≠ some j
  | _ => True

/-- The request took block `b`, and returns it if it succeeds. -/
def Owes (b : UInt32) : Local → Prop
  | .store _ _ c => c = b
  | .done code phys => code = 0 → phys = some b
  | _ => False

variable {l : Local}

theorem open_of_code (h : l.code = none) : l.phase.Open := by
  cases l with
  | start => exact Phase.open_idle
  | alloc k fe => exact Phase.open_holds _ _
  | store k fe b => exact Phase.open_holds _ _
  | drop is fe => exact Phase.open_holds _ _
  | done code phys => cases h

theorem holds_of_copy {fe : SfsFileEntry} (h : l.copy = some fe) :
    ∃ n, l.phase = .holds fe.blocks n := by
  cases l with
  | start => cases h
  | alloc k fe =>
    cases h
    exact ⟨none, rfl⟩
  | store k fe b =>
    cases h
    exact ⟨some b, rfl⟩
  | drop is fe =>
    cases h
    exact ⟨none, rfl⟩
  | done code phys => cases h

theorem not_holds (h : l.copy = none) (f : Fin 9 → UInt32) (n : Option UInt32) :
    l.phase ≠ .holds f n := by
  intro hp
  cases l with
  | start => cases hp
  | alloc k fe => cases h
  | store k fe b => cases h
  | drop is fe => cases h
  | done code phys => cases hp

theorem phase_refused {code : ℤ} (h : code ≠ 0) :
    (Local.done code none).phase = .ended false none := by
  rw [phase, decide_eq_false h]

theorem of_code {c : ℤ} (h : l.code = some c) : ∃ p, l = .done c p := by
  cases l with
  | done code phys =>
    cases h
    exact ⟨phys, rfl⟩
  | start => cases h
  | alloc k fe => cases h
  | store k fe b => cases h
  | drop is fe => cases h

end Local

namespace Pair

/-- The entry of slot `i` and the two copies. -/
def record (i : ℕ) (s : Pair) : State (Fin 9) UInt32 :=
  ⟨(s.mount.table.entry i).blocks, fun w => (s.loc w).phase⟩

variable {κ : Kernel} {i : ℕ} {s : Pair} {who : Bool} {l l' : Local} {m' : Mount}

theorem record_phase (hl : s.loc who = l) : (s.record i).phase who = l.phase :=
  congrArg Local.phase hl

theorem record_next (i : ℕ) (s : Pair) (who : Bool) (m' : Mount) (l' : Local) :
    (s.next who m' l').record i =
      (s.record i).moved who (m'.table.entry i).blocks l'.phase := by
  refine congrArg (State.mk _) ?_
  funext w
  rcases bool_cases w who with rfl | rfl
  · simp [record]
  · simp [record]

/-- A step that changes neither the entry nor a copy. -/
theorem record_stay (hl : s.loc who = l) :
    (s.record i).moved who (s.mount.table.entry i).blocks l.phase = s.record i := by
  refine congrArg (State.mk _) ?_
  rw [← record_phase (i := i) hl]
  exact Function.update_eq_self who _

theorem guarded_store {k : Fin 9} {fe : SfsFileEntry} {b : UInt32}
    (hl : s.loc who = .store k fe b) : s.Guarded κ i who ↔
      (s.loc (!who)).copy.isNone ∧ κ.Reads s.mount.breads (s.mount.sb.slotAddr i) := by
  rw [Guarded, hl]

theorem guarded_of_ne (hl : s.loc who = l) (h : ∀ k fe b, l ≠ .store k fe b) :
    s.Guarded κ i who := by
  rw [Guarded, hl]
  cases l with
  | store k fe b => exact absurd rfl (h k fe b)
  | start => trivial
  | alloc k fe => trivial
  | drop is fe => trivial
  | done code phys => trivial

end Pair

theorem Mount.stored_self (m : Mount) (i : ℕ) (fe : SfsFileEntry) :
    (m.stored i fe).table.entry i = fe := by
  rw [stored_entry, if_pos rfl]

/-! ### A step of the pair is a step of the record -/

section Steps

variable {κ : Kernel} {i : ℕ} {req : Bool → Request} {s : Pair} {who : Bool} {l l' : Local}
  {m' : Mount}

/-- A guarded step loses nothing. -/
theorem Effect.safe (he : Effect κ i (req who) s.mount l m' l') (hl : s.loc who = l)
    (hfit : l.Fits (fun w => (req w).key) who) (hg : s.Guarded κ i who) :
    Safe (fun w => (req w).key) 0 who (s.record i)
      ((s.record i).moved who (m'.table.entry i).blocks l'.phase) := by
  have hp : (s.record i).phase who = l.phase := Pair.record_phase hl
  cases he with
  | refuse _ m' code hm hc hs hne =>
    rw [hm.entry, Local.phase_refused hne]
    exact .refuse _ (hp ▸ Local.open_of_code hc)
  | found k m' hm hr hb =>
    rw [hm.entry]
    exact .found _ k (Request.key_eq_some.mpr hr) hp hb
  | read k m' hm hr hb =>
    rw [hm.entry]
    refine .read _ hp fun j hj => ?_
    cases (Request.key_eq_some.mpr hr).symm.trans hj
    exact hb
  | readAll size timestamp perms m' hm hr =>
    rw [hm.entry]
    refine .read _ hp fun j hj => ?_
    rw [hr] at hj
    cases hj
  | take k fe b m' hm hb =>
    rw [hm.entry]
    exact .take _ k fe.blocks b hfit hp hb
  | written k fe b hw =>
    rw [Mount.stored_self]
    refine .commit _ fe.blocks (some b) hp fun v _ f n hq => ?_
    exact Local.not_holds (Option.isNone_iff_eq_none.mp ((Pair.guarded_store hl).mp hg).1) f n hq
  | lost k fe b m' hm hw => exact absurd ((Pair.guarded_store hl).mp hg).2 hw
  | skip j is fe =>
    rw [show (Local.drop is fe).phase = (Local.drop (j :: is) fe).phase from rfl,
      Pair.record_stay hl]
    exact .stay _
  | put j is fe m' hm =>
    rw [hm.entry]
    exact .change _ j fe.blocks 0 hfit.1 (hfit.2 j List.mem_cons_self) hp
  | updated fe =>
    rw [Mount.stored_self]
    refine .commit _ fe.blocks none hp fun v hv => ?_
    cases hv
  | stay code phys =>
    rw [Pair.record_stay hl]
    exact .stay _

/-- Any other step loses the block that it should have written. -/
theorem Effect.lossy (he : Effect κ i (req who) s.mount l m' l') (hl : s.loc who = l)
    (hfit : l.Fits (fun w => (req w).key) who) (hg : ¬ s.Guarded κ i who) :
    Lossy (fun w => (req w).key) who (s.record i)
      ((s.record i).moved who (m'.table.entry i).blocks l'.phase) := by
  have hp : (s.record i).phase who = l.phase := Pair.record_phase hl
  cases he with
  | written k fe b hw =>
    rw [Mount.stored_self]
    rw [Pair.guarded_store hl] at hg
    obtain ⟨fe', hcopy⟩ := Option.ne_none_iff_exists'.mp fun hnone =>
      hg ⟨Option.isNone_iff_eq_none.mpr hnone, hw⟩
    obtain ⟨n, hq⟩ := Local.holds_of_copy hcopy
    exact .overwrite _ k fe.blocks b fe'.blocks n hfit hp hq
  | lost k fe b m' hm hw =>
    rw [hm.entry]
    exact .slip _ k fe.blocks b hfit hp
  | refuse _ m' code hm hc hs hne => exact absurd (Pair.guarded_of_ne hl hs) hg
  | found => exact absurd (Pair.guarded_of_ne hl nofun) hg
  | read => exact absurd (Pair.guarded_of_ne hl nofun) hg
  | readAll => exact absurd (Pair.guarded_of_ne hl nofun) hg
  | take => exact absurd (Pair.guarded_of_ne hl nofun) hg
  | skip => exact absurd (Pair.guarded_of_ne hl nofun) hg
  | put => exact absurd (Pair.guarded_of_ne hl nofun) hg
  | updated => exact absurd (Pair.guarded_of_ne hl nofun) hg
  | stay => exact absurd (Pair.guarded_of_ne hl nofun) hg

/-- No step touches the super block or the length of the allocation table. -/
theorem Effect.frame (he : Effect κ i (req who) s.mount l m' l') :
    m'.sb = s.mount.sb ∧ m'.usedBlocks.size = s.mount.usedBlocks.size := by
  cases he with
  | refuse _ m' code hm => exact ⟨hm.sb, hm.size⟩
  | found k m' hm => exact ⟨hm.sb, hm.size⟩
  | read k m' hm => exact ⟨hm.sb, hm.size⟩
  | readAll size timestamp perms m' hm => exact ⟨hm.sb, hm.size⟩
  | take k fe b m' hm => exact ⟨hm.sb, hm.size⟩
  | written => exact ⟨rfl, rfl⟩
  | lost k fe b m' hm => exact ⟨hm.sb, hm.size⟩
  | skip => exact ⟨rfl, rfl⟩
  | put j is fe m' hm => exact ⟨hm.sb, hm.size⟩
  | updated => exact ⟨rfl, rfl⟩
  | stay => exact ⟨rfl, rfl⟩

theorem Effect.allocates (he : Effect κ i (req who) s.mount l m' l') (h : s.mount.Allocates) :
    m'.Allocates := by
  obtain ⟨hsb, hsize⟩ := he.frame
  constructor
  · exact hsb ▸ h.pos
  · exact hsb ▸ h.start_le
  · exact hsb ▸ h.small
  · rw [hsize, hsb]
    exact h.size

theorem Effect.ne_start (he : Effect κ i (req who) s.mount l m' l') : l' ≠ .start := by
  cases he <;> nofun

/-- The indices that `sfs_update` drops are not the other request's. -/
theorem Effect.fits (he : Effect κ i (req who) s.mount l m' l')
    (h : l.Fits (fun w => (req w).key) who)
    (hspared : ∀ k, req (!who) = .getBlock k → l = .start →
      (req who).Spares s.mount.sb (s.mount.table.entry i).size k) :
    l'.Fits (fun w => (req w).key) who := by
  cases he with
  | refuse => trivial
  | found => trivial
  | read k m' hm hr => exact Request.key_eq_some.mpr hr
  | readAll size timestamp perms m' hm hr =>
    refine ⟨congrArg Request.key hr, fun j hj hkey => ?_⟩
    have hkept := hspared j (Request.key_eq_some.mp hkey) rfl
    rw [hr] at hkept
    have hle := SfsFileEntry.mem_drop_finRange.mp hj
    simp only [Request.Spares] at hkept
    omega
  | take => exact h
  | written => trivial
  | lost => trivial
  | skip j is fe => exact ⟨h.1, fun j' hj' => h.2 j' (List.mem_cons_of_mem j hj')⟩
  | put j is fe => exact ⟨h.1, fun j' hj' => h.2 j' (List.mem_cons_of_mem j hj')⟩
  | updated => trivial
  | stay => trivial

/-- The size in the entry and in the copy of `sfs_get_block` is the one it read. -/
theorem Effect.sizes (he : Effect κ i (req who) s.mount l m' l') {k : ℕ}
    (hr : req who = .getBlock k) {P : UInt32 → Prop} (hentry : P (s.mount.table.entry i).size)
    (hcopy : ∀ fe ∈ l.copy, P fe.size) :
    P (m'.table.entry i).size ∧ ∀ fe ∈ l'.copy, P fe.size := by
  cases he with
  | refuse _ m' code hm =>
    rw [hm.entry]
    exact ⟨hentry, nofun⟩
  | found k m' hm =>
    rw [hm.entry]
    exact ⟨hentry, nofun⟩
  | read k m' hm =>
    rw [hm.entry]
    exact ⟨hentry, by rintro _ ⟨⟩; exact hentry⟩
  | readAll size timestamp perms m' hm hu => cases hr.symm.trans hu
  | take k fe b m' hm =>
    rw [hm.entry]
    exact ⟨hentry, by rintro _ ⟨⟩; exact hcopy fe rfl⟩
  | written k fe b =>
    rw [Mount.stored_self]
    exact ⟨hcopy fe rfl, nofun⟩
  | lost k fe b m' hm =>
    rw [hm.entry]
    exact ⟨hentry, nofun⟩
  | skip j is fe => exact ⟨hentry, by rintro _ ⟨⟩; exact hcopy fe rfl⟩
  | put j is fe m' hm =>
    rw [hm.entry]
    exact ⟨hentry, by rintro _ ⟨⟩; exact hcopy fe rfl⟩
  | updated fe =>
    rw [Mount.stored_self]
    exact ⟨hcopy fe rfl, nofun⟩
  | stay => exact ⟨hentry, nofun⟩

/-- A request goes on owing the block it took. -/
theorem Effect.owes (he : Effect κ i (req who) s.mount l m' l') {b : UInt32} (h : l.Owes b) :
    l'.Owes b := by
  cases he with
  | refuse _ m' code hm hc hs =>
    cases l with
    | store k fe c => exact absurd rfl (hs k fe c)
    | done code phys => cases hc
    | start => cases h
    | alloc k fe => cases h
    | drop is fe => cases h
  | written k fe c =>
    cases h
    exact fun _ => rfl
  | lost k fe c =>
    cases h
    exact fun _ => rfl
  | stay => exact h
  | found => cases h
  | read => cases h
  | readAll => cases h
  | take => cases h
  | skip => cases h
  | put => cases h
  | updated => cases h

/-- What a step takes, it owes. -/
theorem Effect.takes (he : Effect κ i (req who) s.mount l m' l')
    (h : l.Fits (fun w => (req w).key) who) {b : UInt32} (hb : b ∈ l.takes l') :
    l'.Owes b ∧ ∃ k : Fin 9, req who = .getBlock k := by
  cases he with
  | take k fe c m' hm hc =>
    cases List.mem_singleton.mp hb
    exact ⟨rfl, k, Request.key_eq_some.mp h⟩
  | refuse _ m' code hm hc hs => cases l <;> cases hb
  | found => cases hb
  | read => cases hb
  | readAll => cases hb
  | written => cases hb
  | lost => cases hb
  | skip => cases hb
  | put => cases hb
  | updated => cases hb
  | stay => cases hb

end Steps

/-! ### Runs -/

/-- What holds between any two steps of a pair on a mount with super block `sb`. -/
structure Pair.Sound (req : Bool → Request) (sb : SfsSuperBlock) (i : ℕ) (s : Pair) : Prop where
  allocates : s.mount.Allocates
  sb_eq : s.mount.sb = sb
  fits : ∀ w, (s.loc w).Fits (fun w => (req w).key) w
  /-- What the other reads, or what this one is about to write, spares its block. -/
  spared : ∀ w k, req w = .getBlock k → s.loc (!w) = .start →
    (req (!w)).Spares sb (s.mount.table.entry i).size k ∧
      ∀ fe ∈ (s.loc w).copy, (req (!w)).Spares sb fe.size k
  took : ∀ b ∈ s.took, ∃ w, (s.loc w).Owes b ∧ ∃ k : Fin 9, req w = .getBlock k

/-- A sound pair whose entry first had the pointers `e₀`. -/
structure Pair.Tracks (req : Bool → Request) (sb : SfsSuperBlock) (e₀ : Fin 9 → UInt32) (i : ℕ)
    (s : Pair) : Prop where
  sound : s.Sound req sb i
  inv : Inv (fun w => (req w).key) 0 e₀ (s.record i)

/-- No block has been lost so far. -/
structure Pair.KeepsAll (req : Bool → Request) (sb : SfsSuperBlock) (e₀ : Fin 9 → UInt32) (i : ℕ)
    (s : Pair) : Prop extends s.Tracks req sb e₀ i where
  allKept : AllKept (fun w => (req w).key) 0 e₀ (s.record i)

/-- Some block is lost. -/
structure Pair.LosesSome (req : Bool → Request) (sb : SfsSuperBlock) (e₀ : Fin 9 → UInt32) (i : ℕ)
    (s : Pair) : Prop extends s.Tracks req sb e₀ i where
  someLost : SomeLost (fun w => (req w).key) 0 e₀ (s.record i)

section Runs

variable {κ : Kernel} {i : ℕ} {req : Bool → Request} {s : Pair} {sb : SfsSuperBlock}

/-- The step of a pair, by its effect. -/
theorem Pair.Sound.effect (h : s.Sound req sb i) (who : Bool) :
    ∃ m' l', Effect κ i (req who) s.mount (s.loc who) m' l' ∧
      s.step κ ((i : ℤ) + 1) req who = s.next who m' l' :=
  ⟨_, _, advance_effect h.allocates (req who) (s.loc who), rfl⟩

theorem Pair.Sound.step (h : s.Sound req sb i) (who : Bool) :
    (s.step κ ((i : ℤ) + 1) req who).Sound req sb i := by
  obtain ⟨m', l', he, hstep⟩ := h.effect (κ := κ) who
  rw [hstep]
  constructor
  · exact he.allocates h.allocates
  · exact he.frame.1.trans h.sb_eq
  · intro w
    rcases bool_cases w who with rfl | rfl
    · rw [next_loc_self]
      refine he.fits (h.fits w) fun k hk hl => ?_
      have hspared := h.spared (!w) k hk
      rw [Bool.not_not] at hspared
      rw [h.sb_eq]
      exact (hspared hl).1
    · rw [next_loc_other]
      exact h.fits (!who)
  · intro w k hk hl
    rcases bool_cases w who with rfl | rfl
    · rw [next_loc_other] at hl
      rw [next_loc_self]
      obtain ⟨hentry, hcopy⟩ := h.spared w k hk hl
      exact he.sizes hk (P := fun n => (req (!w)).Spares sb n k) hentry hcopy
    · rw [Bool.not_not, next_loc_self] at hl
      exact absurd hl he.ne_start
  · intro b hb
    rcases List.mem_append.mp hb with hnew | hold
    · obtain ⟨howes, hk⟩ := he.takes (h.fits who) hnew
      exact ⟨who, by rwa [next_loc_self], hk⟩
    · obtain ⟨w, howes, hk⟩ := h.took b hold
      refine ⟨w, ?_, hk⟩
      rcases bool_cases w who with rfl | rfl
      · rw [next_loc_self]
        exact he.owes howes
      · rwa [next_loc_other]

/-- A step of the pair, on the record. -/
theorem Pair.Sound.moves (h : s.Sound req sb i) (who : Bool) :
    (s.Guarded κ i who → Safe (fun w => (req w).key) 0 who (s.record i)
      ((s.step κ ((i : ℤ) + 1) req who).record i)) ∧
    (¬ s.Guarded κ i who → Lossy (fun w => (req w).key) who (s.record i)
      ((s.step κ ((i : ℤ) + 1) req who).record i)) := by
  obtain ⟨m', l', he, hstep⟩ := h.effect (κ := κ) who
  rw [hstep, Pair.record_next]
  exact ⟨he.safe rfl (h.fits who), he.lossy rfl (h.fits who)⟩

theorem Compatible.apart {size : UInt32} (hc : Compatible sb size req) :
    Apart fun w => (req w).key := by
  intro w k hk hother
  have hspares := hc w k (Request.key_eq_some.mp hk)
  rw [Request.key_eq_some.mp hother] at hspares
  exact hspares rfl

theorem Pair.sound_fresh {m : Mount} (hm : m.Allocates)
    (hc : Compatible m.sb (m.table.entry i).size req) : (fresh m).Sound req m.sb i where
  allocates := hm
  sb_eq := rfl
  fits := fun _ => trivial
  spared := fun w k hk _ => ⟨hc w k hk, nofun⟩
  took := nofun

/-- When both requests succeeded, the record says what is in the entry. -/
theorem Pair.Sound.kept (h : s.Sound req sb i) (hdone : s.Succeeded)
    (hall : ∀ w k v, (req w).key = some k → (s.record i).phase w = .ended true (some v) →
      (s.record i).entry k = v) : s.Kept req i := by
  have hphase : ∀ w b, b ∈ (s.loc w).phys →
      (s.record i).phase w = .ended true (some b) := by
    intro w b hb
    obtain ⟨p, hp⟩ := Local.of_code (hdone w)
    rw [hp] at hb
    obtain rfl : p = some b := hb
    rw [record_phase hp]
    rfl
  refine ⟨fun w k hk b hb => hall w k b (Request.key_eq_some.mpr hk) (hphase w b hb), ?_⟩
  intro b hb
  obtain ⟨w, howes, k, hk⟩ := h.took b hb
  refine ⟨k, hall w k b (Request.key_eq_some.mpr hk) (hphase w b ?_)⟩
  obtain ⟨p, hp⟩ := Local.of_code (hdone w)
  rw [hp] at howes ⊢
  exact howes rfl

/-- When both requests succeeded, the entry holds what the record says they returned. -/
theorem Pair.Kept.record (h : s.Kept req i) {w : Bool} {k : Fin 9} {v : UInt32}
    (hk : (req w).key = some k) (hv : (s.record i).phase w = .ended true (some v)) :
    (s.record i).entry k = v := by
  refine h.1 w k (Request.key_eq_some.mp hk) v ?_
  have hphase : (s.loc w).phase = .ended true (some v) := hv
  cases hl : s.loc w with
  | done code phys =>
    rw [hl, Local.phase, Phase.ended.injEq] at hphase
    exact hphase.2
  | start => rw [hl] at hphase; cases hphase
  | alloc k fe => rw [hl] at hphase; cases hphase
  | store k fe b => rw [hl] at hphase; cases hphase
  | drop is fe => rw [hl] at hphase; cases hphase

theorem Pair.Succeeded.ended (h : s.Succeeded) (i : ℕ) (w : Bool) :
    ∃ n, (s.record i).phase w = .ended true n := by
  obtain ⟨p, hp⟩ := Local.of_code (h w)
  exact ⟨p, record_phase hp⟩

end Runs

/-! ### Every interleaving -/

section Interleavings

variable {κ : Kernel} {i : ℕ} {req : Bool → Request} {s : Pair} {sb : SfsSuperBlock}
  {e₀ : Fin 9 → UInt32}

/-- The steps refine those of the record, whatever the order. -/
theorem Pair.Sound.moves_any (h : s.Sound req sb i) (who : Bool) :
    Moves (fun w => (req w).key) 0 who (s.record i)
      ((s.step κ ((i : ℤ) + 1) req who).record i) := by
  by_cases hg : s.Guarded κ i who
  · exact Or.inl ((h.moves who).1 hg)
  · exact Or.inr ((h.moves who).2 hg)

variable (hkey : Apart fun w => (req w).key)

include hkey

theorem Pair.Tracks.step (h : s.Tracks req sb e₀ i) (who : Bool) :
    (s.step κ ((i : ℤ) + 1) req who).Tracks req sb e₀ i where
  sound := h.sound.step who
  inv := h.inv.step (h.sound.moves_any who) hkey

theorem Pair.KeepsAll.step (h : s.KeepsAll req sb e₀ i) {who : Bool} (hg : s.Guarded κ i who) :
    (s.step κ ((i : ℤ) + 1) req who).KeepsAll req sb e₀ i where
  toTracks := h.toTracks.step hkey who
  allKept := ((h.sound.moves who).1 hg).allKept hkey h.inv h.allKept

theorem Pair.Tracks.loses (h : s.Tracks req sb e₀ i) {who : Bool} (hg : ¬ s.Guarded κ i who) :
    (s.step κ ((i : ℤ) + 1) req who).LosesSome req sb e₀ i where
  toTracks := h.step hkey who
  someLost := ((h.sound.moves who).2 hg).someLost h.inv

theorem Pair.LosesSome.step (h : s.LosesSome req sb e₀ i) (who : Bool) :
    (s.step κ ((i : ℤ) + 1) req who).LosesSome req sb e₀ i where
  toTracks := h.toTracks.step hkey who
  someLost := h.someLost.step hkey h.inv (h.sound.moves_any who)

end Interleavings

variable {κ : Kernel} {m : Mount} {i : ℕ} {req : Bool → Request}

/-- In every interleaving that both requests end with success, the entry holds the
blocks that they returned and took exactly when no `sfs_get_block` wrote over a copy that
the other still held and none of these writings failed. -/
theorem no_lost_update_iff (hm : m.Allocates)
    (hc : Compatible m.sb (m.table.entry i).size req) (as : List Bool)
    (hdone : (Run.exec (Pair.step κ ((i : ℤ) + 1) req) (.fresh m) as).Succeeded) :
    (Run.exec (Pair.step κ ((i : ℤ) + 1) req) (.fresh m) as).Kept req i ↔
      Run.Along (Pair.step κ ((i : ℤ) + 1) req) (Pair.Guarded κ i) (.fresh m) as := by
  have hkey := hc.apart
  have hstart : (Pair.fresh m).Tracks req m.sb (m.table.entry i).blocks i :=
    ⟨Pair.sound_fresh hm hc, Inv.start _ _ 0⟩
  constructor
  · intro hkept
    by_contra hno
    have hlost : Pair.LosesSome req m.sb (m.table.entry i).blocks i
        (Run.exec (Pair.step κ ((i : ℤ) + 1) req) (.fresh m) as) :=
      Run.exec_of_not_along (fun s who (h : s.Tracks _ _ _ _) => h.step hkey who)
        (fun s who h hg => h.loses hkey hg) (fun s who h => h.step hkey who) hstart hno
    obtain ⟨w, k, v, hk, hv, hne⟩ := hlost.someLost.final hlost.inv (hdone.ended i)
    exact hne (hkept.record hk hv)
  · intro halong
    have hall : Pair.KeepsAll req m.sb (m.table.entry i).blocks i
        (Run.exec (Pair.step κ ((i : ℤ) + 1) req) (.fresh m) as) :=
      Run.exec_inv (fun s who h hg => h.step hkey hg) ⟨hstart, AllKept.start _ _ 0⟩ halong
    exact hall.sound.kept hdone fun w k v hk hv => hall.allKept.final hall.inv hk hv

/-- A mount with one empty file, in slot 0. -/
def oneFile : Mount := (sfsCreate sampleKernel sampleMount [97] 6 7).1

/-- Blocks 0 and 1 of the file at the same time. -/
def twoBlocks (who : Bool) : Request := .getBlock (if who then 1 else 0)

theorem oneFile_allocates : oneFile.Allocates := by
  constructor <;> decide +kernel

theorem twoBlocks_compatible : Compatible oneFile.sb (oneFile.table.entry 0).size twoBlocks := by
  intro who k hk
  have hindex : (if who then 1 else 0) = k := Request.getBlock.inj hk
  subst hindex
  cases who with
  | false => exact Nat.one_ne_zero
  | true => exact Nat.zero_ne_one

/-- One call after the other. -/
theorem no_lost_update_sample :
    (Run.exec (Pair.step sampleKernel 1 twoBlocks) (.fresh oneFile)
      [false, false, false, true, true, true]).Kept twoBlocks 0 :=
  (no_lost_update_iff oneFile_allocates twoBlocks_compatible _ (by
    intro who
    cases who <;> decide +kernel)).mpr (by decide +kernel)

/-- Both calls read the entry before either writes it. -/
theorem interleaved_update_lost : (oneFile.table.entry 0).Named ∧
    ∃ as, (Run.exec (Pair.step sampleKernel 1 twoBlocks) (.fresh oneFile) as).Succeeded ∧
      ¬ (Run.exec (Pair.step sampleKernel 1 twoBlocks) (.fresh oneFile) as).Kept twoBlocks 0 := by
  refine ⟨by decide +kernel, [false, true, false, true, false, true], ?_, fun h => ?_⟩
  · intro who
    cases who <;> decide +kernel
  · have hphys : ((Run.exec (Pair.step sampleKernel 1 twoBlocks) (.fresh oneFile)
        [false, true, false, true, false, true]).loc false).phys = some 2 := by decide +kernel
    have hblock := h.1 false 0 rfl 2 hphys
    exact absurd hblock (by decide +kernel)

end Linuxpedia.Sfs
