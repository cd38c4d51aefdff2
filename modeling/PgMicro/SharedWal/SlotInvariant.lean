import PgMicro.SharedWal.ReaderSlots

/-!
# Who writes a reader slot

A slot is written by the process that holds its byte lock, and by one that has released the lock
and not finished unregistering. The invariant says what holds of the slots a process has and of
the one its call stands at, and survives what another process does.
-/

namespace PgMicro.SharedWal

open Function Option Nat

variable {frame : Nat} {e : SharedReaderSlot × Nat} {probing : Probing} {control : Control}

namespace Control

/-- `unregister_reader` has unlocked the slot and not made its last store. -/
def Releasing (slot : Nat) : Control → Prop
  | .release slot' clearing => slot' = slot ∧ clearing ≠ .unlock
  | _ => False

instance (slot : Nat) : DecidablePred (Releasing slot) := fun control => by
  unfold Releasing
  split <;> infer_instance

/-- The slot whose byte lock is asked for by a call that does not fail on its own account. -/
def lockTarget (spurious : Bool) : Control → Option Nat
  | .lock _ slot => if spurious then none else some slot
  | .probeLock probing slot _ => if spurious ∧ probing.mayFail then none else some slot
  | _ => none

end Control

namespace Table

variable {k n : Nat} {t t' t'' : Table k} {p q : Fin k}

/-- No byte lock is taken of a slot that another process is releasing. -/
def Undisturbed (t : Table k) : Action k → Prop
  | .step q spurious => ∀ slot ∈ (t.processes q).control.lockTarget spurious, t.CanLock q slot →
      ∀ p, p ≠ q → (t.processes p).alive → ¬ (t.processes p).control.Releasing slot
  | _ => True

instance (t : Table k) : DecidablePred t.Undisturbed
  | .step _ _ => inferInstanceAs (Decidable (∀ slot ∈ Control.lockTarget _ _, _ → _))
  | .register .. | .unregister .. | .minActive _ | .die _ => isTrue trivial

structure Keeps (t : Table k) (p : Fin k) (slot : SharedReaderSlot) : Prop where
  holder : t.holder slot.slotIndex = some p
  frame : t.readerFrames slot.slotIndex = slot.maxFrame
  owner : t.readerOwners slot.slotIndex = slot.owner

structure HeldOK (n : Nat) (t : Table k) (p : Fin k) (e : SharedReaderSlot × Nat) : Prop where
  keeps : t.Keeps p e.1
  counted : 0 < (t.processes p).readerLocks e.1.slotIndex
  inTable : e.1.slotIndex < n
  used : e.1.maxFrame < unusedReaderFrame
  ticket : e.2 < t.registrations

def NotHeld (t : Table k) (p : Fin k) (slot : Nat) : Prop :=
  ∀ e ∈ (t.processes p).held, e.1.slotIndex ≠ slot

structure Locked (t : Table k) (p : Fin k) (slot : Nat) : Prop where
  holder : t.holder slot = some p
  counted : 0 < (t.processes p).readerLocks slot
  notHeld : t.NotHeld p slot

def ProbingOK (t : Table k) : Probing → Prop
  | .reclaim reg => reg.maxFrame < unusedReaderFrame
  | .minActive since _ => since ≤ t.registrations

def StandsOK (n : Nat) (t : Table k) (p : Fin k) : Control → Prop
  | .idle => True
  | .minReturned since _ => since ≤ t.registrations
  | .scan reg _ | .unclaim reg _ => reg.maxFrame < unusedReaderFrame
  | .claim reg slot _ | .lock reg slot =>
    reg.maxFrame < unusedReaderFrame ∧ slot < n ∧ (t.processes p).readerLocks slot = 0
  | .storeOwner reg slot => reg.maxFrame < unusedReaderFrame ∧ slot < n ∧ t.Locked p slot
  | .storeFrame reg slot =>
    reg.maxFrame < unusedReaderFrame ∧ slot < n ∧ t.Locked p slot ∧
      t.readerOwners slot = reg.owner
  | .probe probing _ => t.ProbingOK probing
  | .probeLock probing slot _ => t.ProbingOK probing ∧ (t.processes p).readerLocks slot = 0
  | .reclaim probing slot _ =>
    t.ProbingOK probing ∧ t.holder slot = some p ∧ (t.processes p).readerLocks slot = 0
  | .checkOwner slot => t.Locked p slot.slotIndex ∧ t.readerOwners slot.slotIndex = slot.owner
  | .unlock slot => t.Locked p slot.slotIndex
  | .release slot clearing => clearing ≠ .unlock → t.holder slot = none
  | .failed => False

/-- The smallest frame is at most `m`. -/
def AtMost (smallest : Option Nat) (m : Nat) : Prop := ∃ v ∈ smallest, v ≤ m

/-- A registration that was there when `min_active_reader_frame` began has been seen, once the
loop is past its slot. -/
def Seen (e : SharedReaderSlot × Nat) : Control → Prop
  | .probe (.minActive since smallest) slot | .reclaim (.minActive since smallest) slot _ =>
    e.2 < since → e.1.slotIndex < slot → AtMost smallest e.1.maxFrame
  | .probeLock (.minActive since smallest) slot frame =>
    e.2 < since → (e.1.slotIndex < slot → AtMost smallest e.1.maxFrame) ∧
      (e.1.slotIndex = slot → frame = e.1.maxFrame)
  | .minReturned since smallest => e.2 < since → AtMost smallest e.1.maxFrame
  | _ => True

structure Inv (n : Nat) (t : Table k) : Prop where
  held : ∀ p, (t.processes p).alive → ∀ e ∈ (t.processes p).held, t.HeldOK n p e
  distinct : ∀ p, (t.processes p).held.Pairwise fun e e' => e.1.slotIndex ≠ e'.1.slotIndex
  stands : ∀ p, (t.processes p).alive → t.StandsOK n p (t.processes p).control
  seen : ∀ p q, (t.processes p).alive → (t.processes q).alive → ∀ e ∈ (t.processes q).held,
    Seen e (t.processes p).control

section

structure Same (t t' : Table k) (slot : Nat) : Prop where
  frames : t'.readerFrames slot = t.readerFrames slot
  owners : t'.readerOwners slot = t.readerOwners slot
  holder : t'.holder slot = t.holder slot

structure By (p : Fin k) (t t' : Table k) : Prop where
  others : ∀ q, q ≠ p → t'.processes q = t.processes q
  cells : ∀ slot, Same t t' slot ∨ t.CanLock p slot ∧ t'.CanLock p slot
  registrations : t.registrations ≤ t'.registrations

variable {slot : Nat}

theorem Same.trans (h : Same t t' slot) (h' : Same t' t'' slot) : Same t t'' slot :=
  ⟨h'.frames.trans h.frames, h'.owners.trans h.owners, h'.holder.trans h.holder⟩

theorem Same.canLock (h : Same t t' slot) : t'.CanLock p slot ↔ t.CanLock p slot := by
  rw [CanLock, CanLock, h.holder]

theorem Same.keeps {slot : SharedReaderSlot} (h : Same t t' slot.slotIndex) (hk : t.Keeps p slot) :
    t'.Keeps p slot :=
  ⟨h.holder.trans hk.holder, h.frames.trans hk.frame, h.owners.trans hk.owner⟩

theorem By.trans (h : By p t t') (h' : By p t' t'') : By p t t'' := by
  refine ⟨fun q hq => (h'.others q hq).trans (h.others q hq), ?_,
    h.registrations.trans h'.registrations⟩
  intro slot
  rcases h.cells slot with hs | ⟨hl, hl1⟩
  · rcases h'.cells slot with hs' | ⟨hl', hl''⟩
    · exact .inl (hs.trans hs')
    · exact .inr ⟨hs.canLock.1 hl', hl''⟩
  · rcases h'.cells slot with hs' | ⟨_, hl''⟩
    · exact .inr ⟨hl, hs'.canLock.2 hl1⟩
    · exact .inr ⟨hl, hl''⟩

theorem By.same (h : By p t t') (hne : q ≠ p) (hq : t.holder slot = some q) : Same t t' slot := by
  rcases h.cells slot with hs | ⟨hl, _⟩
  · exact hs
  · rcases hl with hnone | hp
    · rw [hq] at hnone
      cases hnone
    · rw [hq] at hp
      exact absurd (some.inj hp) hne

theorem Locked.congr (h : t.Locked q slot) (hholder : t'.holder slot = t.holder slot)
    (hlocks : (t'.processes q).readerLocks = (t.processes q).readerLocks)
    (hheld : (t'.processes q).held = (t.processes q).held) : t'.Locked q slot :=
  ⟨hholder.trans h.holder, hlocks ▸ h.counted, fun e he => h.notHeld e (hheld ▸ he)⟩

theorem By.locked (h : By p t t') (hne : q ≠ p) (hq : t.Locked q slot) : t'.Locked q slot :=
  hq.congr (h.same hne hq.holder).holder (by rw [h.others q hne]) (by rw [h.others q hne])

theorem By.probingOK (h : By p t t') (hp : t.ProbingOK probing) : t'.ProbingOK probing := by
  cases probing with
  | reclaim reg => exact hp
  | minActive since smallest => exact le_trans hp h.registrations

theorem By.standsOK (h : By p t t') (hne : q ≠ p) {control : Control}
    (hfree : ∀ slot, control.Releasing slot → t'.holder slot ≠ some p)
    (hq : t.StandsOK n q control) : t'.StandsOK n q control := by
  have hlocks : (t'.processes q).readerLocks = (t.processes q).readerLocks := by
    rw [h.others q hne]
  cases control with
  | idle | scan | unclaim | failed => exact hq
  | minReturned since smallest => exact le_trans hq h.registrations
  | claim reg slot current => exact ⟨hq.1, hq.2.1, hlocks ▸ hq.2.2⟩
  | lock reg slot => exact ⟨hq.1, hq.2.1, hlocks ▸ hq.2.2⟩
  | storeOwner reg slot => exact ⟨hq.1, hq.2.1, h.locked hne hq.2.2⟩
  | storeFrame reg slot =>
    obtain ⟨hused, hslot, hlocked, howner⟩ := hq
    exact ⟨hused, hslot, h.locked hne hlocked, (h.same hne hlocked.holder).owners.trans howner⟩
  | probe probing slot => exact h.probingOK hq
  | probeLock probing slot frame => exact ⟨h.probingOK hq.1, hlocks ▸ hq.2⟩
  | reclaim probing slot clearing =>
    obtain ⟨hprobing, hholder, hzero⟩ := hq
    exact ⟨h.probingOK hprobing, (h.same hne hholder).holder.trans hholder, hlocks ▸ hzero⟩
  | checkOwner slot =>
    obtain ⟨hlocked, howner⟩ := hq
    exact ⟨h.locked hne hlocked, (h.same hne hlocked.holder).owners.trans howner⟩
  | unlock slot => exact h.locked hne hq
  | release slot clearing =>
    intro hclearing
    have hnone := hq hclearing
    rcases h.cells slot with hs | ⟨_, hl⟩
    · exact hs.holder.trans hnone
    · exact hl.resolve_right (hfree slot ⟨rfl, hclearing⟩)

theorem By.heldOK (h : By p t t') (hne : q ≠ p) (he : t.HeldOK n q e) : t'.HeldOK n q e :=
  ⟨(h.same hne he.keeps.holder).keeps he.keeps, by rw [h.others q hne]; exact he.counted,
    he.inTable, he.used, lt_of_lt_of_le he.ticket h.registrations⟩

end

section

variable {slot slot' v : Nat}

theorem by_goTo : By p t (t.goTo p control) :=
  ⟨fun _ hq => update_of_ne hq .., fun _ => .inl ⟨rfl, rfl, rfl⟩, le_refl _⟩

theorem by_setReaderLocks : By p t (t.setReaderLocks p slot v) :=
  ⟨fun _ hq => update_of_ne hq .., fun _ => .inl ⟨rfl, rfl, rfl⟩, le_refl _⟩

theorem by_setWord {bits : BitVec 64} : By p t (t.setWord slot bits) :=
  ⟨fun _ _ => rfl, fun _ => .inl ⟨rfl, rfl, rfl⟩, le_refl _⟩

theorem by_slot (hprocesses : t'.processes = t.processes)
    (hregistrations : t'.registrations = t.registrations) (h : t.CanLock p slot)
    (h' : t'.CanLock p slot) (hsame : ∀ {slot'}, slot' ≠ slot → Same t t' slot') : By p t t' := by
  refine ⟨fun q _ => congrFun hprocesses q, fun slot' => ?_, hregistrations.ge⟩
  rcases eq_or_ne slot' slot with rfl | hne
  · exact .inr ⟨h, h'⟩
  · exact .inl (hsame hne)

theorem same_storeFrame (hne : slot' ≠ slot) : Same t (t.storeFrame slot v) slot' :=
  ⟨update_of_ne hne .., rfl, rfl⟩

theorem by_storeFrame (h : t.CanLock p slot) : By p t (t.storeFrame slot v) :=
  by_slot rfl rfl h h same_storeFrame

theorem same_storeOwner (hne : slot' ≠ slot) : Same t (t.storeOwner slot v) slot' :=
  ⟨rfl, update_of_ne hne .., rfl⟩

theorem by_storeOwner (h : t.CanLock p slot) : By p t (t.storeOwner slot v) :=
  by_slot rfl rfl h h same_storeOwner

theorem same_lockByte (hne : slot' ≠ slot) : Same t (t.lockByte p slot) slot' :=
  ⟨rfl, rfl, update_of_ne hne ..⟩

theorem by_lockByte (h : t.CanLock p slot) : By p t (t.lockByte p slot) :=
  by_slot rfl rfl h (.inr (update_self ..)) same_lockByte

theorem same_unlockByte (hne : slot' ≠ slot) : Same t (t.unlockByte p slot) slot' :=
  ⟨rfl, rfl, update_of_ne hne ..⟩

theorem holder_unlockByte (h : t.holder slot = some p) :
    (t.unlockByte p slot).holder slot = none := by
  rw [unlockByte]
  simp [if_pos h]

theorem by_unlockByte (h : t.holder slot = some p) : By p t (t.unlockByte p slot) :=
  by_slot rfl rfl (.inr h) (.inl (holder_unlockByte h)) same_unlockByte

@[simp]
theorem processes_goTo : (t.goTo p control).processes p = { t.processes p with control } :=
  update_self ..

theorem standsOK_goTo {control' : Control} :
    (t.goTo p control').StandsOK n p control ↔ t.StandsOK n p control := by
  have hlocked : ∀ slot, (t.goTo p control').Locked p slot ↔ t.Locked p slot := fun slot =>
    ⟨fun h => h.congr rfl (by rw [processes_goTo]) (by rw [processes_goTo]),
      fun h => h.congr rfl (by rw [processes_goTo]) (by rw [processes_goTo])⟩
  have hprobing : ∀ probing, (t.goTo p control').ProbingOK probing ↔ t.ProbingOK probing := by
    intro probing
    cases probing <;> exact Iff.rfl
  cases control <;> simp only [StandsOK, hlocked, processes_goTo] <;> exact Iff.rfl

end

/-- No byte is locked that another process is about to clear. -/
def LocksFree (t : Table k) (p : Fin k) (t' : Table k) : Prop :=
  ∀ slot, t'.holder slot = some p → t.holder slot = some p ∨
    ∀ q, q ≠ p → (t.processes q).alive → ¬ (t.processes q).control.Releasing slot

def AllSeen (t : Table k) (control : Control) : Prop :=
  ∀ q, (t.processes q).alive → ∀ e ∈ (t.processes q).held, Seen e control

theorem locksFree_of_same {slot : Nat} (hsame : ∀ {slot'}, slot' ≠ slot → Same t t' slot')
    (hslot : t.holder slot = some p ∨
      ∀ q, q ≠ p → (t.processes q).alive → ¬ (t.processes q).control.Releasing slot) :
    t.LocksFree p t' := by
  intro slot' hp
  rcases eq_or_ne slot' slot with rfl | hne
  · exact hslot
  · exact .inl ((hsame hne).holder.symm.trans hp)

section

variable (h : Inv n t)

include h

theorem Inv.others_stand (hby : By p t t') (hlock : t.LocksFree p t') (hne : q ≠ p)
    (halive : (t.processes q).alive) : t'.StandsOK n q (t.processes q).control := by
  have hok := h.stands q halive
  refine hby.standsOK hne ?_ hok
  intro slot hreleasing hholder
  rcases hlock slot hholder with hp | hno
  · cases hcontrol : (t.processes q).control with
    | release slot' clearing =>
      rw [hcontrol] at hreleasing hok
      obtain ⟨rfl, hclearing⟩ := hreleasing
      have hnone := hok hclearing
      rw [hp] at hnone
      cases hnone
    | _ =>
      rw [hcontrol] at hreleasing
      exact hreleasing
  · exact hno q hne halive hreleasing

/-- What a step of `p` has to keep: what is said of `p` itself, and what the others have seen of
its slots. -/
theorem Inv.change (hby : By p t t')
    (hheld : (t'.processes p).alive → ∀ e ∈ (t'.processes p).held, t'.HeldOK n p e)
    (hdistinct : (t'.processes p).held.Pairwise fun e e' => e.1.slotIndex ≠ e'.1.slotIndex)
    (hstands : (t'.processes p).alive → t'.StandsOK n p (t'.processes p).control)
    (hseen : (t'.processes p).alive → ∀ q, (t'.processes q).alive → ∀ e ∈ (t'.processes q).held,
      Seen e (t'.processes p).control)
    (hnew : (t'.processes p).alive → ∀ q, (t.processes q).alive → ∀ e ∈ (t'.processes p).held,
      Seen e (t.processes q).control)
    (hlock : t.LocksFree p t') : Inv n t' := by
  refine ⟨?_, ?_, ?_, ?_⟩ <;> intro q <;> rcases eq_or_ne q p with rfl | hne
  · exact hheld
  · rw [hby.others q hne]
    exact fun hq e he => hby.heldOK hne (h.held q hq e he)
  · exact hdistinct
  · rw [hby.others q hne]
    exact h.distinct q
  · exact hstands
  · rw [hby.others q hne]
    exact h.others_stand hby hlock hne
  · exact fun q' hq hq' => hseen hq q' hq'
  · rw [hby.others q hne]
    intro q' hq hq' e he
    rcases eq_or_ne q' p with rfl | hne'
    · exact hnew hq' q hq e he
    · rw [hby.others q' hne'] at hq' he
      exact h.seen q q' hq hq' e he

theorem Inv.moved (hby : By p t t') (hheld : (t'.processes p).held.Sublist (t.processes p).held)
    (hcontrol : (t'.processes p).control = control) (halive : (t.processes p).alive)
    (hown : ∀ e ∈ (t'.processes p).held,
      Same t t' e.1.slotIndex ∧ 0 < (t'.processes p).readerLocks e.1.slotIndex)
    (hstands : t'.StandsOK n p control) (hseen : t.AllSeen control) (hlock : t.LocksFree p t') :
    Inv n t' := by
  rw [← hcontrol] at hstands hseen
  refine h.change hby (fun _ e he => ?_) ((h.distinct p).sublist hheld) (fun _ => hstands)
    (fun _ q hq e he => ?_) (fun _ q hq e he => h.seen q p hq halive e (hheld.subset he)) hlock
  · have hok := h.held p halive e (hheld.subset he)
    obtain ⟨hsame, hcounted⟩ := hown e he
    exact ⟨hsame.keeps hok.keeps, hcounted, hok.inTable, hok.used,
      lt_of_lt_of_le hok.ticket hby.registrations⟩
  · rcases eq_or_ne q p with rfl | hne
    · exact hseen q halive e (hheld.subset he)
    · rw [hby.others q hne] at hq he
      exact hseen q hq e he

section

variable (halive : (t.processes p).alive)

include halive

theorem Inv.goTo (hstands : t.StandsOK n p control)
    (hseen : t.AllSeen control) : Inv n (t.goTo p control) := by
  refine h.moved by_goTo (by rw [processes_goTo]) (by rw [processes_goTo]) halive
    ?_ (standsOK_goTo.2 hstands) hseen fun _ => .inl
  rw [processes_goTo]
  intro e he
  exact ⟨⟨rfl, rfl, rfl⟩, (h.held p halive e he).counted⟩

theorem Inv.store {t1 : Table k} (hby : By p t t1)
    (hown : ∀ e ∈ (t.processes p).held, Same t t1 e.1.slotIndex)
    (hprocess : t1.processes p = t.processes p) (hstands : t1.StandsOK n p control)
    (hlock : t.LocksFree p t1) (hseen : t.AllSeen control) : Inv n (t1.goTo p control) := by
  refine h.moved (hby.trans by_goTo) ?_ (by rw [processes_goTo]) halive ?_
    (standsOK_goTo.2 hstands) hseen hlock
  · rw [processes_goTo, hprocess]
  · rw [processes_goTo, hprocess]
    intro e he
    exact ⟨(hown e he).trans ⟨rfl, rfl, rfl⟩, (h.held p halive e he).counted⟩

theorem Inv.stands_at (hcontrol : (t.processes p).control = control) : t.StandsOK n p control :=
  hcontrol ▸ h.stands p halive

theorem Inv.notHeld {slot : Nat}
    (hzero : (t.processes p).readerLocks slot = 0) : t.NotHeld p slot := by
  rintro e he rfl
  have := (h.held p halive e he).counted
  omega

end

end

/-- A new registration is not one that a running `min_active_reader_frame` has to see. -/
theorem StandsOK.seen_new {slot : SharedReaderSlot} (h : t.StandsOK n q control) :
    Seen (slot, t.registrations) control := by
  cases control with
  | probe probing slot =>
    cases probing with
    | reclaim reg => trivial
    | minActive since smallest => exact fun hlt => absurd hlt (not_lt.2 h)
  | probeLock probing slot frame =>
    cases probing with
    | reclaim reg => trivial
    | minActive since smallest => exact fun hlt => absurd hlt (not_lt.2 h.1)
  | reclaim probing slot clearing =>
    cases probing with
    | reclaim reg => trivial
    | minActive since smallest => exact fun hlt => absurd hlt (not_lt.2 h.1)
  | minReturned since smallest => exact fun hlt => absurd hlt (not_lt.2 h)
  | _ => trivial

theorem seen_see {slot : Nat} (h : Seen e (.probeLock probing slot frame)) :
    Seen e (.probe (probing.see frame) (slot + 1)) := by
  cases probing with
  | reclaim reg => trivial
  | minActive since smallest =>
    have hcases : e.2 < since → e.1.slotIndex < slot + 1 →
        AtMost smallest e.1.maxFrame ∨ frame = e.1.maxFrame := by
      intro hticket hlt
      rcases lt_or_eq_of_le (le_of_lt_succ hlt) with hlt' | heq
      · exact .inl ((h hticket).1 hlt')
      · exact .inr ((h hticket).2 heq)
    cases smallest with
    | none =>
      intro hticket hlt
      rcases hcases hticket hlt with ⟨v, hv, _⟩ | heq
      · cases hv
      · exact ⟨frame, rfl, le_of_eq heq⟩
    | some smallest =>
      intro hticket hlt
      refine ⟨min smallest frame, rfl, ?_⟩
      rcases hcases hticket hlt with ⟨v, hv, hle⟩ | heq
      · cases hv
        exact le_trans (min_le_left ..) hle
      · exact le_trans (min_le_right ..) (le_of_eq heq)

end Table

end PgMicro.SharedWal
