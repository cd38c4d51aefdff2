import PgMicro.SharedWal.SlotInvariant

/-!
# The steps keep the slots

If no byte lock is taken of a slot that another process is releasing, every step of a call keeps
the invariant of the slots.
-/

namespace PgMicro.SharedWal.Table

open Function Option Nat

variable {k n frame : Nat} {t t' : Table k} {p : Fin k} {e : SharedReaderSlot × Nat}
  {reg : Registration} {probing : Probing}

section

variable {spurious : Bool} (h : Inv n t) (halive : (t.processes p).alive)

include h halive

variable {slot : Nat}

theorem Inv.step_scan (hcontrol : (t.processes p).control = .scan reg slot)
    (hstep : t.step n p spurious = some t') : Inv n t' := by
  have hstands := h.stands_at halive hcontrol
  simp only [step, hcontrol] at hstep
  split at hstep
  · cases hstep
    split
    · exact h.goTo halive trivial fun _ _ _ _ => trivial
    · exact h.goTo halive hstands fun _ _ _ _ => trivial
  next hslot =>
    split at hstep
    · cases hstep
      exact h.goTo halive hstands fun _ _ _ _ => trivial
    next hcount =>
      cases hstep
      exact h.goTo halive ⟨hstands, Nat.lt_of_not_le hslot, Nat.eq_zero_of_not_pos hcount⟩
        fun _ _ _ _ => trivial

theorem Inv.step_claim {current : BitVec 64}
    (hcontrol : (t.processes p).control = .claim reg slot current)
    (hstep : t.step n p spurious = some t') : Inv n t' := by
  have hstands := h.stands_at halive hcontrol
  simp only [step, hcontrol] at hstep
  split at hstep
  · cases hstep
    exact h.goTo halive hstands.1 fun _ _ _ _ => trivial
  · split at hstep
    · cases hstep
      exact h.store halive by_setWord (fun _ _ => ⟨rfl, rfl, rfl⟩) rfl hstands (fun _ => .inl)
        fun _ _ _ _ => trivial
    · cases hstep
      exact h.goTo halive hstands fun _ _ _ _ => trivial

theorem Inv.step_lock (hcontrol : (t.processes p).control = .lock reg slot)
    (hundisturbed : t.Undisturbed (.step p spurious)) (hstep : t.step n p spurious = some t') :
    Inv n t' := by
  obtain ⟨hused, hslot, hzero⟩ := h.stands_at halive hcontrol
  simp only [step, hcontrol] at hstep
  split at hstep
  next hcan =>
    cases hstep
    have hnotHeld := h.notHeld halive hzero
    have hfree := hundisturbed slot (by rw [hcontrol]; exact if_neg hcan.2) hcan.1
    refine h.moved ((by_lockByte hcan.1).trans (by_setReaderLocks.trans by_goTo)) ?_
      (by rw [processes_goTo]) halive ?_ (standsOK_goTo.2 ?_) ?_
      (show t.LocksFree p (t.lockByte p slot) from locksFree_of_same same_lockByte (.inr hfree))
    · simp [setReaderLocks, lockByte]
    · intro e he
      simp only [processes_goTo, setReaderLocks, update_self] at he
      have hne := hnotHeld e he
      have hcounted := (h.held p halive e he).counted
      refine ⟨(same_lockByte hne).trans ⟨rfl, rfl, rfl⟩, ?_⟩
      simpa [setReaderLocks, lockByte, hne] using hcounted
    · refine ⟨hused, hslot, update_self .., ?_, ?_⟩
      · simp [setReaderLocks]
      · intro e he
        simp only [setReaderLocks, update_self] at he
        exact hnotHeld e he
    · exact fun _ _ _ _ => trivial
  · cases hstep
    exact h.goTo halive hused fun _ _ _ _ => trivial

theorem Inv.step_storeOwner (hcontrol : (t.processes p).control = .storeOwner reg slot) :
    Inv n ((t.storeOwner slot reg.owner).goTo p (.storeFrame reg slot)) := by
  obtain ⟨hused, hslot, hlocked⟩ := h.stands_at halive hcontrol
  refine h.store halive (by_storeOwner (.inr hlocked.holder))
    (fun e he => same_storeOwner (hlocked.notHeld e he)) rfl ?_ (fun _ => .inl)
    fun _ _ _ _ => trivial
  exact ⟨hused, hslot, ⟨hlocked.holder, hlocked.counted, hlocked.notHeld⟩,
    update_self ..⟩

variable {slot : SharedReaderSlot}

theorem Inv.hold (hcontrol : (t.processes p).control = .idle) (hkeeps : t.Keeps p slot)
    (hlocked : t.Locked p slot.slotIndex) (hslot : slot.slotIndex < n)
    (hused : slot.maxFrame < unusedReaderFrame) : Inv n (t.hold p slot) := by
  have hby : By p t (t.hold p slot) :=
    ⟨fun _ hq => update_of_ne hq .., fun _ => .inl ⟨rfl, rfl, rfl⟩, le_succ _⟩
  have hself : (t.hold p slot).processes p = { t.processes p with
      held := (slot, t.registrations) :: (t.processes p).held } := update_self ..
  have hold : ∀ e ∈ ((t.hold p slot).processes p).held, e = (slot, t.registrations) ∨
      e ∈ (t.processes p).held := by
    rw [hself]
    exact fun e => List.mem_cons.1
  refine h.change hby (fun _ e he => ?_) ?_ (fun _ => ?_) (fun _ q hq e he => ?_)
    (fun _ q hq e he => ?_) (fun _ hp => .inl hp)
  · rcases hold e he with rfl | he
    · exact ⟨⟨hkeeps.holder, hkeeps.frame, hkeeps.owner⟩, by rw [hself]; exact hlocked.counted,
        hslot, hused, lt_succ_self _⟩
    · have hok := h.held p halive e he
      exact ⟨⟨hok.keeps.holder, hok.keeps.frame, hok.keeps.owner⟩,
        by rw [hself]; exact hok.counted, hok.inTable, hok.used, lt_succ_of_lt hok.ticket⟩
  · rw [hself]
    exact .cons (fun e he heq => hlocked.notHeld e he heq.symm) (h.distinct p)
  · rw [hself, hcontrol]
    trivial
  · rw [hself, hcontrol]
    trivial
  · rcases hold e he with rfl | he
    · exact (h.stands q hq).seen_new
    · exact h.seen q p hq halive e he

theorem Inv.step_storeFrame {slot : Nat}
    (hcontrol : (t.processes p).control = .storeFrame reg slot) :
    Inv n (((t.storeFrame slot reg.maxFrame).goTo p .idle).hold p
      ⟨slot, reg.maxFrame, reg.owner⟩) := by
  obtain ⟨hused, hslot, hlocked, howner⟩ := h.stands_at halive hcontrol
  have hstored : Inv n ((t.storeFrame slot reg.maxFrame).goTo p .idle) :=
    h.store halive (by_storeFrame (.inr hlocked.holder))
      (fun e he => same_storeFrame (hlocked.notHeld e he)) rfl trivial (fun _ => .inl)
      fun _ _ _ _ => trivial
  refine hstored.hold (by rw [processes_goTo]; exact halive) (by rw [processes_goTo])
    ⟨hlocked.holder, update_self .., howner⟩ ⟨hlocked.holder, ?_, ?_⟩ hslot hused
  · rw [processes_goTo]
    exact hlocked.counted
  · rw [NotHeld, processes_goTo]
    exact hlocked.notHeld

theorem Inv.step_probe {slot : Nat} (hcontrol : (t.processes p).control = .probe probing slot)
    (hstep : t.step n p spurious = some t') : Inv n t' := by
  have hstands := h.stands_at halive hcontrol
  have hseen := fun q hq => h.seen p q halive hq
  simp only [hcontrol] at hseen
  cases probing with
  | reclaim reg =>
    simp only [step, hcontrol] at hstep
    split at hstep
    · cases hstep
      exact h.goTo halive hstands fun _ _ _ _ => trivial
    split at hstep
    next hzero =>
      cases hstep
      exact h.goTo halive ⟨hstands, hzero.2⟩ fun _ _ _ _ => trivial
    · cases hstep
      exact h.goTo halive hstands fun _ _ _ _ => trivial
  | minActive since smallest =>
    simp only [step, hcontrol] at hstep
    split at hstep
    next hend =>
      cases hstep
      refine h.goTo halive hstands fun q hq e he hticket => ?_
      exact hseen q hq e he hticket (lt_of_lt_of_le (h.held q hq e he).inTable hend)
    · split at hstep
      next hunused =>
        cases hstep
        refine h.goTo halive hstands fun q hq e he hticket hlt => ?_
        rcases lt_or_eq_of_le (le_of_lt_succ hlt) with hlt' | rfl
        · exact hseen q hq e he hticket hlt'
        · -- The slot of a live reader does not look unused.
          have hok := h.held q hq e he
          rw [hok.keeps.frame] at hunused
          exact absurd hok.used (by omega)
      · split at hstep
        · cases hstep
          refine h.goTo halive ?_ fun q hq e he => seen_see fun hticket => ?_
          · cases smallest <;> exact hstands
          · refine ⟨hseen q hq e he hticket, ?_⟩
            rintro rfl
            exact (h.held q hq e he).keeps.frame
        next hzero =>
          cases hstep
          refine h.goTo halive ⟨hstands, Nat.eq_zero_of_not_pos hzero⟩ ?_
          intro q hq e he hticket
          refine ⟨hseen q hq e he hticket, ?_⟩
          rintro rfl
          exact (h.held q hq e he).keeps.frame

theorem Inv.step_probeLock {slot : Nat}
    (hcontrol : (t.processes p).control = .probeLock probing slot frame)
    (hundisturbed : t.Undisturbed (.step p spurious)) (hstep : t.step n p spurious = some t') :
    Inv n t' := by
  have hseen := fun q hq => h.seen p q halive hq
  obtain ⟨hprobing, hzero⟩ := h.stands_at halive hcontrol
  simp only [hcontrol] at hseen
  simp only [step, hcontrol] at hstep
  split at hstep
  next hcan =>
    cases hstep
    have hfree := hundisturbed slot (by rw [hcontrol]; exact if_neg hcan.2) hcan.1
    refine h.store halive (by_lockByte hcan.1)
      (fun e he => same_lockByte (h.notHeld halive hzero e he)) rfl ?_
      (locksFree_of_same same_lockByte (.inr hfree)) ?_
    · refine ⟨?_, update_self .., hzero⟩
      cases probing <;> exact hprobing
    · intro q hq e he
      cases probing with
      | reclaim reg => trivial
      | minActive since smallest => exact fun hticket => (hseen q hq e he hticket).1
  · cases hstep
    refine h.goTo halive ?_ ?_
    · cases probing with
      | reclaim reg => exact hprobing
      | minActive since smallest => cases smallest <;> exact hprobing
    · intro q hq e he
      exact seen_see (hseen q hq e he)

variable {clearing : Clearing}

theorem Inv.step_reclaim {slot : Nat}
    (hcontrol : (t.processes p).control = .reclaim probing slot clearing)
    (hstep : t.step n p spurious = some t') : Inv n t' := by
  have hseen := fun q hq => h.seen p q halive hq
  obtain ⟨hprobing, hholder, hzero⟩ := h.stands_at halive hcontrol
  simp only [hcontrol] at hseen
  have hnotHeld := h.notHeld halive hzero
  have hprobing' : ∀ {t1 : Table k}, t1.registrations = t.registrations →
      t1.ProbingOK probing := by
    intro t1 hregistrations
    cases probing with
    | reclaim reg => exact hprobing
    | minActive since smallest =>
      rw [ProbingOK, hregistrations]
      exact hprobing
  rw [Table.step, hcontrol] at hstep
  cases clearing with
  | frame =>
    cases hstep
    refine h.store halive (by_storeFrame (.inr hholder))
      (fun e he => same_storeFrame (hnotHeld e he)) rfl ⟨hprobing' rfl, hholder, hzero⟩
      (fun _ => .inl) ?_
    cases probing <;> exact hseen
  | owner =>
    cases hstep
    refine h.store halive (by_storeOwner (.inr hholder))
      (fun e he => same_storeOwner (hnotHeld e he)) rfl ⟨hprobing' rfl, hholder, hzero⟩
      (fun _ => .inl) ?_
    cases probing <;> exact hseen
  | bitmap =>
    cases hstep
    refine h.store halive by_setWord (fun _ _ => ⟨rfl, rfl, rfl⟩) rfl
      ⟨hprobing' rfl, hholder, hzero⟩ (fun _ => .inl) ?_
    cases probing <;> exact hseen
  | unlock =>
    cases hstep
    refine h.store halive (by_unlockByte hholder)
      (fun e he => same_unlockByte (hnotHeld e he)) rfl (hprobing' rfl)
      (locksFree_of_same same_unlockByte (.inl hholder)) fun q hq e he => ?_
    cases probing with
    | reclaim reg => trivial
    | minActive since smallest =>
      intro hticket hlt
      rcases lt_or_eq_of_le (le_of_lt_succ hlt) with hlt' | rfl
      · exact hseen q hq e he hticket hlt'
      · -- The slot was locked by the process that reclaims it, which does not hold it.
        have hok := h.held q hq e he
        rw [hok.keeps.holder] at hholder
        cases hholder
        exact absurd rfl (hnotHeld e he)

theorem Inv.step_unlock (hcontrol : (t.processes p).control = .unlock slot) :
    Inv n (((t.unlockByte p slot.slotIndex).setReaderLocks p slot.slotIndex
      ((t.processes p).readerLocks slot.slotIndex - 1)).goTo p
        (.release slot.slotIndex .frame)) := by
  obtain ⟨hholder, hcounted, hnotHeld⟩ := h.stands_at halive hcontrol
  refine h.moved ((by_unlockByte hholder).trans (by_setReaderLocks.trans by_goTo)) ?_
    (by rw [processes_goTo]) halive ?_ (standsOK_goTo.2 ?_) ?_
    (show t.LocksFree p (t.unlockByte p slot.slotIndex) from
      locksFree_of_same same_unlockByte (.inl hholder))
  · simp [setReaderLocks, unlockByte]
  · intro e he
    simp only [processes_goTo, setReaderLocks, update_self] at he
    have hne := hnotHeld e he
    have hcounted := (h.held p halive e he).counted
    refine ⟨(same_unlockByte hne).trans ⟨rfl, rfl, rfl⟩, ?_⟩
    simpa [setReaderLocks, unlockByte, hne] using hcounted
  · exact fun _ => holder_unlockByte hholder
  · exact fun _ _ _ _ => trivial

theorem Inv.step_release {slot : Nat} (hcontrol : (t.processes p).control = .release slot clearing)
    (hstep : t.step n p spurious = some t') : Inv n t' := by
  have hstands := h.stands_at halive hcontrol
  have hnotHeld : t.holder slot = none → t.NotHeld p slot := by
    rintro hnone e he rfl
    rw [(h.held p halive e he).keeps.holder] at hnone
    cases hnone
  rw [Table.step, hcontrol] at hstep
  cases clearing with
  | frame =>
    have hnone := hstands (by decide)
    cases hstep
    exact h.store halive (by_storeFrame (.inl hnone))
      (fun e he => same_storeFrame (hnotHeld hnone e he)) rfl (fun _ => hnone) (fun _ => .inl)
      fun _ _ _ _ => trivial
  | owner =>
    have hnone := hstands (by decide)
    cases hstep
    exact h.store halive (by_storeOwner (.inl hnone))
      (fun e he => same_storeOwner (hnotHeld hnone e he)) rfl (fun _ => hnone) (fun _ => .inl)
      fun _ _ _ _ => trivial
  | bitmap =>
    cases hstep
    exact h.store halive by_setWord (fun _ _ => ⟨rfl, rfl, rfl⟩) rfl (fun hne => absurd rfl hne)
      (fun _ => .inl) fun _ _ _ _ => trivial
  | unlock =>
    cases hstep
    exact h.goTo halive trivial fun _ _ _ _ => trivial

theorem Inv.step (hundisturbed : t.Undisturbed (.step p spurious))
    (hstep : t.step n p spurious = some t') : Inv n t' := by
  cases hcontrol : (t.processes p).control with
  | idle => simp [Table.step, hcontrol] at hstep
  | failed => simp [Table.step, hcontrol] at hstep
  | scan reg slot => exact h.step_scan halive hcontrol hstep
  | claim reg slot current => exact h.step_claim halive hcontrol hstep
  | lock reg slot => exact h.step_lock halive hcontrol hundisturbed hstep
  | unclaim reg slot =>
    rw [Table.step, hcontrol] at hstep
    cases hstep
    exact h.store halive by_setWord (fun _ _ => ⟨rfl, rfl, rfl⟩) rfl
      (h.stands_at halive hcontrol) (fun _ => .inl) fun _ _ _ _ => trivial
  | storeOwner reg slot =>
    rw [Table.step, hcontrol] at hstep
    cases hstep
    exact h.step_storeOwner halive hcontrol
  | storeFrame reg slot =>
    rw [Table.step, hcontrol] at hstep
    cases hstep
    exact h.step_storeFrame halive hcontrol
  | probe probing slot => exact h.step_probe halive hcontrol hstep
  | probeLock probing slot frame => exact h.step_probeLock halive hcontrol hundisturbed hstep
  | reclaim probing slot clearing => exact h.step_reclaim halive hcontrol hstep
  | minReturned since smallest =>
    rw [Table.step, hcontrol] at hstep
    cases hstep
    exact h.goTo halive trivial fun _ _ _ _ => trivial
  | checkOwner slot =>
    obtain ⟨hlocked, howner⟩ := h.stands_at halive hcontrol
    simp only [Table.step, hcontrol, hlocked.counted, howner, and_self, if_true,
      some.injEq] at hstep
    subst hstep
    exact h.goTo halive hlocked fun _ _ _ _ => trivial
  | unlock slot =>
    rw [Table.step, hcontrol] at hstep
    cases hstep
    exact h.step_unlock halive hcontrol
  | release slot clearing => exact h.step_release halive hcontrol hstep

end

theorem Inv.other_slot (h : Inv n t) (he : e ∈ (t.processes p).held) :
    ∀ e' ∈ (t.processes p).held.erase e, e'.1.slotIndex ≠ e.1.slotIndex := by
  have hperm := List.perm_cons_erase he
  have hdistinct := (hperm.pairwise_iff fun hne => Ne.symm hne).1 (h.distinct p)
  intro e' he'
  exact ((List.pairwise_cons.1 hdistinct).1 e' he').symm

theorem Inv.startUnregister (h : Inv n t) (halive : (t.processes p).alive)
    (he : e ∈ (t.processes p).held) : Inv n (t.startUnregister p e) := by
  have hprocess : (t.startUnregister p e).processes p = { t.processes p with
      held := (t.processes p).held.erase e
      control := .checkOwner e.1 } := update_self ..
  have hok := h.held p halive e he
  have hby : By p t (t.startUnregister p e) :=
    ⟨fun _ hq => update_of_ne hq .., fun _ => .inl ⟨rfl, rfl, rfl⟩, le_refl _⟩
  have hlocked : (t.startUnregister p e).Locked p e.1.slotIndex := by
    refine ⟨hok.keeps.holder, ?_, ?_⟩
    · rw [hprocess]
      exact hok.counted
    · rw [NotHeld, hprocess]
      exact h.other_slot he
  have hstands : (t.startUnregister p e).StandsOK n p (.checkOwner e.1) :=
    ⟨hlocked, hok.keeps.owner⟩
  refine h.moved hby ?_ (by rw [hprocess]) halive ?_ hstands (fun _ _ _ _ => trivial)
    fun _ => .inl
  · rw [hprocess]
    exact List.erase_sublist
  · rw [hprocess]
    intro e' he'
    exact ⟨⟨rfl, rfl, rfl⟩, (h.held p halive e' (List.mem_of_mem_erase he')).counted⟩

theorem by_die : By p t (t.die p) := by
  refine ⟨fun _ hq => update_of_ne hq .., fun slot => ?_, le_refl _⟩
  cases hp : decide (t.holder slot = some p) with
  | false => exact .inl ⟨rfl, rfl, if_neg (of_decide_eq_false hp)⟩
  | true => exact .inr ⟨.inr (of_decide_eq_true hp), .inl (if_pos (of_decide_eq_true hp))⟩

theorem Inv.die (h : Inv n t) : Inv n (t.die p) := by
  have hdead : ¬ ((t.die p).processes p).alive := by simp [Table.die]
  refine h.change by_die (fun hp => absurd hp hdead) ?_ (fun hp => absurd hp hdead)
    (fun hp => absurd hp hdead) (fun hp => absurd hp hdead) fun slot hp => ?_
  · simpa [Table.die] using h.distinct p
  · simp only [Table.die] at hp
    split at hp
    · cases hp
    · exact .inl hp

theorem Inv.exec {a : Action k} (hundisturbed : t.Undisturbed a) (h : Inv n t)
    (hexec : t.exec n a = some t') : Inv n t' := by
  simp only [Table.exec] at hexec
  split at hexec
  next halive =>
    cases a with
    | register p owner maxFrame =>
      simp only [ite_none_right_eq_some, some.injEq] at hexec
      obtain ⟨⟨-, hused⟩, rfl⟩ := hexec
      exact h.goTo halive hused fun _ _ _ _ => trivial
    | unregister p e =>
      simp only [ite_none_right_eq_some, some.injEq] at hexec
      obtain ⟨⟨-, he⟩, rfl⟩ := hexec
      exact h.startUnregister halive he
    | minActive p =>
      simp only [ite_none_right_eq_some, some.injEq] at hexec
      obtain ⟨-, rfl⟩ := hexec
      exact h.goTo halive (le_refl _) fun q hq e he _ hlt => absurd hlt (Nat.not_lt_zero _)
    | step p spurious => exact h.step halive hundisturbed hexec
    | die p =>
      cases hexec
      exact h.die
  · cases hexec

end PgMicro.SharedWal.Table
