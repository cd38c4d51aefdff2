import PgMicro.SharedWal.SlotSteps

/-!
# A live reader slot is not lost

If no byte lock is taken between the unlock and the last store of `unregister_reader`, a
registered slot keeps its frame and its owner.
-/

namespace PgMicro.SharedWal.Table

open Transition Option

variable {k n : Nat} {t t' : Table k} {p : Fin k} {e : SharedReaderSlot × Nat}

structure Fresh (t : Table k) : Prop where
  holder : ∀ slot, t.holder slot = none
  control : ∀ p, (t.processes p).control = .idle
  held : ∀ p, (t.processes p).held = []

theorem Fresh.inv (h : t.Fresh) : Inv n t := by
  refine ⟨?_, ?_, ?_, ?_⟩
  · intro p _ e he
    rw [h.held] at he
    cases he
  · intro p
    rw [h.held]
    exact List.Pairwise.nil
  · intro p _
    rw [h.control]
    trivial
  · intro p q _ _ e he
    rw [h.held] at he
    cases he

/-- A slot that `register_reader` returned is the process's own: it shows the frame and the owner
that were registered, no other process holds it, and `min_active_reader_frame` of every process
counts it if it was there when the call began. -/
structure Live (t : Table k) (p : Fin k) (slot : SharedReaderSlot) (ticket : Nat) : Prop where
  frame : t.readerFrames slot.slotIndex = slot.maxFrame
  owner : t.readerOwners slot.slotIndex = slot.owner
  exclusive : ∀ q, q ≠ p → (t.processes q).alive → ∀ e ∈ (t.processes q).held,
    e.1.slotIndex ≠ slot.slotIndex
  counted : ∀ q, (t.processes q).alive → ∀ since smallest,
    (t.processes q).control = .minReturned since smallest → ticket < since →
      AtMost smallest slot.maxFrame

theorem Inv.live (h : Inv n t) (halive : (t.processes p).alive) (he : e ∈ (t.processes p).held) :
    t.Live p e.1 e.2 := by
  have hkeeps := (h.held p halive e he).keeps
  refine ⟨hkeeps.frame, hkeeps.owner, ?_, ?_⟩
  · intro q hne hq e' he' heq
    have hholder := (h.held q hq e' he').keeps.holder
    rw [heq, hkeeps.holder] at hholder
    exact hne (some.inj hholder).symm
  · intro q hq since smallest hcontrol hticket
    have hseen := h.seen q p hq halive e he
    rw [hcontrol] at hseen
    exact hseen hticket

/-- In a run in which no byte is locked while another process has unlocked it and not finished
unregistering, every slot that is registered is live, and no assertion of `unregister_reader`
fails. -/
theorem registered_slot_live {actions : List (Action k)} (hfresh : t.Fresh)
    (hundisturbed : Meets (exec n) Undisturbed t actions)
    (hrun : run (exec n) t actions = some t') :
    ∀ p, (t'.processes p).alive → (t'.processes p).control ≠ .failed ∧
      ∀ e ∈ (t'.processes p).held, t'.Live p e.1 e.2 := by
  have hinv : Inv n t' :=
    run_preserves (fun hundisturbed h hexec => h.exec hundisturbed hexec) hundisturbed hfresh.inv
      hrun
  intro p halive
  refine ⟨?_, fun e he => hinv.live halive he⟩
  intro hfailed
  have hstands := hinv.stands p halive
  rw [hfailed] at hstands
  exact hstands

def threeProcesses : Table 3 where
  readerBitmap _ := BitVec.allOnes 64
  readerFrames _ := unusedReaderFrame
  readerOwners _ := unownedLock
  holder _ := none
  processes _ := ⟨true, fun _ => 0, .idle, []⟩
  registrations := 0

theorem threeProcesses_fresh : threeProcesses.Fresh :=
  ⟨fun _ => rfl, fun _ => rfl, fun _ => rfl⟩

def steps (p : Fin k) (count : Nat) : List (Action k) := List.replicate count (.step p false)

def registerInTurn : List (Action 3) :=
  .register 0 7 5 :: steps 0 5 ++ .minActive 1 :: steps 1 3 ++
    .unregister 0 (⟨0, 5, 7⟩, 0) :: steps 0 6 ++ .register 2 9 8 :: steps 2 5

theorem registered_slot_live_registerInTurn :
    ∃ t', run (exec 1) threeProcesses registerInTurn = some t' ∧
      (t'.processes 2).held = [(⟨0, 8, 9⟩, 1)] ∧ t'.Live 2 ⟨0, 8, 9⟩ 1 := by
  obtain ⟨t', hrun, hheld⟩ := map_eq_some_iff.1
    (show (run (exec 1) threeProcesses registerInTurn).map
      (fun t => ((t.processes 2).alive, (t.processes 2).held)) = some (true, [(⟨0, 8, 9⟩, 1)])
      by decide +kernel)
  obtain ⟨halive, hheld⟩ := Prod.mk.inj hheld
  refine ⟨t', hrun, hheld, ?_⟩
  have hlive := registered_slot_live threeProcesses_fresh
    (show Meets (exec 1) Undisturbed threeProcesses registerInTurn by decide +kernel) hrun 2 halive
  exact hlive.2 (⟨0, 8, 9⟩, 1) (by rw [hheld]; exact List.mem_singleton.2 rfl)

/-- Process 0 has unlocked its slot and not cleared it. Process 1 reclaims the slot, process 2
registers in it, and process 0 goes on to clear it; then process 1 asks for the smallest frame and
process 2 unregisters. -/
def lateRelease : List (Action 3) :=
  .register 0 7 5 :: steps 0 5 ++ .unregister 0 (⟨0, 5, 7⟩, 0) :: steps 0 2 ++
    .minActive 1 :: steps 1 8 ++ .register 2 9 8 :: steps 2 5 ++ steps 0 4

/-- The frame of the live reader is lost, the smallest frame does not count it, and its
`unregister_reader` fails. -/
theorem lateRelease_loses_slot :
    (∃ t', run (exec 1) threeProcesses lateRelease = some t' ∧
      (t'.processes 2).alive ∧ (t'.processes 2).held = [(⟨0, 8, 9⟩, 1)] ∧
      t'.readerFrames 0 = unusedReaderFrame ∧ t'.readerOwners 0 = unownedLock) ∧
    (∃ t', run (exec 1) threeProcesses (lateRelease ++ .minActive 1 :: steps 1 2) = some t' ∧
      (t'.processes 2).held = [(⟨0, 8, 9⟩, 1)] ∧ (t'.processes 1).control = .minReturned 2 none) ∧
    ∃ t', run (exec 1) threeProcesses
        (lateRelease ++ .unregister 2 (⟨0, 8, 9⟩, 1) :: steps 2 1) = some t' ∧
      (t'.processes 2).control = .failed := by
  refine ⟨?_, ?_, ?_⟩
  · obtain ⟨t', hrun, h⟩ := map_eq_some_iff.1
      (show (run (exec 1) threeProcesses lateRelease).map
        (fun t => ((t.processes 2).alive, (t.processes 2).held, t.readerFrames 0,
          t.readerOwners 0)) = some (true, [(⟨0, 8, 9⟩, 1)], unusedReaderFrame, unownedLock)
        by decide +kernel)
    simp only [Prod.mk.injEq] at h
    exact ⟨t', hrun, h⟩
  · obtain ⟨t', hrun, h⟩ := map_eq_some_iff.1
      (show (run (exec 1) threeProcesses (lateRelease ++ .minActive 1 :: steps 1 2)).map
        (fun t => ((t.processes 2).held, (t.processes 1).control)) =
          some ([(⟨0, 8, 9⟩, 1)], .minReturned 2 none) by decide +kernel)
    exact ⟨t', hrun, Prod.mk.inj h⟩
  · exact map_eq_some_iff.1
      (show (run (exec 1) threeProcesses
        (lateRelease ++ .unregister 2 (⟨0, 8, 9⟩, 1) :: steps 2 1)).map
          (fun t => (t.processes 2).control) = some .failed by decide +kernel)

end PgMicro.SharedWal.Table
