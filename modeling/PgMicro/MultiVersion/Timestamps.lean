import PgMicro.MultiVersion.Effects

/-!
# Timestamps

Begins and ends are drawn from one clock, so no two transactions share one. The history
holds the committed transactions with the timestamps they had.
-/

namespace MultiVersion

open State Option

variable {ρ α : Type} {s s' : State ρ α} {clash : ρ → ρ → Prop} {tracked : ρ → Prop}
  {ev : Event ρ α} {t e b : Nat}

structure Timely (s : State ρ α) : Prop where
  seed_lt : s.seed < s.clock
  txn_lt : ∀ t x, s.txn t = some x →
    t < s.nextTxn ∧ s.seed < x.beginTs ∧ x.beginTs < s.clock
  end_lt : ∀ t x e, s.txn t = some x →
    x.status = .preparing e ∨ x.status = .committed e → x.beginTs < e ∧ e < s.clock
  history_lt : ∀ t h, s.history t = some h →
    t < s.nextTxn ∧ s.seed < h.beginTs ∧ h.beginTs < h.endTs ∧ h.endTs < s.clock
  committed_history : ∀ t x e, s.txn t = some x → x.status = .committed e →
    s.history t = some ⟨x.beginTs, e, x.writes⟩
  history_committed : ∀ t x h, s.txn t = some x → s.history t = some h →
    x.status = .committed h.endTs
  unvalidated : ∀ t x, s.txn t = some x → x.status = .active → x.validated = false

namespace Timely

theorem fresh (h : Timely s) : s.txn s.nextTxn = none := by
  cases hx : s.txn s.nextTxn with
  | none => rfl
  | some x => exact absurd (h.txn_lt _ _ hx).1 (Nat.lt_irrefl _)

theorem endOf_lt (h : Timely s) (he : s.EndOf t e) : t < s.nextTxn ∧ s.seed < e ∧ e < s.clock := by
  rcases he with ⟨x, hx, hst⟩ | ⟨r, hr, rfl⟩
  · have hlt := h.end_lt t x e hx hst
    have hb := h.txn_lt t x hx
    omega
  · have hlt := h.history_lt t r hr
    omega

theorem beginOf_lt (h : Timely s) (hb : s.BeginOf t b) :
    t < s.nextTxn ∧ s.seed < b ∧ b < s.clock := by
  rcases hb with ⟨x, hx, rfl⟩ | ⟨r, hr, rfl⟩
  · exact h.txn_lt t x hx
  · have hlt := h.history_lt t r hr
    omega

theorem begin_lt_end (h : Timely s) (hb : s.BeginOf t b) (he : s.EndOf t e) : b < e := by
  rcases hb with ⟨x, hx, rfl⟩ | ⟨r, hr, rfl⟩ <;> rcases he with ⟨y, hy, hst⟩ | ⟨q, hq, rfl⟩
  · rw [hx, some.injEq] at hy
    exact (h.end_lt t x e hx (hy ▸ hst)).1
  · exact (h.end_lt t x _ hx (.inr (h.history_committed t x q hx hq))).1
  · have hc := h.history_committed t y r hy hr
    rcases hst with hst | hst
    · rw [hc] at hst
      cases hst
    · rw [hc, Status.committed.injEq] at hst
      exact hst ▸ (h.history_lt t r hr).2.2.1
  · rw [hr, some.injEq] at hq
    exact hq ▸ (h.history_lt t r hr).2.2.1

variable [DecidableEq ρ]

theorem step (h : Timely s) (hs : Step clash tracked s ev s') : Timely s' where
  seed_lt := hs.seed_eq ▸ h.seed_lt.trans_le hs.clock_le
  txn_lt t x' hx' := by
    rcases hs.txn_cases hx' with ⟨rfl, rfl, rfl⟩ | ⟨x, hx, hchange⟩
    · have hclock := hs.clock_of_begin
      have hseed := h.seed_lt
      rw [hs.seed_eq]
      simp only [Txn.fresh]
      omega
    · have hlt := h.txn_lt t x hx
      have hclock := hs.clock_le
      have hnext := hs.nextTxn_le
      rw [hs.seed_eq, hchange.beginTs]
      omega
  end_lt t x' e hx' he := by
    rcases hs.txn_cases hx' with ⟨rfl, rfl, rfl⟩ | ⟨x, hx, hchange⟩
    · rcases he with he | he <;> cases he
    have hclock := hs.clock_le
    have hb := h.txn_lt t x hx
    rw [hchange.beginTs]
    rcases hchange.ended he with hold | ⟨rfl, -, rfl⟩
    · have hlt := h.end_lt t x e hx hold
      omega
    · have hclock := hs.clock_of_prepare
      omega
  history_lt t r hr := by
    have hclock := hs.clock_le
    have hnext := hs.nextTxn_le
    rw [hs.seed_eq]
    rcases hs.history_cases t with heq | ⟨x, e, -, hx, he, -, -, -, -, heq⟩
    · have hlt := h.history_lt t r (heq ▸ hr)
      omega
    rw [heq, some.injEq] at hr
    subst hr
    have hlt := h.end_lt t x e hx (.inl he)
    have hb := h.txn_lt t x hx
    simp only
    omega
  committed_history t x' e hx' he := by
    rcases hs.txn_cases hx' with ⟨rfl, rfl, rfl⟩ | ⟨x, hx, hchange⟩
    · cases he
    rcases hs.history_cases t with heq | ⟨y, f, -, hy, hf, -, -, -, hy', heq⟩
    · rcases hchange.committed he with hold | ⟨rfl, -⟩
      · have hwrites := hchange.writes_eq (.inr (by rw [he]; exact Status.noConfusion))
        rw [heq, h.committed_history t x e hx hold, hchange.beginTs, hwrites]
      · exact hs.commit_history hx' he
    · rw [hx', some.injEq] at hy'
      subst hy'
      cases he
      exact heq
  history_committed t x' r hx' hr := by
    rcases hs.history_cases t with heq | ⟨y, f, -, hy, hf, -, -, -, hy', heq⟩
    · rw [heq] at hr
      rcases hs.txn_cases hx' with ⟨rfl, rfl, rfl⟩ | ⟨x, hx, hchange⟩
      · exact absurd (h.history_lt _ r hr).1 (Nat.lt_irrefl _)
      · exact hchange.of_committed (h.history_committed t x r hx hr)
    · rw [hx', some.injEq] at hy'
      rw [heq, some.injEq] at hr
      subst hy' hr
      rfl
  unvalidated t x' hx' hactive := by
    rcases hs.txn_cases hx' with ⟨-, rfl, -⟩ | ⟨x, hx, hchange⟩
    · rfl
    have hold := h.unvalidated t x hx (hchange.active hactive)
    rcases hchange.validated with heq | ⟨-, rfl⟩ | ⟨heq, -⟩
    · rw [heq, hold]
    · cases hs with
      | validate hy he =>
        rw [hx, some.injEq] at hy
        subst hy
        rw [hchange.active hactive] at he
        cases he
    · exact heq

end Timely

variable [DecidableEq ρ]

theorem Step.endOf_cases (hs : Step clash tracked s ev s') (he : s'.EndOf t e) :
    s.EndOf t e ∨ (ev = .prepare t ∧ e = s.clock) := by
  rcases he with ⟨x', hx', he⟩ | ⟨h, hh, rfl⟩
  · rcases hs.txn_cases hx' with ⟨rfl, rfl, rfl⟩ | ⟨x, hx, hchange⟩
    · rcases he with he | he <;> cases he
    · rcases hchange.ended he with hold | ⟨hev, -, heq⟩
      · exact .inl (.inl ⟨x, hx, hold⟩)
      · exact .inr ⟨hev, heq⟩
  · rcases hs.history_cases t with heq | ⟨x, e, -, hx, he, -, -, -, -, heq⟩
    · exact .inl (.inr ⟨h, heq ▸ hh, rfl⟩)
    · rw [heq, some.injEq] at hh
      subst hh
      exact .inl (.inl ⟨x, hx, .inl he⟩)

theorem Step.beginOf_cases (hs : Step clash tracked s ev s') (hb : s'.BeginOf t b) :
    s.BeginOf t b ∨ (ev = .begin t ∧ b = s.clock) := by
  rcases hb with ⟨x', hx', rfl⟩ | ⟨h, hh, rfl⟩
  · rcases hs.txn_cases hx' with ⟨-, rfl, hev⟩ | ⟨x, hx, hchange⟩
    · exact .inr ⟨hev, rfl⟩
    · exact .inl (.inl ⟨x, hx, hchange.beginTs.symm⟩)
  · rcases hs.history_cases t with heq | ⟨x, e, -, hx, he, -, -, -, -, heq⟩
    · exact .inl (.inr ⟨h, heq ▸ hh, rfl⟩)
    · rw [heq, some.injEq] at hh
      subst hh
      exact .inl (.inl ⟨x, hx, rfl⟩)

structure Distinct (s : State ρ α) : Prop where
  end_unique : ∀ t u e, s.EndOf t e → s.EndOf u e → t = u
  end_ne_begin : ∀ t u e b, s.EndOf t e → s.BeginOf u b → e ≠ b

theorem Distinct.step (h : Distinct s) (ht : Timely s) (hs : Step clash tracked s ev s') :
    Distinct s' where
  end_unique t u e hte hue := by
    rcases hs.endOf_cases hte with hte | ⟨rfl, rfl⟩ <;>
      rcases hs.endOf_cases hue with hue | ⟨hev, heq⟩
    · exact h.end_unique t u e hte hue
    · have hlt := ht.endOf_lt hte
      omega
    · have hlt := ht.endOf_lt hue
      omega
    · cases hev
      rfl
  end_ne_begin t u e b hte hub := by
    rcases hs.endOf_cases hte with hte | ⟨rfl, rfl⟩ <;>
      rcases hs.beginOf_cases hub with hub | ⟨hev, heq⟩
    · exact h.end_ne_begin t u e b hte hub
    · have hlt := ht.endOf_lt hte
      omega
    · have hlt := ht.beginOf_lt hub
      omega
    · cases hev

end MultiVersion
