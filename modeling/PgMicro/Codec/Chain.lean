import Mathlib.Tactic.Ring

/-!
# Chained records of fixed size

A file of records of one size, each of which is accepted or not in the state that the record
before it has left. Reading stops at the first record that is not.
-/

namespace Codec

open List Nat

structure ChainedRecords (β γ ρ : Type) where
  size : Nat
  next : γ → List β → Option ρ
  state : ρ → γ

namespace ChainedRecords

variable {β γ ρ : Type} (R : ChainedRecords β γ ρ) {c : γ} {bytes rest : List β} {n m : Nat}

/-- The longest prefix of accepted records, among the first `n`. -/
def accepted : Nat → γ → List β → List ρ
  | 0, _, _ => []
  | n + 1, c, bytes =>
    match R.next c (bytes.take R.size) with
    | none => []
    | some f => f :: accepted n (R.state f) (bytes.drop R.size)

def after (c : γ) (frames : List ρ) : γ := frames.foldl (fun _ f => R.state f) c

theorem after_append (frames frames' : List ρ) :
    R.after c (frames ++ frames') = R.after (R.after c frames) frames' := foldl_append

@[simp]
theorem after_concat (frames : List ρ) (f : ρ) : R.after c (frames ++ [f]) = R.state f :=
  R.after_append frames [f]

variable {R}

theorem accepted_cons {f : ρ} (h : R.next c (bytes.take R.size) = some f) :
    R.accepted (n + 1) c bytes = f :: R.accepted n (R.state f) (bytes.drop R.size) := by
  rw [accepted, h]

theorem accepted_stop (h : R.next c (bytes.take R.size) = none) : R.accepted n c bytes = [] := by
  cases n with
  | zero => rfl
  | succ n => rw [accepted, h]

theorem length_accepted_le : (R.accepted n c bytes).length ≤ n := by
  induction n generalizing c bytes with
  | zero => exact le_refl 0
  | succ n ih =>
    rw [accepted]
    split
    · exact zero_le _
    · exact succ_le_succ ih

theorem accepted_take (h : n * R.size ≤ m) :
    R.accepted n c (bytes.take m) = R.accepted n c bytes := by
  induction n generalizing c bytes m with
  | zero => rfl
  | succ n ih =>
    rw [succ_mul] at h
    rw [accepted, accepted, take_take, min_eq_left (by omega), drop_take]
    split
    · rfl
    · rw [ih (by omega)]

/-- The records up to the `m`th are all accepted, or reading stops before. -/
theorem accepted_split (h : m ≤ n) :
    R.accepted n c bytes = R.accepted m c bytes ++
      if (R.accepted m c bytes).length = m then
        R.accepted (n - m) (R.after c (R.accepted m c bytes)) (bytes.drop (m * R.size))
      else [] := by
  induction m generalizing n c bytes with
  | zero => simp [accepted, after]
  | succ m ih =>
    obtain ⟨n, rfl⟩ : ∃ k, n = k + 1 := ⟨n - 1, by omega⟩
    cases hnext : R.next c (bytes.take R.size) with
    | none => simp [accepted_stop hnext]
    | some f =>
      have hdrop : m * R.size + R.size = (m + 1) * R.size := by ring
      rw [accepted_cons hnext, accepted_cons hnext, ih (by omega)]
      simp only [length_cons, Nat.add_right_cancel_iff, cons_append, after,
        foldl_cons, drop_drop, Nat.add_sub_add_right]
      rw [Nat.add_comm R.size, hdrop]

/-- A chunk of whole records, or of what is left: if it is not accepted to its end, nothing more
is, and otherwise reading goes on behind it. -/
theorem accepted_chunk (hsize : 0 < R.size) {l : Nat} (hl : l = min (m * R.size) bytes.length) :
    ((R.accepted (l / R.size) c bytes).length * R.size < l →
      R.accepted (bytes.length / R.size) c bytes = R.accepted (l / R.size) c bytes) ∧
    ((R.accepted (l / R.size) c bytes).length * R.size = l →
      R.accepted (bytes.length / R.size) c bytes = R.accepted (l / R.size) c bytes ++
        R.accepted ((bytes.drop l).length / R.size)
          (R.after c (R.accepted (l / R.size) c bytes)) (bytes.drop l)) := by
  have hle : l / R.size ≤ bytes.length / R.size := Nat.div_le_div_right (by omega)
  have hsplit : R.accepted (bytes.length / R.size) c bytes = _ := accepted_split hle
  set acc := R.accepted (l / R.size) c bytes
  constructor
  · intro hlt
    rw [hsplit]
    split
    next hall =>
      -- Every whole record of the chunk is accepted, so the chunk ends with a part of one.
      rw [hall] at hlt
      have hlast : l = bytes.length := by
        rcases le_total (m * R.size) bytes.length with hm | hm
        · rw [min_eq_left hm] at hl
          rw [hl, Nat.mul_div_cancel _ hsize] at hlt
          omega
        · rw [hl, min_eq_right hm]
      rw [hlast, Nat.sub_self]
      exact append_nil _
    · exact append_nil _
  · intro heq
    have hall : acc.length = l / R.size := by
      rw [← heq, Nat.mul_div_cancel _ hsize]
    rw [hsplit, if_pos hall, ← hall, heq, length_drop, hall]
    congr 2
    nth_rewrite 2 [← heq]
    rw [hall, mul_comm, sub_mul_div]

inductive Written (R : ChainedRecords β γ ρ) : γ → List β → List ρ → Prop where
  | nil {c : γ} : Written R c [] []
  | cons {c : γ} {record bytes : List β} {f : ρ} {frames : List ρ} (hsize : record.length = R.size)
      (hnext : R.next c record = some f) (hrest : Written R (R.state f) bytes frames) :
      Written R c (record ++ bytes) (f :: frames)

namespace Written

variable {frames frames' : List ρ} {bytes' : List β}

section

variable (h : R.Written c bytes frames)

include h

theorem length_eq : bytes.length = frames.length * R.size := by
  induction h with
  | nil => exact (zero_mul _).symm
  | cons hsize _ _ ih => rw [length_append, hsize, ih, length_cons, succ_mul, add_comm]

theorem append (h' : R.Written (R.after c frames) bytes' frames') :
    R.Written c (bytes ++ bytes') (frames ++ frames') := by
  induction h with
  | nil => exact h'
  | cons hsize hnext _ ih =>
    rw [append_assoc]
    exact .cons hsize hnext (ih h')

theorem accepted (n : Nat) (rest : List β) :
    R.accepted (frames.length + n) c (bytes ++ rest) =
      frames ++ R.accepted n (R.after c frames) rest := by
  induction h with
  | nil => rw [length_nil, zero_add]; rfl
  | @cons c record bytes f frames hsize hnext _ ih =>
    have htake : (record ++ bytes ++ rest).take R.size = record := by
      rw [append_assoc, take_left' hsize]
    have hdrop : (record ++ bytes ++ rest).drop R.size = bytes ++ rest := by
      rw [append_assoc, drop_left' hsize]
    rw [length_cons, add_right_comm, accepted_cons (by rw [htake]; exact hnext), hdrop, ih]
    rfl

theorem take (k : Nat) : R.Written c (bytes.take (k * R.size)) (frames.take k) := by
  induction h generalizing k with
  | nil => rw [take_nil, take_nil]; exact .nil
  | @cons c record bytes f frames hsize hnext _ ih =>
    cases k with
    | zero => rw [zero_mul]; exact .nil
    | succ k =>
      rw [succ_mul, add_comm, ← hsize, take_length_add_append, hsize]
      exact .cons hsize hnext (ih k)

end

end Written

theorem written_accepted (h : n * R.size ≤ bytes.length) :
    R.Written c (bytes.take ((R.accepted n c bytes).length * R.size)) (R.accepted n c bytes) := by
  induction n generalizing c bytes with
  | zero => rw [accepted, length_nil, zero_mul]; exact .nil
  | succ n ih =>
    rw [succ_mul] at h
    cases hnext : R.next c (bytes.take R.size) with
    | none => rw [accepted_stop hnext, length_nil, zero_mul]; exact .nil
    | some f =>
      rw [accepted_cons hnext, length_cons, succ_mul, add_comm, take_add]
      exact .cons (by rw [length_take]; omega) hnext (ih (by rw [length_drop]; omega))

end ChainedRecords

end Codec
