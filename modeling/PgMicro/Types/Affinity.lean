import PgMicro.Types.ValueOrder

/-!
# Affinities

`Affinity` of `core/vdbe/affinity.rs`. A comparison in the WHERE clause converts both sides by its
affinity; the key of an index seek is converted by the affinity of the index column alone.
-/

namespace PgMicro.Types

inductive Affinity where
  | blob
  | text
  | numeric
  | integer
  | real
  deriving DecidableEq, Repr

def Affinity.isNumeric : Affinity → Bool
  | .numeric | .integer | .real => true
  | .blob | .text => false

def Value.isNumber : Value → Bool
  | .integer _ | .float _ => true
  | _ => false

structure Conversions where
  parseNumber : List UInt8 → Option (Int64 ⊕ NonNan)
  render : Value → List UInt8
  /-- `as f64`. -/
  toReal : Int64 → NonNan
  /-- `try_float_to_integer_affinity`. -/
  exactInt : NonNan → Option Int64
  exactInt_eq : ∀ f i, exactInt f = some i → Value.cmp (.integer i) (.float f) = .eq

def noNumbers : Conversions where
  parseNumber _ := none
  render _ := []
  toReal _ := ⟨0, by decide⟩
  exactInt _ := none
  exactInt_eq := nofun

namespace Affinity

variable (conv : Conversions)

def ofNumber : Int64 ⊕ NonNan → Value
  | .inl i => .integer i
  | .inr f => .float f

def ofReal : Int64 ⊕ NonNan → Value
  | .inl i => .float (conv.toReal i)
  | .inr f => .float f

/-- `Affinity::convert` on one side of a comparison. -/
def convert : Affinity → Value → Value
  | .blob, v => v
  | .text, .integer i => .text (conv.render (.integer i))
  | .text, .float f => .text (conv.render (.float f))
  | .numeric, .text t | .integer, .text t => ((conv.parseNumber t).map ofNumber).getD (.text t)
  | .real, .text t => ((conv.parseNumber t).map (ofReal conv)).getD (.text t)
  | .real, .integer i => .float (conv.toReal i)
  | _, v => v

def exactNumber : Int64 ⊕ NonNan → Value
  | .inl i => .integer i
  | .inr f => ((conv.exactInt f).map Value.integer).getD (.float f)

/-- `apply_affinity_char` on a register. -/
def applyChar : Affinity → Value → Value
  | .numeric, .text t | .integer, .text t =>
    ((conv.parseNumber t).map (exactNumber conv)).getD (.text t)
  | .numeric, .float f | .integer, .float f => exactNumber conv (.inr f)
  | affinity, v => convert conv affinity v

end Affinity

/-- `comparison_affinity_from_info`; `none` for a side without affinity. -/
def comparisonAffinity : Option Affinity → Option Affinity → Affinity
  | some lhs, some rhs => if lhs.isNumeric || rhs.isNumeric then .numeric else .blob
  | some lhs, none => lhs
  | none, some rhs => rhs
  | none, none => .blob

variable {conv : Conversions} {a : Affinity} {v : Value}

theorem compareImmutableSingle_congr [UncasedStr] {a b : Value} {collation : CollationSeq}
    (h : compareImmutableSingle a b collation = .eq) (v : Value) :
    compareImmutableSingle v a collation = compareImmutableSingle v b collation := by
  have htrans : Std.TransCmp fun l r => compareImmutableSingle l r collation := inferInstance
  exact htrans.congr_right h

namespace Affinity

def number (conv : Conversions) : Value → Option (Int64 ⊕ NonNan)
  | .integer i => some (.inl i)
  | .float f => some (.inr f)
  | .text t => conv.parseNumber t
  | _ => none

variable (v)

theorem convert_numeric : convert conv .numeric v = ((number conv v).map ofNumber).getD v := by
  cases v <;> rfl

theorem convert_real : convert conv .real v = ((number conv v).map (ofReal conv)).getD v := by
  cases v <;> rfl

theorem applyChar_numeric :
    applyChar conv .numeric v = ((number conv v).map (exactNumber conv)).getD v := by
  cases v <;> rfl

theorem convert_integer : convert conv .integer v = convert conv .numeric v := by
  cases v <;> rfl

theorem applyChar_integer : applyChar conv .integer v = applyChar conv .numeric v := by
  cases v <;> rfl

theorem applyChar_real : applyChar conv .real v = convert conv .real v := by
  cases v <;> rfl

variable {v}

theorem applyChar_eq_null : applyChar conv a v = .null ↔ v = .null := by
  have hnumber {f : Int64 ⊕ NonNan → Value} (hf : ∀ n, f n ≠ .null) {v : Value}
      (h : ((number conv v).map f).getD v = .null) : v = .null := by
    cases hn : number conv v with
    | none =>
      rw [hn] at h
      exact h
    | some n =>
      rw [hn] at h
      exact absurd h (hf n)
  have hexact (n : Int64 ⊕ NonNan) : exactNumber conv n ≠ .null := by
    cases n with
    | inl i => nofun
    | inr f =>
      rw [exactNumber]
      cases conv.exactInt f <;> nofun
  constructor
  · intro h
    cases a with
    | blob => exact h
    | text => cases v <;> first | rfl | cases h
    | numeric => exact hnumber hexact (applyChar_numeric v ▸ h)
    | integer => exact hnumber hexact (applyChar_numeric v ▸ applyChar_integer v ▸ h)
    | real =>
      refine hnumber (f := ofReal conv) (fun n => ?_) (convert_real v ▸ h)
      cases n <;> nofun
  · rintro rfl
    cases a <;> rfl

theorem applyChar_idem (a : Affinity) (v : Value) :
    applyChar conv a (applyChar conv a v) = applyChar conv a v := by
  have hexact (n : Int64 ⊕ NonNan) :
      applyChar conv .numeric (exactNumber conv n) = exactNumber conv n := by
    cases n with
    | inl i => rfl
    | inr f =>
      rw [exactNumber]
      cases hf : conv.exactInt f with
      | none =>
        simp [Option.map_none, Option.getD_none, applyChar, exactNumber, hf]
      | some i => rfl
  have hnumeric (v : Value) :
      applyChar conv .numeric (applyChar conv .numeric v) = applyChar conv .numeric v := by
    rw [applyChar_numeric v]
    cases hn : number conv v with
    | none =>
      rw [Option.map_none, Option.getD_none, applyChar_numeric, hn]
      rfl
    | some n => exact hexact n
  cases a with
  | blob => rfl
  | text => cases v <;> rfl
  | numeric => exact hnumeric v
  | integer =>
    rw [applyChar_integer, applyChar_integer]
    exact hnumeric v
  | real =>
    rw [applyChar_real, applyChar_real, convert_real v]
    cases hn : number conv v with
    | none =>
      rw [Option.map_none, Option.getD_none, convert_real, hn]
      rfl
    | some n => cases n <;> rfl

variable [UncasedStr]

theorem compare_exactNumber (v : Value) (n : Int64 ⊕ NonNan) (collation : CollationSeq) :
    compareImmutableSingle v (exactNumber conv n) collation =
      compareImmutableSingle v (ofNumber n) collation := by
  cases n with
  | inl i => rfl
  | inr f =>
    rw [exactNumber]
    cases hf : conv.exactInt f with
    | none => rfl
    | some i =>
      have heq : compareImmutableSingle (.integer i) (.float f) collation = .eq :=
        conv.exactInt_eq f i hf
      exact compareImmutableSingle_congr heq v

theorem compare_applyChar_numeric (v k : Value) (collation : CollationSeq) :
    compareImmutableSingle v (applyChar conv .numeric k) collation =
      compareImmutableSingle v (convert conv .numeric k) collation := by
  rw [applyChar_numeric, convert_numeric]
  cases number conv k with
  | none => rfl
  | some n => exact compare_exactNumber v n collation

end Affinity

open Affinity

def Stored (conv : Conversions) (column : Option Affinity) (v : Value) : Prop :=
  ∀ a ∈ column, a.convert conv v = v

theorem Stored.numeric (ha : a.isNumeric) (h : Stored conv (some a) v) :
    convert conv .numeric v = v := by
  have hv := h a rfl
  cases a with
  | blob | text => cases ha
  | numeric => exact hv
  | integer => exact convert_integer v ▸ hv
  | real =>
    cases v with
    | text t =>
      rw [convert_numeric, number]
      rw [convert_real, number] at hv
      cases hparse : conv.parseNumber t with
      | none => rfl
      | some n =>
        rw [hparse] at hv
        cases n <;> cases hv
    | _ => rfl

structure KeyFits (conv : Conversions) (column key : Option Affinity) (k : Value) : Prop where
  /-- An integer is a float of a REAL column as it is. -/
  exact : column = some .real → ∀ i, number conv k = some (.inl i) →
    Value.cmp (.float (conv.toReal i)) (.integer i) = .eq
  /-- The column is converted to no other affinity than its own. -/
  kinds : ∀ b ∈ key, match column with
    | some a => a.isNumeric ∨ b.isNumeric = false ∧ (a = .text → k.isNumber = false)
    | none => b = .blob

/-- `expr_needs_no_affinity_change`, as far as the value tells. -/
inductive NeedsNoChange (a : Affinity) (k : Value) : Prop where
  | none (h : a = .blob)
  | number (ha : a.isNumeric) (hk : k.isNumber ∨ k = .null)
  | text (ha : a = .text) (t : List UInt8) (hk : k = .text t)
  | blob (b : List UInt8) (hk : k = .blob b)

def seekKey (conv : Conversions) (column : Option Affinity) (change : Bool) (k : Value) : Value :=
  if change then (column.getD .blob).applyChar conv k else k

section

variable {k : Value} {change : Bool} (collation : CollationSeq) [UncasedStr]

theorem compare_seekKey_numeric (ha : a = .numeric ∨ a = .integer)
    (hchange : change = false → NeedsNoChange a k) :
    compareImmutableSingle v (seekKey conv (some a) change k) collation =
      compareImmutableSingle v (convert conv .numeric k) collation := by
  cases change with
  | true =>
    have happly : seekKey conv (some a) true k = applyChar conv .numeric k := by
      rcases ha with rfl | rfl
      · rfl
      · exact applyChar_integer k
    rw [happly, compare_applyChar_numeric]
  | false =>
    have hsame : convert conv .numeric k = k := by
      cases hchange rfl with
      | none h => rcases ha with rfl | rfl <;> cases h
      | number _ hk =>
        rcases hk with hk | rfl
        · cases k <;> first | rfl | cases hk
        · rfl
      | text h => rcases ha with rfl | rfl <;> cases h
      | blob b hk =>
        rw [hk]
        rfl
    rw [hsame]
    rfl

theorem compare_seekKey_real {c : Affinity} (hc : c = .real ∨ c = .numeric)
    (hexact : ∀ i, number conv k = some (.inl i) →
      Value.cmp (.float (conv.toReal i)) (.integer i) = .eq)
    (hchange : change = false → NeedsNoChange .real k) :
    compareImmutableSingle v (seekKey conv (some .real) change k) collation =
      compareImmutableSingle v (c.convert conv k) collation := by
  have hreal : compareImmutableSingle v (convert conv .real k) collation =
      compareImmutableSingle v (convert conv .numeric k) collation := by
    rw [convert_real, convert_numeric]
    cases hn : number conv k with
    | none => rfl
    | some n =>
      cases n with
      | inl i =>
        have heq : compareImmutableSingle (.float (conv.toReal i)) (.integer i) collation = .eq :=
          hexact i hn
        exact compareImmutableSingle_congr heq v
      | inr f => rfl
  have hkey : compareImmutableSingle v (seekKey conv (some .real) change k) collation =
      compareImmutableSingle v (convert conv .real k) collation := by
    cases change with
    | true => exact congrArg (compareImmutableSingle v · collation) (applyChar_real k)
    | false =>
      rw [hreal]
      have hsame : convert conv .numeric k = k := by
        cases hchange rfl with
        | none h => cases h
        | number _ hk =>
          rcases hk with hk | rfl
          · cases k <;> first | rfl | cases hk
          · rfl
        | text h => cases h
        | blob b hk =>
          rw [hk]
          rfl
      rw [hsame]
      rfl
  rcases hc with rfl | rfl
  · exact hkey
  · rw [hkey, hreal]

omit [UncasedStr] in
theorem seekKey_text (hchange : change = false → NeedsNoChange .text k) :
    seekKey conv (some .text) change k = convert conv .text k := by
  cases change with
  | true => cases k <;> rfl
  | false =>
    cases hchange rfl with
    | none h => cases h
    | number h => cases h
    | text _ t hk =>
      rw [hk]
      rfl
    | blob b hk =>
      rw [hk]
      rfl

end

theorem compare_seekKey [UncasedStr] {column key : Option Affinity} {k : Value} {change : Bool}
    (hv : Stored conv column v) (hk : KeyFits conv column key k)
    (hchange : change = false → NeedsNoChange (column.getD .blob) k) (collation : CollationSeq) :
    compareImmutableSingle v (seekKey conv column change k) collation =
      compareImmutableSingle ((comparisonAffinity column key).convert conv v)
        ((comparisonAffinity column key).convert conv k) collation := by
  have hblob {column : Option Affinity} (hcolumn : column.getD .blob = .blob) :
      seekKey conv column change k = k := by
    rw [seekKey, hcolumn]
    cases change <;> rfl
  cases column with
  | none =>
    have hc : comparisonAffinity none key = .blob := by
      cases key with
      | none => rfl
      | some b => exact hk.kinds b rfl
    rw [hc, hblob rfl]
    rfl
  | some a =>
    cases hnum : a.isNumeric with
    | true =>
      have hc : comparisonAffinity (some a) key = a ∨
          comparisonAffinity (some a) key = .numeric := by
        cases key with
        | none => exact .inl rfl
        | some b => exact .inr (if_pos (by rw [hnum]; rfl))
      have hvc : (comparisonAffinity (some a) key).convert conv v = v := by
        rcases hc with hc | hc
        · rw [hc]
          exact hv a rfl
        · rw [hc]
          exact hv.numeric hnum
      rw [hvc]
      cases a with
      | blob | text => cases hnum
      | numeric =>
        rw [compare_seekKey_numeric collation (.inl rfl) hchange, show comparisonAffinity _ key =
          .numeric from hc.elim id id]
      | integer =>
        rw [compare_seekKey_numeric collation (.inr rfl) hchange]
        rcases hc with hc | hc
        · rw [hc, convert_integer]
        · rw [hc]
      | real => exact compare_seekKey_real collation hc (hk.exact rfl) hchange
    | false =>
      cases key with
      | none =>
        rw [show comparisonAffinity (some a) none = a from rfl, hv a rfl]
        cases a with
        | blob => rw [hblob rfl]; rfl
        | text => rw [seekKey_text hchange]
        | _ => cases hnum
      | some b =>
        obtain hcontra | ⟨hb, htext⟩ := hk.kinds b rfl
        · rw [hnum] at hcontra
          cases hcontra
        rw [show comparisonAffinity (some a) (some b) = .blob from if_neg (by rw [hnum, hb]; nofun)]
        cases a with
        | blob => rw [hblob rfl]; rfl
        | text =>
          have hk' := htext rfl
          rw [seekKey_text hchange]
          cases k <;> first | rfl | cases hk'
        | _ => cases hnum

end PgMicro.Types
