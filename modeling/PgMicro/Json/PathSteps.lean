import Mathlib.Data.List.Forall2
import PgMicro.Json.PathGrammar

/-!
# Printed paths

The path that is printed for a list of steps is read as these steps, as far as the stored indexes
can hold theirs.
-/

namespace PgMicro.Json

open List

inductive Step where
  | key (k : List Char)
  | quotedKey (k : List Char)
  | index (fromEnd : Bool) (n : Nat)
  | atEnd

def escape (k : List Char) : List Char :=
  k.flatMap fun c => if c = '"' ∨ c = '\\' then ['\\', c] else [c]

def Step.print : Step → List Char
  | .key k => '.' :: k
  | .quotedKey k => '.' :: '"' :: (escape k ++ ['"'])
  | .index fromEnd n =>
    '[' :: ((if fromEnd then ['#', '-'] else []) ++ (Nat.toDigits 10 n ++ [']']))
  | .atEnd => ['[', '#', ']']

def printPath (steps : List Step) : List Char := '$' :: steps.flatMap Step.print

def Step.IsPlain : Step → Prop
  | .key k => Plain k
  | _ => True

/-- An index as it is stored: negative from the end. -/
def signed (fromEnd : Bool) (n : Nat) : Int := if fromEnd then -n else n

/-- An index fits into an `i32`, and a key that is not quoted has characters. -/
def Step.Fits : Step → Prop
  | .key k => k ≠ []
  | .index fromEnd n => -2 ^ 31 ≤ signed fromEnd n ∧ signed fromEnd n < 2 ^ 31
  | _ => True

def InRange (index : Int) (length : Nat) : Prop := index < length ∧ -length ≤ index

/-- The element is the step; for an index that does not fit, it may also be out of range of every
array. -/
def PathElement.Denotes : PathElement → Step → Prop
  | .key text false, .key k => text = k
  | .key text true, .quotedKey k => text = escape k
  | .arrayLocator none, .atEnd => True
  | .arrayLocator (some i), .index fromEnd n =>
    i.toInt = signed fromEnd n ∨
      ¬(Step.index fromEnd n).Fits ∧ ∀ length, ¬InRange i.toInt length
  | _, _ => False

/-- The path gives its steps, or is rejected for an index that does not fit. -/
def ReadsBack (steps : List Step) : Prop :=
  match jsonPath (printPath steps) with
  | some elements => List.Forall₂ PathElement.Denotes elements.tail steps
  | none => .key [] ∉ steps ∧ ∃ s ∈ steps, ¬s.Fits

variable {elements : List PathElement} {p : Parser}

theorem unquoted_escape (k : List Char) : Unquoted '"' (escape k) := by
  induction k using List.reverseRecOn with
  | nil => exact .nil
  | append_singleton k c ih =>
    have happend : escape (k ++ [c]) = escape k ++ escape [c] := flatMap_append ..
    rw [happend]
    by_cases hc : c = '"' ∨ c = '\\'
    · rw [show escape [c] = ['\\', c] by simp [escape, hc]]
      exact .escape ih c
    · rw [show escape [c] = [c] by simp [escape, hc]]
      rw [not_or] at hc
      exact .char ih hc.1 hc.2

theorem digitChar_spec : ∀ d < 10, (Nat.digitChar d).isDigit = true ∧
    digit (Nat.digitChar d) = d ∧ Nat.digitChar d ≠ ']' ∧ Nat.digitChar d ≠ '#' := by
  decide

/-- The digits of a number are collected, and exactly if the number fits. -/
theorem run_digits (fromEnd : Bool) (n : Nat) :
    ∃ state buffer, (state = .collectingNumbers ∨ state = .isMax) ∧
      (Nat.toDigits 10 n).foldlM step
        (.inArrayIndex (if fromEnd then .afterMinus else .start) 0, elements) =
          some (.inArrayIndex state buffer, elements) ∧
      (n ≤ 2 ^ 31 → state = .collectingNumbers ∧ buffer = signed fromEnd n) := by
  induction n using Nat.strong_induction_on with
  | _ n ih =>
    by_cases hlt : n < 10
    · obtain ⟨hisDigit, hvalue, -, hhash⟩ := digitChar_spec n hlt
      rw [Nat.toDigits_of_lt_base hlt]
      refine ⟨_, signed fromEnd n, .inl rfl, ?_, fun _ => ⟨rfl, rfl⟩⟩
      cases fromEnd <;> simp [step, handleArrayIndex, hisDigit, hvalue, hhash, signed]
    · obtain ⟨state, buffer, hstate, hrun, hexact⟩ := ih (n / 10) (by omega)
      obtain ⟨hisDigit, hvalue, hbracket, -⟩ := digitChar_spec (n % 10) (Nat.mod_lt _ (by decide))
      rw [Nat.toDigits_eq_if (by decide), if_neg hlt, foldlM_append, hrun]
      rcases hstate with rfl | rfl
      · obtain ⟨r, hr⟩ : ∃ r, collectNum buffer (n % 10 : Nat) (buffer < 0) = r := ⟨_, rfl⟩
        refine ⟨if r.2 then .isMax else .collectingNumbers, r.1, by cases r.2 <;> simp, ?_,
          fun hle => ?_⟩
        · rw [← hr, ← hvalue]
          simp [step, handleArrayIndex, hisDigit, hbracket]
        · have hexact' : r = (signed fromEnd n, false) := by
            obtain ⟨-, rfl⟩ := hexact (by omega)
            rw [← hr]
            cases fromEnd <;> simp [collectNum, saturate, signed] <;> omega
          rw [hexact']
          exact ⟨rfl, rfl⟩
      · refine ⟨.isMax, buffer, .inr rfl, ?_, fun hle => ?_⟩
        · simp [step, handleArrayIndex, hisDigit, hbracket]
        · cases (hexact (by omega)).1

theorem run_index (h : Between elements p) (fromEnd : Bool) (n : Nat) :
    ∃ i : Int32, (Step.index fromEnd n).print.foldlM step p =
        some (.expectDotOrBracket, elements ++ [.arrayLocator (some i)]) ∧
      ((Step.index fromEnd n).Fits → i.toInt = signed fromEnd n) := by
  obtain ⟨state, buffer, hstate, hrun, hexact⟩ := @run_digits elements fromEnd n
  refine ⟨Int32.ofInt buffer, ?_, fun hfits => ?_⟩
  · have hopen : (if fromEnd then ['#', '-'] else []).foldlM step
        (.inArrayIndex .start 0, elements) =
          some (.inArrayIndex (if fromEnd then .afterMinus else .start) 0, elements) := by
      cases fromEnd <;> rfl
    rw [Step.print, foldlM_cons, h.next (.inr rfl)]
    change foldlM step (.inArrayIndex .start 0, elements) _ = _
    rw [foldlM_append, hopen, Option.bind_eq_bind, Option.bind_some, foldlM_append, hrun]
    rcases hstate with rfl | rfl <;> rfl
  · rw [(hexact _).2]
    · exact Int32.toInt_ofInt_of_le hfits.1 hfits.2
    · have hlow := hfits.1
      have hhigh := hfits.2
      cases fromEnd <;> simp [signed] at hlow hhigh <;> omega

theorem denotes_index {i : Int32} {fromEnd : Bool} {n : Nat}
    (h : (Step.index fromEnd n).Fits → i.toInt = signed fromEnd n) :
    (PathElement.arrayLocator (some i)).Denotes (.index fromEnd n) ↔
      (Step.index fromEnd n).Fits := by
  constructor
  · rintro (heq | ⟨-, hout⟩)
    · rw [Step.Fits, ← heq]
      exact ⟨i.le_toInt, i.toInt_lt⟩
    · exact absurd ⟨by omega, by omega⟩ (hout (i.toInt.natAbs + 1))
  · intro hfits
    exact .inl (h hfits)

theorem run_step (h : Between elements p) {s : Step} (hs : s.IsPlain) (hkey : s ≠ .key []) :
    ∃ e p', s.print.foldlM step p = some p' ∧ Between (elements ++ [e]) p' ∧
      (e.Denotes s ↔ s.Fits) := by
  cases s with
  | key k =>
    have hk : k ≠ [] := fun hk => hkey (hk ▸ rfl)
    refine ⟨.key k false, (.inKey k, elements), ?_, .inKey hk rfl, iff_of_true rfl hk⟩
    rw [Step.print, foldlM_cons, h.next (.inl rfl)]
    exact run_key [] k hs
  | quotedKey k =>
    refine ⟨.key (escape k) true, (.expectDotOrBracket, _), ?_, .expectDotOrBracket,
      iff_of_true rfl trivial⟩
    have happend : (Step.quotedKey k).print = '.' :: ([] ++ '"' :: escape k) ++ ['"'] := rfl
    have hinside : Inside '"' (escape k) false := unquoted_escape k
    rw [happend, foldlM_append, run_inside h (forall_mem_nil _) hinside]
    rfl
  | index fromEnd n =>
    obtain ⟨i, hrun, hexact⟩ := run_index h fromEnd n
    exact ⟨_, _, hrun, .expectDotOrBracket, denotes_index hexact⟩
  | atEnd =>
    refine ⟨.arrayLocator none, (.expectDotOrBracket, _), ?_, .expectDotOrBracket,
      iff_of_true trivial trivial⟩
    rw [Step.print, foldlM_cons, h.next (.inr rfl)]
    rfl

theorem run_steps (h : Between elements p) {steps : List Step} (hs : ∀ s ∈ steps, s.IsPlain)
    (hkeys : .key [] ∉ steps) :
    ∃ es p', (steps.flatMap Step.print).foldlM step p = some p' ∧ Between (elements ++ es) p' ∧
      List.Forall₂ (fun e s => e.Denotes s ↔ s.Fits) es steps := by
  induction steps generalizing elements p with
  | nil => exact ⟨[], p, rfl, by rwa [append_nil], .nil⟩
  | cons s steps ih =>
    rw [forall_mem_cons] at hs
    rw [mem_cons, not_or] at hkeys
    obtain ⟨e, p1, hrun, h1, he⟩ := run_step h hs.1 (Ne.symm hkeys.1)
    obtain ⟨es, p2, hruns, h2, hes⟩ := ih h1 hs.2 hkeys.2
    refine ⟨e :: es, p2, ?_, ?_, .cons he hes⟩
    · rw [flatMap_cons, foldlM_append, hrun]
      exact hruns
    · rwa [append_assoc] at h2

theorem run_empty_key (h : Between elements p) {steps : List Step} (hs : ∀ s ∈ steps, s.IsPlain)
    (hkey : .key [] ∈ steps) :
    ((steps.flatMap Step.print).foldlM step p).bind finalizePath = none := by
  induction steps generalizing elements p with
  | nil => cases hkey
  | cons s steps ih =>
    rw [forall_mem_cons] at hs
    by_cases hs' : s = .key []
    · -- the dot is the last character, or it is in front of a dot or a bracket
      rw [hs', flatMap_cons, Step.print, cons_append, foldlM_cons, h.next (.inl rfl)]
      match steps with
      | [] | .key _ :: _ | .quotedKey _ :: _ | .index _ _ :: _ | .atEnd :: _ => rfl
    · obtain ⟨e, p1, hrun, h1, -⟩ := run_step h hs.1 hs'
      rw [flatMap_cons, foldlM_append, hrun]
      exact ih h1 hs.2 ((mem_cons.1 hkey).resolve_left (Ne.symm hs'))

/-- A printed path gives its steps if and only if they fit, and the texts that are accepted are the
complete paths and those that end within a quoted key which passes for closed. -/
theorem jsonPath_denotes_steps (steps : List Step) (path : List Char) :
    ((∀ s ∈ steps, s.IsPlain) → (ReadsBack steps ↔ ∀ s ∈ steps, s.Fits)) ∧
      ((jsonPath path).isSome ↔ Complete path ∨ LooksClosed path) := by
  refine ⟨fun hs => ?_, jsonPath_isSome_iff path⟩
  have hpath : jsonPath (printPath steps) =
      ((steps.flatMap Step.print).foldlM step (.afterRoot, [.root])).bind finalizePath := rfl
  rw [ReadsBack, hpath]
  by_cases hkey : .key [] ∈ steps
  · rw [run_empty_key .afterRoot hs hkey]
    exact iff_of_false (fun h => h.1 hkey) fun h => h _ hkey rfl
  · obtain ⟨es, p, hrun, hp, hes⟩ := run_steps (.afterRoot : Between [.root] _) hs hkey
    rw [hrun, Option.bind_some, hp.finalizePath]
    change List.Forall₂ PathElement.Denotes es steps ↔ _
    clear hrun hp hpath hs hkey
    induction hes with
    | nil => simp
    | cons he _ ih => rw [forall₂_cons, he, ih, forall_mem_cons]

theorem jsonPath_denotes_steps_sample :
    ReadsBack [.key ['a'], .index false 7] ∧ (jsonPath ['$', '[', '7', ']']).isSome :=
  have ⟨hsteps, haccepts⟩ := jsonPath_denotes_steps _ _
  ⟨(hsteps (by simp [Step.IsPlain, Plain])).2 (by simp [Step.Fits, signed]),
    haccepts.2 (.inl (.bracket .root (.number (.first rfl))))⟩

/-- `$."a\"` is taken for a path, and `$[4294967296]` for the first element of an array, as
`test_large_index_wrapping` has it. -/
theorem jsonPath_misreads :
    jsonPath ['$', '.', '"', 'a', '\\', '"'] = some [.root, .key ['"', 'a', '\\', '"'] false] ∧
    jsonPath (printPath [.index false (2 ^ 32)]) = some [.root, .arrayLocator (some 0)] := by
  decide +kernel

end PgMicro.Json
