import Mathlib.Algebra.Order.Ring.Int

/-!
# JSON paths

`core/json/path.rs`. The loops of `handle_quoted_key` and `handle_bracket_quoted_key` advance the
iterator of `json_path`; here each is a state of its own, and `key` is the text behind `key_start`.
-/

namespace PgMicro.Json

open List

inductive PathElement where
  | root
  | key (key : List Char) (raw : Bool)
  | arrayLocator (index : Option Int32)
  | bracketQuotedKey (key : List Char)
  deriving DecidableEq

/-- `afterMinus` is where `handle_negative_index` reads a digit. -/
inductive ArrayIndexState where
  | start
  | afterHash
  | afterMinus
  | collectingNumbers
  | isMax

inductive PPState where
  | start
  | afterRoot
  | inKey (key : List Char)
  | inQuotedKey (key content : List Char) (escaped : Bool)
  | inArrayIndex (state : ArrayIndexState) (buffer : Int)
  | inBracketQuotedKey (quote : Char) (content : List Char) (escaped : Bool)
  | afterBracketQuotedKey (content : List Char)
  | expectDotOrBracket

/-- The saturating arithmetic of `i128`. -/
def saturate (n : Int) : Int := max (-2 ^ 127) (min (2 ^ 127 - 1) n)

def collectNum (current adding : Int) (negative : Bool) : Int × Bool :=
  let product := saturate (current * 10)
  let result := saturate (if negative then product - adding else product + adding)
  (result, result == 2 ^ 127 - 1 || result == -2 ^ 127)

def digit (c : Char) : Int := c.toNat - '0'.toNat

abbrev Parser := PPState × List PathElement

def handleExpectDotOrBracket (elements : List PathElement) (c : Char) : Option Parser :=
  if c = '.' then some (.inKey [], elements)
  else if c = '[' then some (.inArrayIndex .start 0, elements)
  else none

def handleArrayIndex (state : ArrayIndexState) (buffer : Int) (elements : List PathElement)
    (c : Char) : Option Parser :=
  match state with
  | .start =>
    if c = '#' then some (.inArrayIndex .afterHash buffer, elements)
    else if c.isDigit then some (.inArrayIndex .collectingNumbers (digit c), elements)
    else if c = '"' ∨ c = '\'' then some (.inBracketQuotedKey c [] false, elements)
    else none
  | .afterHash =>
    if c = '-' then some (.inArrayIndex .afterMinus buffer, elements)
    else if c = ']' then some (.expectDotOrBracket, elements ++ [.arrayLocator none])
    else none
  | .afterMinus =>
    if c.isDigit then some (.inArrayIndex .collectingNumbers (-digit c), elements) else none
  | .collectingNumbers | .isMax =>
    -- `index_buffer as i32` keeps the low bits.
    if c = ']' then
      some (.expectDotOrBracket, elements ++ [.arrayLocator (some (Int32.ofInt buffer))])
    else if c.isDigit then
      match state with
      | .isMax => some (.inArrayIndex .isMax buffer, elements)
      | _ =>
        let (number, isMax) := collectNum buffer (digit c) (buffer < 0)
        some (.inArrayIndex (if isMax then .isMax else .collectingNumbers) number, elements)
    else none

def step : Parser → Char → Option Parser
  | (.start, elements), c => if c = '$' then some (.afterRoot, elements ++ [.root]) else none
  | (.afterRoot, elements), c | (.expectDotOrBracket, elements), c =>
    handleExpectDotOrBracket elements c
  | (.inKey key, elements), c =>
    if c = '.' ∨ c = '[' then
      if key = [] then none else handleExpectDotOrBracket (elements ++ [.key key false]) c
    else if c = '"' then some (.inQuotedKey key [] false, elements)
    else some (.inKey (key ++ [c]), elements)
  | (.inQuotedKey key content escaped, elements), c =>
    if c = '"' ∧ escaped = false then some (.expectDotOrBracket, elements ++ [.key content true])
    else some (.inQuotedKey key (content ++ [c]) (c = '\\' && !escaped), elements)
  | (.inArrayIndex state buffer, elements), c => handleArrayIndex state buffer elements c
  | (.inBracketQuotedKey quote content escaped, elements), c =>
    if c = quote ∧ escaped = false then some (.afterBracketQuotedKey content, elements)
    else some (.inBracketQuotedKey quote (content ++ [c]) (c = '\\' && !escaped), elements)
  | (.afterBracketQuotedKey content, elements), c =>
    if c = ']' then some (.expectDotOrBracket, elements ++ [.bracketQuotedKey content]) else none

/-- `finalize_path`. A key without a quoted part passes its test. -/
def finalizePath : Parser → Option (List PathElement)
  | (.afterRoot, elements) | (.expectDotOrBracket, elements) => some elements
  | (.inKey key, elements) => if key = [] then none else some (elements ++ [.key key false])
  | (.inQuotedKey key content _, elements) =>
    let text := key ++ '"' :: content
    if text.head? = some '"' ∧ (text.getLast? ≠ some '"' ∧ 1 < text.length ∨
      text.getLast? = some '"' ∧ text.length = 1) then none
    else some (elements ++ [.key text false])
  | _ => none

def jsonPath (path : List Char) : Option (List PathElement) :=
  (path.foldlM step (.start, [])).bind finalizePath

end PgMicro.Json
