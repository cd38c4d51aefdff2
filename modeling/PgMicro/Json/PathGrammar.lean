import Mathlib.Data.List.Induction
import PgMicro.Json.Path

/-!
# The texts that are paths

A grammar of the paths by their characters, and the texts that are taken for paths although they end
within a quoted key. Between them they are the texts that the parser accepts.
-/

namespace PgMicro.Json

open List

def Plain (key : List Char) : Prop := ∀ c ∈ key, c ≠ '.' ∧ c ≠ '[' ∧ c ≠ '"'

/-- The inside of a quoted text: a quote only stands behind a backslash. -/
inductive Unquoted (quote : Char) : List Char → Prop where
  | nil : Unquoted quote []
  | char {content : List Char} {c : Char} (h : Unquoted quote content) (hquote : c ≠ quote)
      (hescape : c ≠ '\\') : Unquoted quote (content ++ [c])
  | escape {content : List Char} (h : Unquoted quote content) (c : Char) :
      Unquoted quote (content ++ ['\\', c])

inductive Numeral : List Char → Prop where
  | first {c : Char} (hc : c.isDigit = true) : Numeral [c]
  | fromEnd {c : Char} (hc : c.isDigit = true) : Numeral ['#', '-', c]
  | more {text : List Char} {c : Char} (h : Numeral text) (hc : c.isDigit = true) :
      Numeral (text ++ [c])

def IsQuote (c : Char) : Prop := c = '"' ∨ c = '\''

/-- What stands in brackets. -/
inductive Locator : List Char → Prop where
  | atEnd : Locator ['#']
  | number {text : List Char} (h : Numeral text) : Locator text
  | quoted {quote : Char} {content : List Char} (hquote : IsQuote quote)
      (h : Unquoted quote content) : Locator (quote :: (content ++ [quote]))

/-- A text before the quote of a key is passed over. -/
inductive Complete : List Char → Prop where
  | root : Complete ['$']
  | key {before key : List Char} (h : Complete before) (hkey : Plain key) (hne : key ≠ []) :
      Complete (before ++ '.' :: key)
  | quotedKey {before key content : List Char} (h : Complete before) (hkey : Plain key)
      (hcontent : Unquoted '"' content) :
      Complete (before ++ '.' :: (key ++ '"' :: (content ++ ['"'])))
  | bracket {before text : List Char} (h : Complete before) (htext : Locator text) :
      Complete (before ++ '[' :: (text ++ [']']))

/-- The inside of a quoted text, up to a backslash if `escaped`. -/
def Inside (quote : Char) (content : List Char) : Bool → Prop
  | false => Unquoted quote content
  | true => ∃ before, Unquoted quote before ∧ content = before ++ ['\\']

/-- A text that ends within a quoted key: the quote is not where the key starts, or the last
character is an escaped quote. -/
inductive LooksClosed : List Char → Prop where
  | intro {before key content : List Char} {escaped : Bool} (h : Complete before) (hkey : Plain key)
      (hcontent : Inside '"' content escaped) (hlooks : key ≠ [] ∨ content.getLast? = some '"') :
      LooksClosed (before ++ '.' :: (key ++ '"' :: content))

/-- A step may follow, and these are the elements so far. -/
inductive Between (elements : List PathElement) : Parser → Prop where
  | afterRoot : Between elements (.afterRoot, elements)
  | expectDotOrBracket : Between elements (.expectDotOrBracket, elements)
  | inKey {key : List Char} {before : List PathElement} (hkey : key ≠ [])
      (h : elements = before ++ [.key key false]) : Between elements (.inKey key, before)

variable {elements : List PathElement} {p : Parser}

theorem Between.finalizePath (h : Between elements p) : finalizePath p = some elements := by
  cases h with
  | afterRoot | expectDotOrBracket => rfl
  | inKey hkey h => rw [h, Json.finalizePath, if_neg hkey]

theorem Between.next (h : Between elements p) {c : Char} (hc : c = '.' ∨ c = '[') :
    step p c = handleExpectDotOrBracket elements c := by
  cases h with
  | afterRoot | expectDotOrBracket => rfl
  | inKey hkey h => rw [h, step, if_pos hc, if_neg hkey]

theorem run_key (key text : List Char) (htext : Plain text) :
    text.foldlM step (.inKey key, elements) = some (.inKey (key ++ text), elements) := by
  induction text generalizing key with
  | nil => rw [append_nil]; rfl
  | cons c text ih =>
    obtain ⟨hdot, hbracket, hquote⟩ := htext c (mem_cons_self ..)
    have hstep : step (.inKey key, elements) c = some (.inKey (key ++ [c]), elements) := by
      simp [step, hdot, hbracket, hquote]
    rw [foldlM_cons, hstep]
    refine (ih _ fun d hd => htext d (mem_cons_of_mem _ hd)).trans ?_
    rw [append_assoc]
    rfl

theorem IsQuote.ne_escape {quote : Char} (h : IsQuote quote) : quote ≠ '\\' := by
  rcases h with rfl | rfl <;> decide

/-- The two states that read a quoted text do so in the same way. -/
theorem run_unquoted {quote : Char} {state : List Char → Bool → PPState} {content : List Char}
    (hquote : quote ≠ '\\')
    (hstep : ∀ content escaped c, ¬(c = quote ∧ escaped = false) →
      step (state content escaped, elements) c =
        some (state (content ++ [c]) (c = '\\' && !escaped), elements))
    (h : Unquoted quote content) :
    content.foldlM step (state [] false, elements) = some (state content false, elements) := by
  induction h with
  | nil => rfl
  | char _ hc hescape ih =>
    rw [foldlM_append, ih]
    simp [hstep, hc, hescape]
  | escape _ c ih =>
    rw [foldlM_append, ih]
    simp [hstep, hquote.symm]

theorem run_numeral {text : List Char} (h : Numeral text) :
    ∃ state buffer, (state = .collectingNumbers ∨ state = .isMax) ∧
      text.foldlM step (.inArrayIndex .start 0, elements) =
        some (.inArrayIndex state buffer, elements) := by
  have hdigit {c : Char} (hc : c.isDigit = true) : c ≠ '#' ∧ c ≠ ']' := by
    constructor <;> rintro rfl <;> cases hc
  induction h with
  | @first c hc =>
    exact ⟨_, digit c, .inl rfl, by simp [step, handleArrayIndex, hc, (hdigit hc).1]⟩
  | @fromEnd c hc => exact ⟨_, -digit c, .inl rfl, by simp [step, handleArrayIndex, hc]⟩
  | @more text c _ hc ih =>
    obtain ⟨state, buffer, hstate, hrun⟩ := ih
    rw [foldlM_append, hrun]
    rcases hstate with rfl | rfl
    · obtain ⟨r, hr⟩ : ∃ r, collectNum buffer (digit c) (buffer < 0) = r := ⟨_, rfl⟩
      refine ⟨if r.2 then .isMax else .collectingNumbers, r.1, by cases r.2 <;> simp, ?_⟩
      simp [step, handleArrayIndex, hc, (hdigit hc).2, hr]
    · exact ⟨.isMax, buffer, .inr rfl, by simp [step, handleArrayIndex, hc, (hdigit hc).2]⟩

theorem run_quote (h : Between elements p) {key : List Char} (hkey : Plain key) :
    ('.' :: (key ++ ['"'])).foldlM step p = some (.inQuotedKey key [] false, elements) := by
  rw [foldlM_cons, h.next (.inl rfl)]
  change (key ++ ['"']).foldlM step (.inKey [], elements) = _
  rw [foldlM_append, run_key [] key hkey]
  rfl

theorem run_locator (h : Between elements p) {text : List Char} (htext : Locator text) :
    ∃ e, ('[' :: (text ++ [']'])).foldlM step p = some (.expectDotOrBracket, elements ++ [e]) := by
  rw [foldlM_cons, h.next (.inr rfl)]
  change ∃ e, (text ++ [']']).foldlM step (.inArrayIndex .start 0, elements) = _
  rw [foldlM_append]
  cases htext with
  | atEnd => exact ⟨_, rfl⟩
  | number h =>
    obtain ⟨state, buffer, hstate, hrun⟩ := @run_numeral elements _ h
    rw [hrun]
    rcases hstate with rfl | rfl <;> exact ⟨_, rfl⟩
  | @quoted quote content hquote h =>
    have hopen : step (.inArrayIndex .start 0, elements) quote =
        some (.inBracketQuotedKey quote [] false, elements) := by
      rcases hquote with rfl | rfl <;> rfl
    have hrun := @run_unquoted elements quote (.inBracketQuotedKey quote) content hquote.ne_escape
      (fun content escaped c hc => by rw [step, if_neg hc]) h
    rw [foldlM_cons, hopen, Option.bind_eq_bind, Option.bind_some, foldlM_append, hrun]
    refine ⟨.bracketQuotedKey content, ?_⟩
    simp [step]

theorem run_inside (h : Between elements p) {key content : List Char} {escaped : Bool}
    (hkey : Plain key) (hcontent : Inside '"' content escaped) :
    ('.' :: (key ++ '"' :: content)).foldlM step p =
      some (.inQuotedKey key content escaped, elements) := by
  have hrun {content : List Char} (hcontent : Unquoted '"' content) :
      ('.' :: (key ++ '"' :: content)).foldlM step p =
        some (.inQuotedKey key content false, elements) := by
    have happend : '.' :: (key ++ '"' :: content) = '.' :: (key ++ ['"']) ++ content := by simp
    rw [happend, foldlM_append, run_quote h hkey]
    exact @run_unquoted elements '"' (.inQuotedKey key) content (by decide)
      (fun content escaped c hc => by rw [step, if_neg hc]) hcontent
  cases escaped with
  | false => exact hrun hcontent
  | true =>
    obtain ⟨before, hbefore, rfl⟩ := hcontent
    have happend : '.' :: (key ++ '"' :: (before ++ ['\\'])) =
        '.' :: (key ++ '"' :: before) ++ ['\\'] := by simp
    rw [happend, foldlM_append, hrun hbefore]
    rfl

theorem Complete.run {path : List Char} (h : Complete path) :
    ∃ elements p, path.foldlM step (.start, []) = some p ∧ Between elements p := by
  induction h with
  | root => exact ⟨_, _, rfl, .afterRoot⟩
  | @key before key _ hkey hne ih =>
    obtain ⟨elements, p, hrun, hp⟩ := ih
    refine ⟨elements ++ [.key key false], (.inKey key, elements), ?_, .inKey hne rfl⟩
    rw [foldlM_append, hrun, Option.bind_eq_bind, Option.bind_some, foldlM_cons,
      hp.next (.inl rfl)]
    exact run_key [] key hkey
  | @quotedKey before key content _ hkey hcontent ih =>
    obtain ⟨elements, p, hrun, hp⟩ := ih
    have happend : '.' :: (key ++ '"' :: (content ++ ['"'])) =
        '.' :: (key ++ '"' :: content) ++ ['"'] := by simp
    rw [foldlM_append, hrun, Option.bind_eq_bind, Option.bind_some, happend, foldlM_append,
      run_inside hp hkey (show Inside '"' content false from hcontent)]
    exact ⟨_, _, rfl, .expectDotOrBracket⟩
  | bracket _ htext ih =>
    obtain ⟨elements, p, hrun, hp⟩ := ih
    obtain ⟨e, hlocator⟩ := run_locator hp htext
    rw [foldlM_append, hrun]
    exact ⟨_, _, hlocator, .expectDotOrBracket⟩

/-- The part of a bracket that has been read. -/
def Opened : ArrayIndexState → List Char → Prop
  | .start, text => text = []
  | .afterHash, text => text = ['#']
  | .afterMinus, text => text = ['#', '-']
  | .collectingNumbers, text | .isMax, text => Numeral text

/-- The texts that lead to a state. -/
def PPState.Reached : PPState → List Char → Prop
  | .start, path => path = []
  | .afterRoot, path | .expectDotOrBracket, path => Complete path
  | .inKey key, path => ∃ before, Complete before ∧ Plain key ∧ path = before ++ '.' :: key
  | .inQuotedKey key content escaped, path => ∃ before, Complete before ∧ Plain key ∧
      Inside '"' content escaped ∧ path = before ++ '.' :: (key ++ '"' :: content)
  | .inArrayIndex state _, path => ∃ before text, Complete before ∧ Opened state text ∧
      path = before ++ '[' :: text
  | .inBracketQuotedKey quote content escaped, path => ∃ before, Complete before ∧
      IsQuote quote ∧ Inside quote content escaped ∧ path = before ++ '[' :: quote :: content
  | .afterBracketQuotedKey content, path => ∃ before quote, Complete before ∧ IsQuote quote ∧
      Unquoted quote content ∧ path = before ++ '[' :: quote :: (content ++ [quote])

theorem Inside.next {quote c : Char} {content : List Char} {escaped : Bool}
    (h : Inside quote content escaped) (hc : ¬(c = quote ∧ escaped = false)) :
    Inside quote (content ++ [c]) (c = '\\' && !escaped) := by
  cases escaped with
  | false =>
    by_cases hescape : c = '\\'
    · subst hescape
      exact ⟨content, h, rfl⟩
    · simp only [hescape, decide_false, Bool.false_and]
      exact .char h (fun heq => hc ⟨heq, rfl⟩) hescape
  | true =>
    obtain ⟨before, hbefore, rfl⟩ := h
    rw [Bool.not_true, Bool.and_false, append_assoc]
    exact .escape hbefore c

theorem reached_expectDotOrBracket {path : List Char} (h : Complete path) {c : Char} {q : Parser}
    (hq : handleExpectDotOrBracket elements c = some q) : q.1.Reached (path ++ [c]) := by
  rw [handleExpectDotOrBracket] at hq
  split at hq
  next hc =>
    cases hq
    exact ⟨path, h, nofun, by rw [hc]⟩
  split at hq
  next hc =>
    cases hq
    exact ⟨path, [], h, rfl, by rw [hc]⟩
  · cases hq

theorem reached_arrayIndex {before text : List Char} (h : Complete before)
    {state : ArrayIndexState} (htext : Opened state text) {buffer : Int} {c : Char} {q : Parser}
    (hq : handleArrayIndex state buffer elements c = some q) :
    q.1.Reached (before ++ '[' :: text ++ [c]) := by
  have happend : before ++ '[' :: text ++ [c] = before ++ '[' :: (text ++ [c]) := by simp
  rw [happend]
  cases state with
  | start =>
    obtain rfl : text = [] := htext
    rw [handleArrayIndex] at hq
    split at hq
    next hc =>
      cases hq
      exact ⟨before, ['#'], h, rfl, by rw [hc]; rfl⟩
    split at hq
    next hc =>
      cases hq
      exact ⟨before, [c], h, .first hc, rfl⟩
    split at hq
    next hc =>
      cases hq
      exact ⟨before, h, hc, .nil, rfl⟩
    · cases hq
  | afterHash =>
    obtain rfl : text = ['#'] := htext
    rw [handleArrayIndex] at hq
    split at hq
    next hc =>
      cases hq
      exact ⟨before, ['#', '-'], h, rfl, by rw [hc]; rfl⟩
    split at hq
    next hc =>
      cases hq
      rw [hc]
      exact .bracket h .atEnd
    · cases hq
  | afterMinus =>
    obtain rfl : text = ['#', '-'] := htext
    rw [handleArrayIndex] at hq
    split at hq
    next hc =>
      cases hq
      exact ⟨before, ['#', '-', c], h, .fromEnd hc, rfl⟩
    · cases hq
  | collectingNumbers | isMax =>
    simp only [handleArrayIndex] at hq
    split at hq
    next hc =>
      cases hq
      rw [hc]
      exact .bracket h (.number htext)
    split at hq
    next hc =>
      cases hq
      refine ⟨before, text ++ [c], h, ?_, rfl⟩
      first | exact .more htext hc | split <;> exact .more htext hc
    · cases hq

theorem reached_step {path : List Char} {c : Char} {q : Parser} (h : p.1.Reached path)
    (hq : step p c = some q) : q.1.Reached (path ++ [c]) := by
  obtain ⟨state, elements⟩ := p
  cases state with
  | start =>
    obtain rfl : path = [] := h
    rw [step] at hq
    split at hq
    next hc =>
      cases hq
      rw [hc]
      exact .root
    · cases hq
  | afterRoot | expectDotOrBracket => exact reached_expectDotOrBracket h hq
  | inKey key =>
    obtain ⟨before, hbefore, hkey, rfl⟩ := h
    rw [step] at hq
    split at hq
    · split at hq
      · cases hq
      next hne => exact reached_expectDotOrBracket (.key hbefore hkey hne) hq
    next hplain =>
      split at hq
      next hc =>
        cases hq
        exact ⟨before, hbefore, hkey, .nil, by rw [hc]; simp⟩
      next hquote =>
        cases hq
        refine ⟨before, hbefore, forall_mem_append.2 ⟨hkey, forall_mem_singleton.2 ?_⟩, by simp⟩
        rw [not_or] at hplain
        exact ⟨hplain.1, hplain.2, hquote⟩
  | inQuotedKey key content escaped =>
    obtain ⟨before, hbefore, hkey, hcontent, rfl⟩ := h
    rw [step] at hq
    split at hq
    next hc =>
      cases hq
      obtain ⟨rfl, rfl⟩ := hc
      have hcomplete := Complete.quotedKey hbefore hkey hcontent
      simpa [PPState.Reached] using hcomplete
    next hc =>
      cases hq
      exact ⟨before, hbefore, hkey, hcontent.next hc, by simp⟩
  | inArrayIndex state buffer =>
    obtain ⟨before, text, hbefore, htext, rfl⟩ := h
    exact reached_arrayIndex hbefore htext hq
  | inBracketQuotedKey quote content escaped =>
    obtain ⟨before, hbefore, hquote, hcontent, rfl⟩ := h
    rw [step] at hq
    split at hq
    next hc =>
      cases hq
      obtain ⟨rfl, rfl⟩ := hc
      exact ⟨before, c, hbefore, hquote, hcontent, by simp⟩
    next hc =>
      cases hq
      exact ⟨before, hbefore, hquote, hcontent.next hc, by simp⟩
  | afterBracketQuotedKey content =>
    obtain ⟨before, quote, hbefore, hquote, hcontent, rfl⟩ := h
    rw [step] at hq
    split at hq
    next hc =>
      cases hq
      have hcomplete := Complete.bracket hbefore (.quoted hquote hcontent)
      rw [hc]
      simpa [PPState.Reached] using hcomplete
    · cases hq

theorem reached_run {path : List Char} (h : path.foldlM step (.start, []) = some p) :
    p.1.Reached path := by
  induction path using List.reverseRecOn generalizing p with
  | nil =>
    cases h
    exact rfl
  | append_singleton path c ih =>
    rw [foldlM_append, Option.bind_eq_bind, Option.bind_eq_some_iff] at h
    obtain ⟨q, hq, hstep⟩ := h
    exact reached_step (ih hq) (by simpa using hstep)

/-- The test of `finalize_path` on the text of a key that has a quote in it. -/
theorem isSome_finalizePath_inQuotedKey {key content : List Char} {escaped : Bool}
    (hkey : Plain key) : (finalizePath (.inQuotedKey key content escaped, elements)).isSome ↔
      key ≠ [] ∨ content.getLast? = some '"' := by
  rw [finalizePath]
  cases key with
  | nil => cases content <;> simp
  | cons c key =>
    have hc : c ≠ '"' := (hkey c mem_cons_self).2.2
    simp [hc]

theorem jsonPath_isSome_iff (path : List Char) :
    (jsonPath path).isSome ↔ Complete path ∨ LooksClosed path := by
  rw [jsonPath]
  constructor
  · intro h
    obtain ⟨result, hresult⟩ := Option.isSome_iff_exists.1 h
    obtain ⟨⟨state, elements⟩, hrun, hfinal⟩ := Option.bind_eq_some_iff.1 hresult
    have hreached := reached_run hrun
    cases state with
    | afterRoot | expectDotOrBracket => exact .inl hreached
    | inKey key =>
      obtain ⟨before, hbefore, hkey, rfl⟩ := hreached
      rw [finalizePath] at hfinal
      split at hfinal
      · cases hfinal
      next hne => exact .inl (.key hbefore hkey hne)
    | inQuotedKey key content escaped =>
      obtain ⟨before, hbefore, hkey, hcontent, rfl⟩ := hreached
      have hsome := hfinal ▸ Option.isSome_some
      exact .inr (.intro hbefore hkey hcontent ((isSome_finalizePath_inQuotedKey hkey).1 hsome))
    | start | inArrayIndex | inBracketQuotedKey | afterBracketQuotedKey => cases hfinal
  · rintro (h | ⟨h, hkey, hcontent, hlooks⟩)
    · obtain ⟨elements, p, hrun, hp⟩ := h.run
      rw [hrun, Option.bind_some, hp.finalizePath]
      rfl
    · obtain ⟨elements, p, hrun, hp⟩ := h.run
      rw [foldlM_append, hrun, Option.bind_eq_bind, Option.bind_some, run_inside hp hkey hcontent,
        Option.bind_some]
      exact (isSome_finalizePath_inQuotedKey hkey).2 hlooks

end PgMicro.Json
