import ZnetServer.Iteration
import ZnetServer.LogFormatter

set_option autoImplicit false

/- The two loops of `LogFormatter::init` one iteration at a time, with everything that C++
leaves to the program checked: an index, the start of a `substr`, a result of `size_t`. -/
namespace ZnetServer.LogFormatter

open Iteration

inductive Fault where
  /-- `m_pattern[k]` with `k` not below the size. -/
  | index
  /-- `substr` throws `std::out_of_range`. -/
  | outOfRange
  /-- A sum or a difference is no `size_t`. -/
  | wraps
  deriving DecidableEq

/-- A `std::string`. Its size and the terminator behind it are within `size_t`. -/
structure StdString where
  chars : List Char
  fits : chars.length + 1 < UInt64.size

namespace StdString

def size (str : StdString) : Nat := str.chars.length

def get (str : StdString) (k : Nat) : Except Fault Char :=
  match str.chars[k]? with
  | some c => .ok c
  | none => .error .index

/-- `substr`, with `npos` for the count if there is none. -/
def substr (str : StdString) (start : Nat) (count : Option Nat) : Except Fault (List Char) :=
  if start ≤ str.size then .ok (LogFormatter.substr str.chars start (count.getD str.size))
  else .error .outOfRange

end StdString

def plus (a b : Nat) : Except Fault Nat :=
  if a + b < UInt64.size then .ok (a + b) else .error .wraps

def minus (a b : Nat) : Except Fault Nat := if b ≤ a then .ok (a - b) else .error .wraps

/-- `j - i - 1` -/
def spanned (i j : Nat) : Except Fault Nat := do
  let behind ← minus j i
  minus behind 1

/-- `m_pattern.substr(i + 1, j - i - 1)` -/
def fieldText (pattern : StdString) (i j : Nat) : Except Fault (List Char) := do
  let start ← plus i 1
  let count ← spanned i j
  pattern.substr start (some count)

/-- In front of an iteration of the outer loop, in front of one of the inner loop, or behind
both. -/
inductive Scanner where
  | outer (i : Nat) (vec : List Piece) (literal : List Char)
  | inner (i : Nat) (s : FieldScan) (vec : List Piece) (literal : List Char)
  | finished (vec : List Piece) (literal : List Char)
  deriving DecidableEq

namespace Scanner

/-- `field_str` behind the inner loop, where the pattern may have ended. -/
def lastField (pattern : StdString) (i : Nat) (s : FieldScan) : Except Fault (List Char) :=
  if s.j = pattern.size then do
    let count ← spanned i s.j
    if count > 0 then fieldText pattern i s.j else pure s.field
  else pure s.field

/-- What the outer loop does behind the inner one, to its `++i`. -/
def leave (pattern : StdString) (i : Nat) (s : FieldScan) (vec : List Piece)
    (literal : List Char) : Except Fault Scanner := do
  let field ← lastField pattern i s
  let piece ←
    if s.status = .format then do
      -- The text of the message on the console.
      let _ ← pattern.substr i none
      pure ⟨"<<pattern_error>>".toList, s.fmt, false⟩
    else pure ⟨field, s.fmt, true⟩
  let next ← plus s.j 1
  pure (.outer next (flush vec literal ++ [piece]) [])

def stepInner (pattern : StdString) (i : Nat) (s : FieldScan) (vec : List Piece)
    (literal : List Char) : Except Fault Scanner :=
  if s.j < pattern.size then do
    let c ← pattern.get s.j
    if s.status = .name ∧ endsName c then do
      let field ← fieldText pattern i s.j
      let j ← minus s.j 1
      leave pattern i { s with field, j } vec literal
    else if s.status = .name ∧ c = '{' then do
      let field ← fieldText pattern i s.j
      let fmtBegin ← plus s.j 1
      pure (.inner i { s with field, status := .format, fmtBegin } vec literal)
    else if s.status = .format ∧ c = '}' then do
      let count ← minus s.j s.fmtBegin
      let fmt ← pattern.substr s.fmtBegin (some count)
      leave pattern i { s with status := .closed, fmt } vec literal
    else do
      let j ← plus s.j 1
      pure (.inner i { s with j } vec literal)
  else leave pattern i s vec literal

def stepOuter (pattern : StdString) (i : Nat) (vec : List Piece) (literal : List Char) :
    Except Fault Scanner :=
  if i < pattern.size then do
    let c ← pattern.get i
    let next ← plus i 1
    if c ≠ '%' then pure (.outer next vec (literal ++ [c]))
    else if next < pattern.size then do
      let d ← pattern.get next
      if d = '%' then pure (.outer next vec (literal ++ ['%']))
      else pure (.inner i (.start i) vec literal)
    else pure (.inner i (.start i) vec literal)
  else pure (.finished vec literal)

def step (pattern : StdString) : Scanner → Except Fault Scanner
  | outer i vec literal => stepOuter pattern i vec literal
  | inner i s vec literal => stepInner pattern i s vec literal
  | finished vec literal => pure (.finished vec literal)

def start : Scanner := .outer 0 [] []

section Checks

variable {pattern : StdString} {i j a b : Nat}

@[simp] theorem ok_bind {α β : Type} (x : α) (f : α → Except Fault β) :
    (Except.ok x >>= f) = f x := rfl

@[simp] theorem pure_ok {α : Type} (x : α) : (pure x : Except Fault α) = .ok x := rfl

theorem get_ok (inside : j < pattern.size) :
    pattern.get j = .ok (pattern.chars.get ⟨j, inside⟩) := by
  rw [StdString.get, List.getElem?_eq_getElem inside]
  rfl

theorem plus_ok (fits : a + b < UInt64.size) : plus a b = .ok (a + b) := if_pos fits

theorem minus_ok (fits : b ≤ a) : minus a b = .ok (a - b) := if_pos fits

/-- An index of the string, or the place behind its end, has a successor in `size_t`. -/
theorem next_ok (inside : j ≤ pattern.size) : plus j 1 = .ok (j + 1) := by
  have fits := pattern.fits
  apply plus_ok
  unfold StdString.size at inside
  omega

theorem substr_ok (inside : a ≤ pattern.size) : pattern.substr a (some b) =
    .ok (substr pattern.chars a b) := if_pos inside

theorem spanned_ok (behind : i + 1 ≤ j) : spanned i j = .ok (j - i - 1) := by
  rw [spanned, minus_ok (by omega), ok_bind, minus_ok (by omega)]

theorem fieldText_ok (behind : i + 1 ≤ j) (inside : j ≤ pattern.size) :
    fieldText pattern i j = .ok (substr pattern.chars (i + 1) (j - i - 1)) := by
  rw [fieldText, next_ok (show i ≤ pattern.size by omega), ok_bind, spanned_ok behind, ok_bind,
    substr_ok (by omega)]

theorem lastField_ok {s : FieldScan} (whole : s.j = pattern.size → i + 1 ≤ s.j) :
    lastField pattern i s =
      .ok (if s.j = pattern.chars.length ∧ s.j - i - 1 > 0 then
        substr pattern.chars (i + 1) (s.j - i - 1) else s.field) := by
  unfold lastField
  by_cases ended : s.j = pattern.size
  · rw [if_pos ended, spanned_ok (whole ended), ok_bind,
      fieldText_ok (whole ended) (Nat.le_of_eq ended)]
    by_cases longer : s.j - i - 1 > 0
    · rw [if_pos longer, if_pos ⟨ended, longer⟩]
    · rw [if_neg longer, if_neg (fun both => longer both.2)]
      rfl
  · rw [if_neg ended, if_neg (fun both => ended both.1)]
    rfl

theorem leave_ok {s : FieldScan} (vec : List Piece) (literal : List Char)
    (opened : i < pattern.size) (inside : s.j ≤ pattern.size)
    (whole : s.j = pattern.size → i + 1 ≤ s.j) :
    leave pattern i s vec literal =
      .ok (.outer (s.j + 1) (flush vec literal ++ [s.piece pattern.chars i]) []) := by
  unfold leave FieldScan.piece
  by_cases opens : s.status = .format
  · have text : pattern.substr i none = .ok (substr pattern.chars i pattern.size) :=
      if_pos (Nat.le_of_lt opened)
    simp only [lastField_ok whole, next_ok inside, text, if_pos opens, pure_ok, ok_bind]
  · simp only [lastField_ok whole, next_ok inside, if_neg opens, pure_ok, ok_bind]

end Checks

/-- What holds at each test of the inner loop's condition. A format begins behind the brace
that opened it, which is passed by the next iteration. -/
structure InField (pattern : StdString) (i : Nat) (s : FieldScan) : Prop where
  opened : i < pattern.size
  began : i + 1 ≤ s.j
  inside : s.j ≤ pattern.size
  format : s.status = .format →
    s.fmtBegin ≤ s.j ∨ s.fmtBegin = s.j + 1 ∧ pattern.chars[s.j]? = some '{'

/-- What holds in front of each iteration. -/
def Valid (pattern : StdString) : Scanner → Prop
  | outer i _ _ => i ≤ pattern.size + 1
  | inner i s _ _ => InField pattern i s
  | finished _ _ => True

/-- What is left for `vec` and `literal_str` to become. -/
def result (pattern : StdString) : Scanner → List Piece × List Char
  | outer i vec literal => scan pattern.chars i vec literal
  | inner i s vec literal =>
    let t := scanField pattern.chars i s
    scan pattern.chars (t.j + 1) (flush vec literal ++ [t.piece pattern.chars i]) []
  | finished vec literal => (vec, literal)

/-- The rest of the pattern, and the status where the inner loop stays on a brace. -/
def rank (pattern : StdString) : Scanner → Nat
  | outer i _ _ => 3 * (pattern.size - i) + 1
  | inner _ s _ _ => 3 * (pattern.size - s.j) + (if s.status = .name then 1 else 0) + 2
  | finished _ _ => 0

/-- No later iteration of the outer loop begins below. -/
def height (pattern : StdString) : Scanner → Nat
  | outer i _ _ => i
  | inner i _ _ _ => i + 1
  | finished _ _ => pattern.size + 2

/-- What one iteration does. -/
structure Advances (pattern : StdString) (s t : Scanner) : Prop where
  valid : t.Valid pattern
  result : t.result pattern = s.result pattern
  rank : (∀ vec literal, s ≠ .finished vec literal) → t.rank pattern < s.rank pattern
  height : s.height pattern ≤ t.height pattern
  later : ∀ i vec literal, s = .outer i vec literal → s.height pattern < t.height pattern

section Steps

variable {pattern : StdString} {i : Nat} {s : FieldScan} {vec : List Piece} {literal : List Char}

/-- The brace that opened a format is not the one that closes it. -/
theorem InField.closing (field : InField pattern i s) (bound : s.j < pattern.chars.length)
    (format : s.status = .format) (brace : pattern.chars[s.j] = '}') : s.fmtBegin ≤ s.j := by
  rcases field.format format with passed | ⟨_, opening⟩
  · exact passed
  · rw [List.getElem?_eq_getElem bound, brace] at opening
    cases opening

theorem InField.passes (field : InField pattern i s) (inside : s.j < pattern.size) :
    InField pattern i { s with j := s.j + 1 } := by
  refine ⟨field.opened, Nat.le_succ_of_le field.began, inside, fun format => .inl ?_⟩
  rcases field.format format with passed | ⟨before, _⟩
  · exact Nat.le_succ_of_le passed
  · exact Nat.le_of_eq before

/-- The inner loop ends with `last`. -/
theorem leave_advances {last : FieldScan} (field : InField pattern i s)
    (ends : scanField pattern.chars i s = last) (behind : i ≤ last.j) (near : s.j ≤ last.j + 1)
    (inside : last.j ≤ pattern.size) (whole : last.j = pattern.size → i + 1 ≤ last.j) :
    ∃ t, leave pattern i last vec literal = .ok t ∧
      Advances pattern (.inner i s vec literal) t := by
  refine ⟨_, leave_ok vec literal field.opened inside whole, ?_, ?_, fun _ => ?_, ?_, nofun⟩
  · exact Nat.succ_le_succ inside
  · simp only [result, ends]
  · have within := field.inside
    simp only [rank]
    omega
  · exact Nat.succ_le_succ behind

/-- The inner loop goes on with `later`. -/
theorem stays_advances {later : FieldScan}
    (goes : scanField pattern.chars i s = scanField pattern.chars i later)
    (field : InField pattern i later)
    (lower : (inner i later vec literal).rank pattern < (inner i s vec literal).rank pattern) :
    Advances pattern (.inner i s vec literal) (.inner i later vec literal) := by
  refine ⟨field, ?_, fun _ => lower, Nat.le_refl _, nofun⟩
  simp only [result, goes]

theorem stepInner_advances (field : InField pattern i s) :
    ∃ t, stepInner pattern i s vec literal = .ok t ∧
      Advances pattern (.inner i s vec literal) t := by
  have opened := field.opened
  have began := field.began
  have within := field.inside
  unfold stepInner
  by_cases inside : s.j < pattern.size
  · have bound : s.j < pattern.chars.length := inside
    have loop := scanField.eq_def pattern.chars i s
    rw [dif_pos bound] at loop
    rw [if_pos inside, get_ok inside, ok_bind]
    simp only [List.get_eq_getElem]
    by_cases stops : s.status = .name ∧ endsName pattern.chars[s.j]
    · rw [if_pos stops] at loop
      rw [if_pos stops, fieldText_ok began within, ok_bind, minus_ok (by omega), ok_bind]
      apply leave_advances field loop <;> simp only <;> omega
    · rw [if_neg stops] at loop
      rw [if_neg stops]
      by_cases opens : s.status = .name ∧ pattern.chars[s.j] = '{'
      · rw [if_pos opens] at loop
        rw [if_pos opens, fieldText_ok began within, ok_bind, next_ok within, ok_bind]
        have brace : pattern.chars[s.j]? = some '{' := by
          rw [List.getElem?_eq_getElem bound, opens.2]
        refine ⟨_, rfl, stays_advances loop
          ⟨opened, began, within, fun _ => .inr ⟨rfl, brace⟩⟩ ?_⟩
        simp only [rank, opens.1, reduceCtorEq, ↓reduceIte]
        omega
      · rw [if_neg opens] at loop
        rw [if_neg opens]
        by_cases closes : s.status = .format ∧ pattern.chars[s.j] = '}'
        · have format := field.closing bound closes.1 closes.2
          rw [if_pos closes] at loop
          rw [if_pos closes, minus_ok format, ok_bind, substr_ok (by omega), ok_bind]
          apply leave_advances field loop <;> simp only <;> omega
        · rw [if_neg closes] at loop
          rw [if_neg closes, next_ok within, ok_bind]
          refine ⟨_, rfl, stays_advances loop (field.passes inside) ?_⟩
          simp only [rank]
          omega
  · have loop := scanField.eq_def pattern.chars i s
    rw [dif_neg (show ¬ s.j < pattern.chars.length from inside)] at loop
    rw [if_neg inside]
    apply leave_advances field loop <;> omega

theorem stepOuter_advances (before : i ≤ pattern.size + 1) :
    ∃ t, stepOuter pattern i vec literal = .ok t ∧
      Advances pattern (.outer i vec literal) t := by
  unfold stepOuter
  by_cases inside : i < pattern.size
  · have bound : i < pattern.chars.length := inside
    have loop := scan.eq_def pattern.chars i vec literal
    rw [dif_pos bound] at loop
    rw [if_pos inside, get_ok inside, ok_bind, next_ok (Nat.le_of_lt inside), ok_bind]
    simp only [List.get_eq_getElem]
    have text (read : List Char) (same : scan pattern.chars i vec literal =
        scan pattern.chars (i + 1) vec read) :
        Advances pattern (.outer i vec literal) (.outer (i + 1) vec read) := by
      refine ⟨Nat.succ_le_succ (Nat.le_of_lt inside), same.symm, fun _ => ?_, Nat.le_succ i,
        fun _ _ _ _ => Nat.lt_succ_self i⟩
      simp only [rank]
      omega
    by_cases plain : pattern.chars[i] ≠ '%'
    · rw [if_pos plain] at loop ⊢
      exact ⟨_, rfl, text _ loop⟩
    · rw [if_neg plain] at loop ⊢
      have enters (single : ¬ pattern.chars[i + 1]? = some '%') :
          Advances pattern (.outer i vec literal) (.inner i (.start i) vec literal) := by
        rw [if_neg single] at loop
        refine ⟨⟨inside, Nat.le_refl _, inside, nofun⟩, loop.symm, fun _ => ?_, Nat.le_succ i,
          fun _ _ _ _ => Nat.lt_succ_self i⟩
        simp only [rank, FieldScan.start, ↓reduceIte]
        omega
      by_cases more : i + 1 < pattern.size
      · have further : i + 1 < pattern.chars.length := more
        rw [if_pos more, get_ok more, ok_bind]
        simp only [List.get_eq_getElem]
        by_cases double : pattern.chars[i + 1] = '%'
        · rw [if_pos double]
          rw [List.getElem?_eq_getElem further, double, if_pos rfl] at loop
          exact ⟨_, rfl, text _ loop⟩
        · rw [if_neg double]
          refine ⟨_, rfl, enters ?_⟩
          rw [List.getElem?_eq_getElem further]
          exact fun same => double (Option.some.inj same)
      · rw [if_neg more]
        refine ⟨_, rfl, enters ?_⟩
        rw [List.getElem?_eq_none (Nat.le_of_not_lt more)]
        nofun
  · rw [if_neg inside]
    have loop := scan.eq_def pattern.chars i vec literal
    rw [dif_neg (show ¬ i < pattern.chars.length from inside)] at loop
    refine ⟨_, rfl, trivial, loop.symm, fun _ => Nat.succ_pos _, ?_, fun _ _ _ _ => ?_⟩
    · simp only [height]
      omega
    · simp only [height]
      omega

def IsFinished : Scanner → Prop
  | finished _ _ => True
  | _ => False

theorem step_advances {s : Scanner} (valid : s.Valid pattern) :
    ∃ t, step pattern s = .ok t ∧ Advances pattern s t := by
  cases s with
  | outer i vec literal => exact stepOuter_advances valid
  | inner i s vec literal => exact stepInner_advances valid
  | finished vec literal =>
      exact ⟨_, rfl, trivial, rfl, fun running => absurd rfl (running vec literal),
        Nat.le_refl _, nofun⟩

/-- What `init` makes of the whole pattern stays what is left to be made of it. -/
theorem step_keeps (pattern : StdString) : Keeps (step pattern) fun s =>
    s.Valid pattern ∧ s.result pattern = scan pattern.chars 0 [] [] := by
  rintro s ⟨valid, same⟩
  obtain ⟨t, stepped, advances⟩ := step_advances valid
  exact ⟨t, stepped, advances.valid, advances.result.trans same⟩

theorem start_valid (pattern : StdString) :
    start.Valid pattern ∧ start.result pattern = scan pattern.chars 0 [] [] :=
  ⟨Nat.zero_le _, rfl⟩

theorem advances_of_step {s t : Scanner} (valid : s.Valid pattern)
    (stepped : step pattern s = .ok t) : Advances pattern s t := by
  obtain ⟨u, same, advances⟩ := step_advances valid
  rw [stepped] at same
  obtain rfl := Except.ok.inj same
  exact advances

theorem run_finishes (pattern : StdString) : ∃ n ≤ 3 * pattern.size + 1,
    iterate (step pattern) n start =
      .ok (.finished (scan pattern.chars 0 [] []).1 (scan pattern.chars 0 [] []).2) := by
  have falls (s t : Scanner) (valid : s.Valid pattern) (stepped : step pattern s = .ok t)
      (running : ¬ s.IsFinished) : t.rank pattern < s.rank pattern := by
    apply (advances_of_step valid stepped).rank
    rintro vec literal rfl
    exact running trivial
  obtain ⟨n, t, few, run, ⟨_, same⟩, final⟩ := (step_keeps pattern).ends (rank pattern)
    (fun s t inv => falls s t inv.1) (start_valid pattern)
  cases t with
  | finished vec literal =>
      refine ⟨n, few, ?_⟩
      rw [run, ← same]
      rfl
  | outer | inner => exact final.elim

/-- Between two iterations of the outer loop the index has grown. -/
theorem index_grows {m n i k : Nat} {vec vec' : List Piece} {literal literal' : List Char}
    (earlier : m < n) (first : iterate (step pattern) m start = .ok (.outer i vec literal))
    (second : iterate (step pattern) n start = .ok (.outer k vec' literal')) : i < k := by
  have apart : n = m + (n - m - 1 + 1) := by omega
  rw [apart] at second
  obtain ⟨s, front, back⟩ := iterate_split second
  rw [first] at front
  obtain rfl := Except.ok.inj front
  obtain ⟨t, stepped, rest⟩ := iterate_succ back
  have inv := ((step_keeps pattern).iterate m).next (start_valid pattern) first
  have above := (advances_of_step inv.1 stepped).later i vec literal rfl
  have higher := (step_keeps pattern).rises (height pattern)
    (fun s t inv stepped => (advances_of_step inv.1 stepped).height)
    ((step_keeps pattern).next inv stepped) rest
  exact Nat.lt_of_lt_of_le above higher

end Steps

/-- The scan neither reads nor cuts outside the pattern, no `size_t` wraps, it ends after at
most three iterations for each character and one more, with what `scan` gives, and each
iteration of the outer loop begins behind the one before. -/
theorem scan_in_bounds (pattern : StdString) :
    (∀ n, ∃ s, iterate (step pattern) n start = .ok s) ∧
    (∃ n ≤ 3 * pattern.size + 1, iterate (step pattern) n start =
      .ok (.finished (scan pattern.chars 0 [] []).1 (scan pattern.chars 0 [] []).2)) ∧
    ∀ m n i k vec literal vec' literal', m < n →
      iterate (step pattern) m start = .ok (.outer i vec literal) →
      iterate (step pattern) n start = .ok (.outer k vec' literal') → i < k := by
  refine ⟨fun n => ?_, run_finishes pattern, fun m n i k vec literal vec' literal' => ?_⟩
  · obtain ⟨s, run, _⟩ := (step_keeps pattern).iterate n start (start_valid pattern)
    exact ⟨s, run⟩
  · exact index_grows

end Scanner

end ZnetServer.LogFormatter
