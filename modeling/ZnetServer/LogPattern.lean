import Mathlib.Data.List.Chain
import ZnetServer.LogFormatter

set_option autoImplicit false

/- What `LogFormatter::init` makes of a pattern printed from literals and fields. -/
namespace ZnetServer.LogFormatter

section Positions

variable {pattern : List Char} {i : Nat} {c : Char} {text rest : List Char}

theorem inside_of_ahead (ahead : pattern.drop i = c :: rest) : i < pattern.length := by
  by_contra outside
  rw [List.drop_eq_nil_of_le (by omega)] at ahead
  cases ahead

theorem getElem_of_ahead (ahead : pattern.drop i = c :: rest) (inside : i < pattern.length) :
    pattern[i] = c := by
  rw [List.drop_eq_getElem_cons inside] at ahead
  exact (List.cons.inj ahead).1

theorem drop_of_ahead (ahead : pattern.drop i = text ++ rest) :
    pattern.drop (i + text.length) = rest := by
  rw [← List.drop_drop, ahead, List.drop_left]

theorem drop_succ_of_ahead (ahead : pattern.drop i = c :: rest) :
    pattern.drop (i + 1) = rest := by
  have single : pattern.drop i = [c] ++ rest := ahead
  exact drop_of_ahead single

theorem substr_ahead (ahead : pattern.drop i = text ++ rest) :
    substr pattern i text.length = text := by
  rw [substr, ahead, List.take_left]

/-- The end of a pattern that ends behind a field name. -/
theorem length_of_ahead (ahead : pattern.drop i = text) (nonempty : text ≠ []) :
    pattern.length = i + text.length := by
  have length := congrArg List.length ahead
  have positive := List.length_pos_iff.mpr nonempty
  rw [List.length_drop] at length
  omega

end Positions

section InnerLoop

variable {pattern : List Char} {i : Nat} {s : FieldScan} {rest : List Char}

/-- The loop runs over what neither ends the name nor opens or closes a format. -/
theorem scanField_skip {text : List Char} (ahead : pattern.drop s.j = text ++ rest)
    (passes : ∀ c ∈ text, ¬ (s.status = .name ∧ endsName c = true) ∧
      ¬ (s.status = .name ∧ c = '{') ∧ ¬ (s.status = .format ∧ c = '}')) :
    scanField pattern i s = scanField pattern i { s with j := s.j + text.length } := by
  induction text generalizing s with
  | nil => rfl
  | cons c text ih =>
      have inside := inside_of_ahead ahead
      have here := getElem_of_ahead ahead inside
      have pass := passes c List.mem_cons_self
      have later := ih (s := { s with j := s.j + 1 }) (drop_succ_of_ahead ahead)
        (fun d member => passes d (List.mem_cons_of_mem c member))
      rw [scanField, dif_pos inside, here, if_neg pass.1, if_neg pass.2.1, if_neg pass.2.2, later]
      simp only [List.length_cons, Nat.add_assoc, Nat.add_comm 1]

theorem scanField_end (outside : pattern.length ≤ s.j) : scanField pattern i s = s := by
  rw [scanField, dif_neg (by omega)]

theorem scanField_stop {c : Char} (ahead : pattern.drop s.j = c :: rest)
    (named : s.status = .name) (ends : endsName c = true) :
    scanField pattern i s =
      { s with field := substr pattern (i + 1) (s.j - i - 1), j := s.j - 1 } := by
  have inside := inside_of_ahead ahead
  rw [scanField, dif_pos inside, getElem_of_ahead ahead inside, if_pos ⟨named, ends⟩]

theorem scanField_open (ahead : pattern.drop s.j = '{' :: rest) (named : s.status = .name) :
    scanField pattern i s = scanField pattern i
      { s with field := substr pattern (i + 1) (s.j - i - 1), status := .format,
               fmtBegin := s.j + 1 } := by
  have inside := inside_of_ahead ahead
  rw [scanField, dif_pos inside, getElem_of_ahead ahead inside,
    if_neg (fun ends => absurd ends.2 (by decide)), if_pos ⟨named, rfl⟩]

theorem scanField_close (ahead : pattern.drop s.j = '}' :: rest) (opened : s.status = .format) :
    scanField pattern i s =
      { s with status := .closed, fmt := substr pattern s.fmtBegin (s.j - s.fmtBegin) } := by
  have inside := inside_of_ahead ahead
  have unnamed : s.status ≠ .name := by simp [opened]
  rw [scanField, dif_pos inside, getElem_of_ahead ahead inside,
    if_neg (fun ends => unnamed ends.1), if_neg (fun opens => unnamed opens.1),
    if_pos ⟨opened, rfl⟩]

/-- Letters neither end a name nor open a format. -/
theorem letter_passes {c : Char} (letter : c.isAlpha = true) : endsName c = false ∧ c ≠ '{' := by
  refine ⟨by simp [endsName, letter], ?_⟩
  rintro rfl
  cases letter

/-- The loop in front of a field: it stands behind the name. -/
theorem scanField_letters {name : List Char} (ahead : pattern.drop (i + 1) = name ++ rest)
    (letters : ∀ c ∈ name, c.isAlpha = true) :
    scanField pattern i (.start i) =
      scanField pattern i { FieldScan.start i with j := i + 1 + name.length } := by
  refine scanField_skip (s := .start i) ahead fun c member => ?_
  have passes := letter_passes (letters c member)
  simp [FieldScan.start, passes.1, passes.2]

end InnerLoop

section OuterLoop

variable {pattern : List Char} {i : Nat} {vec : List Piece} {literal rest : List Char}

theorem scan_end (outside : pattern.length ≤ i) : scan pattern i vec literal = (vec, literal) := by
  rw [scan, dif_neg (by omega)]

theorem scan_text {text : List Char} (ahead : pattern.drop i = text ++ rest)
    (plain : '%' ∉ text) :
    scan pattern i vec literal = scan pattern (i + text.length) vec (literal ++ text) := by
  induction text generalizing i literal with
  | nil => rw [List.append_nil, List.length_nil, Nat.add_zero]
  | cons c text ih =>
      have inside := inside_of_ahead ahead
      have apart : c ≠ '%' := fun same => plain (same ▸ List.mem_cons_self)
      rw [scan, dif_pos inside, getElem_of_ahead ahead inside, if_pos apart,
        ih (drop_succ_of_ahead ahead) (fun member => plain (List.mem_cons_of_mem c member)),
        List.append_assoc, List.length_cons]
      congr 1
      omega

/-- A field is entered where no second `%` follows. -/
theorem scan_percent (ahead : pattern.drop i = '%' :: rest) (single : rest.head? ≠ some '%') :
    scan pattern i vec literal =
      scan pattern ((scanField pattern i (.start i)).j + 1)
        (flush vec literal ++ [(scanField pattern i (.start i)).piece pattern i]) [] := by
  have inside := inside_of_ahead ahead
  have next : pattern[i + 1]? ≠ some '%' := by
    rw [← List.head?_drop, drop_succ_of_ahead ahead]
    exact single
  rw [scan, dif_pos inside, getElem_of_ahead ahead inside, if_neg (by simp), if_neg next]

variable {name : List Char}

theorem head_of_letters (named : name ≠ []) (letters : ∀ c ∈ name, c.isAlpha = true) :
    (name ++ rest).head? ≠ some '%' := by
  cases name with
  | nil => exact absurd rfl named
  | cons c name =>
      intro same
      have letter := letters c List.mem_cons_self
      rw [Option.some.inj same] at letter
      cases letter

/-- A field without a format, in front of the end or of something that ends its name. -/
theorem scan_bare (ahead : pattern.drop i = '%' :: (name ++ rest)) (named : name ≠ [])
    (letters : ∀ c ∈ name, c.isAlpha = true) (stops : ∀ c ∈ rest.head?, endsName c = true) :
    scan pattern i vec literal =
      scan pattern (i + 1 + name.length) (flush vec literal ++ [⟨name, [], true⟩]) [] := by
  have behind := drop_succ_of_ahead ahead
  have positive := List.length_pos_iff.mpr named
  have whole : substr pattern (i + 1) (i + 1 + name.length - i - 1) = name := by
    rw [show i + 1 + name.length - i - 1 = name.length by omega]
    exact substr_ahead behind
  rw [scan_percent ahead (head_of_letters named letters), scanField_letters behind letters]
  cases rest with
  | nil =>
      have length : pattern.length = i + 1 + name.length := by
        rw [List.append_nil] at behind
        exact length_of_ahead behind named
      rw [scanField_end (by simp only; omega), scan_end (by simp only; omega),
        scan_end (by omega)]
      have some_name : i + 1 + name.length - i - 1 > 0 := by omega
      simp only [FieldScan.piece, FieldScan.start, length, whole, some_name, and_self,
        reduceCtorEq, ↓reduceIte]
  | cons c rest =>
      have next := drop_of_ahead behind
      have inside := inside_of_ahead next
      rw [scanField_stop next rfl (stops c rfl)]
      simp only [FieldScan.piece, FieldScan.start, whole, reduceCtorEq, ↓reduceIte]
      rw [if_neg (by omega), show i + 1 + name.length - 1 + 1 = i + 1 + name.length by omega]

/-- A field with a format. -/
theorem scan_formatted {fmt : List Char}
    (ahead : pattern.drop i = '%' :: (name ++ '{' :: (fmt ++ '}' :: rest))) (named : name ≠ [])
    (letters : ∀ c ∈ name, c.isAlpha = true) (unclosed : '}' ∉ fmt) :
    scan pattern i vec literal =
      scan pattern (i + 1 + name.length + 1 + fmt.length + 1)
        (flush vec literal ++ [⟨name, fmt, true⟩]) [] := by
  have behind := drop_succ_of_ahead ahead
  have opened := drop_of_ahead behind
  have body := drop_succ_of_ahead opened
  have closing := drop_of_ahead body
  have inside := inside_of_ahead closing
  rw [scan_percent ahead (head_of_letters named letters), scanField_letters behind letters,
    scanField_open opened rfl]
  -- The brace itself is passed once more, now as part of the format.
  have passed : pattern.drop (i + 1 + name.length) = ('{' :: fmt) ++ '}' :: rest := opened
  rw [scanField_skip passed (fun c member => ?_),
    scanField_close (by
      rw [show i + 1 + name.length + ('{' :: fmt).length =
        i + 1 + name.length + 1 + fmt.length by simp only [List.length_cons]; omega]
      exact closing) rfl]
  · have whole : substr pattern (i + 1) (i + 1 + name.length - i - 1) = name := by
      rw [show i + 1 + name.length - i - 1 = name.length by omega]
      exact substr_ahead behind
    have format : substr pattern (i + 1 + name.length + 1)
        (i + 1 + name.length + ('{' :: fmt).length - (i + 1 + name.length + 1)) = fmt := by
      rw [show i + 1 + name.length + ('{' :: fmt).length - (i + 1 + name.length + 1) =
        fmt.length by simp only [List.length_cons]; omega]
      exact substr_ahead body
    simp only [FieldScan.piece, whole, format, reduceCtorEq, ↓reduceIte]
    rw [if_neg (by simp only [List.length_cons]; omega)]
    simp only [List.length_cons]
    congr 1
    omega
  · have apart : c ≠ '}' := by
      rintro rfl
      rcases List.mem_cons.mp member with same | inner
      · cases same
      · exact unclosed inner
    simp [apart]

end OuterLoop

/-- A literal and the field behind it. -/
structure Segment where
  literal : String
  name : String
  format : Option String
  plain : '%' ∉ literal.toList
  named : name.toList ≠ []
  letters : ∀ c ∈ name.toList, c.isAlpha = true
  closed : ∀ text ∈ format, '}' ∉ text.toList

namespace Segment

def printFormat : Option String → String
  | none => ""
  | some text => "\x7b" ++ text ++ "\x7d"

def print (segment : Segment) : String :=
  segment.literal ++ "%" ++ segment.name ++ printFormat segment.format

/-- What the segment stands for. -/
def items (segment : Segment) : List FormatItem :=
  (if segment.literal = "" then [] else [.string segment.literal]) ++
    [.ofField segment.name (segment.format.getD "")]

def render (clock : Strftime) (loggerName : String) (event : LogEvent) (level : LogLevel)
    (segment : Segment) : String :=
  segment.literal ++
    (FormatItem.ofField segment.name (segment.format.getD "")).format clock loggerName event level

/-- A field without a format ends where the next segment begins. -/
def Separated (segment following : Segment) : Prop :=
  segment.format = none → ∀ c ∈ following.literal.toList.head?, endsName c = true

end Segment

/-- The pattern of a list of segments. -/
def printed (segments : List Segment) : String := String.join (segments.map Segment.print)

/-- The entries of `vec` that a segment gives. -/
def Segment.pieces (segment : Segment) : List Piece :=
  flush [] segment.literal.toList ++
    [⟨segment.name.toList, (segment.format.getD "").toList, true⟩]

theorem flush_append (vec : List Piece) (literal : List Char) :
    flush vec literal = vec ++ flush [] literal := by
  by_cases empty : literal = []
  · rw [flush, flush, if_pos empty, if_pos empty, List.append_nil]
  · rw [flush, flush, if_neg empty, if_neg empty, List.nil_append]

theorem Segment.pieces_items (segment : Segment) :
    segment.pieces.map Piece.item = segment.items := by
  simp only [Segment.pieces, Segment.items, flush, String.toList_eq_nil_iff, List.map_append,
    List.map_cons, List.map_nil, Piece.item, ↓reduceIte, String.ofList_toList]
  split <;> simp [Piece.text, Piece.item]

section Segments

variable {pattern : List Char} {i : Nat} {vec : List Piece} {rest : List Char}

theorem scan_segment {segment : Segment} (ahead : pattern.drop i = segment.print.toList ++ rest)
    (stops : segment.format = none → ∀ c ∈ rest.head?, endsName c = true) :
    scan pattern i vec [] =
      scan pattern (i + segment.print.toList.length) (vec ++ segment.pieces) [] := by
  have length : segment.print.toList.length = segment.literal.toList.length + 1 +
      segment.name.toList.length + (Segment.printFormat segment.format).toList.length := by
    simp [Segment.print]
    omega
  have shape : pattern.drop i = segment.literal.toList ++ ('%' :: (segment.name.toList ++
      ((Segment.printFormat segment.format).toList ++ rest))) := by
    rw [ahead]
    simp [Segment.print]
  rw [scan_text shape segment.plain, List.nil_append]
  have field := drop_of_ahead shape
  cases format : segment.format with
  | none =>
      rw [format] at field length
      rw [scan_bare field segment.named segment.letters (stops format), flush_append,
        Segment.pieces, format, length, ← List.append_assoc]
      congr 1
      simp [Segment.printFormat]
      omega
  | some text =>
      rw [format] at field length
      have opened : pattern.drop (i + segment.literal.toList.length) = '%' ::
          (segment.name.toList ++ '{' :: (text.toList ++ '}' :: rest)) := by
        rw [field]
        simp [Segment.printFormat]
      rw [scan_formatted opened segment.named segment.letters (segment.closed text format),
        flush_append, Segment.pieces, format, length, ← List.append_assoc]
      congr 1
      simp [Segment.printFormat]
      omega

/-- A printed list starts with its first literal or a percent sign. -/
theorem stops_of_separated {segment : Segment} {segments : List Segment}
    (separated : (segment :: segments).IsChain Segment.Separated)
    (bare : segment.format = none) :
    ∀ c ∈ (printed segments).toList.head?, endsName c = true := by
  intro c member
  cases segments with
  | nil => simp [printed] at member
  | cons following rest =>
      have close := (List.isChain_cons_cons.mp separated).1 bare
      cases start : following.literal.toList with
      | nil =>
          have first : c = '%' := by
            simpa [printed, Segment.print, start, eq_comm] using member
          rw [first]
          decide
      | cons d literal =>
          have first : c = d := by
            simpa [printed, Segment.print, start, eq_comm] using member
          rw [first]
          exact close d (by rw [start]; rfl)

theorem scan_segments {segments : List Segment}
    (separated : segments.IsChain Segment.Separated)
    (ahead : pattern.drop i = (printed segments).toList) :
    scan pattern i vec [] = (vec ++ segments.flatMap Segment.pieces, []) := by
  induction segments generalizing i vec with
  | nil =>
      rw [scan_end (List.drop_eq_nil_iff.mp ahead), List.flatMap_nil, List.append_nil]
  | cons segment segments ih =>
      have shape : pattern.drop i = segment.print.toList ++ (printed segments).toList := by
        rw [ahead]
        simp [printed]
      rw [scan_segment shape (stops_of_separated separated),
        ih separated.tail (drop_of_ahead shape), List.flatMap_cons, List.append_assoc]

end Segments

theorem render_items (clock : Strftime) (loggerName : String) (event : LogEvent)
    (level : LogLevel) (segment : Segment) :
    String.join (segment.items.map (·.format clock loggerName event level)) =
      segment.render clock loggerName event level := by
  unfold Segment.items Segment.render
  by_cases empty : segment.literal = ""
  · simp [empty]
  · simp [empty, FormatItem.format]

/-- The items of a printed pattern are, in order, a text item for each literal that is
not empty and the item of each field; what is formatted is the renderings in a row. -/
theorem new_printed (segments : List Segment)
    (separated : segments.IsChain Segment.Separated) :
    (new (printed segments)).items = segments.flatMap Segment.items ∧
    ∀ clock loggerName level event,
      (new (printed segments)).format clock loggerName level event =
        String.join (segments.map (Segment.render clock loggerName event level)) := by
  have items : (new (printed segments)).items = segments.flatMap Segment.items := by
    rw [new_items, scan_segments separated rfl, List.nil_append, List.map_flatMap]
    exact List.flatMap_congr (fun segment _ => segment.pieces_items)
  refine ⟨items, fun clock loggerName level event => ?_⟩
  rw [format, items]
  clear items separated
  induction segments with
  | nil => rfl
  | cons segment segments ih =>
      rw [List.flatMap_cons, List.map_append, String.join_append, ih, render_items,
        List.map_cons, String.join_cons]

/-- A time, a level and a field that is not registered. -/
def sampleSegments : List Segment :=
  [⟨"at ", "d", some "%H:%M", by decide, by decide, List.all_eq_true.mp (by decide), by simp⟩,
    ⟨"[", "p", none, by decide, by decide, List.all_eq_true.mp (by decide), by simp⟩,
    ⟨"] ", "zz", none, by decide, by decide, List.all_eq_true.mp (by decide), by simp⟩]

theorem new_printed_sample : (new "at %d{%H:%M}[%p] %zz").items =
    [.string "at ", .time "%H:%M", .string "[", .level, .string "] ",
      .string "<<error_format %zz>>"] :=
  (new_printed sampleSegments (by simp [sampleSegments, Segment.Separated, endsName])).1

end ZnetServer.LogFormatter
