import ZnetServer.LogPattern

set_option autoImplicit false

/- The `%d` fields of a pattern. `TimeFormatItem::format` gives `strftime` a buffer of 64
bytes and does not look at its result. -/
namespace ZnetServer.LogFormatter

/-- A field `%d` of a pattern with the format that `init` cuts out for it. -/
structure TimeField (pattern : String) where
  format : String
  extracted : ⟨['d'], format.toList, true⟩ ∈ (scan pattern.toList 0 [] []).1

namespace TimeField

variable {pattern : String}

def item (field : TimeField pattern) : FormatItem := .newTime field.format

/-- What `strftime` reads as its format. -/
def directives (field : TimeField pattern) : String :=
  FormatItem.cString (if field.format = "" then FormatItem.defaultTimeFormat else field.format)

/-- The text written is the expansion, whatever the buffer holds where `strftime` gives up. -/
def Prints (expansion : String → UInt64 → String) (field : TimeField pattern)
    (event : LogEvent) : Prop :=
  ∀ leftover loggerName level, field.item.format ⟨expansion, leftover⟩ loggerName event level =
    expansion field.directives event.time

theorem item_mem (field : TimeField pattern) : field.item ∈ (new pattern).items := by
  rw [new_items]
  apply List.mem_map.mpr
  refine ⟨_, field.extracted, ?_⟩
  rw [Piece.item, if_pos rfl, String.ofList_toList]
  rfl

end TimeField

section Extraction

variable {pattern : List Char} {i : Nat}

/-- Up to `j`, the inner loop has cut out or passed no brace that closes a format. -/
def Unclosing (pattern : List Char) (s : FieldScan) : Prop :=
  '}' ∉ s.fmt ∧ (s.status = .format → '}' ∉ substr pattern s.fmtBegin (s.j - s.fmtBegin))

theorem not_mem_substr_succ {start j : Nat} {c : Char} (inside : j < pattern.length)
    (before : c ∉ substr pattern start (j - start)) (apart : pattern[j] ≠ c) :
    c ∉ substr pattern start (j + 1 - start) := by
  by_cases behind : start ≤ j
  · have last : (pattern.drop start)[j - start]? = some pattern[j] := by
      rw [List.getElem?_drop, show start + (j - start) = j by omega,
        List.getElem?_eq_getElem inside]
    rw [show j + 1 - start = j - start + 1 by omega, substr, List.take_add_one, last,
      Option.toList_some, List.mem_append, not_or, List.mem_singleton]
    exact ⟨before, apart.symm⟩
  · rw [show j + 1 - start = 0 by omega, substr, List.take_zero]
    exact List.not_mem_nil

theorem scanField_fmt (s : FieldScan) (unclosing : Unclosing pattern s) :
    '}' ∉ (scanField pattern i s).fmt := by
  fun_induction scanField pattern i s with
  | case1 => exact unclosing.1
  | case2 s inside stays opens ih =>
      apply ih
      refine ⟨unclosing.1, fun _ => ?_⟩
      rw [show s.j - (s.j + 1) = 0 by omega, substr, List.take_zero]
      exact List.not_mem_nil
  | case3 s inside stays unopened closes => exact unclosing.2 closes.1
  | case4 s inside stays unopened unclosed ih =>
      apply ih
      refine ⟨unclosing.1, fun format => not_mem_substr_succ inside (unclosing.2 format) ?_⟩
      exact fun brace => unclosed ⟨format, brace⟩
  | case5 => exact unclosing.1

theorem piece_fmt (s : FieldScan) : (s.piece pattern i).fmt = s.fmt := by
  simp only [FieldScan.piece]
  split <;> rfl

theorem flush_fmt {vec : List Piece} {literal : List Char} {piece : Piece}
    (member : piece ∈ flush vec literal) : piece ∈ vec ∨ piece.fmt = [] := by
  rw [flush_append, List.mem_append] at member
  rcases member with old | new
  · exact .inl old
  · unfold flush at new
    split at new
    · cases new
    · rw [List.nil_append, List.mem_singleton] at new
      exact .inr (congrArg Piece.fmt new)

theorem scan_fmt (vec : List Piece) (literal : List Char) :
    ∀ piece ∈ (scan pattern i vec literal).1, piece ∈ vec ∨ '}' ∉ piece.fmt := by
  fun_induction scan pattern i vec literal with
  | case1 _ _ _ _ _ ih | case2 _ _ _ _ _ _ ih => exact ih
  | case3 i vec literal inside text single s ih =>
      intro piece member
      rcases ih piece member with earlier | absent
      · rcases List.mem_append.mp earlier with flushed | own
        · rcases flush_fmt flushed with old | empty
          · exact .inl old
          · rw [empty]
            exact .inr List.not_mem_nil
        · rw [List.mem_singleton.mp own, piece_fmt]
          exact .inr (scanField_fmt (.start i) ⟨List.not_mem_nil, nofun⟩)
      · exact .inr absent
  | case4 => exact fun piece member => .inl member

end Extraction

namespace TimeField

/-- Any format without a closing brace is the format of a field. -/
def ofFormat (format : String) (unclosed : '}' ∉ format.toList) :
    TimeField ("%d\x7b" ++ format ++ "\x7d") where
  format := format
  extracted := by
    have ahead : ("%d\x7b" ++ format ++ "\x7d").toList.drop 0 =
        '%' :: (['d'] ++ '{' :: (format.toList ++ '}' :: [])) := by
      simp
    rw [scan_formatted ahead (by simp) (by simp) unclosed, scan_end (by simp; omega)]
    exact List.mem_append_right _ (List.mem_singleton_self _)

/-- The formats that `init` cuts out. -/
theorem extracted_iff (format : String) :
    (∃ pattern, ∃ field : TimeField pattern, field.format = format) ↔ '}' ∉ format.toList := by
  constructor
  · rintro ⟨pattern, field, rfl⟩
    rcases scan_fmt [] [] _ field.extracted with none | absent
    · cases none
    · exact absent
  · exact fun unclosed => ⟨_, ofFormat format unclosed, rfl⟩

variable {pattern : String}

theorem format_item (field : TimeField pattern) (expansion leftover : String → UInt64 → String)
    (loggerName : String) (event : LogEvent) (level : LogLevel) :
    field.item.format ⟨expansion, leftover⟩ loggerName event level =
      if (expansion field.directives event.time).length + 1 ≤ 64 then
        expansion field.directives event.time
      else leftover
        (if field.format = "" then FormatItem.defaultTimeFormat else field.format) event.time :=
  rfl

theorem prints_of_short {field : TimeField pattern} {expansion : String → UInt64 → String}
    {event : LogEvent} (short : (expansion field.directives event.time).length ≤ 63) :
    field.Prints expansion event := by
  intro leftover loggerName level
  rw [format_item, if_pos (by omega)]

/-- A buffer that begins with a terminator prints nothing. -/
theorem not_prints_of_long {field : TimeField pattern} {expansion : String → UInt64 → String}
    {event : LogEvent} (long : 64 ≤ (expansion field.directives event.time).length) :
    ¬ field.Prints expansion event := by
  intro prints
  have nothing := prints (fun _ _ => "") "root" .info
  rw [format_item, if_neg (by omega)] at nothing
  rw [← nothing, String.length_empty] at long
  omega

/-- A `%d` field is an item of the formatter, and it prints the expansion of its format just if
this has at most 63 bytes. -/
theorem prints_iff (field : TimeField pattern) (expansion : String → UInt64 → String)
    (event : LogEvent) : field.item ∈ (new pattern).items ∧
      (field.Prints expansion event ↔ (expansion field.directives event.time).length ≤ 63) := by
  refine ⟨field.item_mem, fun prints => ?_, prints_of_short⟩
  by_contra long
  exact not_prints_of_long (by omega) prints

/-- 64 characters, none of them a directive. -/
def rule : String := "----------------------------------------------------------------"

def ruleField : TimeField ("%d\x7b" ++ rule ++ "\x7d") := ofFormat rule (by decide)

def ruledEvent : LogEvent := ⟨"main.cpp", 7, 0, 1, 0, 0, "ready", .info⟩

/-- A format without directives is its own expansion, and this one does not fit. -/
theorem rule_not_printed : ¬ ruleField.Prints (fun format _ => format) ruledEvent := by
  have whole : ruleField.directives = rule := by decide
  apply not_prints_of_long
  rw [whole]
  decide

end TimeField

end ZnetServer.LogFormatter
