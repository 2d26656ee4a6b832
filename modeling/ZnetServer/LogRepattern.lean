import ZnetServer.LogBoundary

set_option autoImplicit false

/- `setPattern` and `init` on a formatter that has items already. -/
namespace ZnetServer.LogFormatter

inductive Call where
  | setPattern (pattern : String)
  | init

def call (formatter : LogFormatter) : Call → LogFormatter
  | .setPattern pattern => formatter.setPattern pattern
  | .init => formatter.init

/-- A formatter that was constructed and then called. -/
def after (pattern : String) (calls : List Call) : LogFormatter := calls.foldl call (new pattern)

/-- The patterns that `init` is run on. -/
def initialised (pattern : String) : List Call → List String
  | [] => []
  | .setPattern next :: rest => next :: initialised next rest
  | .init :: rest => pattern :: initialised pattern rest

/-- A time that is never printed. -/
def Silent (clock : Strftime) (item : FormatItem) : Prop :=
  ∃ format, item = .time format ∧ ∀ time, FormatItem.formatTime clock format time = ""

section Items

/-- The items of all runs of `init` stay. -/
theorem calls_items (calls : List Call) (formatter : LogFormatter) :
    (calls.foldl call formatter).items = formatter.items ++
      (initialised formatter.pattern calls).flatMap fun pattern => (new pattern).items := by
  induction calls generalizing formatter with
  | nil => rw [initialised, List.flatMap_nil, List.append_nil, List.foldl_nil]
  | cons first rest ih =>
      cases first with
      | setPattern next =>
          rw [List.foldl_cons, ih, initialised, List.flatMap_cons, ← List.append_assoc]
          rfl
      | init =>
          rw [List.foldl_cons, ih, initialised, List.flatMap_cons, ← List.append_assoc]
          rfl

theorem calls_pattern (calls : List Call) (formatter : LogFormatter) :
    (formatter.pattern :: initialised formatter.pattern calls).getLast? =
      some (calls.foldl call formatter).pattern := by
  induction calls generalizing formatter with
  | nil => rfl
  | cons first rest ih =>
      cases first with
      | setPattern next =>
          rw [initialised, List.getLast?_cons_cons]
          exact ih (formatter.setPattern next)
      | init =>
          rw [initialised, List.getLast?_cons_cons]
          exact ih formatter.init

/-- The items of the runs before the last one, and those of a new formatter. -/
theorem after_items (pattern : String) (calls : List Call) :
    (after pattern calls).items =
      (pattern :: initialised pattern calls).dropLast.flatMap
          (fun earlier => (new earlier).items) ++
        (new (after pattern calls).pattern).items := by
  have last := calls_pattern calls (new pattern)
  have whole := List.dropLast_append_getLast? _ last
  calc
    (after pattern calls).items =
        (pattern :: initialised pattern calls).flatMap fun earlier => (new earlier).items := by
      rw [List.flatMap_cons]
      exact calls_items calls (new pattern)
    _ = _ := by
      rw [new_pattern] at whole
      rw [← whole, List.flatMap_append, List.flatMap_singleton, whole]
      rfl

theorem piece_item_printed (s : FieldScan) (pattern : List Char) (i : Nat) :
    (s.piece pattern i).item ≠ .string "" := by
  by_cases opened : s.status = .format
  · have item : (s.piece pattern i).item = patternError := by
      simp only [FieldScan.piece, if_pos opened, Piece.item, patternError]
      rfl
    rw [item]
    decide
  · simp only [FieldScan.piece, if_neg opened, Piece.item, ↓reduceIte]
    intro same
    have length := congrArg String.length (ofField_string same)
    have none_here : "".length = 0 := rfl
    have two_here : ">>".length = 2 := rfl
    simp only [String.length_append] at length
    omega

/-- No item is an empty text. -/
theorem entries_printed (pattern : List Char) (i : Nat) (literal : List Char) :
    ∀ entry ∈ entries pattern i literal, entry.2.item ≠ .string "" := by
  fun_induction entries pattern i literal with
  | case1 i literal inside text ih => exact ih
  | case2 i literal inside text double ih => exact ih
  | case3 i literal inside text double s ih =>
      intro entry member
      rcases List.mem_append.mp member with front | field
      · unfold literals at front
        split at front
        · cases front
        · rename_i some_text
          rw [List.mem_singleton.mp front]
          intro same
          exact some_text (String.ofList_eq_empty_iff.mp (FormatItem.string.inj same))
      · rcases List.mem_cons.mp field with rfl | later
        · exact piece_item_printed s pattern i
        · exact ih entry later
  | case4 => simp

theorem new_printed_items (pattern : String) :
    ∀ item ∈ (new pattern).items, item ≠ .string "" := by
  intro item member
  rw [new_entries] at member
  obtain ⟨entry, inside, rfl⟩ := List.mem_map.mp member
  exact entries_printed pattern.toList 0 [] entry inside

theorem join_eq_empty (texts : List String) :
    String.join texts = "" ↔ ∀ text ∈ texts, text = "" := by
  induction texts with
  | nil => simp [String.join]
  | cons first rest ih =>
      rw [String.join_cons, String.append_eq_empty_iff, ih, List.forall_mem_cons]

/-- An event at the time, all of whose texts are printed. -/
def visibleEvent (time : UInt64) : LogEvent := ⟨"x", 0, 0, 0, 0, time, "x", .info⟩

/-- Only times can print nothing for every logger and event. -/
theorem silent_iff (clock : Strftime) {item : FormatItem} (printed : item ≠ .string "") :
    (∀ loggerName level event, item.format clock loggerName event level = "") ↔
      Silent clock item := by
  constructor
  · intro nothing
    have shown := fun time => nothing "x" .info (visibleEvent time)
    cases item with
    | time format => exact ⟨format, rfl, shown⟩
    | string str => exact absurd (congrArg FormatItem.string (shown 0)) printed
    | message | level | elapsed | name | threadId | newLine | filename | line | tab | fiberId =>
        have seen := shown 0
        simp only [FormatItem.format, visibleEvent, LogLevel.toString] at seen
        exact absurd seen (by decide)
  · intro silent loggerName level event
    obtain ⟨format, rfl, nothing⟩ := silent
    exact nothing event.time

end Items

/-- A formatter formats like a new one with its pattern just if the runs of `init` before the
last one made nothing but times that are never printed. -/
theorem format_after_iff (clock : Strftime) (pattern : String) (calls : List Call) :
    (∀ loggerName level event, (after pattern calls).format clock loggerName level event =
      (new (after pattern calls).pattern).format clock loggerName level event) ↔
    ∀ earlier ∈ (pattern :: initialised pattern calls).dropLast,
      ∀ item ∈ (new earlier).items, Silent clock item := by
  have split : ∀ loggerName level event,
      (after pattern calls).format clock loggerName level event =
        String.join (((pattern :: initialised pattern calls).dropLast.flatMap fun earlier =>
          (new earlier).items).map (·.format clock loggerName event level)) ++
        (new (after pattern calls).pattern).format clock loggerName level event := by
    intro loggerName level event
    rw [format, after_items, List.map_append, String.join_append]
    rfl
  constructor
  · intro same earlier member item inside
    apply (silent_iff clock (new_printed_items earlier item inside)).mp
    intro loggerName level event
    have front := same loggerName level event
    rw [split] at front
    have joined := (String.append_left_inj _).mp (front.trans String.empty_append.symm)
    apply (join_eq_empty _).mp joined
    exact List.mem_map_of_mem (List.mem_flatMap.mpr ⟨earlier, member, inside⟩)
  · intro silent loggerName level event
    rw [split, (join_eq_empty _).mpr]
    · exact String.empty_append
    · intro text printed
      obtain ⟨item, inside, rfl⟩ := List.mem_map.mp printed
      obtain ⟨earlier, member, own⟩ := List.mem_flatMap.mp inside
      obtain ⟨format, rfl, nothing⟩ := silent earlier member item own
      exact nothing event.time

/-- The message is printed twice. -/
theorem same_pattern_again :
    (after "%m" [.setPattern "%m"]).pattern = "%m" ∧
    (after "%m" [.setPattern "%m"]).format ⟨fun _ _ => "", fun _ _ => ""⟩ "root" .info
      (visibleEvent 0) = "xx" ∧
    (new "%m").format ⟨fun _ _ => "", fun _ _ => ""⟩ "root" .info (visibleEvent 0) = "x" := by
  have items : (new "%m").items = [.message] := by
    rw [new_entries]
    simp [entries, scanField, FieldScan.start, FieldScan.piece, substr, endsName, literals,
      Piece.item, FormatItem.ofField, FormatItem.registered, List.lookup_cons]
  have again : (after "%m" [.setPattern "%m"]).items = [.message, .message] := by
    rw [after_items]
    simp [initialised, after, call, setPattern, items]
  refine ⟨rfl, ?_, ?_⟩
  · rw [format, again]
    decide
  · rw [format, items]
    decide

end ZnetServer.LogFormatter
