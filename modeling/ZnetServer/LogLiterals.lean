import ZnetServer.LogBoundary

set_option autoImplicit false

/- What the scan makes of text behind the last field and of two percent signs. -/
namespace ZnetServer.LogFormatter

/-- The last entry is a field that reaches to the pattern's end. -/
def EndsWithField (pattern : List Char) : Prop :=
  ∃ before f piece, entries pattern 0 [] = before ++ [(.field f, piece)] ∧
    pattern.length ≤ (scanField pattern f (.start f)).j + 1

/-- Two percent signs between `p` and `q` print one, and the second starts no field. -/
def Escapes (clock : Strftime) (loggerName : String) (level : LogLevel) (event : LogEvent)
    (p q : String) : Prop :=
  (new (p ++ "%%" ++ q)).format clock loggerName level event =
    (new p).format clock loggerName level event ++ "%" ++
      (new q).format clock loggerName level event ∧
  ∀ piece, (Origin.field (p.length + 1), piece) ∉ entries (p ++ "%%" ++ q).toList 0 []

section Texts

variable (clock : Strftime) (loggerName : String) (level : LogLevel) (event : LogEvent)

/-- What entries print. -/
def text (list : List (Origin × Piece)) : String :=
  String.join (list.map fun entry => entry.2.item.format clock loggerName event level)

@[simp] theorem text_append (front back : List (Origin × Piece)) :
    text clock loggerName level event (front ++ back) =
      text clock loggerName level event front ++ text clock loggerName level event back := by
  rw [text, List.map_append, String.join_append]
  rfl

@[simp] theorem text_cons (entry : Origin × Piece) (list : List (Origin × Piece)) :
    text clock loggerName level event (entry :: list) =
      entry.2.item.format clock loggerName event level ++
        text clock loggerName level event list := by
  rw [text, List.map_cons, String.join_cons]
  rfl

@[simp] theorem text_shift (back : Nat) (list : List (Origin × Piece)) :
    text clock loggerName level event (list.map fun entry => (entry.1.shift back, entry.2)) =
      text clock loggerName level event list := by
  rw [text, List.map_map]
  rfl

theorem format_text (pattern : String) : (new pattern).format clock loggerName level event =
    text clock loggerName level event (entries pattern.toList 0 []) := by
  rw [format, new_entries, List.map_map]
  rfl

@[simp] theorem text_literals (literal : List Char) :
    text clock loggerName level event (literals literal) = String.ofList literal := by
  unfold literals
  split
  · rename_i empty
    rw [empty]
    rfl
  · rw [text_cons]
    exact String.append_empty

end Texts

section Scan

variable {pattern : List Char} {i : Nat} {literal : List Char}

/-- Text without a percent sign gives no entry: it stays in `literal_str`. -/
theorem entries_plain (plain : '%' ∉ pattern) : entries pattern i literal = [] := by
  fun_induction entries pattern i literal with
  | case1 i literal inside _ ih => exact ih
  | case2 i literal inside percent _ _ =>
      exact absurd (Decidable.not_not.mp percent ▸ List.getElem_mem inside) plain
  | case3 i literal inside percent _ _ _ =>
      exact absurd (Decidable.not_not.mp percent ▸ List.getElem_mem inside) plain
  | case4 => rfl

/-- What is in `literal_str` at the start is printed in front if a field follows. -/
theorem text_literal (clock : Strftime) (loggerName : String) (level : LogLevel)
    (event : LogEvent) (front : List Char) (followed : entries pattern i literal ≠ []) :
    text clock loggerName level event (entries pattern i (front ++ literal)) =
      String.ofList front ++ text clock loggerName level event (entries pattern i literal) := by
  fun_induction entries pattern i literal with
  | case1 i literal inside other ih =>
      rw [entries, dif_pos inside, if_pos other, List.append_assoc]
      exact ih followed
  | case2 i literal inside percent double ih =>
      rw [entries, dif_pos inside, if_neg percent, if_pos double, List.append_assoc]
      exact ih followed
  | case3 i literal inside percent double s ih =>
      rw [entries, dif_pos inside, if_neg percent, if_neg double]
      simp only [text_append, text_literals, String.ofList_append, String.append_assoc]
      rfl
  | case4 => exact absurd rfl followed

/-- The scan of two percent signs and more. -/
theorem entries_double {q : List Char} : entries ('%' :: '%' :: q) 0 [] =
    if q.head? = some '%' then
      (entries q 0 ['%', '%']).map fun entry => (entry.1.shift 2, entry.2)
    else (entries ('%' :: q) 0 ['%']).map fun entry => (entry.1.shift 1, entry.2) := by
  rw [entries, dif_pos (by simp), if_neg (by simp), if_pos (by simp)]
  have behind : entries (['%'] ++ ('%' :: q)) (['%'].length + 0) ['%'] =
      (entries ('%' :: q) 0 ['%']).map fun entry => (entry.1.shift 1, entry.2) :=
    entries_shift 0 ['%']
  split
  · rename_i third
    have further : entries (['%', '%'] ++ q) (['%', '%'].length + 0) ['%', '%'] =
        (entries q 0 ['%', '%']).map fun entry => (entry.1.shift 2, entry.2) :=
      entries_shift 0 ['%', '%']
    rw [← further, entries, dif_pos (by simp), if_neg (by simp), if_pos]
    · rfl
    · rw [← List.head?_drop]
      exact third
  · exact behind

/-- A percent sign that none follows enters a field. -/
theorem entries_single {q : List Char} (single : q.head? ≠ some '%') (literal : List Char) :
    ∃ piece tail, entries ('%' :: q) 0 literal = literals literal ++ (.field 0, piece) :: tail := by
  rw [entries, dif_pos (by simp), if_neg (by simp), if_neg]
  · exact ⟨_, _, rfl⟩
  · rw [← List.head?_drop]
    exact single

end Scan

/-- A clock that stands at noon. -/
def noon : Strftime := ⟨fun _ _ => "12", fun _ _ => ""⟩

theorem noon_time (format : String) (time : UInt64) :
    FormatItem.formatTime noon format time = "12" :=
  if_pos (show "12".length + 1 ≤ 64 by decide)

def loginEvent : LogEvent := ⟨"main.cpp", 7, 0, 1, 0, 0, "login", .info⟩

section Laws

variable {p : String} (clock : Strftime) (loggerName : String) (level : LogLevel)
  (event : LogEvent)

theorem format_boundary (boundary : AtBoundary p.toList) (q : String) :
    (new (p ++ q)).format clock loggerName level event =
      (new p).format clock loggerName level event ++
        (new q).format clock loggerName level event := by
  rw [format_text, format_text, format_text, String.toList_append, entries_boundary boundary,
    text_append, text_shift]

/-- Text behind the last field is printed only if there is none. -/
theorem trailing_text_iff (boundary : AtBoundary p.toList) {s : String}
    (plain : '%' ∉ s.toList) :
    (new (p ++ s)).format clock loggerName level event =
      (new p).format clock loggerName level event ++ s ↔ s = "" := by
  have dropped : (new s).format clock loggerName level event = "" := by
    rw [format_text, entries_plain plain]
    rfl
  rw [format_boundary clock loggerName level event boundary, dropped]
  constructor
  · intro same
    exact (String.append_right_inj _).mp same.symm
  · intro empty
    rw [empty]

theorem trailing_text_kept :
    (new ("%d{%H}" ++ "")).format noon "root" .info loginEvent =
      (new "%d{%H}").format noon "root" .info loginEvent ++ "" :=
  (trailing_text_iff noon "root" .info loginEvent sample_boundary (by simp)).mpr rfl

/-- The bracket behind the time is not printed. -/
theorem trailing_text_lost : AtBoundary "%d{%H}".toList ∧ '%' ∉ "]".toList ∧
    (new ("%d{%H}" ++ "]")).format noon "root" .info loginEvent = "12" ∧
    (new "%d{%H}").format noon "root" .info loginEvent ++ "]" = "12]" := by
  refine ⟨sample_boundary, by simp, ?_, ?_⟩ <;>
  simp [format_text, text, entries, scanField, FieldScan.start, FieldScan.piece, endsName, substr,
    literals, Piece.item, FormatItem.ofField, FormatItem.registered, FormatItem.format,
    FormatItem.newTime, noon_time, List.lookup_cons, String.join]

/-- What is printed for two percent signs between `p` and `q`: one of them, and then either the
other one and `q` or what `q` gives behind a percent sign. -/
theorem format_double (boundary : AtBoundary p.toList) {q : String}
    (followed : entries q.toList 0 [] ≠ []) :
    (new (p ++ "%%" ++ q)).format clock loggerName level event =
      (new p).format clock loggerName level event ++ "%" ++
        if q.toList.head? = some '%' then "%" ++ (new q).format clock loggerName level event
        else (new ("%" ++ q)).format clock loggerName level event := by
  have pair : ("%%" ++ q).toList = '%' :: '%' :: q.toList := by simp
  have single : ("%" ++ q).toList = '%' :: q.toList := by simp
  have percent : String.ofList ['%'] = "%" := rfl
  rw [String.append_assoc, format_boundary clock loggerName level event boundary,
    String.append_assoc]
  apply congrArg ((new p).format clock loggerName level event ++ ·)
  rw [format_text, pair, entries_double]
  split
  · have doubled := text_literal clock loggerName level event ['%', '%'] followed
    rw [List.append_nil] at doubled
    rw [text_shift, doubled, format_text, ← String.append_assoc]
    rfl
  · rename_i other
    obtain ⟨piece, tail, entered⟩ := entries_single other []
    have field : entries ('%' :: q.toList) 0 [] ≠ [] := by
      rw [entered]
      exact List.append_ne_nil_of_right_ne_nil _ (List.cons_ne_nil _ _)
    have printed := text_literal clock loggerName level event ['%'] field
    rw [List.append_nil] at printed
    rw [text_shift, printed, format_text, single, percent]

/-- No pair of percent signs in front of a pattern that ends with a field is an escape. -/
theorem never_escapes (boundary : AtBoundary p.toList) {q : String}
    (ends : EndsWithField q.toList) : ¬ Escapes clock loggerName level event p q := by
  intro escapes
  obtain ⟨before, f, piece, entered, _⟩ := ends
  have followed : entries q.toList 0 [] ≠ [] := by
    rw [entered]
    exact List.append_ne_nil_of_right_ne_nil _ (List.cons_ne_nil _ _)
  by_cases third : q.toList.head? = some '%'
  · have printed := escapes.1
    rw [format_double clock loggerName level event boundary followed, if_pos third] at printed
    have length := congrArg String.length printed
    simp only [String.length_append] at length
    have one : "%".length = 1 := rfl
    omega
  · -- The second percent sign is the one that the field is entered at.
    obtain ⟨opened, tail, single⟩ := entries_single third ['%']
    apply escapes.2 opened
    have pair : (p ++ "%%" ++ q).toList = p.toList ++ '%' :: '%' :: q.toList := by simp
    rw [pair, entries_boundary boundary, entries_double, if_neg third, single]
    apply List.mem_append_right
    rw [List.map_map, List.map_append]
    apply List.mem_append_right
    apply List.mem_map.mpr
    refine ⟨(.field 0, opened), List.mem_cons_self, ?_⟩
    show (Origin.field (p.toList.length + (1 + 0)), opened) = _
    rw [String.length_toList]

theorem field_at_end : EndsWithField "m%p".toList := by
  refine ⟨[(.literal, .text ['m'])], 1, ⟨['p'], [], true⟩, ?_, ?_⟩ <;>
  simp [entries, scanField, FieldScan.start, FieldScan.piece, endsName, substr, literals]

theorem never_escapes_date : ¬ Escapes noon "root" .info loginEvent "%d{%H}" "m%p" :=
  never_escapes noon "root" .info loginEvent sample_boundary field_at_end

/-- The letter behind the two percent signs is read as a field. -/
theorem second_percent_prints :
    AtBoundary "".toList ∧ EndsWithField "m%p".toList ∧
    (new ("" ++ "%%" ++ "m%p")).format noon "root" .info loginEvent = "%loginINFO" ∧
    (new "").format noon "root" .info loginEvent ++ "%" ++
      (new "m%p").format noon "root" .info loginEvent = "%mINFO" := by
  refine ⟨.inl rfl, field_at_end, ?_, ?_⟩ <;>
  simp [format_text, text, entries, scanField, FieldScan.start, FieldScan.piece, endsName, substr,
    literals, Piece.text, Piece.item, FormatItem.ofField, FormatItem.registered,
    FormatItem.format, LogLevel.toString, List.lookup_cons, loginEvent, String.join]

end Laws

end ZnetServer.LogFormatter
