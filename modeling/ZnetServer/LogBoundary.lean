import ZnetServer.LogPattern

set_option autoImplicit false

/- A tail of a pattern does not reach back over the brace that closed a format, and an
open format reaches to the pattern's end. -/
namespace ZnetServer.LogFormatter

/-- Where an entry of `vec` comes from: `literal_str`, or the field whose `%` is at `i`. -/
inductive Origin where
  | literal
  | field (i : Nat)
  deriving DecidableEq

/-- The same place with a text of that length in front. -/
def Origin.shift (back : Nat) : Origin → Origin
  | .literal => .literal
  | .field i => .field (back + i)

def literals (literal : List Char) : List (Origin × Piece) :=
  if literal = [] then [] else [(.literal, .text literal)]

/-- The entries that `scan` adds to `vec`. -/
def entries (pattern : List Char) (i : Nat) (literal : List Char) : List (Origin × Piece) :=
  if inside : i < pattern.length then
    if pattern[i] ≠ '%' then entries pattern (i + 1) (literal ++ [pattern[i]])
    else if pattern[i + 1]? = some '%' then entries pattern (i + 1) (literal ++ ['%'])
    else
      let s := scanField pattern i (.start i)
      literals literal ++ (.field i, s.piece pattern i) :: entries pattern (s.j + 1) []
  else []
termination_by pattern.length - i
decreasing_by
  · omega
  · omega
  · have behind := scanField_le pattern i (.start i) (Nat.le_refl _)
    omega

/-- The pattern is empty, or its last character closes the format of a field. -/
def AtBoundary (pattern : List Char) : Prop :=
  pattern = [] ∨ ∃ i piece, (Origin.field i, piece) ∈ entries pattern 0 [] ∧
    (scanField pattern i (.start i)).status = .closed ∧
    (scanField pattern i (.start i)).j + 1 = pattern.length

/-- An entry made because the pattern ended inside a format. -/
def Reports (pattern : List Char) : Origin × Piece → Prop
  | (.literal, _) => False
  | (.field i, _) => (scanField pattern i (.start i)).status = .format

/-- What follows the `%` at `i` is a name and a brace that none closes. -/
def Unclosed (pattern : List Char) (i : Nat) : Prop :=
  ∃ name tail, pattern.drop i = '%' :: (name ++ '{' :: tail) ∧
    (∀ c ∈ name, c.isAlpha = true ∨ c = '}') ∧ '}' ∉ tail

/-- The items' text for a pattern error. -/
def patternError : FormatItem := .string "<<pattern_error>>"

theorem flush_literals (vec : List Piece) (literal : List Char) :
    flush vec literal = vec ++ (literals literal).map Prod.snd := by
  by_cases empty : literal = []
  · rw [flush, literals, if_pos empty, if_pos empty, List.map_nil, List.append_nil]
  · rw [flush, literals, if_neg empty, if_neg empty, List.map_cons, List.map_nil]

theorem not_mem_literals {f : Nat} {piece : Piece} (literal : List Char) :
    (Origin.field f, piece) ∉ literals literal := by
  unfold literals
  split <;> simp

theorem scan_entries (pattern : List Char) (i : Nat) (vec : List Piece) (literal : List Char) :
    (scan pattern i vec literal).1 = vec ++ (entries pattern i literal).map Prod.snd := by
  fun_induction scan pattern i vec literal with
  | case1 i vec literal inside text ih =>
      rw [entries, dif_pos inside, if_pos text]
      exact ih
  | case2 i vec literal inside text double ih =>
      rw [entries, dif_pos inside, if_neg text, if_pos double]
      exact ih
  | case3 i vec literal inside text double s ih =>
      rw [entries, dif_pos inside, if_neg text, if_neg double, ih, flush_literals]
      simp only [List.map_append, List.map_cons, List.append_assoc, List.cons_append,
        List.nil_append, s]
  | case4 i vec literal outside =>
      rw [entries, dif_neg outside, List.map_nil, List.append_nil]

theorem new_entries (pattern : String) :
    (new pattern).items = (entries pattern.toList 0 []).map (fun entry => entry.2.item) := by
  rw [new_items, scan_entries, List.nil_append, List.map_map]
  rfl

section InnerLoop

variable {pattern rest : List Char} {i : Nat}

/-- A format that is still open was followed to the end. -/
theorem scanField_format (s : FieldScan) (opened : (scanField pattern i s).status = .format) :
    pattern.length ≤ (scanField pattern i s).j := by
  fun_induction scanField pattern i s with
  | case1 _ _ ends => simp [ends.1] at opened
  | case2 _ _ _ _ ih => exact ih opened
  | case3 => cases opened
  | case4 _ _ _ _ _ ih => exact ih opened
  | case5 => omega

theorem substr_append {start count : Nat} (inside : start + count ≤ pattern.length) :
    substr (pattern ++ rest) start count = substr pattern start count := by
  have enough : count ≤ (pattern.drop start).length := by
    rw [List.length_drop]
    omega
  rw [substr, substr, List.drop_append_of_le_length (by omega),
    List.take_append_of_le_length enough]

/-- A loop that ended before the end did not see what is there. -/
theorem scanField_append (s : FieldScan) (began : i + 1 ≤ s.j)
    (opened : s.status = .format → s.fmtBegin ≤ s.j + 1)
    (ended : (scanField pattern i s).j < pattern.length) :
    scanField (pattern ++ rest) i s = scanField pattern i s := by
  have longer : pattern.length ≤ (pattern ++ rest).length := by
    rw [List.length_append]
    omega
  fun_induction scanField pattern i s with
  | case1 s inside ends =>
      rw [scanField, dif_pos (by omega), List.getElem_append_left inside, if_pos ends,
        substr_append (by omega)]
  | case2 s inside stays opens ih =>
      rw [scanField, dif_pos (by omega), List.getElem_append_left inside, if_neg stays,
        if_pos opens, substr_append (by omega)]
      exact ih began (fun _ => Nat.le_refl _) ended
  | case3 s inside stays unopened closes =>
      have behind := opened closes.1
      rw [scanField, dif_pos (by omega), List.getElem_append_left inside, if_neg stays,
        if_neg unopened, if_pos closes, substr_append (by omega)]
  | case4 s inside stays unopened unclosed ih =>
      rw [scanField, dif_pos (by omega), List.getElem_append_left inside, if_neg stays,
        if_neg unopened, if_neg unclosed]
      refine ih (Nat.le_succ_of_le began) (fun format => ?_) ended
      exact Nat.le_succ_of_le (opened format)
  | case5 s outside => omega

/-- The inner loop on a later part of a longer pattern. -/
structure Shifted (back : Nat) (s t : FieldScan) : Prop where
  j : t.j = back + s.j
  status : t.status = s.status
  field : t.field = s.field
  fmt : t.fmt = s.fmt
  fmtBegin : s.status = .format → t.fmtBegin = back + s.fmtBegin

theorem substr_shift (start count : Nat) :
    substr (rest ++ pattern) (rest.length + start) count = substr pattern start count := by
  rw [substr, substr, ← List.drop_drop, List.drop_left]

theorem getElem_shift {j : Nat} (inside : j < pattern.length)
    (further : rest.length + j < (rest ++ pattern).length) :
    (rest ++ pattern)[rest.length + j] = pattern[j] := by
  rw [List.getElem_append_right (Nat.le_add_right _ _)]
  simp only [Nat.add_sub_cancel_left]

theorem scanField_shift (s t : FieldScan) (began : i + 1 ≤ s.j)
    (shifted : Shifted rest.length s t) :
    Shifted rest.length (scanField pattern i s)
      (scanField (rest ++ pattern) (rest.length + i) t) := by
  have length : (rest ++ pattern).length = rest.length + pattern.length := List.length_append
  fun_induction scanField pattern i s generalizing t with
  | case1 s inside ends =>
      obtain ⟨j, status, fmtBegin, field, fmt⟩ := t
      obtain ⟨rfl, rfl, rfl, rfl, start⟩ := shifted
      rw [scanField.eq_def (rest ++ pattern), dif_pos (by simp only; omega),
        getElem_shift inside, if_pos ends]
      refine ⟨by simp only; omega, rfl, ?_, rfl, start⟩
      rw [show rest.length + i + 1 = rest.length + (i + 1) by omega, substr_shift,
        show rest.length + s.j - (rest.length + i) - 1 = s.j - i - 1 by omega]
  | case2 s inside stays opens ih =>
      obtain ⟨j, status, fmtBegin, field, fmt⟩ := t
      obtain ⟨rfl, rfl, rfl, rfl, start⟩ := shifted
      rw [scanField.eq_def (rest ++ pattern), dif_pos (by simp only; omega),
        getElem_shift inside, if_neg stays,
        if_pos opens]
      refine ih _ began ⟨rfl, rfl, ?_, rfl, fun _ => by simp only; omega⟩
      rw [show rest.length + i + 1 = rest.length + (i + 1) by omega, substr_shift,
        show rest.length + s.j - (rest.length + i) - 1 = s.j - i - 1 by omega]
  | case3 s inside stays unopened closes =>
      obtain ⟨j, status, fmtBegin, field, fmt⟩ := t
      obtain ⟨rfl, rfl, rfl, rfl, start⟩ := shifted
      rw [scanField.eq_def (rest ++ pattern), dif_pos (by simp only; omega),
        getElem_shift inside, if_neg stays,
        if_neg unopened, if_pos closes]
      refine ⟨rfl, rfl, rfl, ?_, fun format => by cases format⟩
      have begins : fmtBegin = rest.length + s.fmtBegin := start closes.1
      rw [begins, substr_shift, Nat.add_sub_add_left]
  | case4 s inside stays unopened unclosed ih =>
      obtain ⟨j, status, fmtBegin, field, fmt⟩ := t
      obtain ⟨rfl, rfl, rfl, rfl, start⟩ := shifted
      rw [scanField.eq_def (rest ++ pattern), dif_pos (by simp only; omega),
        getElem_shift inside, if_neg stays,
        if_neg unopened, if_neg unclosed]
      exact ih _ (Nat.le_succ_of_le began) ⟨rfl, rfl, rfl, rfl, start⟩
  | case5 s outside =>
      have ahead := shifted.j
      rw [scanField.eq_def (rest ++ pattern), dif_neg (by omega)]
      exact shifted

theorem start_shifted (back i : Nat) : Shifted back (.start i) (.start (back + i)) :=
  ⟨rfl, rfl, rfl, rfl, fun format => by cases format⟩

theorem Shifted.piece {s t : FieldScan} (shifted : Shifted rest.length s t) :
    t.piece (rest ++ pattern) (rest.length + i) = s.piece pattern i := by
  have span : t.j - (rest.length + i) - 1 = s.j - i - 1 := by
    rw [shifted.j]
    omega
  have ends : t.j = (rest ++ pattern).length ↔ s.j = pattern.length := by
    rw [shifted.j, List.length_append]
    omega
  simp only [FieldScan.piece, span, ends, shifted.status, shifted.field, shifted.fmt,
    show rest.length + i + 1 = rest.length + (i + 1) by omega, substr_shift]

/-- An open format was entered at a brace that no later one closes. -/
theorem scanField_unclosed (s : FieldScan)
    (opened : (scanField pattern i s).status = .format) :
    (s.status = .format → '}' ∉ pattern.drop s.j) ∧
    (s.status = .name → ∃ name tail, pattern.drop s.j = name ++ '{' :: tail ∧
      (∀ c ∈ name, c.isAlpha = true ∨ c = '}') ∧ '}' ∉ tail) := by
  fun_induction scanField pattern i s with
  | case1 s inside ends => simp [ends.1] at opened
  | case2 s inside stays opens ih =>
      have ahead := List.drop_eq_getElem_cons inside
      rw [opens.2] at ahead
      have absent : '}' ∉ pattern.drop s.j := (ih opened).1 rfl
      rw [ahead] at absent
      constructor
      · intro format
        simp [format] at opens
      · intro _
        exact ⟨[], pattern.drop (s.j + 1), ahead, by simp,
          fun member => absent (List.mem_cons_of_mem _ member)⟩
  | case3 s inside stays unopened closes => cases opened
  | case4 s inside stays unopened unclosed ih =>
      have ahead := List.drop_eq_getElem_cons inside
      have later := ih opened
      constructor
      · intro format
        have apart : pattern[s.j] ≠ '}' := fun same => unclosed ⟨format, same⟩
        rw [ahead, List.mem_cons, not_or]
        exact ⟨apart.symm, later.1 format⟩
      · intro named
        have passed : pattern[s.j].isAlpha = true ∨ pattern[s.j] = '}' := by
          have goes : ¬ endsName pattern[s.j] = true := fun ends => stays ⟨named, ends⟩
          have plain : pattern[s.j] ≠ '{' := fun brace => unopened ⟨named, brace⟩
          simp only [endsName, Bool.and_eq_true, Bool.not_eq_true', bne_iff_ne, not_and,
            Decidable.not_not, and_imp] at goes
          by_cases letter : pattern[s.j].isAlpha = true
          · exact .inl letter
          · exact .inr (goes (by simpa using letter) plain)
        obtain ⟨name, tail, rest, names, absent⟩ := later.2 named
        exact ⟨pattern[s.j] :: name, tail, by rw [ahead, rest, List.cons_append],
          List.forall_mem_cons.mpr ⟨passed, names⟩, absent⟩
  | case5 s outside =>
      rw [List.drop_eq_nil_of_le (by omega)]
      constructor
      · intro _
        simp
      · intro named
        simp [named] at opened

end InnerLoop

section OuterLoop

variable {pattern rest : List Char}

theorem literals_shift (back : Nat) (literal : List Char) :
    (literals literal).map (fun entry => (entry.1.shift back, entry.2)) = literals literal := by
  unfold literals
  split <;> rfl

theorem entries_shift (i : Nat) (literal : List Char) :
    entries (rest ++ pattern) (rest.length + i) literal =
      (entries pattern i literal).map fun entry => (entry.1.shift rest.length, entry.2) := by
  have length : (rest ++ pattern).length = rest.length + pattern.length := List.length_append
  fun_induction entries pattern i literal with
  | case1 i literal inside text ih =>
      rw [entries, dif_pos (by omega), getElem_shift inside, if_pos text]
      exact ih
  | case2 i literal inside text double ih =>
      have next : (rest ++ pattern)[rest.length + i + 1]? = some '%' := by
        rw [Nat.add_assoc, List.getElem?_append_right (Nat.le_add_right _ _),
          Nat.add_sub_cancel_left, double]
      rw [entries, dif_pos (by omega), getElem_shift inside, if_neg text, if_pos next]
      exact ih
  | case3 i literal inside text double s ih =>
      have next : ¬ (rest ++ pattern)[rest.length + i + 1]? = some '%' := by
        rw [Nat.add_assoc, List.getElem?_append_right (Nat.le_add_right _ _),
          Nat.add_sub_cancel_left]
        exact double
      have shifted : Shifted rest.length s
          (scanField (rest ++ pattern) (rest.length + i) (.start (rest.length + i))) :=
        scanField_shift (.start i) _ (Nat.le_refl _) (start_shifted rest.length i)
      rw [entries, dif_pos (by omega), getElem_shift inside, if_neg text, if_neg next]
      simp only
      rw [shifted.piece, shifted.j, Nat.add_assoc, ih, List.map_append, List.map_cons,
        literals_shift]
      rfl
  | case4 i literal outside => rw [entries, dif_neg (by omega), List.map_nil]

theorem entries_end {i : Nat} {literal : List Char} (outside : pattern.length ≤ i) :
    entries pattern i literal = [] := by
  rw [entries, dif_neg (by omega)]

theorem FieldScan.piece_append {s : FieldScan} {i : Nat} (ended : s.j < pattern.length) :
    s.piece (pattern ++ rest) i = s.piece pattern i := by
  have before : ¬ (s.j = pattern.length ∧ s.j - i - 1 > 0) := by omega
  have far : ¬ (s.j = (pattern ++ rest).length ∧ s.j - i - 1 > 0) := by
    rw [List.length_append]
    omega
  rw [FieldScan.piece, FieldScan.piece, if_neg before, if_neg far]

/-- What is read behind a closed field does not depend on what was read before. -/
theorem entries_closed {f : Nat} {piece : Piece} (i : Nat) (literal : List Char)
    (member : (Origin.field f, piece) ∈ entries pattern i literal)
    (last : (scanField pattern f (.start f)).j + 1 = pattern.length) :
    entries (pattern ++ rest) i literal =
      entries pattern i literal ++ entries (pattern ++ rest) pattern.length [] := by
  have longer : (pattern ++ rest).length = pattern.length + rest.length := List.length_append
  fun_induction entries pattern i literal with
  | case1 i literal inside text ih =>
      rw [entries, dif_pos (by omega), List.getElem_append_left inside, if_pos text]
      exact ih member
  | case2 i literal inside text double ih =>
      have further := (List.getElem?_eq_some_iff.mp double).1
      rw [entries, dif_pos (by omega), List.getElem_append_left inside, if_neg text,
        List.getElem?_append_left further, if_pos double]
      exact ih member
  | case3 i literal inside text double s ih =>
      have later : f = i ∨ (Origin.field f, piece) ∈ entries pattern (s.j + 1) [] := by
        rcases List.mem_append.mp member with text | field
        · exact absurd text (not_mem_literals literal)
        · rcases List.mem_cons.mp field with here | behind
          · exact Or.inl (Origin.field.inj (Prod.mk.inj here).1)
          · exact Or.inr behind
      have ended : s.j < pattern.length := by
        by_contra ran
        rcases later with rfl | later
        · have reached : s.j + 1 = pattern.length := last
          omega
        · rw [entries_end (by omega)] at later
          cases later
      have further : i + 1 < pattern.length := by
        by_contra short
        have whole : s = .start i := scanField_end (by show _ ≤ i + 1; omega)
        rw [whole] at ended
        exact short ended
      have same : scanField (pattern ++ rest) i (.start i) = s :=
        scanField_append (.start i) (Nat.le_refl _) (fun format => by cases format) ended
      rw [entries, dif_pos (by omega), List.getElem_append_left inside, if_neg text,
        List.getElem?_append_left further, if_neg double]
      simp only
      rw [same, FieldScan.piece_append ended, List.append_assoc, List.cons_append]
      rcases later with same | later
      · have reached : s.j + 1 = pattern.length := by
          rw [same] at last
          exact last
        rw [reached, entries_end (Nat.le_refl _), List.nil_append]
      · rw [ih later]
  | case4 i literal outside => cases member

/-- The entries behind a boundary are those of the tail on its own. -/
theorem entries_boundary (boundary : AtBoundary pattern) :
    entries (pattern ++ rest) 0 [] = entries pattern 0 [] ++
      (entries rest 0 []).map fun entry => (entry.1.shift pattern.length, entry.2) := by
  have behind : entries (pattern ++ rest) (pattern.length + 0) [] =
      (entries rest 0 []).map fun entry => (entry.1.shift pattern.length, entry.2) :=
    entries_shift 0 []
  rw [← behind, Nat.add_zero]
  rcases boundary with rfl | ⟨f, piece, member, _, last⟩
  · have nothing : entries ([] : List Char) 0 [] = [] := entries_end (Nat.le_refl 0)
    rw [nothing]
    rfl
  · exact entries_closed 0 [] member last

theorem literals_silent {literal : List Char} {entry : Origin × Piece}
    (member : entry ∈ literals literal) : ¬ Reports pattern entry := by
  unfold literals at member
  split at member
  · cases member
  · rw [List.mem_singleton.mp member]
    exact id

/-- An entry that reports took the rest of the pattern: none is in front of another. -/
theorem entries_reports (i : Nat) (literal : List Char) :
    (entries pattern i literal).Pairwise (fun entry _ => ¬ Reports pattern entry) := by
  fun_induction entries pattern i literal with
  | case1 i literal inside text ih => exact ih
  | case2 i literal inside text double ih => exact ih
  | case3 i literal inside text double s ih =>
      apply List.pairwise_append.mpr
      refine ⟨?_, List.pairwise_cons.mpr ⟨?_, ih⟩, fun entry member _ _ =>
        literals_silent member⟩
      · unfold literals
        split
        · exact .nil
        · exact List.pairwise_singleton _ _
      · intro entry member reports
        have ended : pattern.length ≤ s.j := scanField_format _ reports
        rw [entries_end (by omega)] at member
        cases member
  | case4 i literal outside => exact .nil

/-- A field's entry is the inner loop's from its percent sign on. -/
theorem entries_field {f : Nat} {piece : Piece} (i : Nat) (literal : List Char)
    (member : (Origin.field f, piece) ∈ entries pattern i literal) :
    ∃ tail, pattern.drop f = '%' :: tail ∧
      piece = (scanField pattern f (.start f)).piece pattern f := by
  fun_induction entries pattern i literal with
  | case1 i literal inside text ih => exact ih member
  | case2 i literal inside text double ih => exact ih member
  | case3 i literal inside text double s ih =>
      rcases List.mem_append.mp member with text | field
      · exact absurd text (not_mem_literals literal)
      · rcases List.mem_cons.mp field with here | later
        · cases here
          have ahead := List.drop_eq_getElem_cons inside
          rw [Decidable.not_not.mp text] at ahead
          exact ⟨_, ahead, rfl⟩
        · exact ih later
  | case4 i literal outside => cases member

theorem reports_unclosed {f : Nat} {piece : Piece} {i : Nat} {literal : List Char}
    (member : (Origin.field f, piece) ∈ entries pattern i literal)
    (reports : Reports pattern (.field f, piece)) :
    piece.item = patternError ∧ Unclosed pattern f := by
  obtain ⟨tail, ahead, rfl⟩ := entries_field i literal member
  obtain ⟨name, rest, behind, names, absent⟩ := (scanField_unclosed _ reports).2 rfl
  have opened : (scanField pattern f (.start f)).status = .format := reports
  constructor
  · simp only [FieldScan.piece, if_pos opened, Piece.item, patternError]
    rfl
  · have next : tail = name ++ '{' :: rest := by
      rw [← behind]
      exact (drop_succ_of_ahead ahead).symm
    exact ⟨name, rest, next ▸ ahead, names, absent⟩

theorem registered_ne_string {name : String} {make : String → FormatItem}
    (member : (name, make) ∈ FormatItem.registered) (format text : String) :
    make format ≠ .string text := by
  simp only [FormatItem.registered, List.mem_cons, Prod.mk.injEq, List.not_mem_nil,
    or_false] at member
  rcases member with same | same | same | same | same | same | same | same | same | same | same
    <;> rw [same.2] <;> simp [FormatItem.newTime]

/-- A field gives a text only where its name is not registered. -/
theorem ofField_string {name format text : String}
    (same : FormatItem.ofField name format = .string text) :
    text = "<<error_format %" ++ name ++ ">>" := by
  unfold FormatItem.ofField at same
  split at same
  · exact (FormatItem.string.inj same).symm
  · next make found =>
      obtain ⟨before, after, whole, _⟩ := List.lookup_eq_some_iff.mp found
      have member : (name, make) ∈ FormatItem.registered := by simp [whole]
      exact absurd same (registered_ne_string member format text)

theorem ofField_ne_patternError (name format : String) :
    FormatItem.ofField name format ≠ patternError := by
  intro same
  have third := congrArg (fun text => text.toList[2]?) (ofField_string same)
  simp at third

/-- Only literals of the pattern itself give that text, too. -/
theorem reports_of_item {i : Nat} {literal : List Char} {entry : Origin × Piece}
    (member : entry ∈ entries pattern i literal) (item : entry.2.item = patternError) :
    Reports pattern entry ∨ entry.1 = .literal := by
  obtain ⟨origin, piece⟩ := entry
  cases origin with
  | literal => exact .inr rfl
  | field f =>
      obtain ⟨_, _, rfl⟩ := entries_field i literal member
      by_cases opened : (scanField pattern f (.start f)).status = .format
      · exact .inl opened
      · simp only [FieldScan.piece, if_neg opened, Piece.item, ↓reduceIte] at item
        exact absurd item (ofField_ne_patternError _ _)

end OuterLoop

theorem new_append {w : String} (boundary : AtBoundary w.toList) (q : String) :
    (new (w ++ q)).items = (new w).items ++ (new q).items := by
  rw [new_entries, new_entries, new_entries, String.toList_append, entries_boundary boundary,
    List.map_append, List.map_map]
  rfl

/-- A tail never changes the items of a head that ends at a boundary, and the text for an
open format is one item at most, the last one, of a field whose brace none closes. -/
theorem malformed_tail :
    (∀ w q : String, AtBoundary w.toList →
      (new (w ++ q)).items = (new w).items ++ (new q).items) ∧
    ∀ pattern : String,
      (new pattern).items = (entries pattern.toList 0 []).map (fun entry => entry.2.item) ∧
      (∀ entry ∈ entries pattern.toList 0 [], entry.2.item = patternError →
        Reports pattern.toList entry ∨ entry.1 = .literal) ∧
      ∀ before entry after, entries pattern.toList 0 [] = before ++ entry :: after →
        Reports pattern.toList entry →
        entry.2.item = patternError ∧ after = [] ∧
          (∀ earlier ∈ before, ¬ Reports pattern.toList earlier) ∧
          ∃ f, entry.1 = .field f ∧ Unclosed pattern.toList f := by
  refine ⟨fun w q boundary => new_append boundary q, fun pattern => ⟨new_entries pattern,
    fun entry member item => reports_of_item member item, ?_⟩⟩
  intro before entry after split reports
  have silent : (entries pattern.toList 0 []).Pairwise
      (fun entry _ => ¬ Reports pattern.toList entry) := entries_reports 0 []
  have member : entry ∈ entries pattern.toList 0 [] := by
    rw [split]
    exact List.mem_append_right before List.mem_cons_self
  rw [split] at silent
  have apart := List.pairwise_append.mp silent
  obtain ⟨origin, piece⟩ := entry
  cases origin with
  | literal => exact reports.elim
  | field f =>
      have shape := reports_unclosed member reports
      refine ⟨shape.1, ?_, fun earlier earlierMember =>
        apart.2.2 earlier earlierMember _ List.mem_cons_self, f, rfl, shape.2⟩
      cases after with
      | nil => rfl
      | cons later after =>
          exact absurd reports ((List.pairwise_cons.mp apart.2.1).1 later List.mem_cons_self)

theorem sample_boundary : AtBoundary "%d{%H}".toList := by
  refine .inr ⟨0, ⟨['d'], ['%', 'H'], true⟩, ?_, ?_, ?_⟩ <;>
  simp [entries, scanField, FieldScan.start, FieldScan.piece, endsName, substr, literals]

theorem malformed_tail_sample :
    (new ("%d{%H}" ++ "%p\x7ba")).items = (new "%d{%H}").items ++ (new "%p\x7ba").items ∧
    Unclosed "%p\x7ba".toList 0 := by
  have entered : entries "%p\x7ba".toList 0 [] =
      [] ++ (.field 0, .text "<<pattern_error>>".toList) :: [] := by
    simp [entries, scanField, FieldScan.start, FieldScan.piece, endsName, substr, literals,
      Piece.text]
  have opened : Reports "%p\x7ba".toList (.field 0, .text "<<pattern_error>>".toList) := by
    simp [Reports, scanField, FieldScan.start, endsName]
  obtain ⟨_, _, _, f, field, unclosed⟩ := (malformed_tail.2 "%p\x7ba").2.2 _ _ _ entered opened
  refine ⟨malformed_tail.1 "%d{%H}" "%p\x7ba" sample_boundary, ?_⟩
  cases field
  exact unclosed

end ZnetServer.LogFormatter
