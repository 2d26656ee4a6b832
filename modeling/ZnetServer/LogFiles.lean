import ZnetServer.LogDelivery
import ZnetServer.Transition

set_option autoImplicit false

/- What becomes of the records that file appenders write. A step is one call of an appender's
`log`, of `reopen` or `setFilepath`, or of the manager. -/
namespace ZnetServer

open Transition

/-- Blocks lie in a content in their order, apart from each other. -/
def InOrder {α : Type} : List (List α) → List α → Prop
  | [], _ => True
  | block :: rest, content => ∃ gap after, content = gap ++ block ++ after ∧ InOrder rest after

section Blocks

variable {α : Type} {blocks : List (List α)}

theorem InOrder.length {content : List α} (inside : InOrder blocks content) :
    blocks.flatten.length ≤ content.length := by
  induction blocks generalizing content with
  | nil => exact Nat.zero_le _
  | cons block rest ih =>
      obtain ⟨gap, after, rfl, later⟩ := inside
      have bound := ih later
      simp only [List.flatten_cons, List.length_append]
      omega

theorem inOrder_flatten (blocks : List (List α)) : InOrder blocks blocks.flatten := by
  induction blocks with
  | nil => exact trivial
  | cons block rest ih => exact ⟨[], rest.flatten, rfl, ih⟩

/-- Empty blocks lie in every content. -/
theorem inOrder_empty (content : List α) (empty : blocks.flatten = []) :
    InOrder blocks content := by
  induction blocks generalizing content with
  | nil => exact trivial
  | cons block rest ih =>
      obtain ⟨none, later⟩ := List.append_eq_nil_iff.mp empty
      exact ⟨[], content, by rw [none]; rfl, ih content later⟩

end Blocks

section Writing

variable {content text : String} {offset : Nat}

theorem toList_writeAt (content : String) (offset : Nat) (text : String) :
    (writeAt content offset text).toList = content.toList.take offset ++
      List.replicate (offset - content.toList.length) '\x00' ++ text.toList ++
        content.toList.drop (offset + text.length) := by
  rw [writeAt, String.toList_ofList]

theorem writeAt_end (last : offset = content.toList.length) :
    (writeAt content offset text).toList = content.toList ++ text.toList := by
  rw [toList_writeAt, last, List.take_length, Nat.sub_self, List.replicate_zero, List.append_nil,
    List.drop_eq_nil_of_le (Nat.le_add_right _ _), List.append_nil]

theorem writeAt_nothing (inside : offset ≤ content.toList.length) :
    (writeAt content offset "").toList = content.toList := by
  have gap : offset - content.toList.length = 0 := by omega
  rw [toList_writeAt, gap]
  simp

/-- Nothing is written beyond the old end or the end of the text. -/
theorem length_writeAt (content : String) (offset : Nat) (text : String) :
    (writeAt content offset text).toList.length =
      max content.toList.length (offset + text.toList.length) := by
  rw [toList_writeAt]
  simp only [List.length_append, List.length_take, List.length_replicate, List.length_drop,
    String.length_toList]
  omega

end Writing

/-- What a path holds; a missing file holds nothing. -/
def Output.content (out : Output) (path : String) : String := (out.files[path]?).getD ""

namespace LoggerManager

/-- The manager and its files, with the records written so far under their paths. -/
structure Journal where
  m : LoggerManager
  out : Output
  records : List (String × String)

inductive LogStep where
  /-- `log` of an appender up to the report of a file that is not open. -/
  | append (a : Nat) (loggerName : String) (level : LogLevel) (event : LogEvent)
  | reopen (a : Nat)
  | setFilepath (a : Nat) (filepath : String)
  | manage (op : Op)

namespace Journal

/-- No stream is open and nothing is written. -/
def start (m : LoggerManager) (cout : String) (files : Std.ExtTreeMap String String) : Journal where
  m := m
  out := ⟨cout, files, ∅⟩
  records := []

def write (s : Journal) (a : Nat) (stream : Stream) (text : String) : Journal :=
  { s with out := s.out.write a stream text, records := s.records ++ [(stream.path, text)] }

/-- The path of a file appender. -/
def filepath (s : Journal) (a : Nat) : Option String :=
  match (s.m.appender a).map LogAppender.sink with
  | some (.file path) => some path
  | some .stdout | none => none

def next (host : Host) (s : Journal) : LogStep → Option Journal
  | .append a loggerName level event =>
    match s.m.appender a with
    | none => none
    | some x =>
      if x.level ≤ level then
        let text := x.formatter.map fun f => f.format host.clock loggerName level event
        match x.sink with
        | .stdout =>
          text.map fun text => { s with out := { s.out with cout := s.out.cout ++ text } }
        | .file path =>
          let ready := { s with out := s.out.ready host a path }
          match ready.out.opened[a]? with
          | some stream => text.map (ready.write a stream)
          | none => some ready
      else some s
  | .reopen a => (s.filepath a).map fun path => { s with out := s.out.reopen host a path }
  | .setFilepath a filepath => (s.filepath a).map fun _ =>
      { s with m := s.m.modifyAppender a fun x => { x with sink := .file filepath } }
  | .manage op => (LoggerManager.next s.m op).map fun m => { s with m }

/-- Every step has a host of its own: the clock goes on, and whether a file can be opened may
change. -/
def nextOn (s : Journal) (step : Host × LogStep) : Option Journal := next step.1 s step.2

/-- The records of a path, in the order written. -/
def recordsOf (s : Journal) (path : String) : List (List Char) :=
  (s.records.filter (·.1 = path)).map fun record => record.2.toList

/-- Each record is in its file, whole and in order. -/
def Intact (s : Journal) : Prop :=
  ∀ path, InOrder (s.recordsOf path) (s.out.content path).toList

/-- The step opens a path that has a record, or writes in front of the end of a file. -/
def Destroys (host : Host) (s : Journal) : LogStep → Prop
  | .append a loggerName level event => ∃ x f path, s.m.appender a = some x ∧
      x.formatter = some f ∧ x.sink = .file path ∧ x.level ≤ level ∧
      match s.out.opened[a]? with
      | none => host.openable path = true ∧ (s.recordsOf path).flatten ≠ []
      | some stream => f.format host.clock loggerName level event ≠ "" ∧
          stream.offset < (s.out.content stream.path).length
  | .reopen a => ∃ path, s.filepath a = some path ∧ host.openable path = true ∧
      (s.recordsOf path).flatten ≠ []
  | .setFilepath _ _ | .manage _ => False

/-- What `Destroys` asks of `log`, of the file appender that it is. -/
theorem destroys_append_iff {host : Host} {s : Journal} {a : Nat} {loggerName path : String}
    {level : LogLevel} {event : LogEvent} {x : LogAppender} {f : LogFormatter}
    (found : s.m.appender a = some x) (given : x.formatter = some f) (file : x.sink = .file path) :
    s.Destroys host (.append a loggerName level event) ↔ x.level ≤ level ∧
      match s.out.opened[a]? with
      | none => host.openable path = true ∧ (s.recordsOf path).flatten ≠ []
      | some stream => f.format host.clock loggerName level event ≠ "" ∧
          stream.offset < (s.out.content stream.path).length := by
  constructor
  · rintro ⟨y, g, other, same, formatter, sink, passes, harm⟩
    obtain rfl := Option.some.inj (found.symm.trans same)
    obtain rfl := Option.some.inj (given.symm.trans formatter)
    obtain rfl := Sink.file.inj (file.symm.trans sink)
    exact ⟨passes, harm⟩
  · rintro ⟨passes, harm⟩
    exact ⟨x, f, path, found, given, file, passes, harm⟩

instance (host : Host) (s : Journal) : (step : LogStep) → Decidable (s.Destroys host step)
  | .append a loggerName level event =>
    match found : s.m.appender a with
    | none => isFalse fun ⟨_, _, _, same, _⟩ => nomatch found.symm.trans same
    | some x => match given : x.formatter, file : x.sink with
      | some f, .file path => match here : s.out.opened[a]? with
        | none => decidable_of_iff (x.level ≤ level ∧ host.openable path = true ∧
            (s.recordsOf path).flatten ≠ []) (by rw [destroys_append_iff found given file, here])
        | some stream => decidable_of_iff (x.level ≤ level ∧
            f.format host.clock loggerName level event ≠ "" ∧
            stream.offset < (s.out.content stream.path).length)
              (by rw [destroys_append_iff found given file, here])
      | none, _ => isFalse (by
          rintro ⟨y, f, path, same, formatter, _⟩
          rw [← Option.some.inj (found.symm.trans same), given] at formatter
          cases formatter)
      | some _, .stdout => isFalse (by
          rintro ⟨y, f, path, same, _, sink, _⟩
          rw [← Option.some.inj (found.symm.trans same), file] at sink
          cases sink)
  | .reopen a => match file : s.filepath a with
    | none => isFalse fun ⟨_, same, _⟩ => nomatch file.symm.trans same
    | some path => decidable_of_iff
        (host.openable path = true ∧ (s.recordsOf path).flatten ≠ [])
        ⟨fun harm => ⟨path, file, harm⟩,
          fun ⟨_, same, harm⟩ => Option.some.inj (file.symm.trans same) ▸ harm⟩
  | .setFilepath _ _ | .manage _ => inferInstanceAs (Decidable False)

section Primitives

variable (host : Host) (s : Journal) (a : Nat) (stream : Stream) (text path : String)

/-- The journal with the file of an appender reopened. -/
def reopened : Journal := { s with out := s.out.reopen host a path }

theorem content_write (other : String) : (s.write a stream text).out.content other =
    if stream.path = other then writeAt (s.out.content stream.path) stream.offset text
    else s.out.content other := by
  simp only [write, Output.write, Output.content, Std.ExtTreeMap.getElem?_insert,
    Std.LawfulEqCmp.compare_eq_iff_eq]
  split <;> rfl

theorem recordsOf_write (other : String) : (s.write a stream text).recordsOf other =
    if stream.path = other then s.recordsOf other ++ [text.toList] else s.recordsOf other := by
  simp only [write, recordsOf, List.filter_append, List.map_append]
  by_cases same : stream.path = other
  · simp [same]
  · simp [same]

theorem opened_write (b : Nat) : (s.write a stream text).out.opened[b]? =
    if a = b then some { stream with offset := stream.offset + text.length }
    else s.out.opened[b]? := by
  simp only [write, Output.write, Std.ExtTreeMap.getElem?_insert,
    Std.LawfulEqCmp.compare_eq_iff_eq]

theorem content_reopened (other : String) : (s.reopened host a path).out.content other =
    if host.openable path = true ∧ path = other then "" else s.out.content other := by
  unfold reopened Output.reopen
  by_cases opens : host.openable path = true
  · simp only [opens, ↓reduceIte, Output.content, Std.ExtTreeMap.getElem?_insert,
      Std.LawfulEqCmp.compare_eq_iff_eq, true_and]
    split <;> rfl
  · simp only [opens, ↓reduceIte, false_and, Bool.false_eq_true]
    rfl

theorem opened_reopened (b : Nat) : (s.reopened host a path).out.opened[b]? =
    if a = b then (if host.openable path = true then some ⟨path, 0⟩ else none)
    else s.out.opened[b]? := by
  unfold reopened Output.reopen
  by_cases opens : host.openable path = true
  · simp only [opens, ↓reduceIte, Std.ExtTreeMap.getElem?_insert,
      Std.LawfulEqCmp.compare_eq_iff_eq]
  · simp only [opens, ↓reduceIte, Std.ExtTreeMap.getElem?_erase,
      Std.LawfulEqCmp.compare_eq_iff_eq, Bool.false_eq_true]

end Primitives

/-- Every file with records is what was written to it, and no open stream stands behind
the end of its file. -/
structure Exact (s : Journal) : Prop where
  kept : ∀ path, (s.recordsOf path).flatten ≠ [] →
    (s.out.content path).toList = (s.recordsOf path).flatten
  live : ∀ (a : Nat) (stream : Stream), s.out.opened[a]? = some stream →
    (s.out.content stream.path).toList = (s.recordsOf stream.path).flatten ∧
      stream.offset ≤ (s.recordsOf stream.path).flatten.length

/-- More was written to a path than its file holds. -/
def Short (s : Journal) (path : String) : Prop :=
  (s.out.content path).toList.length < (s.recordsOf path).flatten.length

theorem Exact.intact {s : Journal} (exact_ : s.Exact) : s.Intact := by
  intro path
  by_cases bare : (s.recordsOf path).flatten = []
  · exact inOrder_empty _ bare
  · rw [exact_.kept path bare]
    exact inOrder_flatten _

theorem Short.not_intact {s : Journal} {path : String} (short : s.Short path) : ¬ s.Intact := by
  intro intact
  have bound := (intact path).length
  unfold Short at short
  omega

section Steps

variable {host : Host} {s : Journal} {a : Nat} {stream : Stream} {text path : String}

/-- Opening a path without records. -/
theorem Exact.reopened (exact_ : s.Exact)
    (safe : host.openable path = true → (s.recordsOf path).flatten = []) :
    (s.reopened host a path).Exact := by
  have records : ∀ other, (s.reopened host a path).recordsOf other = s.recordsOf other :=
    fun _ => rfl
  constructor
  · intro other written
    rw [records] at written ⊢
    rw [content_reopened, if_neg, exact_.kept other written]
    intro truncated
    exact written (truncated.2 ▸ safe truncated.1)
  · intro b own here
    rw [records]
    rw [opened_reopened] at here
    split at here
    · split at here
      · rename_i opens
        obtain rfl := Option.some.inj here
        rw [content_reopened, if_pos ⟨opens, rfl⟩, safe opens]
        exact ⟨rfl, Nat.le_refl 0⟩
      · cases here
    · have before := exact_.live b own here
      rw [content_reopened]
      split
      · rename_i truncated
        obtain ⟨opens, rfl⟩ := truncated
        have none := safe opens
        rw [none] at before ⊢
        exact ⟨rfl, before.2⟩
      · exact before

/-- Writing at the end of a file, or writing nothing. -/
theorem Exact.write (exact_ : s.Exact) (here : s.out.opened[a]? = some stream)
    (safe : text = "" ∨ (s.out.content stream.path).toList.length ≤ stream.offset) :
    (s.write a stream text).Exact := by
  obtain ⟨content, inside⟩ := exact_.live a stream here
  have written : (writeAt (s.out.content stream.path) stream.offset text).toList =
      (s.recordsOf stream.path ++ [text.toList]).flatten := by
    rw [List.flatten_append, List.flatten_singleton, ← content]
    rcases safe with rfl | last
    · rw [writeAt_nothing (by rw [content]; exact inside)]
      exact (List.append_nil _).symm
    · apply writeAt_end
      rw [content] at last ⊢
      omega
  have grown : (s.recordsOf stream.path ++ [text.toList]).flatten.length =
      (s.recordsOf stream.path).flatten.length + text.length := by
    simp [String.length_toList]
  constructor
  · intro other nonempty
    rw [content_write, recordsOf_write] at *
    by_cases same : stream.path = other
    · subst same
      rw [if_pos rfl, if_pos rfl, written]
    · rw [if_neg same] at nonempty ⊢
      rw [if_neg same]
      exact exact_.kept other nonempty
  · intro b own opened
    rw [opened_write] at opened
    rw [content_write, recordsOf_write]
    split at opened
    · obtain rfl := Option.some.inj opened
      rw [if_pos rfl, if_pos rfl, written, grown]
      exact ⟨rfl, by simpa using inside⟩
    · have before := exact_.live b own opened
      by_cases same : stream.path = own.path
      · rw [if_pos same, if_pos same, ← same, written, grown]
        rw [← same] at before
        exact ⟨rfl, by omega⟩
      · rw [if_neg same, if_neg same]
        exact before

/-- Opening a path with records. -/
theorem short_reopened (opens : host.openable path = true)
    (written : (s.recordsOf path).flatten ≠ []) : (s.reopened host a path).Short path := by
  unfold Short
  rw [content_reopened, if_pos ⟨opens, rfl⟩]
  exact List.length_pos_iff.mpr written

/-- A file that is short stays short if nobody writes behind its end. -/
theorem Short.write (short : s.Short stream.path)
    (inside : stream.offset ≤ (s.out.content stream.path).toList.length) :
    (s.write a stream text).Short stream.path := by
  unfold Short at short ⊢
  rw [content_write, recordsOf_write, if_pos rfl, if_pos rfl, length_writeAt, List.flatten_append,
    List.length_append, List.flatten_singleton]
  omega

/-- Writing in front of the end of a file. -/
theorem short_write (exact_ : s.Exact) (here : s.out.opened[a]? = some stream)
    (nonempty : text ≠ "") (inside : stream.offset < (s.out.content stream.path).toList.length) :
    (s.write a stream text).Short stream.path := by
  have content := (exact_.live a stream here).1
  have some_text : 0 < text.toList.length :=
    List.length_pos_iff.mpr fun empty => nonempty (String.toList_inj.mp empty)
  unfold Short
  rw [content_write, recordsOf_write, if_pos rfl, if_pos rfl, length_writeAt, List.flatten_append,
    List.length_append, List.flatten_singleton, ← content]
  omega

end Steps

section Appending

variable {host : Host} {s : Journal} {a : Nat} {x : LogAppender} {path loggerName : String}
  {level : LogLevel} {event : LogEvent}

theorem filepath_file (found : s.m.appender a = some x) (file : x.sink = .file path) :
    s.filepath a = some path := by
  simp only [filepath, found, Option.map_some, file]

/-- `FileLogAppender::log` at a level that it accepts. -/
theorem append_file (found : s.m.appender a = some x) (file : x.sink = .file path)
    (accepts : x.level ≤ level) : next host s (.append a loggerName level event) =
      let text := x.formatter.map fun f => f.format host.clock loggerName level event
      match s.out.opened[a]? with
      | some stream => text.map (s.write a stream)
      | none =>
        if host.openable path then text.map ((s.reopened host a path).write a ⟨path, 0⟩)
        else some (s.reopened host a path) := by
  cases here : s.out.opened[a]? with
  | some stream =>
      have inside : a ∈ s.out.opened := by
        rw [Std.ExtTreeMap.mem_iff_isSome_getElem?, here, Option.isSome_some]
      simp only [next, found, accepts, ↓reduceIte, file, Output.ready, inside, here]
  | none =>
      have outside : a ∉ s.out.opened := by
        rw [Std.ExtTreeMap.mem_iff_isSome_getElem?, here]
        exact Bool.false_ne_true
      have stream := opened_reopened host s a path a
      rw [if_pos rfl] at stream
      simp only [next, found, accepts, ↓reduceIte, file, Output.ready, outside]
      change (match (s.reopened host a path).out.opened[a]? with
        | some stream => Option.map ((s.reopened host a path).write a stream)
            (x.formatter.map fun f : LogFormatter => f.format host.clock loggerName level event)
        | none => some (s.reopened host a path)) = _
      by_cases opens : host.openable path = true
      · simp only [stream, if_pos opens]
      · simp only [stream, if_neg opens]

end Appending

/-- Everything that a step can do to the files. -/
inductive Effect (host : Host) (s : Journal) : LogStep → Journal → Prop
  | quiet {step : LogStep} {t : Journal} (files : t.out.files = s.out.files)
      (opened : t.out.opened = s.out.opened) (records : t.records = s.records)
      (harmless : ¬ s.Destroys host step) : Effect host s step t
  | reopened {a : Nat} {path : String} (file : s.filepath a = some path) :
      Effect host s (.reopen a) (s.reopened host a path)
  | refused {a : Nat} {path : String} (loggerName : String) (level : LogLevel) (event : LogEvent)
      (shut : host.openable path = false)
      (harmless : ¬ s.Destroys host (.append a loggerName level event)) :
      Effect host s (.append a loggerName level event) (s.reopened host a path)
  | opened {a : Nat} {x : LogAppender} {f : LogFormatter} {path : String} (loggerName : String)
      {level : LogLevel} (event : LogEvent) (found : s.m.appender a = some x)
      (given : x.formatter = some f) (file : x.sink = .file path) (accepts : x.level ≤ level)
      (closed : s.out.opened[a]? = none) (opens : host.openable path = true) :
      Effect host s (.append a loggerName level event)
        ((s.reopened host a path).write a ⟨path, 0⟩ (f.format host.clock loggerName level event))
  | written {a : Nat} {x : LogAppender} {f : LogFormatter} {path : String} {stream : Stream}
      (loggerName : String) {level : LogLevel} (event : LogEvent)
      (found : s.m.appender a = some x) (given : x.formatter = some f)
      (file : x.sink = .file path) (accepts : x.level ≤ level)
      (here : s.out.opened[a]? = some stream) :
      Effect host s (.append a loggerName level event)
        (s.write a stream (f.format host.clock loggerName level event))

section Runs

variable {host : Host} {s t : Journal} {step : LogStep}

theorem append_effect {a : Nat} {loggerName : String} {level : LogLevel} {event : LogEvent}
    (done : next host s (.append a loggerName level event) = some t) :
    Effect host s (.append a loggerName level event) t := by
  cases found : s.m.appender a with
  | none => simp [next, found] at done
  | some x =>
      by_cases accepts : x.level ≤ level
      · cases file : x.sink with
        | stdout =>
            simp only [next, found, accepts, ↓reduceIte, file, Option.map_map,
              Option.map_eq_some_iff, Function.comp_apply] at done
            obtain ⟨f, _, rfl⟩ := done
            refine .quiet rfl rfl rfl fun destroys => ?_
            obtain ⟨y, _, path, same, _, other, _⟩ := destroys
            rw [← Option.some.inj (found.symm.trans same), file] at other
            cases other
        | file path =>
            rw [append_file found file accepts] at done
            cases here : s.out.opened[a]? with
            | some stream =>
                simp only [here, Option.map_map, Option.map_eq_some_iff,
                  Function.comp_apply] at done
                obtain ⟨f, given, rfl⟩ := done
                exact .written loggerName event found given file accepts here
            | none =>
                by_cases opens : host.openable path = true
                · simp only [here, if_pos opens, Option.map_map, Option.map_eq_some_iff,
                    Function.comp_apply] at done
                  obtain ⟨f, given, rfl⟩ := done
                  exact .opened loggerName event found given file accepts here opens
                · simp only [here, if_neg opens, Option.some.injEq] at done
                  subst done
                  have shut : host.openable path = false := Bool.eq_false_iff.mpr opens
                  refine .refused loggerName level event shut fun destroys => ?_
                  obtain ⟨y, _, other, same, _, sink, _, harm⟩ := destroys
                  rw [← Option.some.inj (found.symm.trans same), file] at sink
                  rw [here, ← Sink.file.inj sink] at harm
                  exact opens harm.1
      · simp only [next, found, accepts, ↓reduceIte, Option.some.injEq] at done
        subst done
        refine .quiet rfl rfl rfl fun destroys => ?_
        obtain ⟨y, _, path, same, _, _, passes, _⟩ := destroys
        rw [← Option.some.inj (found.symm.trans same)] at passes
        exact accepts passes

theorem next_effect (done : next host s step = some t) : Effect host s step t := by
  cases step with
  | append a loggerName level event => exact append_effect done
  | reopen a =>
      obtain ⟨path, file, rfl⟩ := Option.map_eq_some_iff.mp done
      exact .reopened file
  | setFilepath a filepath =>
      obtain ⟨path, file, rfl⟩ := Option.map_eq_some_iff.mp done
      exact .quiet rfl rfl rfl not_false
  | manage op =>
      obtain ⟨m, managed, rfl⟩ := Option.map_eq_some_iff.mp done
      exact .quiet rfl rfl rfl not_false

theorem Exact.quiet (exact_ : s.Exact) (files : t.out.files = s.out.files)
    (opened : t.out.opened = s.out.opened) (records : t.records = s.records) : t.Exact := by
  have content : ∀ path, t.out.content path = s.out.content path := by
    intro path
    rw [Output.content, Output.content, files]
  have written : ∀ path, t.recordsOf path = s.recordsOf path := by
    intro path
    rw [recordsOf, recordsOf, records]
  constructor
  · intro path nonempty
    rw [written] at nonempty ⊢
    rw [content, exact_.kept path nonempty]
  · intro a stream here
    rw [opened] at here
    rw [content, written]
    exact exact_.live a stream here

/-- A step that does not destroy keeps every file exact. -/
theorem Exact.next (exact_ : s.Exact) (done : Journal.next host s step = some t)
    (harmless : ¬ s.Destroys host step) : t.Exact := by
  cases next_effect done with
  | quiet files opened records _ => exact exact_.quiet files opened records
  | @reopened a path file =>
      apply exact_.reopened
      intro opens
      by_contra written
      exact harmless ⟨path, file, opens, written⟩
  | @refused a path loggerName level event shut _ =>
      apply exact_.reopened
      intro opens
      rw [shut] at opens
      cases opens
  | @opened a x f path loggerName level event found given file accepts closed opens =>
      have unwritten : (s.recordsOf path).flatten = [] := by
        by_contra written
        refine harmless ⟨x, f, path, found, given, file, accepts, ?_⟩
        rw [closed]
        exact ⟨opens, written⟩
      have reopened : (s.reopened host a path).Exact := exact_.reopened fun _ => unwritten
      have here := opened_reopened host s a path a
      rw [if_pos rfl, if_pos opens] at here
      apply reopened.write here
      rw [content_reopened, if_pos ⟨opens, rfl⟩]
      exact Or.inr (Nat.le_refl 0)
  | @written a x f path stream loggerName level event found given file accepts here =>
      apply exact_.write here
      by_cases nothing : f.format host.clock loggerName level event = ""
      · exact Or.inl nothing
      · refine Or.inr (Nat.le_of_not_lt fun before => ?_)
        refine harmless ⟨x, f, path, found, given, file, accepts, ?_⟩
        rw [here]
        exact ⟨nothing, by rwa [String.length_toList] at before⟩

/-- A step that destroys leaves a file that holds less than was written to it. -/
theorem Exact.lost (exact_ : s.Exact) (done : Journal.next host s step = some t)
    (harm : s.Destroys host step) : ¬ t.Intact := by
  cases next_effect done with
  | quiet files opened records harmless => exact absurd harm harmless
  | @reopened a path file =>
      obtain ⟨other, same, opens, written⟩ := harm
      obtain rfl := Option.some.inj (file.symm.trans same)
      exact (short_reopened opens written).not_intact
  | refused loggerName level event shut harmless => exact absurd harm harmless
  | @opened a x f path loggerName level event found given file accepts closed opens =>
      obtain ⟨y, _, other, same, _, sink, _, written⟩ := harm
      rw [← Option.some.inj (found.symm.trans same), file] at sink
      obtain rfl := Sink.file.inj sink
      rw [closed] at written
      let first : Stream := ⟨path, 0⟩
      have short : (s.reopened host a path).Short first.path := short_reopened opens written.2
      have inside : first.offset ≤
          ((s.reopened host a path).out.content first.path).toList.length := Nat.zero_le _
      exact (short.write inside).not_intact
  | @written a x f path stream loggerName level event found given file accepts here =>
      obtain ⟨y, g, other, same, formatter, _, _, before⟩ := harm
      obtain rfl := Option.some.inj (found.symm.trans same)
      obtain rfl := Option.some.inj (given.symm.trans formatter)
      rw [here] at before
      apply (short_write exact_ here before.1 _).not_intact
      rw [String.length_toList]
      exact before.2

theorem start_exact (m : LoggerManager) (cout : String) (files : Std.ExtTreeMap String String) :
    (start m cout files).Exact := by
  constructor
  · intro path written
    exact absurd rfl written
  · intro a stream here
    simp [start] at here

/-- In a run every record stays in its file, whole and in order, if and only if no step of it
destroys. -/
theorem records_survive_iff (m : LoggerManager) (cout : String)
    (files : Std.ExtTreeMap String String) {trace : List (Journal × Host × LogStep)} {s : Journal}
    (run : Run nextOn anyStep (start m cout files) trace s) :
    ((∀ step ∈ trace, step.1.Intact) ∧ s.Intact) ↔
      ∀ step ∈ trace, ¬ step.1.Destroys step.2.1 step.2.2 := by
  have kept : ∀ (s : Journal) (step : Host × LogStep) (t : Journal), s.Exact → anyStep s step →
      nextOn s step = some t → ¬ s.Destroys step.1 step.2 → t.Exact :=
    fun s step t exact_ _ done harmless => exact_.next done harmless
  have lost : ∀ (s : Journal) (step : Host × LogStep) (t : Journal), s.Exact → anyStep s step →
      nextOn s step = some t → s.Destroys step.1 step.2 → ¬ t.Intact :=
    fun s step t exact_ _ done harm => exact_.lost done harm
  exact run.safe_iff (start_exact m cout files) (fun s exact_ => exact_.intact) kept lost

end Runs

/-- A host on which every file can be opened. -/
def writableHost : Host := { sampleHost with openable := fun _ => true }

def rootStart : Journal := start init "" ∅

/-- The file appender of the root logger writes two records, of which the second comes after
`setFilepath`, and a third one to the file that `reopen` has opened while that was possible. -/
def movedRecords : List (Host × LogStep) :=
  [(writableHost, .manage (.configureLogger (sampleDefine "root"))),
    (writableHost, .append 1 "root" .info sampleEvent),
    (writableHost, .setFilepath 1 "b.log"),
    (sampleHost, .append 1 "root" .info sampleEvent), (writableHost, .reopen 1),
    (sampleHost, .append 1 "root" .info sampleEvent)]

theorem records_survive_root : ∃ trace s, Run nextOn anyStep rootStart trace s ∧
    s.records.map Prod.fst = ["../logs/root.log", "../logs/root.log", "b.log"] ∧
    (∀ step ∈ trace, step.1.Intact) ∧ s.Intact := by
  have spares : ((replay (guarded nextOn anyStep) rootStart movedRecords).map fun last =>
      decide (last.2.records.map Prod.fst = ["../logs/root.log", "../logs/root.log", "b.log"] ∧
        ∀ step ∈ last.1, ¬ step.1.Destroys step.2.1 step.2.2)) = some true := by
    decide +kernel
  obtain ⟨last, executed, spares⟩ := Option.map_eq_some_iff.mp spares
  obtain ⟨written, harmless⟩ := of_decide_eq_true spares
  have run := Run.of_replay executed
  exact ⟨last.1, last.2, run, written, (records_survive_iff init "" ∅ run).mpr harmless⟩

/-- The appender is rebuilt with its path, so the file is opened again for the second record. -/
def rebuiltSteps : List (Host × LogStep) :=
  [(writableHost, .manage (.configureLogger (sampleDefine "root"))),
    (writableHost, .append 1 "root" .info sampleEvent),
    (writableHost, .manage (.configureLogger (sampleDefine "root"))),
    (writableHost, .append 2 "root" .info sampleEvent)]

theorem records_lost_rebuilt : ∃ trace s, Run nextOn anyStep rootStart trace s ∧ ¬ s.Intact := by
  have less : ((replay (guarded nextOn anyStep) rootStart rebuiltSteps).map
      fun last => decide ((last.2.out.content "../logs/root.log").toList.length <
        (last.2.recordsOf "../logs/root.log").flatten.length)) = some true := by
    decide +kernel
  obtain ⟨last, executed, less⟩ := Option.map_eq_some_iff.mp less
  have short := of_decide_eq_true less
  exact ⟨last.1, last.2, Run.of_replay executed, Short.not_intact short⟩

section Calls

variable {host : Host} {m : LoggerManager}

/-- Some steps on the host lead from the one output to the other. -/
def Leads (host : Host) (m : LoggerManager) (out after : Output) : Prop :=
  ∀ records, ∃ trace later,
    Run nextOn (fun _ step => step.1 = host) ⟨m, out, records⟩ trace ⟨m, after, later⟩

theorem Leads.refl (out : Output) : Leads host m out out :=
  fun records => ⟨[], records, .nil⟩

theorem Leads.trans {out middle after : Output} (first : Leads host m out middle)
    (second : Leads host m middle after) : Leads host m out after := by
  intro records
  obtain ⟨front, between, run⟩ := first records
  obtain ⟨back, later, further⟩ := second between
  exact ⟨front ++ back, later, run.trans further⟩

theorem Leads.step {out after : Output} (step : LogStep)
    (done : ∀ records, ∃ later, Journal.next host ⟨m, out, records⟩ step =
      some ⟨m, after, later⟩) : Leads host m out after := by
  intro records
  obtain ⟨later, stepped⟩ := done records
  exact ⟨[(⟨m, out, records⟩, host, step)], later, Run.nil.snoc rfl stepped⟩

/-- What nested calls of `Logger::log` do. -/
def InnerLeads (host : Host) (m : LoggerManager) (inner : Log) : Prop :=
  ∀ l level event out after, inner l level event out = some after → Leads host m out after

theorem appenderLog_leads {inner : Log} (nested : InnerLeads host m inner) {name : String}
    {level : LogLevel} {event : LogEvent} {out after : Output} {a : Nat}
    (returns : m.appenderLog host inner name level event out a = some after) :
    Leads host m out after := by
  unfold appenderLog at returns
  split at returns
  · cases returns
  · rename_i x found
    split at returns
    · rename_i accepts
      split at returns
      · rename_i file
        obtain ⟨text, formatted, rfl⟩ := Option.map_eq_some_iff.mp returns
        apply Leads.step (.append a name level event)
        intro records
        exact ⟨records, by simp only [Journal.next, found, accepts, ↓reduceIte, file, formatted,
          Option.map_some]⟩
      · rename_i path file
        unfold fileLog at returns
        split at returns
        · rename_i stream here
          obtain ⟨text, formatted, rfl⟩ := Option.map_eq_some_iff.mp returns
          apply Leads.step (.append a name level event)
          intro records
          exact ⟨records ++ [(stream.path, text)], by simp only [Journal.next, found, accepts,
            ↓reduceIte, file, here, formatted, Option.map_some, Journal.write]⟩
        · rename_i here
          have ready : Leads host m out (out.ready host a path) := by
            apply Leads.step (.append a name level event)
            intro records
            exact ⟨records, by simp only [Journal.next, found, accepts, ↓reduceIte, file, here]⟩
          apply ready.trans
          unfold logRootError at returns
          split at returns
          · cases returns
          · split at returns
            · exact nested _ _ _ _ _ returns
            · exact Option.some.inj returns ▸ Leads.refl _
    · exact Option.some.inj returns ▸ Leads.refl out

theorem appenders_lead {inner : Log} (nested : InnerLeads host m inner) {name : String}
    {level : LogLevel} {event : LogEvent} (appenders : List Nat) {out after : Output}
    (returns : appenders.foldlM (m.appenderLog host inner name level event) out = some after) :
    Leads host m out after := by
  induction appenders generalizing out with
  | nil => exact Option.some.inj returns ▸ Leads.refl out
  | cons a rest ih =>
      rw [List.foldlM_cons] at returns
      obtain ⟨middle, first, later⟩ := Option.bind_eq_some_iff.mp returns
      exact (appenderLog_leads nested first).trans (ih later)

/-- A call of `Logger::log` that returns is a run of such steps. -/
theorem log_leads (depth : Nat) : InnerLeads host m (log host m depth) := by
  induction depth with
  | zero =>
      intro l level event out after returns
      cases returns
  | succ depth ih =>
      intro l level event out after returns
      unfold log at returns
      split at returns
      · cases returns
      · rename_i x _
        split at returns
        · exact appenders_lead ih x.appenders returns
        · exact Option.some.inj returns ▸ Leads.refl out

end Calls

end Journal

end LoggerManager

end ZnetServer
