import ZnetServer.LogFiles

set_option autoImplicit false

/- Which file a record goes to. The path of a file appender and its open stream are changed
by different calls; every step has a host of its own, so any `open` may fail. -/
namespace ZnetServer.LoggerManager.Journal

open Transition

/-- The appender's threshold lets the level pass. -/
def accepts (s : Journal) (a : Nat) (level : LogLevel) : Bool :=
  (s.m.appender a).any fun x => x.level ≤ level

/-- The path that the stream of an appender is open on. -/
def streamPath (s : Journal) (a : Nat) : Option String := (s.out.opened[a]?).map Stream.path

/-- The outcome of `open` on the path of an appender. -/
def opening (host : Host) (s : Journal) (a : Nat) : Option String :=
  (s.filepath a).filter host.openable

/-- What a call makes of the file that was opened last: `reopen` opens anew, `log` only if
nothing is open. -/
def rebind (a : Nat) (bound : Option String) (step : Journal × Host × LogStep) : Option String :=
  match step.2.2 with
  | .reopen b => if b = a then opening step.2.1 step.1 a else bound
  | .append b _ level _ =>
    if b = a ∧ step.1.accepts a level ∧ bound = none then opening step.2.1 step.1 a else bound
  | .setFilepath _ _ | .manage _ => bound

/-- The file that was opened last, told by the calls, the paths at them and the outcomes of
`open`. -/
def boundTo (a : Nat) (trace : List (Journal × Host × LogStep)) : Option String :=
  trace.foldl (rebind a) none

/-- What `log` writes goes to the file that `getFilepath()` names, and to no other file. Other
calls write no record. -/
def Directed (step : Journal × Host × LogStep) : Prop :=
  ∀ t, nextOn step.1 step.2 = some t → match step.2.2 with
    | .append a _ _ _ =>
        (∀ other, step.1.filepath a ≠ some other →
          t.out.content other = step.1.out.content other) ∧
        ∀ path text, t.records = step.1.records ++ [(path, text)] → step.1.filepath a = some path
    | .reopen _ | .setFilepath _ _ | .manage _ => t.records = step.1.records

/-- An accepted `log` finds nothing open or the file that the path names now. -/
def Settled (front : List (Journal × Host × LogStep)) (step : Journal × Host × LogStep) : Prop :=
  match step.2.2 with
  | .append a _ level _ => ∀ path, step.1.filepath a = some path → step.1.accepts a level →
      boundTo a front = none ∨ boundTo a front = some path
  | .reopen _ | .setFilepath _ _ | .manage _ => True

section Appending

variable {host : Host} {s t : Journal} {a : Nat} {x : LogAppender} {path loggerName : String}
  {level : LogLevel} {event : LogEvent}

/-- What `log` of an appender can come to. -/
inductive Append (host : Host) (s : Journal) (a : Nat) (level : LogLevel) : Journal → Prop
  | idle {t : Journal} (files : t.out.files = s.out.files) (opened : t.out.opened = s.out.opened)
      (records : t.records = s.records)
      (nothing : s.accepts a level = false ∨ s.filepath a = none) : Append host s a level t
  | written {path : String} {stream : Stream} (file : s.filepath a = some path)
      (passes : s.accepts a level = true) (here : s.out.opened[a]? = some stream)
      (text : String) : Append host s a level (s.write a stream text)
  | opened {path : String} (file : s.filepath a = some path)
      (passes : s.accepts a level = true) (closed : s.out.opened[a]? = none)
      (opens : host.openable path = true) (text : String) :
      Append host s a level ((s.reopened host a path).write a ⟨path, 0⟩ text)
  | refused {path : String} (file : s.filepath a = some path)
      (passes : s.accepts a level = true) (closed : s.out.opened[a]? = none)
      (shut : host.openable path = false) : Append host s a level (s.reopened host a path)

theorem append_cases (done : next host s (.append a loggerName level event) = some t) :
    Append host s a level t := by
  cases found : s.m.appender a with
  | none => simp [next, found] at done
  | some x =>
      by_cases accepts : x.level ≤ level
      · have passes : s.accepts a level = true := by
          simp only [Journal.accepts, found, Option.any_some, accepts, decide_true]
        cases file : x.sink with
        | stdout =>
            simp only [next, found, accepts, ↓reduceIte, file, Option.map_map,
              Option.map_eq_some_iff, Function.comp_apply] at done
            obtain ⟨f, _, rfl⟩ := done
            have bare : s.filepath a = none := by
              simp only [filepath, found, Option.map_some, file]
            exact .idle rfl rfl rfl (Or.inr bare)
        | file path =>
            have named := filepath_file found file
            rw [append_file found file accepts] at done
            cases here : s.out.opened[a]? with
            | some stream =>
                simp only [here, Option.map_map, Option.map_eq_some_iff,
                  Function.comp_apply] at done
                obtain ⟨f, _, rfl⟩ := done
                exact .written named passes here _
            | none =>
                cases opens : host.openable path with
                | true =>
                    simp only [here, opens, ↓reduceIte, Option.map_map, Option.map_eq_some_iff,
                      Function.comp_apply] at done
                    obtain ⟨f, _, rfl⟩ := done
                    exact .opened named passes here opens _
                | false =>
                    simp only [here, opens, Bool.false_eq_true, ↓reduceIte,
                      Option.some.injEq] at done
                    subst done
                    exact .refused named passes here opens
      · simp only [next, found, accepts, ↓reduceIte, Option.some.injEq] at done
        subst done
        have refuses : s.accepts a level = false := by
          simp only [Journal.accepts, found, Option.any_some, accepts, decide_false]
        exact .idle rfl rfl rfl (Or.inl refuses)

end Appending

section Steps

variable {s t : Journal} {step : Host × LogStep} {a : Nat}

theorem streamPath_reopened (host : Host) (s : Journal) (b : Nat) {path : String}
    (file : s.filepath b = some path) : (s.reopened host b path).streamPath a =
      if b = a then opening host s a else s.streamPath a := by
  unfold streamPath opening
  rw [opened_reopened]
  by_cases own : b = a
  · subst own
    rw [if_pos rfl, if_pos rfl, file]
    cases opens : host.openable path with
    | true => rw [if_pos rfl, Option.filter_some_pos opens, Option.map_some]
    | false => rw [if_neg Bool.false_ne_true, Option.filter_some_neg opens, Option.map_none]
  · rw [if_neg own, if_neg own]

/-- Writing moves a stream but leaves it on its file. -/
theorem streamPath_write (s : Journal) (b : Nat) {stream : Stream} (text : String)
    (here : s.out.opened[b]? = some stream) :
    (s.write b stream text).streamPath a = s.streamPath a := by
  unfold streamPath
  rw [opened_write]
  split
  · rename_i own
    rw [← own, here, Option.map_some, Option.map_some]
  · rfl

theorem streamPath_append {host : Host} {b : Nat} {loggerName : String} {level : LogLevel}
    {event : LogEvent} (done : next host s (.append b loggerName level event) = some t) :
    t.streamPath a = rebind a (s.streamPath a) (s, host, .append b loggerName level event) := by
  simp only [rebind]
  cases append_cases done with
  | idle _ opened _ nothing =>
      have same : t.streamPath a = s.streamPath a := by
        rw [streamPath, opened, streamPath]
      rw [same]
      split
      · rename_i reopens
        obtain ⟨rfl, passes, closed⟩ := reopens
        rcases nothing with refuses | bare
        · rw [refuses] at passes
          cases passes
        · rw [closed, opening, bare, Option.filter_none]
      · rfl
  | written _ _ here text =>
      rw [streamPath_write s b text here, if_neg]
      rintro ⟨rfl, _, closed⟩
      rw [streamPath, here] at closed
      cases closed
  | @opened path file passes closed opens text =>
      have here := opened_reopened host s b path b
      rw [if_pos rfl, if_pos opens] at here
      rw [streamPath_write _ b text here, streamPath_reopened host s b file]
      by_cases own : b = a
      · subst own
        have bare : s.streamPath b = none := by
          rw [streamPath, closed, Option.map_none]
        rw [if_pos rfl, if_pos ⟨rfl, passes, bare⟩]
      · rw [if_neg own, if_neg fun reopens => own reopens.1]
  | refused file passes closed shut =>
      rw [streamPath_reopened host s b file]
      by_cases own : b = a
      · subst own
        have bare : s.streamPath b = none := by
          rw [streamPath, closed, Option.map_none]
        rw [if_pos rfl, if_pos ⟨rfl, passes, bare⟩]
      · rw [if_neg own, if_neg fun reopens => own reopens.1]

/-- A step does to a stream what the calls tell. -/
theorem streamPath_next (done : nextOn s step = some t) :
    t.streamPath a = rebind a (s.streamPath a) (s, step) := by
  obtain ⟨host, call⟩ := step
  cases call with
  | append b loggerName level event => exact streamPath_append done
  | reopen b =>
      obtain ⟨path, file, rfl⟩ := Option.map_eq_some_iff.mp done
      exact streamPath_reopened host s b file
  | setFilepath b filepath =>
      obtain ⟨path, file, rfl⟩ := Option.map_eq_some_iff.mp done
      rfl
  | manage op =>
      obtain ⟨m, managed, rfl⟩ := Option.map_eq_some_iff.mp done
      rfl

/-- The stream of an appender is open on the file that the calls tell. -/
theorem streamPath_run (m : LoggerManager) (cout : String) (files : Std.ExtTreeMap String String)
    {trace : List (Journal × Host × LogStep)}
    (run : Run nextOn anyStep (start m cout files) trace s) (a : Nat) :
    s.streamPath a = boundTo a trace := by
  induction run with
  | nil => exact congrArg (Option.map Stream.path) Std.ExtTreeMap.getElem?_empty
  | snoc before allowed done ih =>
      rw [boundTo, List.foldl_append, ← boundTo, ← ih]
      exact streamPath_next done

/-- An accepted `log` writes to the right file unless its stream is open on another one. -/
theorem append_directed_iff {host : Host} {loggerName : String} {level : LogLevel}
    {event : LogEvent} (done : next host s (.append a loggerName level event) = some t) :
    Directed (s, host, .append a loggerName level event) ↔
      ∀ path, s.filepath a = some path → s.accepts a level →
        s.streamPath a = none ∨ s.streamPath a = some path := by
  constructor
  · intro directed path file passes
    cases append_cases done with
    | idle _ _ _ nothing =>
        rcases nothing with refuses | bare
        · rw [refuses] at passes
          cases passes
        · rw [bare] at file
          cases file
    | @written _ stream _ _ here text =>
        right
        rw [streamPath, here, Option.map_some, ← file]
        exact ((directed _ done).2 stream.path text rfl).symm
    | opened _ _ closed _ _ | refused _ _ closed _ =>
        left
        rw [streamPath, closed, Option.map_none]
  · intro settled t' again
    obtain rfl := Option.some.inj (done.symm.trans again)
    cases append_cases done with
    | idle files _ records _ =>
        refine ⟨fun other _ => ?_, fun path text grown => ?_⟩
        · rw [Output.content, files, Output.content]
        · rw [records] at grown
          exact absurd grown (by simp)
    | @written path stream file passes here text =>
        have same : stream.path = path := by
          rcases settled path file passes with closed | bound
          · rw [streamPath, here] at closed
            cases closed
          · rw [streamPath, here] at bound
            exact Option.some.inj bound
        subst same
        refine ⟨fun other apart => ?_, fun named last grown => ?_⟩
        · have differs : stream.path ≠ other := by
            rintro rfl
            exact apart file
          rw [content_write, if_neg differs]
        · have record := List.singleton_inj.mp (List.append_cancel_left grown)
          rw [file, (Prod.mk.inj record).1]
    | @opened path file passes closed opens text =>
        refine ⟨fun other apart => ?_, fun named last grown => ?_⟩
        · have differs : path ≠ other := by
            rintro rfl
            exact apart file
          rw [content_write, if_neg differs, content_reopened, if_neg fun both => differs both.2]
        · have record : (path, text) = (named, last) :=
            List.singleton_inj.mp (List.append_cancel_left grown)
          rw [file, (Prod.mk.inj record).1]
    | @refused path file passes closed shut =>
        refine ⟨fun other apart => ?_, fun named last grown => ?_⟩
        · have differs : path ≠ other := by
            rintro rfl
            exact apart file
          rw [content_reopened, if_neg fun both => differs both.2]
        · exact absurd grown (by simp [reopened])

/-- Only `log` writes records. -/
theorem directed_other {call : LogStep} (other : ∀ a loggerName level event,
    call ≠ .append a loggerName level event) (host : Host) : Directed (s, host, call) := by
  intro t done
  cases call with
  | append a loggerName level event => exact absurd rfl (other a loggerName level event)
  | reopen a =>
      obtain ⟨path, file, rfl⟩ := Option.map_eq_some_iff.mp done
      rfl
  | setFilepath a filepath =>
      obtain ⟨path, file, rfl⟩ := Option.map_eq_some_iff.mp done
      rfl
  | manage op =>
      obtain ⟨m, managed, rfl⟩ := Option.map_eq_some_iff.mp done
      rfl

end Steps

/-- In a run every record goes to the file of its appender's path at the time if and only if
each accepted `log` finds its stream closed or opened on that path. -/
theorem records_directed_iff (m : LoggerManager) (cout : String)
    (files : Std.ExtTreeMap String String) {trace : List (Journal × Host × LogStep)} {s : Journal}
    (run : Run nextOn anyStep (start m cout files) trace s) :
    (∀ step ∈ trace, Directed step) ↔
      ∀ front step back, trace = front ++ step :: back → Settled front step := by
  have settled_iff : ∀ front step back, trace = front ++ step :: back →
      (Directed step ↔ Settled front step) := by
    intro front step back whole
    subst whole
    obtain ⟨before, host, call⟩ := step
    rw [List.append_cons] at run
    obtain ⟨t, first, _⟩ := run.split
    obtain ⟨earlier, _, done⟩ := first.of_snoc
    cases call with
    | append a loggerName level event =>
        rw [append_directed_iff done, streamPath_run m cout files earlier a]
        rfl
    | reopen _ | setFilepath _ _ | manage _ =>
        exact iff_of_true (directed_other (by simp) host) trivial
  constructor
  · intro directed front step back whole
    apply (settled_iff front step back whole).mp
    apply directed
    rw [whole]
    exact List.mem_append_right front List.mem_cons_self
  · intro settled step member
    obtain ⟨front, back, whole⟩ := List.append_of_mem member
    exact (settled_iff front step back whole).mpr (settled front step back whole)

/-- A logger is made with a file, logs and gets another file. -/
def movedSteps : List (Host × LogStep) :=
  [(writableHost, .manage (.createLogger "net" .debug "%m" ["file"] "a.log")),
    (writableHost, .append 1 "net" .info sampleEvent),
    (writableHost, .manage (.updateLogger "net" .debug "%m" ["file"] "b.log"))]

/-- It is opened again before it logs. -/
theorem records_directed_reopened : ∃ trace s, Run nextOn anyStep rootStart trace s ∧
    s.streamPath 1 = some "b.log" ∧ ∀ step ∈ trace, Directed step := by
  let made : Journal :=
    { rootStart with m := (init.createLogger "net" .debug "%m" ["file"] "a.log").1 }
  let text := (LogFormatter.new "%m").format writableHost.clock "net" .info sampleEvent
  let logged := (made.reopened writableHost 1 "a.log").write 1 ⟨"a.log", 0⟩ text
  let moved : Journal :=
    { logged with m := (logged.m.updateLogger "net" .debug "%m" ["file"] "b.log").1 }
  let reopened := moved.reopened writableHost 1 "b.log"
  have run : Run nextOn anyStep rootStart
      [(rootStart, writableHost, .manage (.createLogger "net" .debug "%m" ["file"] "a.log")),
        (made, writableHost, .append 1 "net" .info sampleEvent),
        (logged, writableHost, .manage (.updateLogger "net" .debug "%m" ["file"] "b.log")),
        (moved, writableHost, .reopen 1), (reopened, writableHost,
          .append 1 "net" .info sampleEvent)] (reopened.write 1 ⟨"b.log", 0⟩ text) :=
    ((((Run.nil.snoc trivial rfl).snoc trivial rfl).snoc trivial rfl).snoc trivial rfl).snoc
      trivial rfl
  have directed := (records_directed_iff init "" ∅ run).mpr ?_
  · exact ⟨_, _, run, rfl, directed⟩
  · intro front step back whole
    rcases front with _ | ⟨a, _ | ⟨b, _ | ⟨c, _ | ⟨d, _ | ⟨e, front⟩⟩⟩⟩⟩ <;>
      simp only [List.nil_append, List.cons_append, List.cons.injEq, List.nil_eq,
        List.append_eq_nil_iff, reduceCtorEq, and_false] at whole
    · obtain ⟨rfl, _⟩ := whole
      exact trivial
    · obtain ⟨rfl, rfl, _⟩ := whole
      exact fun _ _ _ => Or.inl rfl
    · obtain ⟨_, _, rfl, _⟩ := whole
      exact trivial
    · obtain ⟨_, _, _, rfl, _⟩ := whole
      exact trivial
    · obtain ⟨rfl, rfl, rfl, rfl, rfl, _⟩ := whole
      intro path file _
      have named : reopened.filepath 1 = some "b.log" := rfl
      right
      rw [← file, named]
      rfl

/-- Without that its next record goes to the first file. -/
theorem record_goes_to_old_path : ∃ trace s, Run nextOn anyStep rootStart trace s ∧
    ¬ ∀ step ∈ trace, Directed step := by
  let again : Host × LogStep := (writableHost, .append 1 "net" .info sampleEvent)
  have strays : ((replay (guarded nextOn anyStep) rootStart movedSteps).bind fun moved =>
      (nextOn moved.2 again).map fun t => decide (moved.2.filepath 1 = some "b.log" ∧
        t.records = moved.2.records ++ [("a.log", sampleEvent.content)])) = some true := by
    decide +kernel
  obtain ⟨moved, executed, strays⟩ := Option.bind_eq_some_iff.mp strays
  obtain ⟨t, done, strays⟩ := Option.map_eq_some_iff.mp strays
  obtain ⟨named, record⟩ := of_decide_eq_true strays
  refine ⟨_, t, (Run.of_replay executed).snoc trivial done, fun directed => ?_⟩
  have last := directed (moved.2, again) (List.mem_append_right _ List.mem_cons_self) t done
  have same := named.symm.trans (last.2 "a.log" _ record)
  exact absurd same (by decide)

end ZnetServer.LoggerManager.Journal
