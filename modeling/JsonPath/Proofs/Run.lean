import JsonPath.Command.Exit
import JsonPath.Proofs.Input

/-!
Runs into a sink that takes everything. Each expression adds one record, which depends on nothing
but the format and the expression. Main statements: lines of the standard input are handled as the
same expressions among the arguments are, and stopping at the first rejected expression cuts the run
short without changing what comes before.
-/

namespace JsonPath

/-- The text is no path. -/
def Rejected (text : String) : Prop := ∃ e, normalize text = .error e

instance (text : String) : Decidable (Rejected text) :=
  match outcome : normalize text with
  | .ok _ => isFalse (by rintro ⟨e, h⟩; rw [outcome] at h; cases h)
  | .error e => isTrue ⟨e, outcome⟩

namespace Command

/-- The bytes of an expression's record and of the line feed behind it. -/
def recordBytes (format : Format) (expression : String) : List UInt8 :=
  Input.encode (String.ofList (record format expression (normalize expression))) ++ [Input.lineFeed]

namespace Run

def written (run : Run) : List UInt8 := run.sink.taken.data.toList

/-- What `b` has more than `a` when expressions have been handled in between and nothing has failed.
-/
structure Handled (format : Format) (xs : List String) (a b : Run) : Prop where
  live : b.failure = none
  room : b.sink.room = none
  report : b.report = ⟨a.report.total + xs.length, a.report.failed + xs.countP (Rejected ·)⟩
  written : b.written = a.written ++ xs.flatMap (recordBytes format)

theorem Handled.refl {format : Format} {a : Run} (live : a.failure = none)
    (room : a.sink.room = none) : Handled format [] a a :=
  ⟨live, room, rfl, (List.append_nil _).symm⟩

theorem Handled.append {format : Format} {xs ys : List String} {a b c : Run}
    (first : Handled format xs a b) (second : Handled format ys b c) :
    Handled format (xs ++ ys) a c := by
  refine ⟨second.live, second.room, ?_, ?_⟩
  · rw [second.report, first.report]
    simp only [List.length_append, List.countP_append, Nat.add_assoc]
  · rw [second.written, first.written, List.flatMap_append, List.append_assoc]

theorem emit_of_room {run : Run} (room : run.sink.room = none) (format : Format)
    (record : List Char) :
    run.emit format record =
      { run with sink :=
        { run.sink with
          taken := run.sink.taken ++ (String.ofList record).toUTF8 ++ "\n".toUTF8 } } := by
  obtain ⟨⟨taken, limit⟩, report, failure⟩ := run
  cases room
  rfl

theorem written_emit_of_room {run : Run} (room : run.sink.room = none) (format : Format)
    (text : List Char) :
    (run.emit format text).written =
      run.written ++ (Input.encode (String.ofList text) ++ [Input.lineFeed]) := by
  have lineBreak : "\n".toUTF8.data.toList = [Input.lineFeed] := rfl
  rw [emit_of_room room]
  simp only [written, Input.encode, ByteArray.toList_data_append, lineBreak, List.append_assoc]

theorem count_normalize (report : Report) (x : String) :
    count report (normalize x) = ⟨report.total + 1, report.failed + [x].countP (Rejected ·)⟩ := by
  cases outcome : normalize x with
  | ok path =>
    have accepted : ¬ Rejected x := by
      rintro ⟨e, rejected⟩
      rw [outcome] at rejected
      cases rejected
    simp [count, accepted]
  | error e =>
    have rejected : Rejected x := ⟨e, outcome⟩
    simp [count, rejected]

/-- A record is written unless a rejected expression stops the run. -/
theorem step_expression {o : Options} {run : Run} {x : String} (live : run.failure = none)
    (goesOn : o.failFast = true → ¬ Rejected x) :
    step o run (.expression x) =
      { run with report := count run.report (normalize x) }.emit o.format
        (record o.format x (normalize x)) := by
  simp only [step, live, expression]
  cases outcome : normalize x with
  | ok path => rfl
  | error e =>
    have tolerant : ¬ o.failFast = true := fun failFast => goesOn failFast ⟨e, outcome⟩
    simp only [if_neg tolerant]

theorem handled_step {o : Options} {run : Run} {x : String} (live : run.failure = none)
    (room : run.sink.room = none) (goesOn : o.failFast = true → ¬ Rejected x) :
    Handled o.format [x] run (step o run (.expression x)) := by
  have counted : ({ run with report := count run.report (normalize x) } : Run).sink.room = none :=
    room
  rw [step_expression live goesOn]
  refine ⟨?_, ?_, ?_, ?_⟩
  · rw [emit_of_room counted]
    exact live
  · rw [emit_of_room counted]
    exact room
  · rw [emit_of_room counted]
    exact count_normalize run.report x
  · rw [written_emit_of_room counted, List.flatMap_singleton]
    rfl

/-- Any number of expressions are handled one after another. -/
theorem handled_foldl {o : Options} {run : Run} {xs : List String} (live : run.failure = none)
    (room : run.sink.room = none) (goesOn : o.failFast = true → ∀ x ∈ xs, ¬ Rejected x) :
    Handled o.format xs run ((xs.map .expression).foldl (step o) run) := by
  induction xs generalizing run with
  | nil => exact .refl live room
  | cons x xs ih =>
    have first := handled_step live room fun failFast => goesOn failFast x List.mem_cons_self
    exact first.append (ih first.live first.room fun failFast y hy =>
      goesOn failFast y (List.mem_cons_of_mem x hy))

theorem step_of_failure {o : Options} {run : Run} {f : Failure} (failed : run.failure = some f)
    (item : Item) : step o run item = run := by
  simp only [step, failed]

/-- Nothing happens behind a failure. -/
theorem foldl_of_failure {o : Options} {run : Run} {f : Failure} (failed : run.failure = some f)
    (items : List Item) : items.foldl (step o) run = run := by
  induction items with
  | nil => rfl
  | cons item items ih => rw [List.foldl_cons, step_of_failure failed, ih]

theorem step_rejected {o : Options} {run : Run} {x : String} {e : PathError}
    (live : run.failure = none) (failFast : o.failFast = true) (rejected : normalize x = .error e) :
    step o run (.expression x) =
      { run with report := count run.report (normalize x), failure := some (.rejected x e) } := by
  simp only [step, live, expression, rejected, failFast, if_true]

theorem sink_step_unreadable (o : Options) (run : Run) :
    (step o run .unreadable).sink = run.sink := by
  unfold step
  split <;> rfl

theorem result_step_unreadable (o : Options) (run : Run) :
    (step o run .unreadable).result =
      match run.result with
      | .ok _ => .error .unreadable
      | .error f => .error f := by
  unfold step result
  cases failure : run.failure with
  | none => rfl
  | some f => simp [failure]

theorem failure_step_unreadable (o : Options) (run : Run) :
    ∃ f, (step o run .unreadable).failure = some f := by
  cases failure : run.failure with
  | none => exact ⟨.unreadable, by simp only [step, failure]⟩
  | some f => exact ⟨f, by simp only [step, failure]⟩

/-- The expressions of a run are not among the options that its steps look at. -/
theorem all_of_expressions (o : Options) (xs : List String) (limit : Option Nat)
    (items : List Item) : all { o with expressions := xs } limit items = all o limit items :=
  rfl

theorem handled_all {o : Options} {xs : List String}
    (goesOn : o.failFast = true → ∀ x ∈ xs, ¬ Rejected x) :
    Handled o.format xs {} (all o none (xs.map .expression)) :=
  handled_foldl rfl rfl goesOn

theorem Handled.result {format : Format} {xs : List String} {b : Run} (h : Handled format xs {} b) :
    b.result = .ok ⟨xs.length, xs.countP (Rejected ·)⟩ := by
  have counted := h.report
  simp only [Nat.zero_add] at counted
  simp only [Run.result, h.live, counted]

/-- A rejected expression ends a run that stops at the first, and no record is written for it. -/
theorem all_rejected {o : Options} {before : List String} {x : String} {e : PathError}
    (failFast : o.failFast = true) (accepted : ∀ y ∈ before, ¬ Rejected y)
    (rejected : normalize x = .error e) (after : List String) :
    (all o none ((before ++ x :: after).map .expression)).result = .error (.rejected x e) ∧
    (all o none ((before ++ x :: after).map .expression)).written =
      before.flatMap (recordBytes o.format) := by
  have first : Handled o.format before {} _ := handled_all (o := o) fun _ => accepted
  have stopped := step_rejected first.live failFast rejected
  rw [all, List.map_append, List.map_cons, List.foldl_append, List.foldl_cons, ← all, stopped,
    foldl_of_failure rfl]
  exact ⟨rfl, first.written⟩

end Run

/-- A run sees what the command is given and nothing else. A line that is no text is an error of its
own unless the run has failed before. -/
theorem run_of_given {o : Options} {stdin : List UInt8} {xs : List String} {broken : Bool}
    (given : Given o.expressions stdin xs broken) (limit : Option Nat) :
    run o stdin limit =
      if broken then Run.step o (Run.all o limit (xs.map .expression)) .unreadable
      else Run.all o limit (xs.map .expression) := by
  obtain ⟨rest, items⟩ := given.items
  rw [run, items, Run.all]
  cases broken with
  | false => simp [Run.all]
  | true =>
    -- The items behind the line that is no text find the run failed, whatever they are.
    obtain ⟨f, failed⟩ := Run.failure_step_unreadable o (Run.all o limit (xs.map .expression))
    rw [if_pos rfl, if_pos rfl, List.foldl_append, List.foldl_cons, ← Run.all,
      Run.foldl_of_failure failed]

theorem result_of_given {o : Options} {stdin : List UInt8} {xs : List String} {broken : Bool}
    (given : Given o.expressions stdin xs broken) (limit : Option Nat) :
    (run o stdin limit).result =
      match (Run.all o limit (xs.map .expression)).result with
      | .ok report => if broken then .error .unreadable else .ok report
      | .error f => .error f := by
  rw [run_of_given given]
  cases broken with
  | false => cases same : (Run.all o limit (xs.map .expression)).result <;> simpa using same
  | true =>
    rw [if_pos rfl, Run.result_step_unreadable]
    rfl

theorem written_of_given {o : Options} {stdin : List UInt8} {xs : List String} {broken : Bool}
    (given : Given o.expressions stdin xs broken) (limit : Option Nat) :
    (run o stdin limit).written = (Run.all o limit (xs.map .expression)).written := by
  rw [run_of_given given]
  cases broken with
  | false => rfl
  | true => rw [if_pos rfl, Run.written, Run.sink_step_unreadable, Run.written]

/-- Where nothing stops the run, it counts and records every expression that it is given. -/
theorem run_handled {o : Options} {stdin : List UInt8} {xs : List String} {broken : Bool}
    (given : Given o.expressions stdin xs broken)
    (goesOn : o.failFast = true → ∀ x ∈ xs, ¬ Rejected x) :
    (run o stdin none).result =
      (if broken then .error .unreadable else .ok ⟨xs.length, xs.countP (Rejected ·)⟩) ∧
    (run o stdin none).written = xs.flatMap (recordBytes o.format) := by
  have handled := Run.handled_all goesOn
  constructor
  · rw [result_of_given given, handled.result]
  · rw [written_of_given given, handled.written]
    rfl

/-- The first rejected expression is what a strict run fails with, also where a later line is no
text. -/
theorem run_rejected {o : Options} {stdin : List UInt8} {before after : List String} {x : String}
    {e : PathError} {broken : Bool}
    (given : Given o.expressions stdin (before ++ x :: after) broken) (failFast : o.failFast = true)
    (accepted : ∀ y ∈ before, ¬ Rejected y) (rejected : normalize x = .error e) :
    (run o stdin none).result = .error (.rejected x e) ∧
    (run o stdin none).written = before.flatMap (recordBytes o.format) := by
  obtain ⟨result, written⟩ := Run.all_rejected failFast accepted rejected after
  rw [result_of_given given, written_of_given given, result, written]
  exact ⟨rfl, rfl⟩

theorem exists_first_rejected {xs : List String} (h : ∃ x ∈ xs, Rejected x) :
    ∃ before x after e, xs = before ++ x :: after ∧ (∀ y ∈ before, ¬ Rejected y) ∧
      normalize x = .error e := by
  have isSome : (xs.find? (Rejected ·)).isSome := List.find?_isSome.2 (by simpa using h)
  obtain ⟨x, found⟩ := Option.isSome_iff_exists.1 isSome
  obtain ⟨rejected, before, after, same, accepted⟩ := List.find?_eq_some_iff_append.1 found
  obtain ⟨e, outcome⟩ := of_decide_eq_true rejected
  exact ⟨before, x, after, e, same, by simpa using accepted, outcome⟩

/-- A run either counts all that it is given, or something was wrong with it. -/
theorem result_cases {o : Options} {stdin : List UInt8} {xs : List String} {broken : Bool}
    (given : Given o.expressions stdin xs broken) :
    (broken = false ∧ (run o stdin none).result = .ok ⟨xs.length, xs.countP (Rejected ·)⟩) ∨
      (broken = true ∨ ∃ x ∈ xs, Rejected x) ∧ ∃ f, (run o stdin none).result = .error f := by
  by_cases goesOn : o.failFast = true → ∀ x ∈ xs, ¬ Rejected x
  · -- A run that goes on to the end can only fail at a line that is no text.
    have result := (run_handled given goesOn).1
    cases broken with
    | false => exact .inl ⟨rfl, result⟩
    | true => exact .inr ⟨.inl rfl, .unreadable, result⟩
  · obtain ⟨failFast, notAll⟩ := Classical.not_imp.1 goesOn
    have bad : ∃ x ∈ xs, Rejected x := by simpa using notAll
    obtain ⟨before, x, after, e, rfl, accepted, rejected⟩ := exists_first_rejected bad
    exact .inr ⟨.inr bad, _, (run_rejected given failFast accepted rejected).1⟩

/-- Nothing but rejected expressions and a line that is no text makes the command fail. -/
theorem Exit.succeeded_of_given {o : Options} {stdin : List UInt8} {xs : List String}
    {broken : Bool} (given : Given o.expressions stdin xs broken) :
    succeeded (run o stdin none) = true ↔ broken = false ∧ ∀ x ∈ xs, ¬ Rejected x := by
  rcases result_cases given with ⟨rfl, result⟩ | ⟨wrong, f, result⟩
  · simp [succeeded, result, List.countP_eq_zero]
  · have failed : succeeded (run o stdin none) = false := by simp only [succeeded, result]
    rw [failed]
    refine iff_of_false Bool.false_ne_true ?_
    rintro ⟨rfl, accepted⟩
    obtain wrong | ⟨x, hx, rejected⟩ := wrong
    · cases wrong
    · exact accepted x hx rejected

theorem Exit.code_of_given {o : Options} {stdin : List UInt8} {xs : List String} {broken : Bool}
    (given : Given o.expressions stdin xs broken) (level : Log.Level) :
    (Exit.ofOptions o stdin level).code =
      if broken = false ∧ ∀ x ∈ xs, ¬ Rejected x then 0 else 1 :=
  if_congr (succeeded_of_given given) rfl rfl

/-- **The standard input stands for arguments.** Without arguments a run does with the lines what it
does with the same expressions as arguments: it writes the same and comes to the same result, except
that a line that is no text makes an error of a run that would have succeeded. With arguments the
standard input makes no difference, and every argument is an expression, a blank one too. -/
theorem stdin_refines_arguments (o : Options) (stdin : List UInt8) :
    (o.expressions = [] →
      (∃ xs broken, Given [] stdin xs broken) ∧
      ∀ xs broken, Given [] stdin xs broken → ∃ listed : Run,
        (xs ≠ [] → ∀ other, listed = run { o with expressions := xs } other none) ∧
        (xs = [] → listed.result = .ok ⟨0, 0⟩ ∧ listed.written = []) ∧
        (run o stdin none).written = listed.written ∧
        (run o stdin none).result =
          match listed.result with
          | .ok report => if broken then .error .unreadable else .ok report
          | .error f => .error f) ∧
    (o.expressions ≠ [] → ∀ limit,
      (∀ other, run o stdin limit = run o other limit) ∧
      run o stdin limit = Run.all o limit (o.expressions.map .expression) ∧
      ∀ report, (run o stdin none).result = .ok report → report.total = o.expressions.length) := by
  refine ⟨fun empty => ⟨exists_given [] stdin, ?_⟩, ?_⟩
  · intro xs broken given
    rw [← empty] at given
    refine ⟨Run.all o none (xs.map .expression), ?_, ?_, written_of_given given none,
      result_of_given given none⟩
    · intro nonempty other
      rw [run_of_given (.arguments nonempty), Run.all_of_expressions]
      rfl
    · rintro rfl
      exact ⟨rfl, rfl⟩
  · intro nonempty limit
    have given : ∀ other, run o other limit = Run.all o limit (o.expressions.map .expression) :=
      fun other => run_of_given (.arguments nonempty) limit
    refine ⟨fun other => (given stdin).trans (given other).symm, given stdin, ?_⟩
    intro report ok
    rcases result_cases (.arguments nonempty) with ⟨_, result⟩ | ⟨_, f, result⟩
    · rw [result] at ok
      cases ok
      rfl
    · rw [result] at ok
      cases ok

/-- **Stopping at the first rejected expression cuts the run.** A tolerant run writes one record for
each expression and counts those that are rejected. A strict run does the same if there are none;
else it fails with the first of them and has written the records of those before it. The status with
which the command exits is the same either way. -/
theorem fail_fast_cuts_run (o : Options) (stdin : List UInt8) :
    (∃ xs broken, Given o.expressions stdin xs broken) ∧
    ∀ xs broken, Given o.expressions stdin xs broken →
      let tolerant := run { o with failFast := false } stdin none
      let strict := run { o with failFast := true } stdin none
      tolerant.result = (if broken then .error .unreadable
        else .ok ⟨xs.length, xs.countP (Rejected ·)⟩) ∧
      tolerant.written = xs.flatMap (recordBytes o.format) ∧
      ((∀ x ∈ xs, ¬ Rejected x) →
        strict.result = tolerant.result ∧ strict.written = tolerant.written) ∧
      ((∃ x ∈ xs, Rejected x) → ∃ before x after e,
        xs = before ++ x :: after ∧ (∀ y ∈ before, ¬ Rejected y) ∧ normalize x = .error e ∧
        strict.result = .error (.rejected x e) ∧
        strict.written = before.flatMap (recordBytes o.format)) ∧
      ∀ failFast level, (Exit.ofOptions { o with failFast } stdin level).code =
        if broken = false ∧ ∀ x ∈ xs, ¬ Rejected x then 0 else 1 := by
  refine ⟨exists_given _ _, ?_⟩
  intro xs broken given tolerant strict
  have givenBoth : ∀ failFast, Given { o with failFast }.expressions stdin xs broken :=
    fun _ => given
  have all := run_handled (givenBoth false) (fun wrong => nomatch wrong)
  refine ⟨all.1, all.2, ?_, ?_, fun failFast level => Exit.code_of_given (givenBoth failFast) level⟩
  · intro accepted
    have same := run_handled (givenBoth true) fun _ => accepted
    exact ⟨same.1.trans all.1.symm, same.2.trans all.2.symm⟩
  · intro bad
    obtain ⟨before, x, after, e, rfl, accepted, rejected⟩ := exists_first_rejected bad
    have cut := run_rejected (givenBoth true) rfl accepted rejected
    exact ⟨before, x, after, e, rfl, accepted, rejected, cut⟩

end Command

end JsonPath
