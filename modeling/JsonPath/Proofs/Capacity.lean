import JsonPath.Proofs.Run

/-!
Runs into a sink with limited room. Such a run stays in step with the run into a sink that takes
everything, for as long as the output fits. Main statement: a full sink cuts the output at its limit
and ends the run with a failure of its own, and where everything fits the limit makes no difference.
-/

namespace JsonPath.Command

/-- A limited sink takes the bytes that fit, and tells whether these are all of them. -/
theorem Sink.write_limited {sink : Sink} {k : Nat} (room : sink.room = some k) (text : String) :
    ∃ next, sink.write text.toUTF8 = (next, decide ((Input.encode text).length ≤ k)) ∧
      next.taken.data.toList = sink.taken.data.toList ++ (Input.encode text).take k ∧
      next.room = some (k - (Input.encode text).length) := by
  have size : text.toUTF8.size = (Input.encode text).length := by simp [Input.encode]
  by_cases fits : (Input.encode text).length ≤ k
  · refine ⟨⟨sink.taken ++ text.toUTF8, some (k - (Input.encode text).length)⟩, ?_, ?_, rfl⟩
    · rw [write, room, decide_eq_true fits]
      simp only [size, if_pos fits]
    · rw [List.take_of_length_le fits]
      exact ByteArray.toList_data_append
  · refine ⟨⟨sink.taken ++ text.toUTF8.extract 0 k, some 0⟩, ?_, ?_, ?_⟩
    · rw [write, room, decide_eq_false fits]
      simp only [size, if_neg fits]
    · simp [Input.encode]
    · rw [Nat.sub_eq_zero_of_le (Nat.le_of_not_le fits)]

namespace Run

/-- The failure of a line of which `k` bytes fit. The line feed at its end is output of its own. -/
def overflow (format : Format) (k : Nat) (line : List UInt8) : Failure :=
  if k + 1 = line.length then .sinkFull else cut format

theorem overflow_tokens (k : Nat) (line : List UInt8) : overflow .tokens k line = .sinkFull :=
  ite_self _

theorem overflow_of_lineFeed (format : Format) {k : Nat} {line : List UInt8}
    (h : k + 1 = line.length) : overflow format k line = .sinkFull :=
  if_pos h

theorem overflow_of_json {format : Format} {k : Nat} {line : List UInt8} (json : format ≠ .tokens)
    (h : k + 1 ≠ line.length) : overflow format k line = .recordCut := by
  rw [overflow, if_neg h]
  cases format with
  | tokens => exact absurd rfl json
  | _ => rfl

/-- A record goes into a limited sink together with its line feed, as far as they fit. -/
theorem emit_limited {run : Run} {k : Nat} (room : run.sink.room = some k) (format : Format)
    (text : List Char) :
    let line := Input.encode (String.ofList text) ++ [Input.lineFeed]
    let next := run.emit format text
    next.written = run.written ++ line.take k ∧ next.sink.room = some (k - line.length) ∧
      next.report = run.report ∧
      next.failure = if line.length ≤ k then run.failure else some (overflow format k line) := by
  intro line next
  obtain ⟨first, wroteText, taken, left⟩ := Sink.write_limited room (String.ofList text)
  obtain ⟨second, wroteBreak, takenBreak, leftBreak⟩ := Sink.write_limited left "\n"
  have lineBreak : Input.encode "\n" = [Input.lineFeed] := rfl
  rw [lineBreak, List.length_singleton] at wroteBreak leftBreak
  have length : line.length = (Input.encode (String.ofList text)).length + 1 := by simp [line]
  have behind : line.take k = (Input.encode (String.ofList text)).take k ++
      [Input.lineFeed].take (k - (Input.encode (String.ofList text)).length) := List.take_append
  by_cases textFits : (Input.encode (String.ofList text)).length ≤ k
  · rw [decide_eq_true textFits] at wroteText
    by_cases lineFits : line.length ≤ k
    · rw [decide_eq_true (by omega)] at wroteBreak
      simp only [next, emit, wroteText, wroteBreak, written]
      refine ⟨?_, ?_, trivial, ?_⟩
      · rw [takenBreak, taken, behind, List.append_assoc, lineBreak]
      · rw [leftBreak, length, Nat.sub_sub]
      · rw [if_pos lineFits]
    · rw [decide_eq_false (by omega)] at wroteBreak
      simp only [next, emit, wroteText, wroteBreak, written]
      refine ⟨?_, ?_, trivial, ?_⟩
      · rw [takenBreak, taken, behind, List.append_assoc, lineBreak]
      · rw [leftBreak, length, Nat.sub_sub]
      · rw [if_neg lineFits, overflow, if_pos (by omega)]
  · rw [decide_eq_false textFits] at wroteText
    simp only [next, emit, wroteText, written]
    refine ⟨?_, ?_, trivial, ?_⟩
    · rw [taken, List.take_append_of_le_length (by omega)]
    · rw [left, Nat.sub_eq_zero_of_le (by omega), Nat.sub_eq_zero_of_le (by omega)]
    · rw [if_neg (by omega), overflow, if_neg (by omega)]

/-- The run into a limited sink has done what the run into an unlimited one has done:
so far the output fits. -/
structure InStep (n : Nat) (free limited : Run) : Prop where
  room : free.sink.room = none
  left : limited.sink.room = some (n - free.written.length)
  fits : free.written.length ≤ n
  written : limited.written = free.written
  report : limited.report = free.report
  failure : limited.failure = free.failure

theorem inStep_start (n : Nat) : InStep n (start none) (start (some n)) :=
  ⟨rfl, rfl, Nat.zero_le n, rfl, rfl, rfl⟩

theorem InStep.result {n : Nat} {free limited : Run} (h : InStep n free limited) :
    limited.result = free.result := by
  simp only [Run.result, h.failure, h.report]

/-- A record that fits keeps the runs in step. -/
theorem InStep.emit {n : Nat} {free limited : Run} (h : InStep n free limited) (format : Format)
    (text : List Char) (fits : (free.emit format text).written.length ≤ n) :
    InStep n (free.emit format text) (limited.emit format text) := by
  obtain ⟨written, left, report, failure⟩ := emit_limited h.left format text
  have grown := written_emit_of_room h.room format text
  rw [grown, List.length_append] at fits
  refine ⟨?_, ?_, ?_, ?_, ?_, ?_⟩
  · rw [emit_of_room h.room]
    exact h.room
  · rw [left, Nat.sub_sub, ← List.length_append, ← grown]
  · rwa [grown, List.length_append]
  · rw [written, grown, h.written, List.take_of_length_le (by omega)]
  · rw [report, h.report, emit_of_room h.room]
  · rw [failure, if_pos (by omega), h.failure, emit_of_room h.room]

theorem step_rejected_of_not {o : Options} {x : String}
    (stops : ¬ (o.failFast = true → ¬ Rejected x)) :
    ∃ e, ∀ run : Run, run.failure = none → step o run (.expression x) =
      { run with report := count run.report (normalize x), failure := some (.rejected x e) } := by
  obtain ⟨failFast, rejected⟩ := Classical.not_imp.1 stops
  obtain ⟨e, rejected⟩ := Classical.not_not.1 rejected
  exact ⟨e, fun run live => step_rejected live failFast rejected⟩

/-- An unlimited sink only ever gets more. -/
theorem grows_step {run : Run} (room : run.sink.room = none) (o : Options) (item : Item) :
    (step o run item).sink.room = none ∧ run.written <+: (step o run item).written := by
  cases failure : run.failure with
  | some f =>
    rw [step_of_failure failure]
    exact ⟨room, List.prefix_rfl⟩
  | none =>
    cases item with
    | unreadable =>
      rw [written, written, sink_step_unreadable]
      exact ⟨room, List.prefix_rfl⟩
    | expression x =>
      by_cases goesOn : o.failFast = true → ¬ Rejected x
      · rw [step_expression failure goesOn, written_emit_of_room (by exact room)]
        rw [emit_of_room (by exact room)]
        exact ⟨room, List.prefix_append ..⟩
      · obtain ⟨e, stopped⟩ := step_rejected_of_not goesOn
        rw [stopped run failure]
        exact ⟨room, List.prefix_rfl⟩

theorem grows_foldl {run : Run} (room : run.sink.room = none) (o : Options) (items : List Item) :
    run.written <+: (items.foldl (step o) run).written := by
  induction items generalizing run with
  | nil => exact List.prefix_rfl
  | cons item items ih =>
    obtain ⟨roomNext, grown⟩ := grows_step room o item
    exact grown.trans (ih roomNext)

/-- Whatever a step does, the runs stay in step if what it writes fits. -/
theorem InStep.step {n : Nat} {free limited : Run} (h : InStep n free limited) (o : Options)
    (item : Item) (fits : (step o free item).written.length ≤ n) :
    InStep n (step o free item) (step o limited item) := by
  cases failure : free.failure with
  | some f =>
    rw [step_of_failure failure, step_of_failure (h.failure.trans failure)]
    exact h
  | none =>
    have live := h.failure.trans failure
    cases item with
    | unreadable =>
      simp only [Run.step, failure, live]
      exact ⟨h.room, h.left, h.fits, h.written, h.report, rfl⟩
    | expression x =>
      by_cases goesOn : o.failFast = true → ¬ Rejected x
      · rw [step_expression failure goesOn] at fits ⊢
        rw [step_expression live goesOn]
        have counted : InStep n { free with report := count free.report (normalize x) }
            { limited with report := count limited.report (normalize x) } :=
          ⟨h.room, h.left, h.fits, h.written, by rw [h.report], h.failure⟩
        exact counted.emit _ _ fits
      · obtain ⟨e, stopped⟩ := step_rejected_of_not goesOn
        rw [stopped free failure, stopped limited live]
        exact ⟨h.room, h.left, h.fits, h.written, by rw [h.report], rfl⟩

theorem InStep.foldl {n : Nat} {free limited : Run} (h : InStep n free limited) (o : Options)
    (items : List Item) (fits : (items.foldl (Run.step o) free).written.length ≤ n) :
    InStep n (items.foldl (Run.step o) free) (items.foldl (Run.step o) limited) := by
  induction items generalizing free limited with
  | nil => exact h
  | cons item items ih =>
    -- What fits at the end of the run fits at each step of it, since output only grows.
    have later := (grows_foldl (grows_step h.room o item).1 o items).length_le
    exact ih (h.step o item (Nat.le_trans later fits)) fits

/-- A record that does not fit is cut, and with it the run. -/
theorem step_cut {o : Options} {run : Run} {k : Nat} {x : String} (live : run.failure = none)
    (room : run.sink.room = some k) (goesOn : o.failFast = true → ¬ Rejected x)
    (overflows : k < (recordBytes o.format x).length) :
    (step o run (.expression x)).written = run.written ++ (recordBytes o.format x).take k ∧
      (step o run (.expression x)).failure =
        some (overflow o.format k (recordBytes o.format x)) := by
  have counted : ({ run with report := count run.report (normalize x) } : Run).sink.room = some k :=
    room
  obtain ⟨written, _, _, failure⟩ := emit_limited counted o.format (record o.format x (normalize x))
  rw [step_expression live goesOn]
  exact ⟨written, failure.trans (if_neg (Nat.not_le_of_lt overflows))⟩

/-- The first record that does not fit is cut, and the run ends there. -/
theorem all_cut {o : Options} {n : Nat} {before : List String} {x : String}
    (goesOn : o.failFast = true → ∀ y ∈ before ++ [x], ¬ Rejected y)
    (fits : (before.flatMap (recordBytes o.format)).length ≤ n)
    (overflows : n < (before.flatMap (recordBytes o.format)).length +
      (recordBytes o.format x).length)
    (items : List Item) :
    let left := n - (before.flatMap (recordBytes o.format)).length
    let limited := all o (some n) (before.map .expression ++ .expression x :: items)
    limited.written = before.flatMap (recordBytes o.format) ++ (recordBytes o.format x).take left ∧
      limited.result = .error (overflow o.format left (recordBytes o.format x)) := by
  intro left limited
  have handled : Handled o.format before {} (all o none (before.map .expression)) :=
    handled_all fun failFast y hy => goesOn failFast y (List.mem_append_left _ hy)
  have free : (all o none (before.map .expression)).written =
      before.flatMap (recordBytes o.format) :=
    handled.written
  have inStep : InStep n (all o none (before.map .expression))
      (all o (some n) (before.map .expression)) :=
    (inStep_start n).foldl o _ (by rw [← all, free]; exact fits)
  have room := inStep.left
  rw [free] at room
  obtain ⟨written, failure⟩ := step_cut (inStep.failure.trans handled.live) room
    (fun failFast => goesOn failFast x (by simp)) (show left < _ by omega)
  have stopped : limited = step o (all o (some n) (before.map .expression)) (.expression x) := by
    simp only [limited]
    rw [all, List.foldl_append, List.foldl_cons, ← all, foldl_of_failure failure]
  rw [stopped]
  refine ⟨?_, ?_⟩
  · rw [written, inStep.written, free]
  · simp only [result, failure, left]

end Run

/-- The expressions of which a run into an unlimited sink writes a record. -/
def recorded (o : Options) (xs : List String) : List String :=
  if o.failFast then xs.takeWhile fun x => ¬ Rejected x else xs

/-- The byte at `n` is the last one of a record, which is its line feed. -/
def EndsRecord (format : Format) (xs : List String) (n : Nat) : Prop :=
  ∃ front, front <+: xs ∧ (front.flatMap (recordBytes format)).length = n + 1

theorem recorded_prefix (o : Options) (xs : List String) : recorded o xs <+: xs := by
  unfold recorded
  split
  · exact List.takeWhile_prefix _
  · exact List.prefix_rfl

theorem recorded_goesOn {o : Options} (xs : List String) (failFast : o.failFast = true) :
    ∀ x ∈ recorded o xs, ¬ Rejected x := by
  intro x hx
  rw [recorded, if_pos failFast] at hx
  simpa using List.mem_takeWhile_imp hx

theorem written_recorded {o : Options} {stdin : List UInt8} {xs : List String} {broken : Bool}
    (given : Given o.expressions stdin xs broken) :
    (run o stdin none).written = (recorded o xs).flatMap (recordBytes o.format) := by
  by_cases goesOn : o.failFast = true → ∀ x ∈ xs, ¬ Rejected x
  · have all : recorded o xs = xs := by
      unfold recorded
      split
      · rename_i failFast
        exact List.takeWhile_eq_self_iff.2 (by simpa using goesOn failFast)
      · rfl
    rw [all]
    exact (run_handled given goesOn).2
  · obtain ⟨failFast, notAll⟩ := Classical.not_imp.1 goesOn
    obtain ⟨before, x, after, e, rfl, accepted, rejected⟩ :=
      exists_first_rejected (by simpa using notAll)
    have first : recorded o (before ++ x :: after) = before := by
      rw [recorded, if_pos failFast, List.takeWhile_append_of_pos (by simpa using accepted),
        List.takeWhile_cons_of_neg (by simpa using ⟨e, rejected⟩), List.append_nil]
    rw [first]
    exact (run_rejected given failFast accepted rejected).2

/-- Some record is the first that does not fit. -/
theorem exists_crossing {format : Format} {xs : List String} {n : Nat}
    (h : n < (xs.flatMap (recordBytes format)).length) :
    ∃ before x after, xs = before ++ x :: after ∧ (before.flatMap (recordBytes format)).length ≤ n ∧
      n < (before.flatMap (recordBytes format)).length + (recordBytes format x).length := by
  induction xs generalizing n with
  | nil => exact absurd h (Nat.not_lt_zero n)
  | cons x xs ih =>
    rw [List.flatMap_cons, List.length_append] at h
    by_cases here : n < (recordBytes format x).length
    · exact ⟨[], x, xs, rfl, Nat.zero_le n, by simpa using here⟩
    · obtain ⟨before, y, after, rfl, fits, overflows⟩ :=
        ih (n := n - (recordBytes format x).length) (by omega)
      refine ⟨x :: before, y, after, rfl, ?_, ?_⟩ <;>
        rw [List.flatMap_cons, List.length_append] <;> omega

/-- A record that is cut ends at the limit only if its line feed is all that is missing. -/
theorem endsRecord_iff {format : Format} {before after : List String} {x : String} {n : Nat}
    (fits : (before.flatMap (recordBytes format)).length ≤ n)
    (overflows : n < (before.flatMap (recordBytes format)).length + (recordBytes format x).length) :
    EndsRecord format (before ++ x :: after) n ↔
      n - (before.flatMap (recordBytes format)).length + 1 = (recordBytes format x).length := by
  have through : ((before ++ [x]).flatMap (recordBytes format)).length =
      (before.flatMap (recordBytes format)).length + (recordBytes format x).length := by
    simp
  have regrouped : before ++ x :: after = (before ++ [x]) ++ after := List.append_cons ..
  constructor
  · rintro ⟨front, leads, ends⟩
    have ahead : before ++ [x] <+: before ++ x :: after := regrouped ▸ List.prefix_append ..
    rcases List.prefix_or_prefix_of_prefix leads ahead with short | long
    · rcases List.prefix_concat_iff.1 short with rfl | shorter
      · omega
      · obtain ⟨more, rfl⟩ := shorter
        rw [List.flatMap_append, List.length_append] at fits
        omega
    · obtain ⟨more, rfl⟩ := long
      rw [List.flatMap_append, List.length_append, through] at ends
      omega
  · intro ends
    exact ⟨before ++ [x], regrouped ▸ List.prefix_append .., by omega⟩

/-- The items of a run begin with the expressions of which it writes records. -/
theorem items_of_recorded {o : Options} {stdin : List UInt8} {xs before after : List String}
    {x : String} {broken : Bool} (given : Given o.expressions stdin xs broken)
    (records : recorded o xs = before ++ x :: after) :
    ∃ rest, o.items stdin = before.map .expression ++ .expression x :: rest := by
  obtain ⟨others, split⟩ := recorded_prefix o xs
  obtain ⟨rest, items⟩ := given.items
  rw [items, ← split, records]
  simp

/-- Where the records do not fit, the run is cut in one of them. -/
theorem exists_cut {o : Options} {stdin : List UInt8} {xs : List String} {broken : Bool} {n : Nat}
    (given : Given o.expressions stdin xs broken)
    (overflows : n < ((recorded o xs).flatMap (recordBytes o.format)).length) :
    ∃ k line, (EndsRecord o.format (recorded o xs) n ↔ k + 1 = line.length) ∧
      (run o stdin (some n)).written = ((recorded o xs).flatMap (recordBytes o.format)).take n ∧
      (run o stdin (some n)).result = .error (Run.overflow o.format k line) := by
  obtain ⟨before, x, after, records, fits, crosses⟩ := exists_crossing overflows
  have goesOn : o.failFast = true → ∀ y ∈ before ++ [x], ¬ Rejected y := by
    intro failFast y hy
    apply recorded_goesOn xs failFast
    rw [records, List.append_cons]
    exact List.mem_append_left _ hy
  obtain ⟨rest, layout⟩ := items_of_recorded given records
  obtain ⟨written, result⟩ := Run.all_cut goesOn fits crosses rest
  rw [← layout] at written result
  refine ⟨_, recordBytes o.format x, ?_, ?_, result⟩
  · rw [records]
    exact endsRecord_iff fits crosses
  · have left : n - (before.flatMap (recordBytes o.format)).length ≤
        (recordBytes o.format x).length := by
      omega
    rw [records, List.flatMap_append, List.flatMap_cons, List.take_append,
      List.take_of_length_le fits, List.take_append_of_le_length left]
    exact written

/-- **A full sink cuts the output and changes nothing else.** Let a run with an unlimited sink write
the records of the expressions `recorded`. If `n` bytes hold all of them, the run with a sink of `n`
bytes writes the same and comes to the same result, be it a failure or not. If not, it writes the
first `n` bytes and fails: with a full sink if tokens are written or if only the line feed of a
record is missing, and with a record cut short otherwise. -/
theorem full_sink_cuts_output (o : Options) (stdin : List UInt8) (n : Nat) :
    (∃ xs broken, Given o.expressions stdin xs broken) ∧
    ∀ xs broken, Given o.expressions stdin xs broken →
      let free := run o stdin none
      let limited := run o stdin (some n)
      free.written = (recorded o xs).flatMap (recordBytes o.format) ∧
      (free.written.length ≤ n → limited.written = free.written ∧ limited.result = free.result) ∧
      (n < free.written.length → limited.written = free.written.take n ∧
        (o.format = .tokens ∨ EndsRecord o.format (recorded o xs) n →
          limited.result = .error .sinkFull) ∧
        (o.format ≠ .tokens ∧ ¬ EndsRecord o.format (recorded o xs) n →
          limited.result = .error .recordCut)) := by
  refine ⟨exists_given _ _, ?_⟩
  intro xs broken given free limited
  have whole : free.written = _ := written_recorded given
  refine ⟨whole, ?_, ?_⟩
  · intro fits
    have inStep : Run.InStep n free limited := (Run.inStep_start n).foldl o (o.items stdin) fits
    exact ⟨inStep.written, inStep.result⟩
  · intro overflows
    rw [whole] at overflows ⊢
    obtain ⟨k, line, ends, written, result⟩ := exists_cut given overflows
    refine ⟨written, ?_, ?_⟩
    · rintro (tokens | lineFeed)
      · rw [tokens, Run.overflow_tokens] at result
        exact result
      · rw [Run.overflow_of_lineFeed _ (ends.1 lineFeed)] at result
        exact result
    · rintro ⟨json, body⟩
      rw [Run.overflow_of_json json fun lineFeed => body (ends.2 lineFeed)] at result
      exact result

end JsonPath.Command
