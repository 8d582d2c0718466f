import StackMachine.Proofs.Machine.Execution
import StackMachine.Proofs.Machine.Lifetime

/-!
# StackMachine.Proofs.Machine.Isolation

Runs on one processor share the words of its input and nothing else.

* `Store.Alike`: the stores of two runs that differ in how the words that are left are held, and in
  what was printed before them.
* `alike_perform`, `alike_step`, `alike_run`: an instruction, a step and a run keep them alike, and
  do the same to both.
* `Processor.Alike`, `alike_execute`: so do two processors, one of which has printed nothing yet.
* `Session.playAll_append`: programs can be played in two parts.
* `play_isolated`: a program does what it does alone on the words that those before it left.
-/

namespace StackMachine

/-- The same words are left, and reading ends in the same way. -/
structure Input.Alike (i j : Input) : Prop where
  unread : i.unread = j.unread
  failure : i.failure = j.failure

/-- Neither output has a limit, and one has all that the other has, behind what it had before. -/
structure Output.Alike (base : Array UInt8) (o u : Output) : Prop where
  limitless : o.limit = none
  limitless' : u.limit = none
  flush : o.flushFailure = u.flushFailure
  written : o.written = base ++ u.written

structure Store.Alike (base : Array UInt8) (s t : Store) : Prop where
  store : s = t.via s.input s.output
  input : s.input.Alike t.input
  output : s.output.Alike base t.output

structure Effect.Alike {J : Type} (base : Array UInt8) (e f : Effect J) : Prop where
  action : e.action = f.action
  store : e.store.Alike base f.store

structure State.Alike (base : Array UInt8) (s t : State) : Prop where
  ip : s.ip = t.ip
  calls : s.calls = t.calls
  store : s.store.Alike base t.store

section Channels

variable {base : Array UInt8}

theorem Input.Alike.next {i j : Input} (h : i.Alike j) :
    i.next.1 = j.next.1 ∧ i.next.2.Alike j.next.2 := by
  have hi := i.gives_next
  have hj := j.gives_next
  have hending : i.ending = j.ending := by
    simp only [Input.ending, h.failure]
  refine ⟨?_, ?_, ?_⟩
  · rw [hi.reading, hj.reading, h.unread, hending]
  · rw [hi.unread, hj.unread, h.unread]
  · rw [hi.failure, hj.failure, h.failure]

theorem Output.Alike.write {o u : Output} (h : o.Alike base u) (bs : List UInt8) :
    (o.write bs).1 = (u.write bs).1 ∧ (o.write bs).2.Alike base (u.write bs).2 := by
  rw [write_unlimited h.limitless, write_unlimited h.limitless']
  refine ⟨rfl, h.limitless, h.limitless', h.flush, ?_⟩
  rw [h.written, Array.append_assoc]

end Channels

section Perform

variable {J : Type} {base : Array UInt8} {s t : Store}

theorem alike_read (h : s.Alike base t) :
    (Effect.read s : Effect J).Alike base (Effect.read t) := by
  obtain ⟨hs, hin, hout⟩ := h
  obtain ⟨_, _, _, i, o⟩ := s
  obtain ⟨regs, data, ram, j, u⟩ := t
  cases hs
  obtain ⟨hreading, hleft⟩ := hin.next
  simp only at hreading hleft hout
  refine ⟨?_, ?_⟩
  · rw [action_read, action_read]
    simp only [hreading]
  · rw [store_read, store_read]
    simp only [hreading]
    cases j.next.1.pushed with
    | ok w => exact ⟨rfl, hleft, hout⟩
    | error e => exact ⟨rfl, hleft, hout⟩

theorem alike_print (h : s.Alike base t) :
    (Effect.print s : Effect J).Alike base (Effect.print t) := by
  obtain ⟨hs, hin, hout⟩ := h
  obtain ⟨_, _, _, i, o⟩ := s
  obtain ⟨regs, data, ram, j, u⟩ := t
  cases hs
  simp only at hin hout
  cases data with
  | nil => exact ⟨rfl, rfl, hin, hout⟩
  | cons w ds =>
    obtain ⟨hrefusal, hwritten⟩ := hout.write w.line
    simp only [Effect.print, hrefusal]
    cases (u.write w.line).1 with
    | none => exact ⟨rfl, rfl, hin, hwritten⟩
    | some e => exact ⟨rfl, rfl, hin, hwritten⟩

theorem alike_perform (h : s.Alike base t) (i : Instr J) :
    (i.perform s).Alike base (i.perform t) := by
  by_cases hin : i = .plain .input
  · subst hin
    exact alike_read h
  by_cases hout : i = .plain .output
  · subst hout
    exact alike_print h
  -- What is left are the instructions that look at no channel, in which alone the stores differ.
  have hvia : i.perform s = (i.perform t).via s.input s.output := by
    rw [← perform_via t s.input s.output hin hout, ← h.store]
  obtain ⟨hinput, houtput⟩ := (quiet_perform t hin hout).channels
  rw [hvia]
  refine ⟨rfl, rfl, ?_, ?_⟩
  · rw [hinput]
    exact h.input
  · rw [houtput]
    exact h.output

end Perform

section Run

variable {base : Array UInt8} {s t : State}

theorem State.Alike.start {i j : Input} {o u : Output} (hin : i.Alike j) (hout : o.Alike base u) :
    (State.start i o).Alike base (.start j u) :=
  ⟨rfl, rfl, rfl, hin, hout⟩

theorem alike_transfer (h : s.Alike base t) (code : Code) (following : Nat) (a : Action Offset) :
    (s.transfer code following a).1 = (t.transfer code following a).1 ∧
      (s.transfer code following a).2.Alike base (t.transfer code following a).2 := by
  have hs : s = { t with store := s.store } := by rw [← h.ip, ← h.calls]
  have hmoved := transfer_store t s.store code following a
  rw [← hs] at hmoved
  rw [hmoved]
  refine ⟨rfl, rfl, rfl, ?_⟩
  rw [store_transfer]
  exact h.store

theorem alike_step (h : s.Alike base t) (code : Code) :
    (step code s).outcome = (step code t).outcome ∧
      (step code s).state.Alike base (step code t).state := by
  cases hf : fetch code s.ip with
  | error f =>
    obtain ⟨hs, hs'⟩ := step_of_fetch_error hf
    obtain ⟨ht, ht'⟩ := step_of_fetch_error (h.ip ▸ hf)
    rw [hs, hs', ht, ht']
    exact ⟨rfl, h⟩
  | ok i =>
    obtain ⟨hs, hs'⟩ := step_of_fetch hf
    obtain ⟨ht, ht'⟩ := step_of_fetch (h.ip ▸ hf)
    obtain ⟨haction, hstore⟩ := alike_perform h.store i
    have hmoved : State.Alike base { s with store := (i.perform s.store).store }
        { t with store := (i.perform t.store).store } := ⟨h.ip, h.calls, hstore⟩
    have hfollowing : s.ip + i.size = t.ip + i.size := by rw [h.ip]
    rw [hs, hs', ht, ht', hfollowing, haction]
    exact alike_transfer hmoved code _ _

theorem alike_run (h : s.Alike base t) (code : Code) (limit : Nat) :
    (run code limit s).1 = (run code limit t).1 ∧
      (run code limit s).2.Alike base (run code limit t).2 := by
  induction limit generalizing s t with
  | zero => exact ⟨rfl, h⟩
  | succ limit ih =>
    obtain ⟨houtcome, hstate⟩ := alike_step h code
    rw [run_succ, run_succ, houtcome]
    cases (step code t).outcome with
    | running => exact ih hstate
    | halted => exact ⟨rfl, hstate⟩
    | failed f => exact ⟨rfl, hstate⟩

end Run

section Execute

variable {α β : Type} {code : Code} {limit : Nat}

theorem execute_eq_some {p : Processor} {visit : α → Event → α} {a : α} {x : Execution α}
    (h : p.execute visit code limit a = some x) :
    ∃ verdict, (run code limit (.start p.input p.output)).1.verdict? = some verdict ∧
      let ended := (run code limit (.start p.input p.output)).2.store.output
      x.verdict = verdict.andAlso ended.flush ∧ x.printed = ended.since p.output := by
  obtain ⟨houtcome, hstate⟩ := walk_visit code (fun a made => made.events.foldl visit a)
    (fun _ _ => ()) limit (.start p.input p.output) a ()
  rw [Processor.execute, Option.map_eq_some_iff] at h
  obtain ⟨verdict, hverdict, rfl⟩ := h
  refine ⟨verdict, ?_, ?_⟩
  · rw [run, ← houtcome]
    exact hverdict
  · rw [run, ← hstate]
    exact ⟨rfl, rfl⟩

theorem exists_execute {p : Processor} {verdict : Verdict}
    (h : (run code limit (.start p.input p.output)).1.verdict? = some verdict)
    (visit : α → Event → α) (a : α) : ∃ x, p.execute visit code limit a = some x := by
  obtain ⟨houtcome, -⟩ := walk_visit code (fun a made => made.events.foldl visit a)
    (fun _ _ => ()) limit (.start p.input p.output) a ()
  rw [run, ← houtcome] at h
  rw [Processor.execute, h]
  exact ⟨_, rfl⟩

/-- A run ends in the same way and prints the same on a processor that has printed something before
and on one that has not. -/
theorem alike_execute {p q : Processor} (hin : p.input.Alike q.input)
    (hout : p.output.Alike p.output.written q.output) {visit : α → Event → α} {a : α}
    {x : Execution α} (hx : p.execute visit code limit a = some x) (other : β → Event → β)
    (b : β) :
    ∃ y, q.execute other code limit b = some y ∧ x.verdict = y.verdict ∧
      x.printed = y.printed := by
  obtain ⟨hends, hended⟩ := alike_run (.start hin hout) code limit
  obtain ⟨verdict, hverdict, hx₁, hx₂⟩ := execute_eq_some hx
  rw [hends] at hverdict
  obtain ⟨y, hy⟩ := exists_execute hverdict other b
  obtain ⟨verdict', hverdict', hy₁, hy₂⟩ := execute_eq_some hy
  rw [hverdict] at hverdict'
  cases hverdict'
  refine ⟨y, hy, ?_, ?_⟩
  · rw [hx₁, hy₁, Output.flush, Output.flush, hended.store.output.flush]
  · have hempty : q.output.written = #[] := by
      have := hout.written
      simpa using this
    rw [hx₂, hy₂, Output.since, Output.since, hended.store.output.written, hempty]
    simp [Array.extract_append]

end Execute

namespace Session

variable {α : Type} {visit : α → Event → α} {limit : Nat} {s u : Session α} {rs : List Result}

theorem playAll_append {before after : List Program}
    (h : playAll visit limit s (before ++ after) = some (rs, u)) :
    ∃ earlier t later, playAll visit limit s before = some (earlier, t) ∧
      playAll visit limit t after = some (later, u) ∧ rs = earlier ++ later ∧
      earlier.length = before.length := by
  induction before generalizing s rs with
  | nil => exact ⟨[], s, rs, rfl, h, rfl, rfl⟩
  | cons p ps ih =>
    obtain ⟨r, t, rest, hplay, hall, rfl⟩ := playAll_cons h
    obtain ⟨earlier, v, later, hearlier, hlater, rfl, hlength⟩ := ih hall
    refine ⟨r :: earlier, v, later, ?_, hlater, rfl, by simp [hlength]⟩
    simp only [playAll, hplay, hearlier]

theorem play_code {code : Code} {r : Result} (h : play visit limit s (.code code) = some (r, u)) :
    ∃ x, s.processor.execute visit code limit s.log = some x ∧ r = .ran x.verdict x.printed := by
  rcases play_cases h with ⟨e, he, -, -⟩ | ⟨code, x, hcode, hx, hr, -⟩
  · cases he
  · cases hcode
    exact ⟨x, hx, hr⟩

end Session

/-- Words written down one per line are the words of that input. -/
theorem Input.unread_spread {ws : List (List Char)} (h : ∀ w ∈ ws, Text.IsWord w) :
    (ofBytes (Utf8.encode (String.ofList (Text.spread ws))) none).unread = ws := by
  rw [unread_ofBytes, wordsOf, Utf8.lossy_encode, String.toList_ofList, Text.words_spread h]

/-- A processor of its own for a program, with the given words as input, one per line. -/
def Processor.alone (ws : List (List Char)) : Processor :=
  ⟨.ofBytes (Utf8.encode (String.ofList (Text.spread ws))) none, .unlimited⟩

/-- A program that is run after others, whatever became of those, ends as it does alone on the words
that they have left, and prints the same. They have left all but as many as they made `in`
instructions, which the log counts. -/
theorem play_isolated {bytes : List UInt8} {before after : List Program} {code : Code}
    {limit : Nat} {results : List Result} {ended : Session Nat}
    (h : Session.playAll Event.count limit ⟨⟨.ofBytes bytes none, .unlimited⟩, 0⟩
      (before ++ .code code :: after) = some (results, ended)) :
    ∃ earlier s, Session.playAll Event.count limit ⟨⟨.ofBytes bytes none, .unlimited⟩, 0⟩ before =
        some (earlier, s) ∧
      ∀ {α : Type} (visit : α → Event → α) (a : α),
        ∃ x, (Processor.alone ((Text.words (Utf8.lossy bytes)).drop s.log)).execute visit code limit
            a = some x ∧
          results[before.length]? = some (.ran x.verdict x.printed) := by
  obtain ⟨earlier, s, later, hearlier, hlater, rfl, hlength⟩ := Session.playAll_append h
  obtain ⟨r, t, rest, hplay, -, rfl⟩ := Session.playAll_cons hlater
  obtain ⟨x, hx, rfl⟩ := Session.play_code hplay
  have hbecomes := Session.becomes_playAll (.refl _) hearlier
  obtain ⟨hunread, hfailure⟩ := hbecomes.unread
  obtain ⟨hlimit, hflush⟩ := hbecomes.output
  refine ⟨earlier, s, hearlier, ?_⟩
  intro α visit a
  have hwords : ∀ w ∈ (Text.words (Utf8.lossy bytes)).drop s.log, Text.IsWord w := by
    intro w hw
    exact Text.isWord_of_mem_words (List.mem_of_mem_drop hw)
  have hin : s.processor.input.Alike
      (Processor.alone ((Text.words (Utf8.lossy bytes)).drop s.log)).input :=
    ⟨hunread.trans (Input.unread_spread hwords).symm, hfailure⟩
  have hout : s.processor.output.Alike s.processor.output.written .unlimited :=
    ⟨hlimit, rfl, hflush, by simp [Output.unlimited]⟩
  obtain ⟨y, hy, hverdict, hprinted⟩ := alike_execute hin hout hx visit a
  refine ⟨y, hy, ?_⟩
  rw [← hlength, hverdict, hprinted]
  simp

/-- The first program takes one word of a line and fails; the second reads and prints the next. -/
theorem play_isolated_fault :
    let programs : List Program := [.code #[1, 0], .code #[1, 2, 11]]
    ∃ results ended earlier s,
      Session.playAll Event.count 4 ⟨⟨.ofBytes [49, 32, 50] none, .unlimited⟩, 0⟩ programs =
        some (results, ended) ∧
      Session.playAll Event.count 4 ⟨⟨.ofBytes [49, 32, 50] none, .unlimited⟩, 0⟩
        (programs.take 1) = some (earlier, s) ∧
      ∃ x, (Processor.alone ((Text.words (Utf8.lossy [49, 32, 50])).drop s.log)).execute
          Event.count #[1, 2, 11] 4 0 = some x ∧
        results[1]? = some (.ran x.verdict x.printed) := by
  intro programs
  have hends : (Session.playAll Event.count 4 ⟨⟨.ofBytes [49, 32, 50] none, .unlimited⟩, 0⟩
      programs).isSome = true := by decide +kernel
  obtain ⟨⟨results, ended⟩, h⟩ := Option.isSome_iff_exists.mp hends
  have hparts : programs = [.code #[1, 0]] ++ .code #[1, 2, 11] :: [] := rfl
  obtain ⟨earlier, s, hearlier, halone⟩ := play_isolated (hparts ▸ h)
  exact ⟨results, ended, earlier, s, h, hearlier, halone Event.count 0⟩

end StackMachine
