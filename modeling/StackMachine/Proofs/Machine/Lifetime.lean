import StackMachine.Machine.Session
import StackMachine.Proofs.Machine.Channels
import StackMachine.Proofs.Machine.Unread

/-!
# StackMachine.Proofs.Machine.Lifetime

What `in` reads over all the runs of a processor.

* `Processor.Sees`: the states that a processor comes to, run after run, each with the number of
  `in` instructions until then.
* `Processor.Sees.unread`: in each of them as many words are gone as `in` instructions were made.
* `Event.count`: counts `in` instructions by what the log tells.
* `Processor.Becomes`: what has become of a processor; `Session.becomes_playAll` says that playing
  programs leads to nothing else, and that the log counts right.
* `read_word`: what each `in` instruction reads.
-/

namespace StackMachine

/-- A processor has come to a state in the course of its runs, after so many `in` instructions. Any
step may be the last of its run, and any code may be run next. -/
inductive Processor.Sees (p : Processor) : Code → State → Nat → Prop where
  | start (code : Code) : Sees p code (.start p.input p.output) 0
  | read {code : Code} {s : State} {n : Nat} : Sees p code s n →
      fetch code s.ip = .ok (.plain .input) → Sees p code (step code s).state (n + 1)
  | other {code : Code} {s : State} {n : Nat} : Sees p code s n →
      fetch code s.ip ≠ .ok (.plain .input) → Sees p code (step code s).state n
  | next {code : Code} {s : State} {n : Nat} (following : Code) : Sees p code s n →
      Sees p following (.start s.store.input s.store.output) n

namespace Processor

variable {p q : Processor} {code : Code} {s : State} {n : Nat}

theorem Sees.unread (h : p.Sees code s n) :
    s.store.input.unread = p.input.unread.drop n ∧ s.store.input.failure = p.input.failure := by
  induction h with
  | start code => exact ⟨rfl, rfl⟩
  | @read code s n _ hin ih =>
    have hgives := s.store.input.gives_next
    rw [input_step_of_input hin]
    refine ⟨?_, by rw [hgives.failure, ih.2]⟩
    rw [hgives.unread, ih.1, List.tail_drop]
  | other _ hother ih =>
    rw [input_step_of_other hother]
    exact ih
  | next _ _ ih => exact ih

theorem Sees.output (h : p.Sees code s n) :
    s.store.output.limit = p.output.limit ∧
      s.store.output.flushFailure = p.output.flushFailure := by
  induction h with
  | start code => exact ⟨rfl, rfl⟩
  | @read code s n _ _ ih =>
    obtain ⟨hlimit, hflush⟩ := output_step code s
    exact ⟨hlimit.trans ih.1, hflush.trans ih.2⟩
  | @other code s n _ _ ih =>
    obtain ⟨hlimit, hflush⟩ := output_step code s
    exact ⟨hlimit.trans ih.1, hflush.trans ih.2⟩
  | next _ _ ih => exact ih

theorem Sees.reading (h : p.Sees code s n) :
    s.store.input.next.1 = (p.input.unread[n]?.map Reading.ofWord).getD p.input.ending := by
  have hgives := s.store.input.gives_next
  obtain ⟨hunread, hfailure⟩ := h.unread
  have hending : s.store.input.ending = p.input.ending := by
    simp only [Input.ending, hfailure]
  rw [hgives.reading, hunread, hending, List.head?_drop]

end Processor

section Log

variable {p : Processor} {code : Code} {s : State} {n : Nat}

/-- Whether an event tells of an `in` instruction. -/
def Event.reads : Event → Nat
  | .step _ (.plain .input) _ => 1
  | _ => 0

def Event.count (n : Nat) (e : Event) : Nat := n + e.reads

theorem count_read {n : Nat} (st : Store) :
    (Effect.read st : Effect Offset).events.foldl Event.count n = n := by
  simp only [Effect.read]
  cases st.input.next.1 <;> rfl

/-- The events of a step tell whether it was an `in` instruction. -/
theorem count_step (code : Code) (s : State) (n : Nat) :
    (fetch code s.ip = .ok (.plain .input) ∧
      (step code s).events.foldl Event.count n = n + 1) ∨
    (fetch code s.ip ≠ .ok (.plain .input) ∧ (step code s).events.foldl Event.count n = n) := by
  cases hop : opcodeAt code s.ip with
  | error f =>
    right
    constructor
    · intro hf
      rw [(fetch_eq_ok_iff.mp hf).1] at hop
      cases hop
    · simp [step, hop]
  | ok op =>
    by_cases hin : op = .plain .input
    · subst hin
      have hf := fetch_of_opcodeAt_input hop
      refine .inl ⟨hf, ?_⟩
      rw [events_step hf, List.foldl_cons]
      exact count_read s.store
    · right
      have hreads : ∀ ds, (Event.step s.ip op ds).reads = 0 := by
        intro ds
        unfold Event.reads
        split
        · rename_i heq
          cases heq
          exact absurd rfl hin
        · rfl
      constructor
      · intro hf
        rw [(fetch_eq_ok_iff.mp hf).1] at hop
        cases hop
        exact hin rfl
      · cases hi : instrAt code s.ip op with
        | error f => simp [step, hop, hi, Event.count, hreads]
        | ok i =>
          have hother : i ≠ .plain .input := by
            rintro rfl
            exact hin (Opcode.opcode_of_decode? (instrAt_eq_ok_iff.mp hi).2).symm
          simp [step, hop, hi, Event.count, hreads, events_perform s.store hother]

namespace Processor

variable {p q : Processor}

theorem Sees.walk (h : p.Sees code s n) (limit : Nat) :
    let ended := StackMachine.walk code (fun a made => made.events.foldl Event.count a) limit s n
    p.Sees code ended.2.1 ended.2.2 := by
  induction limit generalizing s n with
  | zero => exact h
  | succ limit ih =>
    have hmade : p.Sees code (step code s).state ((step code s).events.foldl Event.count n) := by
      rcases count_step code s n with ⟨hin, hcount⟩ | ⟨hother, hcount⟩
      · rw [hcount]
        exact .read h hin
      · rw [hcount]
        exact .other h hother
    simp only [StackMachine.walk]
    cases (step code s).outcome with
    | running => exact ih hmade
    | halted => exact hmade
    | failed f => exact hmade

/-- What a processor has become in the course of its runs. -/
def Becomes (p q : Processor) (n : Nat) : Prop :=
  ∃ code s, p.Sees code s n ∧ q = ⟨s.store.input, s.store.output⟩

theorem Becomes.refl (p : Processor) : p.Becomes p 0 := ⟨#[], _, .start #[], rfl⟩

theorem Becomes.unread (h : p.Becomes q n) :
    q.input.unread = p.input.unread.drop n ∧ q.input.failure = p.input.failure := by
  obtain ⟨code, s, hs, rfl⟩ := h
  exact hs.unread

theorem Becomes.output (h : p.Becomes q n) :
    q.output.limit = p.output.limit ∧ q.output.flushFailure = p.output.flushFailure := by
  obtain ⟨code, s, hs, rfl⟩ := h
  exact hs.output

theorem Becomes.execute {limit : Nat} {x : Execution Nat} (h : p.Becomes q n)
    (hx : q.execute Event.count code limit n = some x) : p.Becomes x.processor x.log := by
  obtain ⟨_, s, hs, rfl⟩ := h
  have hended := (hs.next code).walk limit
  rw [Processor.execute, Option.map_eq_some_iff] at hx
  obtain ⟨verdict, -, rfl⟩ := hx
  exact ⟨code, _, hended, rfl⟩

end Processor

namespace Session

section Play

variable {α : Type} {visit : α → Event → α} {limit : Nat} {s u : Session α} {rs : List Result}

/-- A text that is refused leaves the processor alone; any other program is executed. -/
theorem play_cases {p : Program} {r : Result} (h : play visit limit s p = some (r, u)) :
    (∃ e, (prepare p).2 = .error e ∧ r = .refused e ∧
        u = ⟨s.processor, (prepare p).1.foldl visit s.log⟩) ∨
      ∃ code x, (prepare p).2 = .ok code ∧
        s.processor.execute visit code limit ((prepare p).1.foldl visit s.log) = some x ∧
        r = .ran x.verdict x.printed ∧ u = ⟨x.processor, x.log⟩ := by
  simp only [play] at h
  split at h
  · rename_i e he
    cases h
    exact .inl ⟨e, he, rfl, rfl⟩
  · rename_i code hcode
    obtain ⟨x, hx, hxu⟩ := Option.map_eq_some_iff.mp h
    cases hxu
    exact .inr ⟨code, x, hcode, hx, rfl, rfl⟩

theorem playAll_cons {p : Program} {ps : List Program}
    (h : playAll visit limit s (p :: ps) = some (rs, u)) :
    ∃ r t rest, play visit limit s p = some (r, t) ∧
      playAll visit limit t ps = some (rest, u) ∧ rs = r :: rest := by
  rw [playAll] at h
  split at h
  · cases h
  · rename_i r t ht
    split at h
    · cases h
    · rename_i rest v hv
      cases h
      exact ⟨r, t, rest, ht, hv, rfl⟩

end Play

variable {p : Processor} {t u : Session Nat} {limit : Nat} {r : Result} {rs : List Result}

theorem count_prepare (program : Program) (n : Nat) :
    (prepare program).1.foldl Event.count n = n := by
  cases program with
  | code code => rfl
  | text source =>
    simp only [prepare, assembleLogged]
    cases Listing.ofText? source.toList <;> rfl

theorem becomes_play {program : Program} (h : p.Becomes t.processor t.log)
    (hplay : play Event.count limit t program = some (r, u)) :
    p.Becomes u.processor u.log := by
  rcases play_cases hplay with ⟨e, -, -, rfl⟩ | ⟨code, x, -, hx, -, rfl⟩
  · rw [count_prepare]
    exact h
  · rw [count_prepare] at hx
    exact h.execute hx

theorem becomes_playAll {programs : List Program} (h : p.Becomes t.processor t.log)
    (hplay : playAll Event.count limit t programs = some (rs, u)) :
    p.Becomes u.processor u.log := by
  induction programs generalizing t rs with
  | nil =>
    cases hplay
    exact h
  | cons program programs ih =>
    obtain ⟨r, v, rest, hfirst, hrest, -⟩ := playAll_cons hplay
    exact ih (becomes_play h hfirst) hrest

end Session

end Log

/-- The `in` instruction after `n` others reads word number `n` of the whole input, whatever lines
and runs they belong to: words are parts between white space of the decoded bytes. Where there is
no such word it reads zero, or fails if the input does; an input that fails loses what is not a
complete line. Reading ends after a turn for each byte that is left, and one more. -/
theorem read_word {bytes : List UInt8} {failure : Option IoError} {output : Output} {code : Code}
    {s : State} {n : Nat} (hs : Processor.Sees ⟨.ofBytes bytes failure, output⟩ code s n)
    (hin : fetch code s.ip = .ok (.plain .input)) :
    (failure = none → (step code s).outcome = .running ∧
        (step code s).state.store.data =
          Input.valueOf (Text.words (Utf8.lossy bytes))[n]? :: s.store.data) ∧
      (∀ e, failure = some e →
        (∀ w, (Text.words (Utf8.lossy (Input.complete bytes)))[n]? = some w →
          (step code s).outcome = .running ∧
            (step code s).state.store.data = Input.valueOf (some w) :: s.store.data) ∧
        ((Text.words (Utf8.lossy (Input.complete bytes))).length ≤ n →
          (step code s).outcome = .failed (.io e) ∧
            (step code s).state.store.data = s.store.data)) ∧
      ∀ limit, s.store.input.bytes.length < limit →
        Input.passes limit s.store.input = some s.store.input.next := by
  have hreading := hs.reading
  refine ⟨?_, ?_, fun limit => Input.passes_eq⟩
  · rintro rfl
    have hpushed : s.store.input.next.1.pushed =
        .ok (Input.valueOf (Text.words (Utf8.lossy bytes))[n]?) := by
      rw [hreading]
      show (((Text.words (Utf8.lossy bytes))[n]?.map Reading.ofWord).getD .exhausted).pushed = _
      cases (Text.words (Utf8.lossy bytes))[n]? with
      | none => rfl
      | some w => exact Reading.pushed_ofWord w
    exact step_read hin hpushed
  · rintro e rfl
    have hread : s.store.input.next.1 =
        ((Text.words (Utf8.lossy (Input.complete bytes)))[n]?.map Reading.ofWord).getD
          (.failed e) := hreading
    refine ⟨?_, ?_⟩
    · intro w hw
      rw [hw] at hread
      exact step_read hin (by rw [hread]; exact Reading.pushed_ofWord w)
    · intro hle
      rw [List.getElem?_eq_none hle] at hread
      exact step_read_error hin (by rw [hread]; rfl)

/-- Two words on one line, read in two runs, and one on the next line, read in a third. -/
theorem read_word_third : ∃ s, Processor.Sees
      ⟨.ofBytes [55, 32, 120, 10, 56] none, .unlimited⟩ #[1] s 2 ∧
    (step #[1] s).outcome = .running ∧
    (step #[1] s).state.store.data = [⟨0x4020000000000000⟩] := by
  have hs := ((((Processor.Sees.start
    (p := ⟨.ofBytes [55, 32, 120, 10, 56] none, .unlimited⟩) #[1]).read rfl).next #[1]).read
      rfl).next #[1]
  obtain ⟨hrunning, hdata⟩ := (read_word hs rfl).1 rfl
  refine ⟨_, hs, hrunning, hdata.trans ?_⟩
  decide +kernel

end StackMachine
