import Latch.Proofs.Careers
import Latch.Proofs.Chains

/-!
# Completions

A caller who polls a future only as long as it is not terminated hears of its completion, and hears
of it once. The same holds for the signals that the future polls in turn: a race stops before it
would poll a signal that has answered.
-/

set_option autoImplicit false

namespace Latch

variable {ω σ ν : Type}

/-! ## Open futures -/

namespace Future

/-- A race that is not settled polls nothing that was settled. -/
def Open : Future σ → Prop
  | race (some wait) signal => wait.completed = false ∧ signal.isTerminated = false ∧ signal.Open
  | race none _ | plain _ | ready | never | external _ => True

/-- A poll so far has left the future open, and has settled it only to give the final answer. -/
structure Polled.Sound (polled : Polled σ ω) : Prop where
  opened : polled.future.Open
  answered : polled.future.isTerminated = true →
    ∃ answer, polled.progress = .answered answer ∧ answer ≠ .pending

variable {wait : Wait} {signal future part : Future σ} {polled : Polled σ ω} {others : List Wait}

theorem settle_of_owned {events : Events ω} (owned : Owned events (wait :: others))
    (signal : Future σ) (answer : Answer) (note : List (Occurrence ω)) :
    settle wait signal answer note events =
      { progress := .answered answer, future := race none signal
        events := (wait.drop events).events, trace := (wait.drop events).trace ++ note } := by
  simp only [settle, owned.drop.1]

/-- What a race comes to whose event was unset: what its signal does, or a cancellation. -/
inductive Ends (wait : Wait) (polled concluded : Polled σ ω) : Prop
  | still (unready : ∀ answer, polled.progress = .answered answer → answer = .pending)
      (progress : concluded.progress = polled.progress)
      (kept : concluded.future = race (some wait) polled.future)
  | settled (progress : concluded.progress = .answered .cancelled)
      (gone : concluded.future = race none polled.future)

theorem conclude_ends (owned : Owned polled.events (wait :: others)) :
    Ends wait polled (conclude wait polled) := by
  have settles := settle_of_owned owned polled.future .cancelled [.cancelled wait.event]
  unfold conclude
  cases progress : polled.progress with
  | asks | panicked =>
      refine .still ?_ progress.symm rfl
      rw [progress]
      exact nofun
  | answered answer =>
      cases answer with
      | pending =>
          refine .still ?_ progress.symm rfl
          rw [progress]
          rintro _ ⟨⟩
          rfl
      | completed | cancelled =>
          simp only [settles]
          exact .settled rfl rfl

theorem Ends.sound {concluded : Polled σ ω} (ends : Ends wait polled concluded)
    (incomplete : wait.completed = false) (sound : polled.Sound) : concluded.Sound := by
  cases ends with
  | settled progress gone =>
      constructor
      · rw [gone]
        exact trivial
      · exact fun _ => ⟨_, progress, nofun⟩
  | still unready progress kept =>
      have live : polled.future.isTerminated = false := by
        rw [Bool.eq_false_iff]
        intro terminated
        obtain ⟨answer, answered, ready⟩ := sound.answered terminated
        exact ready (unready answer answered)
      constructor
      · rw [kept]
        exact ⟨incomplete, live, sound.opened⟩
      · rw [kept]
        exact nofun

/-- A race that is over is settled. -/
theorem Ends.terminated {concluded : Polled σ ω} (ends : Ends wait polled concluded)
    {answer : Answer} (answered : concluded.progress = .answered answer)
    (ready : answer ≠ .pending) : concluded.future.isTerminated = true := by
  cases ends with
  | settled _ gone => rw [gone]; rfl
  | still unready progress => exact absurd (unready answer (progress.symm.trans answered)) ready

theorem Ends.panicked {concluded : Polled σ ω} (ends : Ends wait polled concluded) {panic : Panic}
    (broken : concluded.progress = .panicked panic) : polled.progress = .panicked panic := by
  cases ends with
  | settled progress => cases progress.symm.trans broken
  | still _ progress => exact progress.symm.trans broken

variable [Waker ω]

theorem poll_plain_of_set {events : Events ω} (set : (events.get wait.event).isSet = true)
    (waker : ω) :
    (plain wait : Future σ).poll waker events =
      { progress := .answered .completed
        future := plain { wait with token := none, completed := true }, events } := by
  simp only [poll, Wait.poll_of_set set]

theorem poll_plain_of_unset {events : Events ω} (owned : Owned events (wait :: others))
    (unset : (events.get wait.event).isSet = false) (waker : ω) :
    ∃ token enrolment enlisted,
      wait.poll waker events =
        { outcome := .ok false, wait := { wait with token := some token }, events := enlisted
          trace := [Wait.enrolled wait.event token waker enrolment] } ∧
      (plain wait : Future σ).poll waker events =
        { progress := .answered .pending, future := plain { wait with token := some token }
          events := enlisted, trace := [Wait.enrolled wait.event token waker enrolment] } := by
  obtain ⟨token, enrolment, enlisted, first, -⟩ :=
    poll_race_of_unset owned unset waker (.never : Future σ)
  exact ⟨token, enrolment, enlisted, first, by simp only [poll, first]⟩

namespace Stage

/-- The signal that came back broke off. -/
def breaks (panic : Panic) : Stage ω σ → Prop
  | resumes response _ => response = .panicked panic
  | polls .. => False

/-- A stage of an unsettled race completes it, or goes on to its signal. -/
inductive Enters (stage : Stage ω σ) (wait : Wait) (signal : Future σ) (others : List Wait) : Prop
  | completes (waker : ω) (found : Events ω) (polls : stage = .polls waker found)
      (set : (found.get wait.event).isSet = true) (stops : stage.inner? wait = none)
      (progress : (stage.apply (.race (some wait) signal)).progress = .answered .completed)
      (gone : (stage.apply (.race (some wait) signal)).future = .race none signal)
  | goesOn (inner : Stage ω σ) (now : Wait) (goes : stage.inner? wait = some inner)
      (unset : ∀ waker found, stage = .polls waker found →
        (found.get wait.event).isSet = false)
      (completed : now.completed = wait.completed)
      (owned : Owned inner.found (signal.waits ++ (now :: others)))
      (ends : Ends now (inner.apply signal) (stage.apply (.race (some wait) signal)))
      (breaks : ∀ panic, inner.breaks panic → stage.breaks panic)
      (flags : ∀ id, (inner.found.get id).isSet = (stage.found.get id).isSet)

theorem enters {stage : Stage ω σ}
    (owned : Owned stage.found (wait :: (signal.waits ++ others))) :
    stage.Enters wait signal others := by
  have ends : ∀ (inner : Stage ω σ) (now : Wait),
      Owned inner.found (signal.waits ++ (now :: others)) →
        Ends now (inner.apply signal) (conclude now (inner.apply signal)) := by
    intro inner now before
    have after := before.handled ((inner.apply_handles signal).append _)
    exact conclude_ends (after.perm List.perm_middle)
  cases stage with
  | resumes response found =>
      have front : Owned found (signal.waits ++ wait :: others) :=
        owned.perm List.perm_middle.symm
      exact .goesOn (.resumes response found) wait rfl nofun rfl front (ends _ wait front)
        (fun _ breaks => breaks) fun _ => rfl
  | polls waker found =>
      change Owned found _ at owned
      cases flag : (found.get wait.event).isSet with
      | true =>
          have polled := Wait.poll_of_set flag waker
          have after := owned.poll waker
          rw [polled] at after
          refine .completes waker found rfl flag ?_ ?_ ?_
          · simp only [inner?, polled]
          · simp only [apply, poll, polled, settle_of_owned after]
          · simp only [apply, poll, polled, settle_of_owned after]
      | false =>
          obtain ⟨token, enrolment, enlisted, polled, same⟩ :=
            poll_race_of_unset owned flag waker signal
          have after := owned.poll waker
          have flags := (Handles.poll waker wait : Handles found [wait] _ _ _).isSet
          rw [polled] at after flags
          have front : Owned enlisted
              (signal.waits ++ { wait with token := some token } :: others) :=
            after.perm List.perm_middle.symm
          have concludes := ends (.polls waker enlisted) _ front
          refine .goesOn (.polls waker enlisted) { wait with token := some token } ?_ ?_ rfl front
            ?_ (fun _ breaks => breaks) flags
          · simp only [inner?, polled]
          · rintro _ _ ⟨⟩
            exact flag
          · have whole : (polls waker found).apply (.race (some wait) signal) = _ := same
            rw [whole]
            cases concludes with
            | still unready progress kept => exact .still unready progress kept
            | settled progress gone => exact .settled progress gone

/-- A future that is seen to while it has not answered is open afterwards, and breaks off only if a
signal does. -/
structure Fair (stage : Stage ω σ) (future : Future σ) : Prop where
  sound : (stage.apply future).Sound
  unbroken : ∀ panic, (stage.apply future).progress = .panicked panic → stage.breaks panic
  terminated : future.isRace = true → ∀ answer, (stage.apply future).progress = .answered answer →
    answer ≠ .pending → (stage.apply future).future.isTerminated = true

theorem fair {stage : Stage ω σ} (owned : Owned stage.found (future.waits ++ others))
    (opened : future.Open) (live : future.isTerminated = false) : stage.Fair future := by
  induction future generalizing stage others with
  | ready | never =>
      cases stage <;> exact ⟨⟨trivial, by rintro ⟨⟩⟩, by rintro _ ⟨⟩, by rintro ⟨⟩⟩
  | external asked =>
      cases stage with
      | polls => exact ⟨⟨trivial, by rintro ⟨⟩⟩, by rintro _ ⟨⟩, by rintro ⟨⟩⟩
      | resumes response found =>
          cases response with
          | ready | pending => exact ⟨⟨trivial, by rintro ⟨⟩⟩, by rintro _ ⟨⟩, by rintro ⟨⟩⟩
          | panicked panic => exact ⟨⟨trivial, by rintro ⟨⟩⟩, by rintro _ ⟨⟩; rfl, by rintro ⟨⟩⟩
  | plain wait =>
      cases stage with
      | resumes response found =>
          refine ⟨⟨trivial, ?_⟩, by rintro _ ⟨⟩, by rintro ⟨⟩⟩
          intro terminated
          cases (live.symm.trans terminated : false = true)
      | polls waker found =>
          change Owned found (wait :: others) at owned
          cases flag : (found.get wait.event).isSet with
          | true =>
              have polled := poll_plain_of_set (σ := σ) flag waker
              refine ⟨⟨trivial, ?_⟩, ?_, by rintro ⟨⟩⟩
              · exact fun _ => ⟨_, congrArg Polled.progress polled, nofun⟩
              · simp only [apply, polled]
                rintro _ ⟨⟩
          | false =>
              obtain ⟨token, enrolment, enlisted, -, polled⟩ :=
                poll_plain_of_unset (σ := σ) owned flag waker
              refine ⟨⟨trivial, ?_⟩, ?_, by rintro ⟨⟩⟩
              · simp only [apply, polled]
                intro terminated
                cases (live.symm.trans terminated : false = true)
              · simp only [apply, polled]
                rintro _ ⟨⟩
  | race wait? signal ih =>
      cases wait? with
      | none => cases live
      | some wait =>
          obtain ⟨incomplete, quiet, inside⟩ := opened
          cases enters owned with
          | completes waker found polls set stops progress gone =>
              refine ⟨⟨?_, fun _ => ⟨_, progress, nofun⟩⟩, ?_, ?_⟩
              · rw [gone]
                exact trivial
              · rw [progress]
                rintro _ ⟨⟩
              · rw [gone]
                exact fun _ _ _ _ => rfl
          | goesOn inner now goes unset completed front ends breaks flags =>
              obtain ⟨sound, unbroken, -⟩ := ih front inside quiet
              refine ⟨ends.sound (completed.trans incomplete) sound, ?_, ?_⟩
              · intro panic broken
                exact breaks panic (unbroken panic (ends.panicked broken))
              · intro _ answer answered ready
                exact ends.terminated answered ready

/-- What is seen to inside a future that has not answered, has not answered either. -/
structure Comes (stage : Stage ω σ) (part : Future σ) (inner : Stage ω σ) : Prop where
  owned : ∃ others, Owned inner.found (part.waits ++ others)
  opened : part.Open
  live : part.isTerminated = false
  breaks : ∀ panic, inner.breaks panic → stage.breaks panic
  flags : ∀ id, (inner.found.get id).isSet = (stage.found.get id).isSet

theorem comes {stage inner : Stage ω σ} {depth : Nat} (there : future.part? depth = some part)
    (reached : stage.at? depth future = some inner)
    (owned : Owned stage.found (future.waits ++ others)) (opened : future.Open)
    (live : future.isTerminated = false) : stage.Comes part inner := by
  induction depth generalizing future stage others with
  | zero =>
      cases there
      cases reached
      exact ⟨⟨others, owned⟩, opened, live, fun _ breaks => breaks, fun _ => rfl⟩
  | succ depth ih =>
      cases future with
      | plain | ready | never | external => cases there
      | race wait? signal =>
          cases wait? with
          | none => cases live
          | some wait =>
              obtain ⟨-, quiet, inside⟩ := opened
              cases enters owned with
              | completes _ _ _ _ stops =>
                  simp only [at?, stops, Option.bind_none] at reached
                  cases reached
              | goesOn next now goes unset completed front ends breaks flags =>
                  simp only [at?, goes, Option.bind_some] at reached
                  have deeper := ih there reached front inside quiet
                  refine { deeper with breaks := ?_, flags := ?_ }
                  · exact fun panic broken => breaks panic (deeper.breaks panic broken)
                  · exact fun id => (deeper.flags id).trans (flags id)

end Stage

end Future

/-! ## Logs that end with the answer -/

/-- A note after which a future that is treated with courtesy is not polled again. -/
def Note.ends : Note ω → Bool
  | .begun _ set => set
  | .answered answer => answer ≠ .pending
  | .told _ | .broke _ => false

/-- A poll that finds its event set completes the future, and what was answered is the end. -/
structure Closes (log : List (Note ω)) : Prop where
  begun : ∀ before after waker, log = before ++ .begun waker true :: after →
    after = [.answered .completed]
  ready : ∀ before after answer, log = before ++ .answered answer :: after →
    answer ≠ .pending → after = []

/-- The final answer was given. -/
def Answered (log : List (Note ω)) : Prop := ∃ answer, .answered answer ∈ log ∧ answer ≠ .pending

section

variable {log notes : List (Note ω)}

theorem append_of_ends (quiet : ∀ note ∈ log, note.ends = false) {before after : List (Note ω)}
    {note : Note ω} (ends : note.ends = true) (split : log ++ notes = before ++ note :: after) :
    ∃ middle, notes = middle ++ note :: after := by
  have absent : note ∉ log := by
    intro member
    rw [quiet note member] at ends
    cases ends
  rcases List.append_eq_append_iff.mp split with ⟨middle, -, late⟩ | ⟨middle, early, late⟩
  · exact ⟨middle, late⟩
  · cases middle with
    | nil => exact ⟨[], late.symm⟩
    | cons first rest =>
        cases (List.cons.inj late).1
        exact absurd (early ▸ List.mem_append_right _ List.mem_cons_self) absent

namespace Closes

theorem append (quiet : ∀ note ∈ log, note.ends = false) (closes : Closes notes) :
    Closes (log ++ notes) := by
  constructor
  · intro before after waker split
    obtain ⟨middle, late⟩ := append_of_ends quiet rfl split
    exact closes.begun middle after waker late
  · intro before after answer split ready
    have ends : (Note.answered answer : Note ω).ends = true := decide_eq_true ready
    obtain ⟨middle, late⟩ := append_of_ends quiet ends split
    exact closes.ready middle after answer late ready

theorem nothing : Closes ([] : List (Note ω)) := by
  constructor <;> simp

theorem of_quiet (quiet : ∀ note ∈ log, note.ends = false) : Closes log := by
  rw [← List.append_nil log]
  exact nothing.append quiet

theorem single (answer : Answer) : Closes [(.answered answer : Note ω)] := by
  constructor
  · intro before after waker split
    cases before <;> simp at split
  · intro before after other split _
    cases before <;> simp at split
    exact split.2

theorem completed (waker : ω) : Closes [.begun waker true, .answered .completed] := by
  constructor
  · intro before after other split
    cases before with
    | nil => exact (List.cons.inj split).2.symm
    | cons first rest => cases rest <;> simp at split
  · intro before after answer split _
    cases before with
    | nil => cases (List.cons.inj split).1
    | cons first rest => cases rest <;> simp at split; exact split.2.2

theorem quiet (closes : Closes log) (unanswered : ¬ Answered log) :
    ∀ note ∈ log, note.ends = false := by
  intro note member
  cases note with
  | told | broke => rfl
  | answered answer =>
      refine decide_eq_false ?_
      intro ready
      exact unanswered ⟨answer, member, ready⟩
  | begun waker set =>
      cases set with
      | false => rfl
      | true =>
          obtain ⟨before, after, split⟩ := List.append_of_mem member
          refine absurd ⟨.completed, ?_, nofun⟩ unanswered
          rw [split, closes.begun before after waker split]
          simp

end Closes

end

/-- What is taken down of a wait or a race fits its state: it is terminated once it has given its
final answer, and that was the end. -/
structure Course (kind : Kind) (part? : Option (Future σ)) (log : List (Note ω)) : Prop where
  closes : Closes log
  terminated : ∀ part, part? = some part → kind.stands part = true →
    (kind.isTerminated part = true ↔ Answered log)

theorem Kind.isTerminated_of_open {part : Future σ} (opened : part.Open)
    (live : part.isTerminated = false) (kind : Kind) : kind.isTerminated part = false := by
  cases kind with
  | race => exact live
  | wait =>
      cases part with
      | ready | never | external => rfl
      | plain wait => exact live
      | race wait? signal =>
          cases wait? with
          | none => rfl
          | some wait => exact opened.1

theorem not_answered_nil : ¬ Answered ([] : List (Note ω)) := by
  rintro ⟨answer, member, -⟩
  cases member

theorem answered_completed (waker : ω) :
    Answered [.begun waker true, .answered .completed] :=
  ⟨.completed, by simp, nofun⟩

theorem answered_begun_iff {waker : ω} {set : Bool} {log : List (Note ω)} :
    Answered (.begun waker set :: log) ↔ Answered log := by
  simp [Answered]

/-- A poll that finds the event unset is not the last one. -/
theorem closes_pending (waker : ω) (told : Occurrence ω) :
    Closes [.begun waker false, .told told, .answered .pending] ∧
      ¬ Answered [.begun waker false, .told told, .answered .pending] := by
  constructor
  · exact .of_quiet (by simp [Note.ends])
  · simp [Answered]

theorem Course.of_incomplete {after : Future σ} {log : List (Note ω)} (closes : Closes log)
    (unanswered : ¬ Answered log)
    (incomplete : ∀ wait, after.wait? = some wait → wait.completed = false) :
    Course .wait (some after) log := by
  refine ⟨closes, ?_⟩
  rintro _ ⟨⟩ stands
  obtain ⟨wait, present⟩ := Option.isSome_iff_exists.mp stands
  simp only [Kind.isTerminated, present, Option.any_some, Wait.isTerminated,
    incomplete wait present, Bool.false_eq_true, unanswered]

section

variable [Waker ω] {wait : Wait} {part signal : Future σ} {stage : Future.Stage ω σ}
  {others : List Wait}

theorem Wait.notes_of_unset {found : Events ω} (owned : Owned found (wait :: others))
    (unset : (found.get wait.event).isSet = false) (waker : ω) :
    ∃ token enrolment, wait.notes waker found =
      [.begun waker false, .told (Wait.enrolled wait.event token waker enrolment),
        .answered .pending] := by
  obtain ⟨token, enrolment, enlisted, first, -⟩ :=
    Future.poll_plain_of_unset (σ := Unit) owned unset waker
  refine ⟨token, enrolment, ?_⟩
  simp only [notes, first, unset, answers, List.map_cons, List.map_nil, List.cons_append,
    List.nil_append]

theorem Wait.broke_not_mem_notes (wait : Wait) {found : Events ω} {waker : ω} {panic : Panic}
    (owned : Owned found (wait :: others)) : .broke panic ∉ wait.notes waker found := by
  cases flag : (found.get wait.event).isSet with
  | true =>
      rw [notes_of_set flag]
      simp
  | false =>
      obtain ⟨token, enrolment, noted⟩ := notes_of_unset owned flag waker
      rw [noted]
      simp

omit [Waker ω] in
/-- A race whose event is unset, or whose signal came back, keeps its wait as it is or drops it. -/
theorem Future.Ends.incomplete {now wait : Wait} {polled concluded : Future.Polled σ ω}
    (ends : Future.Ends now polled concluded) (incomplete : now.completed = false)
    (present : concluded.future.wait? = some wait) : wait.completed = false := by
  cases ends with
  | still _ _ kept =>
      rw [kept] at present
      cases present
      exact incomplete
  | settled _ gone =>
      rw [gone] at present
      cases present

/-- A wait that is seen to is complete if it was polled and its event is set, and otherwise stays as
it was. -/
theorem wait_course (owned : Owned stage.found (part.waits ++ others)) (opened : part.Open)
    (live : part.isTerminated = false) :
    Course .wait (some (stage.apply part).future) (stage.notes part .wait) := by
  cases part with
  | ready | never | external =>
      cases stage with
      | polls => exact ⟨.nothing, by rintro _ ⟨⟩ ⟨⟩⟩
      | resumes response => cases response <;> exact ⟨.nothing, by rintro _ ⟨⟩ ⟨⟩⟩
  | plain wait =>
      cases stage with
      | resumes response found =>
          refine .of_incomplete .nothing not_answered_nil ?_
          rintro _ ⟨⟩
          exact live
      | polls waker found =>
          change Course .wait (some ((Future.plain wait).poll waker found).future)
            (wait.notes waker found)
          cases flag : (found.get wait.event).isSet with
          | true =>
              rw [Future.poll_plain_of_set flag, Wait.notes_of_set flag]
              refine ⟨.completed waker, ?_⟩
              rintro _ ⟨⟩ -
              exact ⟨fun _ => answered_completed waker, fun _ => rfl⟩
          | false =>
              change Owned found (wait :: others) at owned
              obtain ⟨token, enrolment, noted⟩ := Wait.notes_of_unset owned flag waker
              obtain ⟨token, enrolment, enlisted, -, polled⟩ :=
                Future.poll_plain_of_unset (σ := σ) owned flag waker
              rw [noted, polled]
              obtain ⟨closes, unanswered⟩ := closes_pending waker _
              refine .of_incomplete closes unanswered ?_
              rintro _ ⟨⟩
              exact live
  | race wait? signal =>
      cases wait? with
      | none => cases live
      | some wait =>
          obtain ⟨incomplete, -⟩ := opened
          cases Future.Stage.enters owned with
          | completes waker found polls set _ progress gone =>
              subst polls
              refine ⟨?_, ?_⟩
              · change Closes (wait.notes waker found)
                rw [Wait.notes_of_set set]
                exact .completed waker
              · rw [gone]
                rintro _ ⟨⟩ ⟨⟩
          | goesOn inner now goes unset completed front ends =>
              have still := completed.trans incomplete
              cases stage with
              | resumes =>
                  exact .of_incomplete .nothing not_answered_nil fun _ => ends.incomplete still
              | polls waker found =>
                  change Owned found (wait :: (signal.waits ++ others)) at owned
                  change Course .wait _ (wait.notes waker found)
                  obtain ⟨token, enrolment, noted⟩ :=
                    Wait.notes_of_unset owned (unset waker found rfl) waker
                  rw [noted]
                  obtain ⟨closes, unanswered⟩ := closes_pending waker _
                  exact .of_incomplete closes unanswered fun _ => ends.incomplete still

/-- A race that is seen to is settled if it answers, and otherwise stays. -/
theorem race_course (owned : Owned stage.found (part.waits ++ others)) (opened : part.Open)
    (live : part.isTerminated = false) (stands : Kind.race.stands part = true) :
    Course .race (some (stage.apply part).future) (stage.notes part .race) := by
  obtain ⟨⟨-, answered⟩, -, settles⟩ := Future.Stage.fair owned opened live
  have terminated : (stage.apply part).future.isTerminated = true ↔
      Answered ((stage.apply part).progress.notes : List (Note ω)) := by
    constructor
    · intro ended
      obtain ⟨answer, progress, ready⟩ := answered ended
      rw [progress]
      exact ⟨answer, List.mem_singleton_self _, ready⟩
    · rintro ⟨answer, member, ready⟩
      refine settles stands answer ?_ ready
      cases progress : (stage.apply part).progress with
      | asks | panicked => simp [progress, Progress.notes] at member
      | answered other =>
          rw [progress] at member
          cases List.mem_singleton.mp member
          rfl
  have closes : Closes ((stage.apply part).progress.notes : List (Note ω)) := by
    cases (stage.apply part).progress with
    | answered answer => exact .single answer
    | asks => exact .nothing
    | panicked => exact .of_quiet (by simp [Progress.notes, Note.ends])
  cases part with
  | plain | ready | never | external => cases stands
  | race wait? signal =>
      cases wait? with
      | none => cases live
      | some wait =>
          cases stage with
          | resumes response found =>
              refine ⟨closes, ?_⟩
              rintro _ ⟨⟩ -
              exact terminated
          | polls waker found =>
              cases Future.Stage.enters owned with
              | completes _ _ polls set _ progress gone =>
                  cases polls
                  have notes : (Future.Stage.polls waker found).notes (.race (some wait) signal)
                      .race = [.begun waker true, .answered .completed] := by
                    simp only [Future.Stage.notes, Future.wait?, Option.any_some, set]
                    exact congrArg (Note.begun waker true :: Progress.notes ·) progress
                  rw [notes, gone]
                  refine ⟨.completed waker, ?_⟩
                  rintro _ ⟨⟩ -
                  exact ⟨fun _ => answered_completed waker, fun _ => rfl⟩
              | goesOn inner now goes unset =>
                  have flag := unset waker found rfl
                  simp only [Future.Stage.notes, Future.wait?, Option.any_some, flag]
                  constructor
                  · change Closes ([.begun waker false] ++ _)
                    exact .append (by simp [Note.ends]) closes
                  · rintro _ ⟨⟩ -
                    exact terminated.trans answered_begun_iff.symm

theorem breaks_of_notes (owned : Owned stage.found (part.waits ++ others)) (opened : part.Open)
    (live : part.isTerminated = false) {kind : Kind} {panic : Panic}
    (broke : .broke panic ∈ stage.notes part kind) : stage.breaks panic := by
  have unbroken := (Future.Stage.fair owned opened live).unbroken panic
  have progress : .broke panic ∈ ((stage.apply part).progress.notes : List (Note ω)) →
      stage.breaks panic := by
    intro member
    refine unbroken ?_
    cases reached : (stage.apply part).progress with
    | answered | asks => simp [reached, Progress.notes] at member
    | panicked other =>
        rw [reached] at member
        cases List.mem_singleton.mp member
        rfl
  cases kind with
  | race =>
      cases stage with
      | resumes => exact progress broke
      | polls => exact progress ((List.mem_cons.mp broke).resolve_left nofun)
  | wait =>
      cases stage with
      | resumes => cases broke
      | polls waker found =>
          cases part with
          | ready | never | external => cases broke
          | plain wait => exact absurd broke (wait.broke_not_mem_notes owned)
          | race wait? signal =>
              cases wait? with
              | none => cases broke
              | some wait => exact absurd broke (wait.broke_not_mem_notes owned)

end

namespace Machine

variable [Waker ω] [DecidableEq ν]

/-! ## Courtesy -/

/-- The future under a name, if there is one, has not answered yet. -/
def Live (machine : Machine ω σ ν) (name : ν) : Prop :=
  ∀ future, machine.future? (.held name) = some future → future.isTerminated = false

/-- A caller polls a future only while it is not terminated, and races a wait only while neither the
wait nor what it is raced against is. -/
def Courteous (machine : Machine ω σ ν) : Move ω σ ν → Prop
  | .perform _ (.poll name _) => machine.Live name
  | .perform _ (.race name signal) => machine.Live name ∧ ∀ other ∈ signal.names, machine.Live other
  | .perform .. | .resume .. => True

/-- No future will poll a signal that has answered, and none that is being polled has answered. -/
structure Opened (machine : Machine ω σ ν) : Prop where
  opened : ∀ spot future, machine.future? spot = some future → future.Open
  inHand : ∀ level future, machine.future? (.inHand level) = some future →
    future.isTerminated = false

section

variable {machine : Machine ω σ ν} {next : Move ω σ ν}

omit [Waker ω] in
/-- What is seen to has not answered. -/
theorem Opened.live (opened : machine.Opened) (allowed : machine.Courteous next) {spot : Spot ν}
    {root : Future σ} (there : machine.future? spot = some root) {stage : Future.Stage ω σ}
    (staged : machine.stage? next spot = some stage) : root.isTerminated = false := by
  rcases stage?_eq_some staged with ⟨_, name, _, rfl, rfl, -⟩ | ⟨_, _, level, -, rfl, -⟩
  · exact allowed root there
  · exact opened.inHand level root there

theorem Opened.fair (opened : machine.Opened) (owned : Owned machine.events machine.waits)
    (allowed : machine.Courteous next) {spot : Spot ν} {root : Future σ}
    (there : machine.future? spot = some root) {stage : Future.Stage ω σ}
    (staged : machine.stage? next spot = some stage) : stage.Fair root := by
  obtain ⟨others, split⟩ := waits_perm_of_future? there
  have front := owned.perm split
  rw [← stage?_found staged] at front
  exact Future.Stage.fair front (opened.opened spot root there) (opened.live allowed there staged)

omit [Waker ω] in
/-- It is enough to look at the futures that were not there before. -/
theorem Opened.of_spots {after : Machine ω σ ν} (opened : machine.Opened)
    (spots : ∀ spot future, after.future? spot = some future →
      machine.future? spot = some future ∨
        future.Open ∧ ∀ level, spot = .inHand level → future.isTerminated = false) :
    after.Opened where
  opened spot future there := (spots spot future there).elim (opened.opened spot future) And.left
  inHand level future there :=
    (spots _ future there).elim (opened.inHand level future) fun new => new.2 level rfl

theorem Opened.move (opened : machine.Opened) (owned : Owned machine.events machine.waits)
    (allowed : machine.Courteous next) : (machine.move next).machine.Opened := by
  refine opened.of_spots fun spot future there => ?_
  cases move_shift machine next with
  | still futures => exact .inl ((futures spot).symm.trans there)
  | dropped name futures =>
      rw [futures] at there
      split at there
      · cases there
      · exact .inl there
  | made name event hold futures =>
      rw [futures] at there
      split at there
      · next here =>
          cases there
          exact .inr ⟨trivial, fun level top => by cases here.symm.trans top⟩
      · exact .inl there
  | raced name wait signal was bare asks futures =>
      obtain ⟨choice, raced, rfl⟩ := asks
      rw [futures] at there
      split at there
      · next here =>
          cases there
          refine .inr ⟨⟨allowed.1 _ was, ?_⟩, fun level top => by cases here.symm.trans top⟩
          cases signal with
          | plain => cases bare.1
          | race => cases bare.2
          | ready | never | external => exact ⟨rfl, trivial⟩
      · exact .inl there
  | handed name other wait signal apart was hands asks futures =>
      obtain ⟨choice, rfl⟩ := asks
      have unready := allowed.2 other (List.mem_singleton_self _) _ hands
      rw [futures] at there
      split at there
      · next here =>
          cases there
          refine .inr ⟨⟨allowed.1 _ was, unready, opened.opened _ _ hands⟩, fun level top => ?_⟩
          cases here.symm.trans top
      · split at there
        · cases there
        · exact .inl there
  | staged source target root stage was asks futures carries stages =>
      have staged := (stages source root was).trans (if_pos rfl)
      obtain ⟨⟨inside, answered⟩, -, -⟩ := opened.fair owned allowed was staged
      rw [futures] at there
      split at there
      · next here =>
          cases there
          refine .inr ⟨inside, fun level top => ?_⟩
          -- What is in hand now asks for its signal, so it has not answered.
          rw [Bool.eq_false_iff]
          intro terminated
          obtain ⟨answer, progress, -⟩ := answered terminated
          have asking := asks level (here.symm.trans top)
          rw [progress] at asking
          cases asking
      · split at there
        · cases there
        · exact .inl there

theorem Ruled.opened {history : List (Occurrence ω)} (ruled : Ruled Courteous history machine) :
    machine.Opened := by
  induction ruled with
  | start =>
      constructor
      · intro spot future there
        cases spot <;> cases there
      · intro level future there
        cases there
  | step ruled next allowed opened => exact opened.move ruled.run.owned allowed

/-! ## Polls that a caller makes -/

theorem Opened.perform_poll (opened : machine.Opened) (owned : Owned machine.events machine.waits)
    {choice : Nat} {name : ν} {waker : ω}
    (allowed : machine.Courteous (.perform choice (.poll name waker))) (panic : Panic) :
    (machine.perform choice (.poll name waker)).control ≠ .panicked panic := by
  cases found : machine.futures.get? name with
  | none =>
      simp only [perform, pollFuture, found]
      rintro ⟨⟩
  | some holding =>
      have there : machine.future? (.held name) = some holding.future := by
        rw [future?, found, Option.map_some]
      have staged : machine.stage? (.perform choice (.poll name waker)) (.held name) =
          some (.polls waker machine.events) := if_pos rfl
      have fair := opened.fair owned allowed there staged
      cases progress : (holding.future.poll waker machine.events).progress with
      | answered answer =>
          rw [perform_poll_of_answered found progress choice]
          rintro ⟨⟩
      | asks asked =>
          rw [(poll_asks_iff found asked).mpr progress]
          rintro ⟨⟩
      | panicked other => exact (fair.unbroken other progress).elim

/-- A call that goes on breaks off only if its callback did. -/
theorem Opened.resume_panicked (opened : machine.Opened)
    (owned : Owned machine.events machine.waits) {response : Response σ} {choice : Nat}
    {panic : Panic} (broken : (machine.resume response choice).control = .panicked panic) :
    response = .panicked panic := by
  cases calls : machine.calls with
  | nil =>
      simp only [resume, calls] at broken
      cases broken
  | cons call rest =>
      cases call with
      | polling name holding waker =>
          have there : machine.future? (.inHand rest.length) = some holding.future := by
            rw [future?, calls, Call.inHand?_cons, if_pos rfl]
            rfl
          have staged : machine.stage? (.resume response choice) (.inHand rest.length) =
              some (.resumes response machine.events) := by
            simp only [stage?, calls, List.length_cons, if_true]
          have courteous : machine.Courteous (.resume response choice) := trivial
          have fair := opened.fair owned courteous there staged
          have front := owned.perm (waits_perm_of_calls calls)
          have after := front.handled
            ((holding.future.resume_handles response machine.events).append _)
          have stored := fun control : Control ω σ => store_unbroken { machine with
            calls := rest, events := (holding.future.resume response machine.events).events }
            name ⟨holding.event, (holding.future.resume response machine.events).future⟩ control
            after
          rw [resume_polling calls] at broken
          unfold afterPoll at broken
          cases progress : (holding.future.resume response machine.events).progress with
          | asks asked => exact absurd progress (Future.resume_ne_asks response _ _ asked)
          | answered answer =>
              simp only [progress, stored] at broken
              cases broken
          | panicked other =>
              simp only [progress, stored] at broken
              cases broken
              exact fair.unbroken panic progress
      | releasingOne | waking =>
          cases response with
          | panicked other =>
              simp only [resume, calls] at broken
              cases broken
              rfl
          | ready | pending =>
              simp only [resume, calls, idle] at broken
              cases broken
      | setting | releasingAll | draining =>
          cases response with
          | panicked other =>
              simp only [resume, calls] at broken
              cases broken
              rfl
          | ready | pending =>
              simp only [resume, calls, continueSet, continueReleaseAll, continueDrain] at broken
              split at broken <;> cases broken

/-- A poll that a caller makes of a future that has not answered completes it if its event is
set. -/
theorem perform_poll_of_set (owned : Owned machine.events machine.waits) {name : ν}
    {future : Future σ} (there : machine.future? (.held name) = some future)
    (live : future.isTerminated = false) {wait : Wait} (polls : future.wait? = some wait)
    (set : (machine.events.get wait.event).isSet = true) (choice : Nat) (waker : ω) :
    ∃ state, (machine.perform choice (.poll name waker)).control =
      .done (.polled .completed state) := by
  obtain ⟨holding, found, rfl⟩ := Option.map_eq_some_iff.mp there
  have front := owned.perm (waits_perm_of_get? found)
  have completed : (holding.future.poll waker machine.events).progress =
      .answered .completed := by
    cases same : holding.future with
    | ready | never | external =>
        rw [same] at polls
        cases polls
    | plain own =>
        rw [same] at polls
        cases polls
        rw [Future.poll_plain_of_set set]
    | race wait? signal =>
        rw [same] at polls front
        cases (show wait? = some wait from polls)
        exact (Future.poll_race_of_set front set waker signal).1
  rw [perform_poll_of_answered found completed]
  exact ⟨_, rfl⟩

/-! ## Logs of careers -/

theorem Opened.comes (opened : machine.Opened) (owned : Owned machine.events machine.waits)
    (allowed : machine.Courteous next) {place : Place ν} {part : Future σ}
    (there : machine.part? place = some part) {inner : Future.Stage ω σ}
    (visits : machine.visit? next place = some inner) :
    ∃ stage, machine.stage? next place.spot = some stage ∧ stage.Comes part inner := by
  obtain ⟨root, stage, found, inside, staged, reached⟩ := exists_stage there visits
  obtain ⟨others, split⟩ := waits_perm_of_future? found
  have front := owned.perm split
  rw [← stage?_found staged] at front
  exact ⟨stage, staged, Future.Stage.comes inside reached front
    (opened.opened _ root found) (opened.live allowed found staged)⟩

theorem Opened.course (opened : machine.Opened) (owned : Owned machine.events machine.waits)
    (allowed : machine.Courteous next) {place after : Place ν} {part : Future σ} {kind : Kind}
    (there : machine.part? place = some part) (stands : kind.stands part = true)
    (carried : machine.carry next place = some after) {log : List (Note ω)}
    (course : Course kind (machine.part? place) log) :
    Course kind ((machine.move next).machine.part? after)
      (log ++ machine.notes kind next place) := by
  obtain ⟨now, present, fares⟩ := fares there carried
  rw [present]
  rw [there] at course
  cases fares with
  | left none same =>
      rw [notes_of_unvisited none, List.append_nil, same]
      exact course
  | raced none wait signal was becomes =>
      subst was becomes
      rw [notes_of_unvisited none, List.append_nil]
      cases kind with
      | race => cases stands
      | wait =>
          refine ⟨course.closes, ?_⟩
          rintro _ ⟨⟩ -
          exact course.terminated (.plain wait) rfl rfl
  | visited inner visits becomes =>
      obtain ⟨stage, -, comes⟩ := opened.comes owned allowed there visits
      obtain ⟨others, front⟩ := comes.owned
      have late : Course kind (some now) (inner.notes part kind) := by
        rw [becomes]
        cases kind with
        | wait => exact wait_course front comes.opened comes.live
        | race => exact race_course front comes.opened comes.live stands
      have unanswered : ¬ Answered log := by
        intro answered
        have ended := (course.terminated part rfl stands).mpr answered
        rw [Kind.isTerminated_of_open comes.opened comes.live] at ended
        cases ended
      rw [notes_of_visits there visits]
      constructor
      · exact late.closes.append (course.closes.quiet unanswered)
      · intro other same remains
        rw [late.terminated other same remains]
        simp only [Answered, List.mem_append] at unanswered ⊢
        constructor
        · rintro ⟨answer, member, ready⟩
          exact ⟨answer, .inr member, ready⟩
        · rintro ⟨answer, early | member, ready⟩
          · exact absurd ⟨answer, early, ready⟩ unanswered
          · exact ⟨answer, member, ready⟩

/-- What is seen to breaks off only when the external signal that it asked did. -/
theorem Opened.broke (opened : machine.Opened) (owned : Owned machine.events machine.waits)
    (allowed : machine.Courteous next) {place : Place ν} {kind : Kind} {panic : Panic}
    (broke : .broke panic ∈ machine.notes kind next place) :
    ∃ choice, next = .resume (.panicked panic) choice := by
  cases visits : machine.visit? next place with
  | none =>
      rw [notes_of_unvisited visits] at broke
      cases broke
  | some inner =>
      cases there : machine.part? place with
      | none =>
          simp only [notes, there] at broke
          cases broke
      | some part =>
          obtain ⟨stage, staged, comes⟩ := opened.comes owned allowed there visits
          obtain ⟨others, front⟩ := comes.owned
          have breaks : inner.breaks panic := by
            rw [notes_of_visits there visits] at broke
            exact breaks_of_notes front comes.opened comes.live broke
          rcases stage?_eq_some staged with ⟨_, _, _, -, -, rfl⟩ | ⟨_, choice, _, rfl, -, rfl⟩
          · exact (comes.breaks panic breaks).elim
          · cases comes.breaks panic breaks
            exact ⟨choice, rfl⟩

theorem Career.course {history : List (Occurrence ω)} {kind : Kind} {place : Place ν}
    {log : List (Note ω)} (career : Career Courteous kind history machine place log) :
    Course kind (machine.part? place) log := by
  induction career with
  | @made history machine ruled choice name event hold allowed =>
      have there : (machine.perform choice (.makeWait name event hold)).machine.part?
          { spot := .held name } = some (.plain { event, hold }) :=
        part?_of_future? ((store_future? _ name _ _ _).trans (if_pos rfl)) 0
      rw [there]
      refine .of_incomplete .nothing not_answered_nil ?_
      rintro _ ⟨⟩
      rfl
  | raced ruled choice name signal allowed was now =>
      refine ⟨.nothing, ?_⟩
      intro part there _
      cases (part?_of_future? now 0).symm.trans there
      exact ⟨nofun, fun answered => absurd answered not_answered_nil⟩
  | step career there stands next allowed carried ih =>
      have ruled := career.ruled
      exact ruled.opened.course ruled.run.owned allowed there stands carried ih

/-- Futures are polled only while they are not terminated, and raced only then. No such poll breaks
off, unless an external signal does. A poll of a future whose event is set completes it, also if it
is the first one. Whatever a wait or a race goes through, it is terminated once it has given its
final answer and not before, and it is not polled again then. -/
theorem guarded_polls_complete_once {history : List (Occurrence ω)}
    (ruled : Ruled Courteous history machine) :
    (∀ choice name waker, machine.Courteous (.perform choice (.poll name waker)) → ∀ panic,
      (machine.perform choice (.poll name waker)).control ≠ .panicked panic) ∧
    (∀ response choice panic, (machine.resume response choice).control = .panicked panic →
      response = .panicked panic) ∧
    (∀ name future wait, machine.future? (.held name) = some future →
      future.isTerminated = false → future.wait? = some wait →
      (machine.events.get wait.event).isSet = true → ∀ choice waker, ∃ state,
        (machine.perform choice (.poll name waker)).control = .done (.polled .completed state)) ∧
    ∀ kind place log, Career Courteous kind history machine place log →
      (∀ before after waker, log = before ++ .begun waker true :: after →
        after = [.answered .completed]) ∧
      (∀ before after answer, log = before ++ .answered answer :: after → answer ≠ .pending →
        after = []) ∧
      (∀ part, machine.part? place = some part → kind.stands part = true →
        (kind.isTerminated part = true ↔ ∃ answer, .answered answer ∈ log ∧ answer ≠ .pending)) ∧
      ∀ next panic, machine.Courteous next → .broke panic ∈ machine.notes kind next place →
        ∃ choice, next = .resume (.panicked panic) choice := by
  have opened := ruled.opened
  have owned := ruled.run.owned
  refine ⟨?_, ?_, ?_, ?_⟩
  · intro choice name waker allowed panic
    exact opened.perform_poll owned allowed panic
  · intro response choice panic broken
    exact opened.resume_panicked owned broken
  · intro name future wait there live polls set choice waker
    exact perform_poll_of_set owned there live polls set choice waker
  · intro kind place log career
    obtain ⟨⟨begun, ready⟩, terminated⟩ := career.course
    refine ⟨begun, ready, terminated, ?_⟩
    intro next panic allowed broke
    exact opened.broke owned allowed broke

end

/-- Two waits are made, and the first is raced against the second. -/
def guardedMoves : List (Move Pool.TaskId Nat Nat) :=
  [.perform 0 (.makeWait 0 ⟨0⟩ .owned), .perform 0 (.makeWait 1 ⟨1⟩ .owned),
    .perform 0 (.race 0 (.future 1)), .perform 0 (.poll 0 ⟨4⟩), .perform 0 (.setEvent ⟨0⟩),
    .perform 0 (.poll 0 ⟨5⟩)]

/-- The machine after some of the moves. -/
def guarded (moves : Nat) : Machine Pool.TaskId Nat Nat := (follow (guardedMoves.take moves)).2

/-- The race is pending when it is polled first; its waker polls it again. -/
theorem guarded_polls_complete_once_reentrant :
    ∃ history log,
      Career Courteous .race history (guarded 6) { spot := .held 0 } log ∧
      (guarded 6).calls.length = 1 ∧
      log = [.begun ⟨4⟩ false, .answered .pending, .begun ⟨5⟩ true, .answered .completed] ∧
      (∃ part, (guarded 6).part? { spot := .held 0 } = some part ∧ part.isTerminated = true) ∧
      ∀ choice waker panic, (guarded 4).Courteous (.perform choice (.poll 0 waker)) →
        ((guarded 4).perform choice (.poll 0 waker)).control ≠ .panicked panic := by
  have made : Ruled Courteous _ (guarded 2) :=
    (Ruled.start.step (.perform 0 (.makeWait 0 ⟨0⟩ .owned)) trivial).step
      (.perform 0 (.makeWait 1 ⟨1⟩ .owned)) trivial
  have live : (guarded 2).Live 0 ∧ (guarded 2).Live 1 := by
    constructor
    · rintro _ ⟨⟩
      rfl
    · rintro _ ⟨⟩
      rfl
  have raced : Career Courteous .race _ (guarded 3) { spot := .held 0 } [] :=
    .raced made 0 0 (.future 1) ⟨live.1, List.forall_mem_singleton.mpr live.2⟩ rfl rfl
  have polled : Career Courteous .race _ (guarded 4) { spot := .held 0 }
      [.begun ⟨4⟩ false, .answered .pending] :=
    raced.step rfl rfl (.perform 0 (.poll 0 ⟨4⟩)) (by rintro _ ⟨⟩; rfl) rfl
  have set : Career Courteous .race _ (guarded 5) { spot := .held 0 }
      [.begun ⟨4⟩ false, .answered .pending] :=
    polled.step rfl rfl (.perform 0 (.setEvent ⟨0⟩)) trivial rfl
  have completed : Career Courteous .race _ (guarded 6) { spot := .held 0 }
      [.begun ⟨4⟩ false, .answered .pending, .begun ⟨5⟩ true, .answered .completed] :=
    set.step rfl rfl (.perform 0 (.poll 0 ⟨5⟩)) (by rintro _ ⟨⟩; rfl) rfl
  obtain ⟨unbroken, -⟩ := guarded_polls_complete_once polled.ruled
  obtain ⟨-, -, -, careers⟩ := guarded_polls_complete_once completed.ruled
  obtain ⟨-, -, terminated, -⟩ := careers _ _ _ completed
  refine ⟨_, _, completed, rfl, rfl, ⟨_, rfl, ?_⟩, ?_⟩
  · exact (terminated _ rfl rfl).mpr ⟨.completed, by simp, nofun⟩
  · intro choice waker panic courteous
    exact unbroken choice 0 waker courteous panic

end Machine

end Latch
