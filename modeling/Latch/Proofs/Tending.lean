import Latch.Proofs.Careers

/-!
# Tending a wait

Among all that is done with waits, this module singles out what is done with one of them: its polls,
and its drop. A poll of a future, or a poll that goes on, does a few such things with each wait of
the future, and handles the other waits before, in between and afterwards.
-/

set_option autoImplicit false

namespace Latch

variable {ω σ ν : Type} [Waker ω]

/-- One wait is polled and dropped, and the other waits are handled in between. The log takes down
its polls. -/
inductive Tends : Events ω → Option Wait → List Wait → List (Note ω) → List (Occurrence ω) →
    Events ω → Option Wait → List Wait → Prop
  | others {events next : Events ω} {wait? : Option Wait} {others left : List Wait}
      {trace : List (Occurrence ω)} (handles : Handles events others trace next left) :
      Tends events wait? others [] trace next wait? left
  | polls {events : Events ω} {others : List Wait} (waker : ω) (wait : Wait) :
      Tends events (some wait) others (wait.notes waker events) (wait.poll waker events).trace
        (wait.poll waker events).events (some (wait.poll waker events).wait) others
  | drops {events : Events ω} {others : List Wait} (wait : Wait) :
      Tends events (some wait) others [] (wait.drop events).trace (wait.drop events).events none
        others
  | trans {first second third : Events ω} {wait? then? last? : Option Wait}
      {waits others left : List Wait} {early late : List (Note ω)}
      {before after : List (Occurrence ω)}
      (head : Tends first wait? waits early before second then? others)
      (tail : Tends second then? others late after third last? left) :
      Tends first wait? waits (early ++ late) (before ++ after) third last? left

/-- Some waits are handled, and one among them is tended. -/
def Tended (events : Events ω) (wait? : Option Wait) (waits : List Wait) (log : List (Note ω))
    (trace : List (Occurrence ω)) (next : Events ω) (after? : Option Wait) (final : List Wait) :
    Prop :=
  ∃ others left, waits.Perm (wait?.toList ++ others) ∧ final.Perm (after?.toList ++ left) ∧
    Tends events wait? others log trace next after? left

section

variable {events next later : Events ω} {wait? after? last? : Option Wait}
  {waits final rest others left : List Wait} {log late : List (Note ω)}
  {trace told : List (Occurrence ω)}

theorem Tends.append (tends : Tends events wait? others log trace next after? left)
    (rest : List Wait) :
    Tends events wait? (others ++ rest) log trace next after? (left ++ rest) := by
  induction tends with
  | others handles => exact .others (handles.append rest)
  | polls waker wait => exact .polls waker wait
  | drops wait => exact .drops wait
  | trans _ _ head tail => exact head.trans tail

namespace Tended

theorem of_tends (tends : Tends events wait? others log trace next after? left) :
    Tended events wait? (wait?.toList ++ others) log trace next after? (after?.toList ++ left) :=
  ⟨others, left, .refl _, .refl _, tends⟩

theorem of_handles (handles : Handles events others trace next left) :
    Tended events wait? (wait?.toList ++ others) [] trace next wait? (wait?.toList ++ left) :=
  .of_tends (.others handles)

theorem idle (split : waits.Perm (wait?.toList ++ others)) :
    Tended events wait? waits [] [] events wait? waits :=
  ⟨others, others, split, split, .others .nothing⟩

theorem perm (tended : Tended events wait? waits log trace next after? final)
    (first : others.Perm waits) (last : final.Perm left) :
    Tended events wait? others log trace next after? left := by
  obtain ⟨apart, beside, before, after, tends⟩ := tended
  exact ⟨apart, beside, first.trans before, last.symm.trans after, tends⟩

theorem append (tended : Tended events wait? waits log trace next after? final)
    (rest : List Wait) :
    Tended events wait? (waits ++ rest) log trace next after? (final ++ rest) := by
  obtain ⟨apart, beside, before, after, tends⟩ := tended
  refine ⟨apart ++ rest, beside ++ rest, ?_, ?_, tends.append rest⟩
  · rw [← List.append_assoc]
    exact before.append_right rest
  · rw [← List.append_assoc]
    exact after.append_right rest

theorem trans (head : Tended events wait? waits log trace next after? others)
    (tail : Tended next after? others late told later last? final) :
    Tended events wait? waits (log ++ late) (trace ++ told) later last? final := by
  obtain ⟨apart, beside, before, between, first⟩ := head
  obtain ⟨there, left, again, after, second⟩ := tail
  have same : beside.Perm there :=
    (List.perm_append_left_iff _).mp (between.symm.trans again)
  have reordered : Tends next after? beside late told later last? left :=
    (Tends.others (.reorder same)).trans second
  exact ⟨apart, left, before, after, first.trans reordered⟩

/-- Waits that stand beside those that are tended are handled afterwards. -/
theorem then_beside {beside : List Wait}
    (tended : Tended events wait? waits log trace next after? final)
    (handles : Handles next beside told later rest) :
    Tended events wait? (beside ++ waits) log (trace ++ told) later after? (rest ++ final) := by
  obtain ⟨others, left, before, after, tends⟩ := tended
  refine ⟨others ++ beside, rest ++ left, ?_, ?_, ?_⟩
  · rw [← List.append_assoc]
    exact List.perm_append_comm.trans (before.append_right beside)
  · exact (after.append_left rest).trans (List.perm_append_comm_assoc _ _ _)
  · have last : Tends next after? (left ++ beside) [] told later after? (rest ++ left) :=
      .others ((handles.append left).reordered List.perm_append_comm (.refl _))
    have whole := (tends.append beside).trans last
    rwa [List.append_nil] at whole

end Tended

theorem Tends.handles (tends : Tends events wait? others log trace next after? left) :
    Handles events (wait?.toList ++ others) trace next (after?.toList ++ left) := by
  induction tends with
  | others handles => exact (handles.append _).reordered List.perm_append_comm List.perm_append_comm
  | polls waker wait => exact .poll waker wait
  | drops wait => exact .drop wait
  | trans _ _ head tail => exact head.trans tail

end

/-! ## Futures -/

namespace Future

omit [Waker ω] in
/-- A race that is settled has dropped its wait. -/
theorem settle_spec (wait : Wait) (signal : Future σ) (answer : Answer)
    (note : List (Occurrence ω)) (events : Events ω) :
    ∃ told, (∀ occurrence ∈ told, occurrence ∈ note) ∧
      (settle wait signal answer note events).trace = (wait.drop events).trace ++ told ∧
      (settle wait signal answer note events).events = (wait.drop events).events ∧
      (settle wait signal answer note events).future = .race none signal := by
  unfold settle
  simp only
  cases (wait.drop events).panic? with
  | some panic => exact ⟨[], nofun, (List.append_nil _).symm, rfl, rfl⟩
  | none => exact ⟨note, fun _ member => member, rfl, rfl, rfl⟩

theorem settle_tends (wait : Wait) (signal : Future σ) (answer : Answer)
    {note : List (Occurrence ω)} (aside : ∀ occurrence ∈ note, occurrence.isAside = true)
    (events : Events ω) (others : List Wait) :
    Tends events (some wait) others [] (settle wait signal answer note events).trace
      (settle wait signal answer note events).events none others := by
  obtain ⟨told, sub, trace, same, -⟩ := settle_spec wait signal answer note events
  rw [trace, same]
  exact (Tends.drops wait).trans (.others (.noted fun occurrence member => aside _ (sub _ member)))

/-- A race that concludes keeps its wait or drops it, and leaves its signal as it is. -/
theorem conclude_tends (wait : Wait) (polled : Polled σ ω) :
    ∃ told after?, (conclude wait polled).trace = polled.trace ++ told ∧
      (conclude wait polled).future = .race after? polled.future ∧
      ∀ others, Tends polled.events (some wait) others [] told (conclude wait polled).events after?
        others := by
  have aside : ∀ occurrence ∈ [(.cancelled wait.event : Occurrence ω)],
      occurrence.isAside = true := by simp [Occurrence.isAside]
  unfold conclude
  split
  · exact ⟨[], some wait, (List.append_nil _).symm, rfl, fun _ => .others .nothing⟩
  · exact ⟨[], some wait, (List.append_nil _).symm, rfl, fun _ => .others .nothing⟩
  · exact ⟨[], some wait, (List.append_nil _).symm, rfl, fun _ => .others .nothing⟩
  · obtain ⟨-, -, -, -, gone⟩ :=
      settle_spec wait polled.future .cancelled [.cancelled wait.event] polled.events
    exact ⟨_, none, rfl, gone, settle_tends wait polled.future .cancelled aside polled.events⟩
  · obtain ⟨-, -, -, -, gone⟩ :=
      settle_spec wait polled.future .cancelled [.cancelled wait.event] polled.events
    exact ⟨_, none, rfl, gone, settle_tends wait polled.future .cancelled aside polled.events⟩

/-- What was done so far with a wait, or with one that stands beside it, goes on as the race
concludes. -/
theorem conclude_tended {events : Events ω} {wait? : Option Wait} {wait : Wait}
    {polled : Polled σ ω} {waits : List Wait} {log : List (Note ω)}
    (own : Tended events wait? waits log polled.trace polled.events (some wait)
      (wait :: polled.future.waits)) :
    Tended events wait? waits log (conclude wait polled).trace (conclude wait polled).events
      (conclude wait polled).future.wait? (conclude wait polled).future.waits := by
  obtain ⟨told, after?, trace, future, tends⟩ := conclude_tends wait polled
  rw [trace, future, ← List.append_nil log]
  exact own.trans (.of_tends (tends polled.future.waits))

theorem conclude_tended_beside {events : Events ω} {wait? after? : Option Wait} {wait : Wait}
    {polled : Polled σ ω} {waits : List Wait} {log : List (Note ω)}
    (inside : Tended events wait? waits log polled.trace polled.events after? polled.future.waits) :
    Tended events wait? (wait :: waits) log (conclude wait polled).trace
      (conclude wait polled).events after? (conclude wait polled).future.waits := by
  obtain ⟨told, kept?, trace, future, tends⟩ := conclude_tends wait polled
  have outer : Handles polled.events [wait] told (conclude wait polled).events kept?.toList := by
    simpa using (tends []).handles
  rw [trace, future]
  exact inside.then_beside outer

omit [Waker ω] in
theorem waits_perm_of_part? {future part : Future σ} {depth : Nat} {wait : Wait}
    (there : future.part? depth = some part) (present : part.wait? = some wait) :
    ∃ others, future.waits.Perm (wait :: others) := by
  induction depth generalizing future with
  | zero =>
      cases there
      cases part with
      | ready | never | external => cases present
      | plain own =>
          cases present
          exact ⟨[], .refl _⟩
      | race wait? signal =>
          cases (show wait? = some wait from present)
          exact ⟨signal.waits, .refl _⟩
  | succ depth ih =>
      cases future with
      | plain | ready | never | external => cases there
      | race outer? signal =>
          obtain ⟨others, split⟩ := ih there
          exact ⟨outer?.toList ++ others,
            (split.append_left _).trans (List.perm_middle)⟩

namespace Stage

/-- A stage of a future begins with the wait that stands first in it. -/
theorem tended_first {stage : Stage ω σ} {future : Future σ} {wait : Wait}
    (present : future.wait? = some wait) :
    Tended stage.found (some wait) future.waits (stage.notes future .wait)
      (stage.apply future).trace (stage.apply future).events (stage.apply future).future.wait?
      (stage.apply future).future.waits := by
  cases future with
  | ready | never | external => cases present
  | plain own =>
      cases present
      cases stage with
      | polls waker found => exact .of_tends (.polls waker wait)
      | resumes response found => exact .of_handles .nothing
  | race wait? signal =>
      cases (show wait? = some wait from present)
      cases stage with
      | resumes response found =>
          refine conclude_tended ?_
          exact .of_handles (signal.resume_handles response found)
      | polls waker found =>
          have first : Tended found (some wait) (wait :: signal.waits) (wait.notes waker found)
              (wait.poll waker found).trace (wait.poll waker found).events
              (some (wait.poll waker found).wait) ((wait.poll waker found).wait :: signal.waits) :=
            .of_tends (.polls waker wait)
          simp only [Stage.found, apply, poll, notes, Future.wait?, Option.elim_some]
          cases (wait.poll waker found).outcome with
          | error panic => exact first
          | ok completed =>
              rw [← List.append_nil (wait.notes waker found)]
              cases completed with
              | true =>
                  obtain ⟨-, -, -, -, gone⟩ := settle_spec (wait.poll waker found).wait signal
                    .completed [] (wait.poll waker found).events
                  simp only [gone]
                  exact first.trans
                    (.of_tends (settle_tends _ signal .completed (by simp) _ signal.waits))
              | false =>
                  refine first.trans (conclude_tended ?_)
                  exact .of_handles (signal.poll_handles waker _)

theorem tended (stage : Stage ω σ) {future part : Future σ} {depth : Nat} {wait : Wait}
    (there : future.part? depth = some part) (present : part.wait? = some wait) :
    Tended stage.found (some wait) future.waits
      ((stage.at? depth future).elim [] (notes part .wait)) (stage.apply future).trace
      (stage.apply future).events
      (((stage.at? depth future).elim part fun inner => (inner.apply part).future).wait?)
      (stage.apply future).future.waits := by
  induction depth generalizing future stage with
  | zero =>
      cases there
      exact tended_first present
  | succ depth ih =>
      cases future with
      | plain | ready | never | external => cases there
      | race wait? signal =>
          cases wait? with
          | none =>
              obtain ⟨others, split⟩ := waits_perm_of_part? there present
              cases stage <;> simp only [at?, Option.elim_none, present] <;> exact .idle split
          | some outer =>
              cases stage with
              | resumes response found =>
                  exact conclude_tended_beside (ih (.resumes response found) there)
              | polls waker found =>
                  have inside : signal.part? depth = some part := there
                  obtain ⟨others, split⟩ := waits_perm_of_part? inside present
                  have aside : Tended found (some wait) signal.waits [] [] found (some wait)
                      signal.waits := .idle split
                  have polled : Handles found [outer] (outer.poll waker found).trace
                      (outer.poll waker found).events [(outer.poll waker found).wait] :=
                    .poll waker outer
                  have first := aside.then_beside polled
                  simp only [at?, inner?, Stage.found, apply, poll]
                  cases (outer.poll waker found).outcome with
                  | error panic =>
                      simp only [Option.bind_none, Option.elim_none, present]
                      exact first
                  | ok completed =>
                      cases completed with
                      | true =>
                          obtain ⟨-, -, -, -, gone⟩ := settle_spec (outer.poll waker found).wait
                            signal .completed [] (outer.poll waker found).events
                          have settles := (settle_tends (outer.poll waker found).wait signal
                            .completed (List.forall_mem_nil _) (outer.poll waker found).events
                            []).handles
                          simp only [Option.bind_none, Option.elim_none, present, gone]
                          exact aside.then_beside (polled.trans settles)
                      | false =>
                          have inner := ih (polls waker (outer.poll waker found).events) inside
                          exact first.trans (conclude_tended_beside inner)

end Stage

end Future

/-! ## Moves -/

namespace Machine

variable [DecidableEq ν] {machine : Machine ω σ ν}

/-- What is put under a name takes the place of what was there, and that is dropped. -/
theorem store_handles (machine : Machine ω σ ν) (name : ν) (holding : Holding σ)
    (control : Control ω σ) :
    ∃ dropped rest, machine.waits.Perm (dropped ++ rest) ∧
      (machine.store name holding control).machine.waits.Perm (holding.future.waits ++ rest) ∧
      Handles machine.events dropped (machine.store name holding control).trace
        (machine.store name holding control).machine.events [] := by
  have stored := (held_insert_perm machine.futures name holding).append_right
    (machine.calls.flatMap Call.waits)
  rw [List.append_assoc] at stored
  unfold store
  cases found : machine.futures.get? name with
  | none =>
      rw [Table.erase_of_get?_eq_none found] at stored
      exact ⟨[], machine.waits, .refl _, stored, .nothing⟩
  | some previous =>
      exact ⟨previous.future.waits, _, waits_perm_of_get? found, stored,
        previous.future.drop_handles machine.events⟩

theorem afterPoll_tended (machine : Machine ω σ ν) (name : ν) (event : EventId) (waker : ω)
    {polled : Future.Polled σ ω} {wait? after? : Option Wait} {hand : List Wait}
    {log : List (Note ω)}
    (tended : Tended machine.events wait? hand log polled.trace polled.events after?
      polled.future.waits) :
    Tended machine.events wait? (hand ++ machine.waits) log
      (machine.afterPoll name event waker polled).trace
      (machine.afterPoll name event waker polled).machine.events after?
      (machine.afterPoll name event waker polled).machine.waits := by
  have stores : ∀ control : Control ω σ,
      let turn := { machine with events := polled.events }.store name ⟨event, polled.future⟩ control
      Tended machine.events wait? (hand ++ machine.waits) log (polled.trace ++ turn.trace)
        turn.machine.events after? turn.machine.waits := by
    intro control
    obtain ⟨dropped, rest, before, after, handles⟩ := store_handles
      { machine with events := polled.events } name ⟨event, polled.future⟩ control
    have whole := (tended.append rest).then_beside handles
    refine whole.perm ?_ after.symm
    exact (before.append_left hand).trans (List.perm_append_comm_assoc _ _ _)
  unfold afterPoll
  cases polled.progress with
  | answered answer => exact stores _
  | panicked panic => exact stores _
  | asks signal =>
      simp only [List.append_nil]
      refine (tended.append machine.waits).perm (.refl _) ?_
      exact List.perm_append_comm_assoc _ _ _

/-- A move that polls a future, or goes on with it, has taken it out of the machine before. -/
theorem exists_afterPoll {next : Move ω σ ν} {spot : Spot ν} {root : Future σ}
    (found : machine.future? spot = some root) {stage : Future.Stage ω σ}
    (staged : machine.stage? next spot = some stage) :
    ∃ (rest : Machine ω σ ν) (name : ν) (event : EventId) (waker : ω),
      rest.events = machine.events ∧ machine.waits.Perm (root.waits ++ rest.waits) ∧
        machine.move next = rest.afterPoll name event waker (stage.apply root) := by
  rcases stage?_eq_some staged with
    ⟨choice, name, waker, rfl, rfl, rfl⟩ | ⟨response, choice, level, rfl, rfl, rfl⟩
  · obtain ⟨holding, stored, rfl⟩ := Option.map_eq_some_iff.mp found
    refine ⟨{ machine with futures := machine.futures.erase name }, name, holding.event, waker, rfl,
      waits_perm_of_get? stored, ?_⟩
    simp only [move, perform, pollFuture, stored, Future.Stage.apply]
  · cases calls : machine.calls with
    | nil =>
        rw [future?, calls] at found
        cases found
    | cons call rest =>
        simp only [stage?, calls, List.length_cons, Nat.add_right_cancel_iff] at staged
        split at staged
        · next top =>
            rw [future?, calls, Call.inHand?_cons, if_pos top] at found
            cases call with
            | setting | releasingAll | releasingOne | draining | waking => cases found
            | polling name holding waker =>
                cases found
                exact ⟨{ machine with calls := rest }, name, holding.event, waker, rfl,
                  waits_perm_of_calls calls, resume_polling calls response choice⟩
        · cases staged

/-- A move that polls a future, or goes on with it, tends the wait that stands at a place in it. -/
theorem move_tended {next : Move ω σ ν} {place : Place ν} {part : Future σ} {wait : Wait}
    (there : machine.part? place = some part) (present : part.wait? = some wait)
    {stage : Future.Stage ω σ} (staged : machine.stage? next place.spot = some stage) :
    Tended machine.events (some wait) machine.waits (machine.notes .wait next place)
      (machine.move next).trace (machine.move next).machine.events
      (((machine.visit? next place).elim part fun inner => (inner.apply part).future).wait?)
      (machine.move next).machine.waits := by
  obtain ⟨root, found, inside⟩ := Option.bind_eq_some_iff.mp there
  have visits : machine.visit? next place = stage.at? place.depth root := by
    rw [visit?, found, Option.bind_some, staged, Option.bind_some]
  have notes : machine.notes .wait next place =
      (stage.at? place.depth root).elim [] (Future.Stage.notes part .wait) := by
    unfold Machine.notes
    rw [there, visits]
    cases stage.at? place.depth root <;> rfl
  have tended := stage.tended inside present
  rw [← notes, ← visits, stage?_found staged] at tended
  obtain ⟨rest, name, event, waker, same, split, moves⟩ := exists_afterPoll found staged
  rw [← same] at tended ⊢
  rw [moves]
  exact (afterPoll_tended rest name event waker tended).perm split (.refl _)

end Machine

end Latch
