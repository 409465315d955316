import Latch.Pool.Task

/-!
# Schedules

Which tasks of a pool are to be polled. Tasks are polled in rounds, in the order of a queue; a task
that is woken goes to the queue's end. A new task stays outside until the next round begins, and
joins the queue then; waking it meanwhile changes nothing.
-/

set_option autoImplicit false

namespace Latch.Pool

/-- The queue of tasks to be polled, and the tasks that join it when the next round begins. -/
structure Schedule where
  queue : List TaskId := []
  newcomers : List TaskId := []
  deriving Repr

namespace Schedule

/-- Whether a task is to be polled, in this round or from the next one on. -/
def contains (schedule : Schedule) (id : TaskId) : Bool :=
  schedule.queue.contains id || schedule.newcomers.contains id

/-- Puts a task at the end of the queue, unless it is scheduled already. -/
def enqueue (schedule : Schedule) (id : TaskId) : Schedule :=
  if schedule.contains id then schedule else { schedule with queue := schedule.queue ++ [id] }

/-- Puts a new task behind the other newcomers. -/
def welcome (schedule : Schedule) (id : TaskId) : Schedule :=
  { schedule with newcomers := schedule.newcomers ++ [id] }

/-- Moves the newcomers to the end of the queue, in their order. -/
def enlist (schedule : Schedule) : Schedule where
  queue := schedule.queue ++ schedule.newcomers

/-- Takes a task out. -/
def erase (schedule : Schedule) (id : TaskId) : Schedule where
  queue := schedule.queue.erase id
  newcomers := schedule.newcomers.erase id

/-- How much there is to do with the scheduled tasks. A newcomer counts twice, since it joins the
queue before it is taken out. -/
def size (schedule : Schedule) : Nat := schedule.queue.length + 2 * schedule.newcomers.length

theorem length_erase_lt {ids : List TaskId} {id : TaskId} (member : id ∈ ids) :
    (ids.erase id).length < ids.length := by
  have positive := List.length_pos_of_mem member
  rw [List.length_erase_of_mem member]
  omega

theorem size_erase_lt {schedule : Schedule} {id : TaskId} (scheduled : schedule.contains id) :
    (schedule.erase id).size < schedule.size := by
  have queue : (schedule.queue.erase id).length ≤ schedule.queue.length := List.length_erase_le
  have newcomers : (schedule.newcomers.erase id).length ≤ schedule.newcomers.length :=
    List.length_erase_le
  simp only [contains, Bool.or_eq_true, List.contains_iff_mem] at scheduled
  simp only [size, erase]
  rcases scheduled with member | member
  · have shorter := length_erase_lt member
    omega
  · have shorter := length_erase_lt member
    omega

theorem size_enlist (schedule : Schedule) :
    schedule.enlist.size + schedule.newcomers.length = schedule.size := by
  simp only [enlist, size, List.length_append, List.length_nil]
  omega

end Schedule

end Latch.Pool
