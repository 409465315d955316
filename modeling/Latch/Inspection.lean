import Latch.Document
import Latch.Future

/-!
# Inspection

How registries, events, waits and their parts describe themselves.
-/

set_option autoImplicit false

namespace Latch

variable {ω σ : Type}

def Token.document (token : Token) : Document := .tuple "WaitToken" [.number token.number.toNat]

def Statistics.document (statistics : Statistics) : Document :=
  .record "EventStatistics" [("tasks_waiting", .number statistics.tasksWaiting)] false

/-- The members are left out. -/
def Registry.document (registry : Registry ω) : Document :=
  .record "WaitRegistry"
    [("len", .number registry.size), ("next_token", .number registry.next.number.toNat)] true

/-- A value that is being written is not shown. -/
def Guarded.document {α : Type} (describe : α → Document) (cell : Guarded α) : Document :=
  .record "RefCell"
    [("value", if cell.inUse then .atom "<borrowed>" else describe cell.value)] false

def Event.document (event : Event ω) : Document :=
  .record "Event"
    [("is_set", .flag event.isSet), ("waiters", event.waiters.document Registry.document)] false

def Wait.document (events : Events ω) (wait : Wait) : Document :=
  .record "Wait"
    [("event", (events.get wait.event).document),
      ("token", .option (wait.token.map Token.document)),
      ("completed", .flag wait.completed)] false

/-- A race shows its wait and leaves the signal out. A future that is a signal itself shows no
more than that. -/
def Future.document (events : Events ω) : Future σ → Document
  | .plain wait => wait.document events
  | .race wait _ =>
      .record "CancellableWait" [("wait", .option (wait.map (Wait.document events)))] true
  | .ready | .never | .external _ => .atom ".."

/-- A waker that counts how often it was woken. -/
def countingWakerDocument (wakes : Nat) : Document :=
  .record "CountingWaker"
    [("inner", .record "WakeCounter" [("wakes", .number wakes)] false)] false

/-- The error of a cancelled race. -/
def cancelledDocument : Document := .atom "Cancelled"

end Latch
