-- SUMMARY: Work put off until its subject has been quiet for a while.

/-! ## Delayed tasks

A task is scheduled under a key and falls due after a fixed delay. Scheduling another task under the
key, or cancelling the key, does away with the first one. Tasks run when the clock moves. -/

namespace PolicyAudit

/-- A task that waits for its time. -/
structure DelayedTask (α : Type) where
  key : String
  due : Nat
  task : α
deriving Repr

/-- The clock and the tasks that wait, in the order in which they were scheduled. Times are in
milliseconds. -/
structure Debouncer (α : Type) where
  delay : Nat
  now : Nat
  waiting : List (DelayedTask α)
deriving Repr

namespace Debouncer

variable {α : Type}

/-- Nothing waits, and the clock stands at zero. -/
def new (delay : Nat) : Debouncer α := ⟨delay, 0, []⟩

/-- The tasks of the other keys. -/
def others (d : Debouncer α) (key : String) : List (DelayedTask α) :=
  d.waiting.filter (·.key ≠ key)

/-- Puts a task off. It takes the place of one that waits under its key. -/
def schedule (d : Debouncer α) (key : String) (task : α) : Debouncer α :=
  { d with waiting := d.others key ++ [⟨key, d.now + d.delay, task⟩] }

/-- Whether a task waits under a key. -/
def isWaiting (d : Debouncer α) (key : String) : Bool := d.waiting.any (·.key = key)

/-- Does away with the task under a key, and says whether there was one. -/
def cancel (d : Debouncer α) (key : String) : Bool × Debouncer α :=
  (d.isWaiting key, { d with waiting := d.others key })

/-- The number of tasks that wait. -/
def pending (d : Debouncer α) : Nat := d.waiting.length

/-- Moves the clock. -/
def tick (d : Debouncer α) (ms : Nat) : Debouncer α := { d with now := d.now + ms }

/-- The tasks that fall due within a time, in order of their times. As the delay is always the same,
that is the order in which they were scheduled. -/
def due (d : Debouncer α) (ms : Nat) : List (DelayedTask α) :=
  d.waiting.filter (·.due ≤ d.now + ms)

/-- Moves the clock. The tasks that fall due come out. -/
def sleep (d : Debouncer α) (ms : Nat) : List (DelayedTask α) × Debouncer α :=
  (d.due ms,
    { d.tick ms with waiting := d.waiting.filter fun task => !decide (task.due ≤ d.now + ms) })

/-! ## What waits after each operation -/

variable {d : Debouncer α} {key other : String}

theorem isWaiting_cancel_self (d : Debouncer α) (key : String) :
    (d.cancel key).2.isWaiting key = false := by
  simp [cancel, isWaiting, others]

theorem isWaiting_cancel_of_ne (h : other ≠ key) :
    (d.cancel key).2.isWaiting other = d.isWaiting other := by
  simp only [cancel, isWaiting, others, List.any_filter]
  congr 1
  funext task
  by_cases htask : task.key = other
  · simp [htask, h]
  · simp [htask]

theorem isWaiting_schedule_self (d : Debouncer α) (key : String) (task : α) :
    (d.schedule key task).isWaiting key = true := by
  simp [schedule, isWaiting]

theorem isWaiting_schedule_of_ne (h : other ≠ key) (task : α) :
    (d.schedule key task).isWaiting other = d.isWaiting other := by
  have hcancel := isWaiting_cancel_of_ne (d := d) h
  simp only [cancel, isWaiting] at hcancel
  simp [schedule, isWaiting, hcancel, Ne.symm h]

theorem isWaiting_of_any_due {ms : Nat} (h : (d.due ms).any (·.key = key) = true) :
    d.isWaiting key = true := by
  obtain ⟨task, hdue, hkey⟩ := List.any_eq_true.mp h
  exact List.any_eq_true.mpr ⟨task, (List.mem_filter.mp hdue).1, hkey⟩

end Debouncer

end PolicyAudit
