-- SUMMARY: A task runs once, when its time comes, unless its key is scheduled again or cancelled before that.
import Mathlib.Data.List.Basic
import Mathlib.Data.List.Induction
import Mathlib.Data.Nat.Find
import PolicyAudit.Proofs.Session.History
import PolicyAudit.Proofs.Session.Alike

/-! ## Calls

A debouncer is told to put a task off, to cancel a key, or to let some time pass. Only the last of these
moves the clock. -/

namespace PolicyAudit

/-- What a debouncer is told. -/
inductive DebounceCall (α : Type) where
  | schedule (key : String) (task : α)
  | cancel (key : String)
  | sleep (ms : Nat)

namespace DebounceCall

variable {α : Type}

/-- How far a call moves the clock. -/
def ms : DebounceCall α → Nat
  | .sleep ms => ms
  | .schedule _ _ | .cancel _ => 0

/-- Whether a call is one of those that tasks under a key could notice. -/
def concerns (key : String) : DebounceCall α → Bool
  | .schedule other _ | .cancel other => other = key
  | .sleep _ => true

end DebounceCall

/-! ## Lists by place

Things that come about one after another are known by the times at which they do. -/

/-- A list has just the things that stand at some place, in the order of the places. -/
def Lists {β : Type} (P : Nat → β → Prop) (xs : List β) : Prop :=
  ∃ places : List (Nat × β), places.map Prod.snd = xs ∧ (places.Pairwise fun a b => a.1 < b.1) ∧
    ∀ n x, (n, x) ∈ places ↔ P n x

namespace Lists

variable {β : Type} {P Q : Nat → β → Prop} {xs : List β} {x : β} {n : Nat}

theorem nil (h : ∀ n x, ¬ P n x) : Lists P [] :=
  ⟨[], rfl, .nil, fun n x => ⟨fun hmem => absurd hmem List.not_mem_nil, fun hx => absurd hx (h n x)⟩⟩

theorem congr (h : Lists P xs) (hsame : ∀ n x, P n x ↔ Q n x) : Lists Q xs := by
  obtain ⟨places, hxs, hsorted, hplaces⟩ := h
  exact ⟨places, hxs, hsorted, fun n x => (hplaces n x).trans (hsame n x)⟩

theorem filter (h : Lists P xs) (q : β → Bool) : Lists (fun n x => P n x ∧ q x = true) (xs.filter q) := by
  obtain ⟨places, rfl, hsorted, hplaces⟩ := h
  refine ⟨places.filter (q ·.2), ?_, hsorted.filter _, fun n x => ?_⟩
  · rw [List.filter_map]
    rfl
  · rw [List.mem_filter, hplaces]

/-- One more thing, at a place behind all the others. -/
theorem snoc (h : Lists P xs) (hlast : ∀ m y, P m y → m < n) :
    Lists (fun m y => P m y ∨ m = n ∧ y = x) (xs ++ [x]) := by
  obtain ⟨places, rfl, hsorted, hplaces⟩ := h
  refine ⟨places ++ [(n, x)], by simp, ?_, fun m y => ?_⟩
  · rw [List.pairwise_append]
    refine ⟨hsorted, List.pairwise_singleton .., ?_⟩
    intro a ha b hb
    rw [List.mem_singleton.mp hb]
    exact hlast _ _ ((hplaces a.1 a.2).mp ha)
  · rw [List.mem_append, hplaces, List.mem_singleton, Prod.mk.injEq]

theorem mem_iff (h : Lists P xs) : x ∈ xs ↔ ∃ n, P n x := by
  obtain ⟨places, rfl, -, hplaces⟩ := h
  simp [hplaces]

/-- What holds of any two things in the order of their places holds along the list. -/
theorem pairwise {R : β → β → Prop} (h : Lists P xs)
    (hR : ∀ m n x y, P m x → P n y → m < n → R x y) : xs.Pairwise R := by
  obtain ⟨places, rfl, hsorted, hplaces⟩ := h
  rw [List.pairwise_map]
  apply hsorted.imp_of_mem
  intro a b ha hb hlt
  exact hR _ _ _ _ ((hplaces a.1 a.2).mp ha) ((hplaces b.1 b.2).mp hb) hlt

end Lists

namespace Debouncer

variable {α : Type} {d : Debouncer α} {delay m n : Nat} {key : String} {t : DelayedTask α}
variable {calls past : List (DebounceCall α)} {call : DebounceCall α}

/-- What a call runs, and the debouncer after it. -/
def perform (d : Debouncer α) : DebounceCall α → List (DelayedTask α) × Debouncer α
  | .schedule key task => ([], d.schedule key task)
  | .cancel key => ([], (d.cancel key).2)
  | .sleep ms => d.sleep ms

/-- The time after some calls. -/
def clock (calls : List (DebounceCall α)) : Nat := calls.foldl (fun now call => now + call.ms) 0

/-- The debouncer after some calls, with nothing to do at first. -/
def after (delay : Nat) (calls : List (DebounceCall α)) : Debouncer α :=
  calls.foldl (fun d call => (d.perform call).2) (new delay)

/-- What the call at a time runs. -/
def ranAt (delay : Nat) (calls : List (DebounceCall α)) (n : Nat) : List (DelayedTask α) :=
  calls[n]?.toList.flatMap fun call => ((after delay (calls.take n)).perform call).1

/-- What some calls run. -/
def ran (delay : Nat) (calls : List (DebounceCall α)) : List (DelayedTask α) :=
  (List.range calls.length).flatMap (ranAt delay calls)

/-! ## Tasks

A task is known by the time of the call that put it off. It is outstanding until its key is scheduled again
or cancelled, or until time is let pass and its own time has come by then. -/

/-- A call puts a task off. -/
def PutsOff (delay : Nat) (t : DelayedTask α) (past : List (DebounceCall α)) (call : DebounceCall α) : Prop :=
  call = .schedule t.key t.task ∧ t.due = clock past + delay

/-- A call schedules another task under the key of a task, or cancels it. -/
def Replaces (t : DelayedTask α) (_past : List (DebounceCall α)) (call : DebounceCall α) : Prop :=
  call = .cancel t.key ∨ ∃ task, call = .schedule t.key task

/-- A call lets time pass, and by its end the time of a task has come. -/
def Reaches (t : DelayedTask α) (past : List (DebounceCall α)) (call : DebounceCall α) : Prop :=
  ∃ ms, call = .sleep ms ∧ t.due ≤ clock past + ms

/-- The call at a time put a task off, and it has neither been replaced nor had its time since. -/
def Outstanding (delay : Nat) (t : DelayedTask α) (calls : List (DebounceCall α)) (n : Nat) : Prop :=
  SinceAt (PutsOff delay t) (fun past call => Replaces t past call ∨ Reaches t past call) calls n

/-- The task put off at a time is outstanding when the call at another one reaches its time. -/
def RunsAt (delay : Nat) (t : DelayedTask α) (n : Nat) (calls : List (DebounceCall α)) (m : Nat) : Prop :=
  HappensAt (fun past call => Outstanding delay t past n ∧ Reaches t past call) calls m

theorem after_snoc (delay : Nat) (calls : List (DebounceCall α)) (call : DebounceCall α) :
    after delay (calls ++ [call]) = ((after delay calls).perform call).2 := by
  rw [after, List.foldl_append]
  rfl

theorem clock_snoc (calls : List (DebounceCall α)) (call : DebounceCall α) :
    clock (calls ++ [call]) = clock calls + call.ms := by
  rw [clock, List.foldl_append]
  rfl

theorem now_perform (d : Debouncer α) (call : DebounceCall α) :
    (d.perform call).2.now = d.now + call.ms := by
  cases call <;> rfl

theorem delay_perform (d : Debouncer α) (call : DebounceCall α) : (d.perform call).2.delay = d.delay := by
  cases call <;> rfl

theorem now_after (delay : Nat) (calls : List (DebounceCall α)) : (after delay calls).now = clock calls := by
  induction calls using List.reverseRecOn with
  | nil => rfl
  | append_singleton calls call ih => rw [after_snoc, now_perform, clock_snoc, ih]

theorem delay_after (delay : Nat) (calls : List (DebounceCall α)) : (after delay calls).delay = delay := by
  induction calls using List.reverseRecOn with
  | nil => rfl
  | append_singleton calls call ih => rw [after_snoc, delay_perform, ih]

theorem clock_take_mono (calls : List (DebounceCall α)) (h : m ≤ n) :
    clock (calls.take m) ≤ clock (calls.take n) := by
  induction h with
  | refl => exact Nat.le_refl _
  | @step n _ ih =>
    rw [List.take_add_one]
    cases calls[n]? with
    | none => rwa [Option.toList_none, List.append_nil]
    | some call =>
      rw [Option.toList_some, clock_snoc]
      exact Nat.le_add_right_of_le ih

/-! ## What waits

The tasks that wait are the outstanding ones, in the order of the calls that put them off. -/

@[simp] theorem putsOff_schedule_iff {task : α} :
    PutsOff delay t calls (.schedule key task) ↔ t = ⟨key, clock calls + delay, task⟩ := by
  obtain ⟨tkey, due, ttask⟩ := t
  simp only [PutsOff, DebounceCall.schedule.injEq, DelayedTask.mk.injEq]
  constructor
  · rintro ⟨⟨rfl, rfl⟩, rfl⟩
    exact ⟨rfl, rfl, rfl⟩
  · rintro ⟨rfl, rfl, rfl⟩
    exact ⟨⟨rfl, rfl⟩, rfl⟩

@[simp] theorem not_putsOff_cancel : ¬ PutsOff delay t calls (.cancel key) := by simp [PutsOff]

@[simp] theorem not_putsOff_sleep {ms : Nat} : ¬ PutsOff delay t calls (.sleep ms) := by simp [PutsOff]

@[simp] theorem replaces_schedule_iff {task : α} :
    Replaces t calls (.schedule key task) ↔ t.key = key := by
  simp [Replaces, eq_comm]

@[simp] theorem replaces_cancel_iff : Replaces t calls (.cancel key) ↔ t.key = key := by
  simp [Replaces, eq_comm]

@[simp] theorem not_replaces_sleep {ms : Nat} : ¬ Replaces t calls (.sleep ms) := by simp [Replaces]

@[simp] theorem reaches_sleep_iff {ms : Nat} : Reaches t calls (.sleep ms) ↔ t.due ≤ clock calls + ms := by
  simp [Reaches]

@[simp] theorem not_reaches_schedule {task : α} : ¬ Reaches t calls (.schedule key task) := by
  simp [Reaches]

@[simp] theorem not_reaches_cancel : ¬ Reaches t calls (.cancel key) := by simp [Reaches]

theorem outstanding_lt_length (h : Outstanding delay t calls n) : n < calls.length := h.1.lt_length

theorem outstanding_snoc_iff : Outstanding delay t (calls ++ [call]) n ↔
    n = calls.length ∧ PutsOff delay t calls call ∨
      Outstanding delay t calls n ∧ ¬ (Replaces t calls call ∨ Reaches t calls call) :=
  SinceAt.snoc_iff

/-- The tasks that wait. -/
theorem lists_waiting (delay : Nat) (calls : List (DebounceCall α)) :
    Lists (fun n t => Outstanding delay t calls n) (after delay calls).waiting := by
  induction calls using List.reverseRecOn with
  | nil => exact Lists.nil fun n t h => absurd (outstanding_lt_length h) (Nat.not_lt_zero n)
  | append_singleton calls call ih =>
    simp only [outstanding_snoc_iff, after_snoc]
    cases call with
    | schedule key task =>
      have hothers := ih.filter (·.key ≠ key)
      apply (hothers.snoc fun m t h => outstanding_lt_length h.1).congr
      intro n t
      rw [now_after, delay_after]
      simp [or_comm]
    | cancel key =>
      apply (ih.filter (·.key ≠ key)).congr
      intro n t
      simp
    | sleep ms =>
      apply (ih.filter fun t => !decide (t.due ≤ (after delay calls).now + ms)).congr
      intro n t
      simp [now_after]

/-- The tasks that a call runs. -/
theorem lists_perform (delay : Nat) (calls : List (DebounceCall α)) (call : DebounceCall α) :
    Lists (fun n t => Outstanding delay t calls n ∧ Reaches t calls call)
      ((after delay calls).perform call).1 := by
  cases call with
  | schedule key task => exact Lists.nil fun n t h => not_reaches_schedule h.2
  | cancel key => exact Lists.nil fun n t h => not_reaches_cancel h.2
  | sleep ms =>
    apply ((lists_waiting delay calls).filter (·.due ≤ (after delay calls).now + ms)).congr
    intro n t
    simp [now_after]

theorem lists_ranAt (delay : Nat) (calls : List (DebounceCall α)) (m : Nat) :
    Lists (fun n t => RunsAt delay t n calls m) (ranAt delay calls m) := by
  simp only [RunsAt, HappensAt, ranAt]
  cases calls[m]? with
  | none => exact Lists.nil fun n t h => by simp at h
  | some call =>
    simpa using lists_perform delay (calls.take m) call

/-! ## When a task runs

A task runs at the first call that reaches its time, unless its key is scheduled again or cancelled before. -/

theorem runsAt_iff : RunsAt delay t n calls m ↔ HappensAt (PutsOff delay t) calls n ∧ n < m ∧
    HappensAt (Reaches t) calls m ∧
    ∀ k, n < k → k < m → ¬ HappensAt (Replaces t) calls k ∧ ¬ HappensAt (Reaches t) calls k := by
  have hmoment : RunsAt delay t n calls m ↔
      Outstanding delay t (calls.take m) n ∧ HappensAt (Reaches t) calls m := by
    constructor
    · rintro ⟨call, hcall, houtstanding, hreaches⟩
      exact ⟨houtstanding, call, hcall, hreaches⟩
    · rintro ⟨houtstanding, call, hcall, hreaches⟩
      exact ⟨call, hcall, houtstanding, hreaches⟩
  have heither : ∀ k, HappensAt (fun past call => Replaces t past call ∨ Reaches t past call) calls k ↔
      HappensAt (Replaces t) calls k ∨ HappensAt (Reaches t) calls k := by
    intro k
    simp only [HappensAt, and_or_left, exists_or]
  simp only [hmoment, Outstanding, SinceAt.take_iff, heither, not_or]
  constructor
  · rintro ⟨⟨hlt, hputs, hkeeps⟩, hreaches⟩
    exact ⟨hputs, hlt, hreaches, hkeeps⟩
  · rintro ⟨hputs, hlt, hreaches, hkeeps⟩
    exact ⟨⟨hlt, hputs, hkeeps⟩, hreaches⟩

/-- A task does not run twice. -/
theorem RunsAt.unique {k : Nat} (h : RunsAt delay t n calls m) (h' : RunsAt delay t n calls k) : m = k := by
  obtain ⟨-, hm, hreaches, hbefore⟩ := runsAt_iff.mp h
  obtain ⟨-, hk, hreaches', hbefore'⟩ := runsAt_iff.mp h'
  rcases Nat.lt_trichotomy m k with hlt | rfl | hlt
  · exact absurd hreaches (hbefore' m hm hlt).2
  · rfl
  · exact absurd hreaches' (hbefore k hk hlt).2

/-- A task runs just when some call reaches its time before its key is scheduled again or cancelled. -/
theorem exists_runsAt_iff : (∃ m, RunsAt delay t n calls m) ↔ HappensAt (PutsOff delay t) calls n ∧
    ∃ m, n < m ∧ HappensAt (Reaches t) calls m ∧ ∀ k, n < k → k < m → ¬ HappensAt (Replaces t) calls k := by
  constructor
  · rintro ⟨m, h⟩
    obtain ⟨hputs, hlt, hreaches, hkeeps⟩ := runsAt_iff.mp h
    exact ⟨hputs, m, hlt, hreaches, fun k hk hkm => (hkeeps k hk hkm).1⟩
  · classical
    rintro ⟨hputs, m, hlt, hreaches, hkeeps⟩
    have hsome : ∃ k, n < k ∧ HappensAt (Reaches t) calls k := ⟨m, hlt, hreaches⟩
    obtain ⟨hfirst, hfirstReaches⟩ := Nat.find_spec hsome
    refine ⟨Nat.find hsome, runsAt_iff.mpr ⟨hputs, hfirst, hfirstReaches, fun k hk hkm => ⟨?_, ?_⟩⟩⟩
    · exact hkeeps k hk (Nat.lt_of_lt_of_le hkm (Nat.find_min' hsome ⟨hlt, hreaches⟩))
    · exact fun hreached => Nat.find_min hsome hkm ⟨hk, hreached⟩

theorem due_of_putsOff (h : HappensAt (PutsOff delay t) calls n) : t.due = clock (calls.take n) + delay := by
  obtain ⟨call, -, -, hdue⟩ := h
  exact hdue

/-- The time of an outstanding task is still to come, or it is now. -/
theorem clock_le_of_outstanding (h : Outstanding delay t calls n) : clock calls ≤ t.due := by
  induction calls using List.reverseRecOn with
  | nil => exact Nat.zero_le _
  | append_singleton calls call ih =>
    rw [clock_snoc]
    rcases outstanding_snoc_iff.mp h with ⟨-, hcall, hdue⟩ | ⟨hbefore, hkeeps⟩
    · rw [hcall, hdue]
      exact Nat.le_add_right ..
    · have hclock := ih hbefore
      cases call with
      | schedule key task => exact hclock
      | cancel key => exact hclock
      | sleep ms =>
        rw [not_or, reaches_sleep_iff] at hkeeps
        exact Nat.le_of_lt (Nat.lt_of_not_le hkeeps.2)

/-- A task runs while the clock passes its time. -/
theorem RunsAt.due_mem (h : RunsAt delay t n calls m) :
    clock (calls.take m) ≤ t.due ∧ t.due ≤ clock (calls.take (m + 1)) := by
  obtain ⟨call, hcall, houtstanding, ms, rfl, hdue⟩ := h
  refine ⟨clock_le_of_outstanding houtstanding, ?_⟩
  rw [List.take_add_one, hcall, Option.toList_some, clock_snoc]
  exact hdue

/-- What runs at one call runs in the order of the times. -/
theorem pairwise_due_ranAt (delay : Nat) (calls : List (DebounceCall α)) (m : Nat) :
    (ranAt delay calls m).Pairwise (·.due ≤ ·.due) := by
  apply (lists_ranAt delay calls m).pairwise
  intro i j t u ht hu hlt
  rw [due_of_putsOff (runsAt_iff.mp ht).1, due_of_putsOff (runsAt_iff.mp hu).1]
  exact Nat.add_le_add_right (clock_take_mono calls (Nat.le_of_lt hlt)) delay

/-! ## What waits under a key -/

/-- Whether some task under a key is outstanding. -/
def Pending (delay : Nat) (key : String) (calls : List (DebounceCall α)) : Prop :=
  ∃ n t, t.key = key ∧ Outstanding delay t calls n

theorem mem_keys_waiting_iff :
    key ∈ (after delay calls).waiting.map (·.key) ↔ Pending delay key calls := by
  have hwaiting : ∀ t, t ∈ (after delay calls).waiting ↔ ∃ n, Outstanding delay t calls n :=
    fun t => (lists_waiting delay calls).mem_iff
  simp only [List.mem_map, hwaiting, Pending]
  constructor
  · rintro ⟨t, ⟨n, h⟩, hkey⟩
    exact ⟨n, t, hkey, h⟩
  · rintro ⟨n, t, hkey, h⟩
    exact ⟨t, ⟨n, h⟩, hkey⟩

/-- No two tasks under one key are outstanding. -/
theorem nodup_keys_waiting (delay : Nat) (calls : List (DebounceCall α)) :
    ((after delay calls).waiting.map (·.key)).Nodup := by
  rw [List.Nodup, List.pairwise_map]
  apply (lists_waiting delay calls).pairwise
  intro i j t u ht hu hlt hkey
  obtain ⟨call, hcall, rfl, -⟩ := hu.1
  exact ht.2 j hlt ⟨_, hcall, .inl (replaces_schedule_iff.mpr hkey)⟩

theorem fst_cancel_iff : ((after delay calls).cancel key).1 = true ↔ Pending delay key calls := by
  rw [← mem_keys_waiting_iff]
  simp [cancel, isWaiting]

/-! ## Tasks of other keys

What runs under a key is not changed when the calls about other keys are left out. -/

theorem ran_snoc (delay : Nat) (calls : List (DebounceCall α)) (call : DebounceCall α) :
    ran delay (calls ++ [call]) = ran delay calls ++ ((after delay calls).perform call).1 := by
  have hbefore : (List.range calls.length).flatMap (ranAt delay (calls ++ [call])) = ran delay calls := by
    apply List.flatMap_congr
    intro n hn
    have hlt := List.mem_range.mp hn
    rw [ranAt, ranAt, List.getElem?_append_left hlt, List.take_append_of_le_length (Nat.le_of_lt hlt)]
  have hlast : ranAt delay (calls ++ [call]) calls.length = ((after delay calls).perform call).1 := by
    simp [ranAt]
  rw [ran, List.length_append, List.length_singleton, List.range_succ, List.flatMap_append, hbefore,
    List.flatMap_singleton, hlast]

theorem ms_of_not_concerns (h : call.concerns key = false) : call.ms = 0 := by
  cases call with
  | schedule other task => rfl
  | cancel other => rfl
  | sleep ms => cases h

theorem clock_filter_concerns (key : String) (calls : List (DebounceCall α)) :
    clock (calls.filter (·.concerns key)) = clock calls := by
  induction calls using List.reverseRecOn with
  | nil => rfl
  | append_singleton calls call ih =>
    rw [List.filter_append, clock_snoc, ← ih]
    cases hcall : call.concerns key with
    | true => rw [List.filter_cons_of_pos hcall, List.filter_nil, clock_snoc]
    | false => simp [hcall, ms_of_not_concerns hcall]

theorem tasks_sleep (d : Debouncer α) (key : String) (ms : Nat) :
    (d.sleep ms).2.tasks key = (d.tasks key).filter fun t => !decide (t.due ≤ d.now + ms) := by
  simp only [sleep, tasks, List.filter_filter]
  exact List.filter_congr fun t _ => Bool.and_comm _ _

/-- A call about other keys does nothing to the tasks under a key. -/
theorem perform_of_not_concerns (d : Debouncer α) (h : call.concerns key = false) :
    (d.perform call).1 = [] ∧ (d.perform call).2.tasks key = d.tasks key := by
  cases call with
  | schedule other task =>
    have hne : key ≠ other := fun hsame => of_decide_eq_false h hsame.symm
    exact ⟨rfl, tasks_schedule_of_ne hne task⟩
  | cancel other =>
    have hne : key ≠ other := fun hsame => of_decide_eq_false h hsame.symm
    exact ⟨rfl, tasks_cancel_of_ne hne⟩
  | sleep ms => cases h

/-- A call about a key, or about none, does the same to the same tasks under the key. -/
theorem perform_of_concerns {d e : Debouncer α} (h : call.concerns key = true) (hdelay : d.delay = e.delay)
    (hnow : d.now = e.now) (htasks : d.tasks key = e.tasks key) :
    (d.perform call).1.filter (·.key = key) = (e.perform call).1.filter (·.key = key) ∧
      (d.perform call).2.tasks key = (e.perform call).2.tasks key := by
  cases call with
  | schedule other task =>
    obtain rfl : other = key := of_decide_eq_true h
    refine ⟨rfl, ?_⟩
    rw [perform, perform, tasks_schedule_self, tasks_schedule_self, hdelay, hnow]
  | cancel other =>
    obtain rfl : other = key := of_decide_eq_true h
    refine ⟨rfl, ?_⟩
    rw [perform, perform, tasks_cancel_self, tasks_cancel_self]
  | sleep ms =>
    constructor
    · rw [perform, perform, sleep, sleep, filter_due, filter_due, htasks, hnow]
    · rw [perform, perform, tasks_sleep, tasks_sleep, htasks, hnow]

theorem tasks_filter_concerns (delay : Nat) (key : String) (calls : List (DebounceCall α)) :
    (ran delay calls).filter (·.key = key) =
        (ran delay (calls.filter (·.concerns key))).filter (·.key = key) ∧
      (after delay calls).tasks key = (after delay (calls.filter (·.concerns key))).tasks key := by
  induction calls using List.reverseRecOn with
  | nil => exact ⟨rfl, rfl⟩
  | append_singleton calls call ih =>
    obtain ⟨hran, htasks⟩ := ih
    rw [ran_snoc, after_snoc, List.filter_append, List.filter_append, hran]
    cases hcall : call.concerns key with
    | true =>
      have hdelay : (after delay calls).delay = (after delay (calls.filter (·.concerns key))).delay := by
        rw [delay_after, delay_after]
      have hnow : (after delay calls).now = (after delay (calls.filter (·.concerns key))).now := by
        rw [now_after, now_after, clock_filter_concerns]
      obtain ⟨hruns, hleaves⟩ := perform_of_concerns hcall hdelay hnow htasks
      rw [List.filter_cons_of_pos hcall, List.filter_nil, ran_snoc, after_snoc, List.filter_append, hruns]
      exact ⟨rfl, hleaves⟩
    | false =>
      obtain ⟨hruns, hleaves⟩ := perform_of_not_concerns (after delay calls) hcall
      rw [hruns, hleaves, List.filter_cons_of_neg (Bool.eq_false_iff.mp hcall), List.filter_nil, List.filter_nil,
        List.append_nil, List.append_nil]
      exact ⟨rfl, htasks⟩

end Debouncer

end PolicyAudit
