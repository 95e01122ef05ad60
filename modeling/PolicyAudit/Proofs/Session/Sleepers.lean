-- SUMMARY: Tasks that sleep by themselves and are told apart by numbers run just when the debouncer runs them.
import Mathlib.Data.List.Nodup
import PolicyAudit.Proofs.Session.Timing

/-! ## Sleepers

Every task that is put off goes to sleep by itself, under a number of its own. For each key one number is
kept. A task that wakes runs only if the number kept for its key is its own. Scheduling and cancelling take
the number of the task before away and tell that task to stop, which it may do at any time afterwards. -/

namespace PolicyAudit

/-- A task asleep. -/
structure Sleeper (α : Type) where
  number : Nat
  task : DelayedTask α

/-- The tasks asleep, and for each key the number of the task that is to run. -/
structure Sleepers (α : Type) where
  delay : Nat
  now : Nat
  /-- The number of the next task. -/
  next : Nat
  kept : List (String × Nat)
  asleep : List (Sleeper α)

namespace Sleeper

variable {α : Type} {s : Sleeper α} {kept : List (String × Nat)}

/-- What is kept for a key while a task is to run. -/
def ticket (s : Sleeper α) : String × Nat := (s.task.key, s.number)

/-- Tasks wake one after another. Each runs and gives up its number if that is still kept. -/
def wake (kept : List (String × Nat)) : List (Sleeper α) → List (DelayedTask α) × List (String × Nat)
  | [] => ([], kept)
  | s :: rest =>
    if s.ticket ∈ kept then
      let later := wake (kept.filter (·.1 ≠ s.task.key)) rest
      (s.task :: later.1, later.2)
    else wake kept rest

end Sleeper

namespace Sleepers

variable {α : Type} {p q : Sleepers α} {d : Debouncer α} {delay : Nat} {key : String}
variable {calls : List (DebounceCall α)} {call : DebounceCall α} {ran : List (DelayedTask α)}

/-- Nothing sleeps, and the clock stands at zero. -/
def new (delay : Nat) : Sleepers α := ⟨delay, 0, 0, [], []⟩

/-- The numbers kept for the other keys. -/
def others (p : Sleepers α) (key : String) : List (String × Nat) := p.kept.filter (·.1 ≠ key)

/-- The tasks that are to run. -/
def live (p : Sleepers α) : List (Sleeper α) := p.asleep.filter (·.ticket ∈ p.kept)

/-- The tasks that wake within a time. -/
def waking (p : Sleepers α) (ms : Nat) : List (Sleeper α) := p.asleep.filter (·.task.due ≤ p.now + ms)

/-- Puts a task off. The number kept for its key is that of the task from now on. -/
def schedule (p : Sleepers α) (key : String) (task : α) : Sleepers α :=
  { p with
    next := p.next + 1
    kept := p.others key ++ [(key, p.next)]
    asleep := p.asleep ++ [⟨p.next, ⟨key, p.now + p.delay, task⟩⟩] }

/-- Takes the number of a key away, and says whether there was one. -/
def cancel (p : Sleepers α) (key : String) : Bool × Sleepers α :=
  (p.kept.any (·.1 = key), { p with kept := p.others key })

/-- Moves the clock and wakes tasks one after another. -/
def sleep (p : Sleepers α) (ms : Nat) (woken : List (Sleeper α)) : List (DelayedTask α) × Sleepers α :=
  ((Sleeper.wake p.kept woken).1,
    { p with
      now := p.now + ms
      kept := (Sleeper.wake p.kept woken).2
      asleep := p.asleep.filter fun s => !decide (s.task.due ≤ p.now + ms) })

/-- The number of keys for which a number is kept. -/
def pending (p : Sleepers α) : Nat := p.kept.length

/-- What a call does and what it runs. Tasks wake in the order of their times, and in any order at the same
time. -/
inductive Step (p : Sleepers α) : DebounceCall α → List (DelayedTask α) → Sleepers α → Prop
  | schedule (key : String) (task : α) : Step p (.schedule key task) [] (p.schedule key task)
  | cancel (key : String) : Step p (.cancel key) [] (p.cancel key).2
  | sleep (ms : Nat) (woken : List (Sleeper α)) (hwoken : woken.Perm (p.waking ms))
      (hsorted : woken.Pairwise (·.task.due ≤ ·.task.due)) :
      Step p (.sleep ms) (p.sleep ms woken).1 (p.sleep ms woken).2

/-- What some calls may lead to. Tasks that have been told to stop may be gone at any time. -/
inductive Run (delay : Nat) : List (DebounceCall α) → Sleepers α → Prop
  | start : Run delay [] (new delay)
  | call {calls : List (DebounceCall α)} {call : DebounceCall α} {ran : List (DelayedTask α)}
      {p q : Sleepers α} (hrun : Run delay calls p) (hstep : p.Step call ran q) :
      Run delay (calls ++ [call]) q
  | stop {calls : List (DebounceCall α)} {p : Sleepers α} (hrun : Run delay calls p)
      (stays : Sleeper α → Bool) (hlive : ∀ s ∈ p.live, stays s = true) :
      Run delay calls { p with asleep := p.asleep.filter stays }

/-! ## Waking

As no two tasks have one number, a task that wakes does not take the number of another one away. -/

end Sleepers

namespace Sleeper

variable {α : Type} {s : Sleeper α} {kept : List (String × Nat)} {woken : List (Sleeper α)}

/-- What runs of the tasks that wake, and which numbers are kept then. -/
theorem wake_eq (hkept : (kept.map Prod.fst).Nodup) (hwoken : (woken.map number).Nodup) :
    wake kept woken = ((woken.filter (·.ticket ∈ kept)).map task,
      kept.filter fun k => k ∉ woken.map ticket) := by
  induction woken generalizing kept with
  | nil => simp [wake]
  | cons s rest ih =>
    rw [List.map_cons, List.nodup_cons] at hwoken
    obtain ⟨hfresh, hrest⟩ := hwoken
    by_cases hs : s.ticket ∈ kept
    · have hkept' : ((kept.filter (·.1 ≠ s.task.key)).map Prod.fst).Nodup :=
        hkept.sublist (List.filter_sublist.map _)
      have hother : ∀ k ∈ kept, k.1 = s.task.key ↔ k = s.ticket := by
        intro k hk
        constructor
        · exact List.inj_on_of_nodup_map hkept hk hs
        · rintro rfl
          rfl
      -- Only the ticket of the one that woke is gone, and no other one has it.
      have hruns : rest.filter (·.ticket ∈ kept.filter (·.1 ≠ s.task.key)) = rest.filter (·.ticket ∈ kept) := by
        apply List.filter_congr
        intro r hr
        apply decide_eq_decide.mpr
        rw [List.mem_filter, and_iff_left_iff_imp]
        intro hrkept
        rw [decide_eq_true_iff]
        intro hkey
        have hsame := (hother _ hrkept).mp hkey
        exact hfresh (List.mem_map.mpr ⟨r, hr, congrArg Prod.snd hsame⟩)
      have hleft : (kept.filter (·.1 ≠ s.task.key)).filter (fun k => k ∉ rest.map ticket) =
          kept.filter fun k => k ∉ (s :: rest).map ticket := by
        rw [List.filter_filter]
        apply List.filter_congr
        intro k hk
        rw [← Bool.decide_and]
        apply decide_eq_decide.mpr
        rw [List.map_cons, List.mem_cons, not_or, ← hother k hk, and_comm]
      rw [wake, if_pos hs, ih hkept' hrest, hruns, hleft]
      simp [hs]
    · have hleft : (kept.filter fun k => k ∉ rest.map ticket) =
          kept.filter fun k => k ∉ (s :: rest).map ticket := by
        apply List.filter_congr
        intro k hk
        apply decide_eq_decide.mpr
        have hne : k ≠ s.ticket := fun h => hs (h ▸ hk)
        simp [hne]
      rw [wake, if_neg hs, ih hkept hrest, hleft, List.filter_cons_of_neg (by simpa using hs)]

end Sleeper

/-! ## In step

The tasks that are to run are those that wait in the debouncer. -/

namespace Sleepers

variable {α : Type} {p q : Sleepers α} {d : Debouncer α} {delay : Nat} {key : String}
variable {calls : List (DebounceCall α)} {call : DebounceCall α} {ran : List (DelayedTask α)}

/-- The sleepers and a debouncer that agree on the time and on what is to run. -/
structure InStep (p : Sleepers α) (d : Debouncer α) : Prop where
  delay : p.delay = d.delay
  now : p.now = d.now
  fresh : ∀ s ∈ p.asleep, s.number < p.next
  distinct : (p.asleep.map Sleeper.number).Nodup
  kept : p.kept = p.live.map Sleeper.ticket
  waiting : d.waiting = p.live.map Sleeper.task

namespace InStep

theorem new (delay : Nat) : InStep (new delay : Sleepers α) (Debouncer.new delay) where
  delay := rfl
  now := rfl
  fresh := by simp [Sleepers.new]
  distinct := List.nodup_nil
  kept := rfl
  waiting := rfl

theorem keys_kept (h : InStep p d) : p.kept.map Prod.fst = d.waiting.map (·.key) := by
  rw [h.kept, h.waiting, List.map_map, List.map_map]
  rfl

/-! ### Scheduling and cancelling -/

/-- What is left to run when the number of a key is taken away. -/
theorem live_others (p : Sleepers α) (key : String) :
    p.asleep.filter (·.ticket ∈ p.others key) = p.live.filter (·.task.key ≠ key) := by
  rw [live, List.filter_filter]
  apply List.filter_congr
  intro s _
  rw [← Bool.decide_and]
  apply decide_eq_decide.mpr
  rw [others, List.mem_filter, decide_eq_true_iff, and_comm]
  rfl

theorem others_eq (h : InStep p d) (key : String) :
    p.others key = (p.live.filter (·.task.key ≠ key)).map Sleeper.ticket := by
  rw [others, h.kept, List.filter_map]
  rfl

theorem others_waiting (h : InStep p d) (key : String) :
    d.others key = (p.live.filter (·.task.key ≠ key)).map Sleeper.task := by
  rw [Debouncer.others, h.waiting, List.filter_map]
  rfl

theorem cancel (h : InStep p d) (key : String) : InStep (p.cancel key).2 (d.cancel key).2 := by
  have hlive : (p.cancel key).2.live = p.live.filter (·.task.key ≠ key) := live_others p key
  exact
    { delay := h.delay
      now := h.now
      fresh := h.fresh
      distinct := h.distinct
      kept := hlive ▸ h.others_eq key
      waiting := hlive ▸ h.others_waiting key }

/-- A task that is put off is to run beside those of other keys. -/
theorem live_schedule (h : InStep p d) (key : String) (task : α) :
    (p.schedule key task).live =
      p.live.filter (·.task.key ≠ key) ++ [⟨p.next, ⟨key, p.now + p.delay, task⟩⟩] := by
  have hold : p.asleep.filter (·.ticket ∈ p.others key ++ [(key, p.next)]) =
      p.asleep.filter (·.ticket ∈ p.others key) := by
    apply List.filter_congr
    intro s hs
    have hne : s.ticket ≠ (key, p.next) := by
      intro hsame
      exact Nat.ne_of_lt (h.fresh s hs) (congrArg Prod.snd hsame)
    simp [hne]
  rw [live, Sleepers.schedule, List.filter_append, hold, live_others]
  simp [Sleeper.ticket]

theorem schedule (h : InStep p d) (key : String) (task : α) :
    InStep (p.schedule key task) (d.schedule key task) where
  delay := h.delay
  now := h.now
  fresh := by
    intro s hs
    rcases List.mem_append.mp hs with hold | hnew
    · exact Nat.lt_succ_of_lt (h.fresh s hold)
    · rw [List.mem_singleton.mp hnew]
      exact Nat.lt_succ_self _
  distinct := by
    have hnew : p.next ∉ p.asleep.map Sleeper.number := by
      intro hmem
      obtain ⟨s, hs, hnumber⟩ := List.mem_map.mp hmem
      exact Nat.ne_of_lt (h.fresh s hs) hnumber
    rw [Sleepers.schedule, List.map_append]
    exact h.distinct.append (List.nodup_singleton _) (List.disjoint_singleton.mpr hnew)
  kept := by
    rw [h.live_schedule, List.map_append, ← h.others_eq]
    rfl
  waiting := by
    rw [h.live_schedule, List.map_append, ← h.others_waiting, h.now, h.delay]
    rfl

/-! ### Stopping -/

theorem stop (h : InStep p d) (stays : Sleeper α → Bool) (hlive : ∀ s ∈ p.live, stays s = true) :
    InStep { p with asleep := p.asleep.filter stays } d := by
  have hsame : Sleepers.live { p with asleep := p.asleep.filter stays } = p.live := by
    rw [live, live, List.filter_filter]
    apply List.filter_congr
    intro s hs
    rw [Bool.and_eq_left_iff_imp]
    intro hkept
    exact hlive s (List.mem_filter.mpr ⟨hs, hkept⟩)
  exact
    { delay := h.delay
      now := h.now
      fresh := fun s hs => h.fresh s (List.mem_filter.mp hs).1
      distinct := h.distinct.sublist (List.filter_sublist.map _)
      kept := hsame ▸ h.kept
      waiting := hsame ▸ h.waiting }

/-! ### Waking -/

variable {ms : Nat} {woken : List (Sleeper α)}

/-- What runs when the tasks wake whose times come. -/
theorem wake_waking (h : InStep p d) (hkeys : (d.waiting.map (·.key)).Nodup)
    (hwoken : woken.Perm (p.waking ms)) :
    Sleeper.wake p.kept woken = ((woken.filter (·.ticket ∈ p.kept)).map Sleeper.task,
      (p.live.filter fun s => !decide (s.task.due ≤ p.now + ms)).map Sleeper.ticket) := by
  have hdistinct : (woken.map Sleeper.number).Nodup := by
    rw [(hwoken.map _).nodup_iff]
    exact h.distinct.sublist (List.filter_sublist.map _)
  have hwakes : ∀ s ∈ p.live, s.ticket ∈ woken.map Sleeper.ticket ↔ s.task.due ≤ p.now + ms := by
    intro s hs
    have hasleep := (List.mem_filter.mp hs).1
    constructor
    · intro hmem
      obtain ⟨r, hr, hticket⟩ := List.mem_map.mp hmem
      obtain ⟨hrasleep, hdue⟩ := List.mem_filter.mp (hwoken.mem_iff.mp hr)
      obtain rfl := List.inj_on_of_nodup_map h.distinct hrasleep hasleep (congrArg Prod.snd hticket)
      exact of_decide_eq_true hdue
    · intro hdue
      exact List.mem_map_of_mem (hwoken.mem_iff.mpr (List.mem_filter.mpr ⟨hasleep, decide_eq_true hdue⟩))
  rw [Sleeper.wake_eq (h.keys_kept ▸ hkeys) hdistinct]
  congr 1
  conv => lhs; rw [h.kept]
  rw [List.filter_map]
  congr 1
  apply List.filter_congr
  intro s hs
  rw [Function.comp_apply, ← decide_not]
  apply decide_eq_decide.mpr
  rw [hwakes s hs]

theorem live_sleep (h : InStep p d) (hkeys : (d.waiting.map (·.key)).Nodup)
    (hwoken : woken.Perm (p.waking ms)) :
    (p.sleep ms woken).2.live = p.live.filter fun s => !decide (s.task.due ≤ p.now + ms) := by
  have hlater : ∀ s ∈ p.asleep,
      s.ticket ∈ (p.live.filter fun s => !decide (s.task.due ≤ p.now + ms)).map Sleeper.ticket ↔
        s ∈ p.live.filter fun s => !decide (s.task.due ≤ p.now + ms) := by
    intro s hs
    constructor
    · intro hmem
      obtain ⟨r, hr, hticket⟩ := List.mem_map.mp hmem
      have hrasleep := (List.mem_filter.mp (List.mem_filter.mp hr).1).1
      obtain rfl := List.inj_on_of_nodup_map h.distinct hrasleep hs (congrArg Prod.snd hticket)
      exact hr
    · exact List.mem_map_of_mem
  -- The tickets that are left say which tasks are, since a ticket belongs to one task.
  rw [live, Sleepers.sleep]
  dsimp only
  rw [h.wake_waking hkeys hwoken, List.filter_filter]
  dsimp only
  conv => rhs; rw [live, List.filter_filter]
  apply List.filter_congr
  intro s hs
  rw [Bool.eq_iff_iff, Bool.and_eq_true, Bool.and_eq_true, decide_eq_true_iff, hlater s hs, List.mem_filter, live,
    List.mem_filter]
  tauto

theorem sleep (h : InStep p d) (hkeys : (d.waiting.map (·.key)).Nodup)
    (hwoken : woken.Perm (p.waking ms)) : InStep (p.sleep ms woken).2 (d.sleep ms).2 where
  delay := h.delay
  now := congrArg (· + ms) h.now
  fresh := fun s hs => h.fresh s (List.mem_filter.mp hs).1
  distinct := h.distinct.sublist (List.filter_sublist.map _)
  kept := by
    rw [h.live_sleep hkeys hwoken, Sleepers.sleep, h.wake_waking hkeys hwoken]
  waiting := by
    rw [h.live_sleep hkeys hwoken, Debouncer.sleep]
    dsimp only
    rw [h.waiting, List.filter_map, h.now]
    rfl

/-- The tasks that run are those that the debouncer runs. -/
theorem perm_due (h : InStep p d) (hkeys : (d.waiting.map (·.key)).Nodup)
    (hwoken : woken.Perm (p.waking ms)) : (p.sleep ms woken).1.Perm (d.due ms) := by
  have hdue : d.due ms = ((p.waking ms).filter (·.ticket ∈ p.kept)).map Sleeper.task := by
    rw [Debouncer.due, h.waiting, List.filter_map, waking, live, List.filter_filter, List.filter_filter, h.now]
    congr 1
    exact List.filter_congr fun s _ => Bool.and_comm _ _
  rw [hdue, Sleepers.sleep, h.wake_waking hkeys hwoken]
  exact (hwoken.filter _).map _

/-! ### Calls -/

theorem step (h : InStep p d) (hkeys : (d.waiting.map (·.key)).Nodup) (hstep : p.Step call ran q) :
    InStep q (d.perform call).2 ∧ ran.Perm (d.perform call).1 := by
  cases hstep with
  | schedule key task => exact ⟨h.schedule key task, .refl _⟩
  | cancel key => exact ⟨h.cancel key, .refl _⟩
  | sleep ms woken hwoken hsorted => exact ⟨h.sleep hkeys hwoken, h.perm_due hkeys hwoken⟩

theorem run (h : Run delay calls p) : InStep p (Debouncer.after delay calls) := by
  induction h with
  | start => exact new delay
  | @call calls call ran p q _ hstep ih =>
    rw [Debouncer.after_snoc]
    exact (ih.step (Debouncer.nodup_keys_waiting delay calls) hstep).1
  | stop _ stays hlive ih => exact ih.stop stays hlive

theorem fst_cancel (h : InStep p d) (key : String) : (p.cancel key).1 = (d.cancel key).1 := by
  have hany : (p.kept.map Prod.fst).any (· = key) = (d.waiting.map (·.key)).any (· = key) :=
    congrArg (·.any (· = key)) h.keys_kept
  rwa [List.any_map, List.any_map] at hany

theorem pending_eq (h : InStep p d) : p.pending = d.pending := by
  have hlength := congrArg List.length h.keys_kept
  rwa [List.length_map, List.length_map] at hlength

end InStep

/-- What runs at one call runs in the order of the times. -/
theorem Step.pairwise_due (h : p.Step call ran q) (hp : InStep p d) (hkeys : (d.waiting.map (·.key)).Nodup) :
    ran.Pairwise (·.due ≤ ·.due) := by
  cases h with
  | schedule key task => exact .nil
  | cancel key => exact .nil
  | sleep ms woken hwoken hsorted =>
    rw [Sleepers.sleep, hp.wake_waking hkeys hwoken, List.pairwise_map]
    exact hsorted.filter _

/-- Every call can be answered. -/
theorem exists_step (p : Sleepers α) (call : DebounceCall α) : ∃ ran q, p.Step call ran q := by
  cases call with
  | schedule key task => exact ⟨_, _, .schedule key task⟩
  | cancel key => exact ⟨_, _, .cancel key⟩
  | sleep ms =>
    let early : Sleeper α → Sleeper α → Bool := fun s r => s.task.due ≤ r.task.due
    have hsorted : ((p.waking ms).mergeSort early).Pairwise (early · ·) := by
      apply List.pairwise_mergeSort
      · intro a b c hab hbc
        exact decide_eq_true (Nat.le_trans (of_decide_eq_true hab) (of_decide_eq_true hbc))
      · intro a b
        rcases Nat.le_total a.task.due b.task.due with hle | hle <;> simp [early, hle]
    exact ⟨_, _, .sleep ms _ (List.mergeSort_perm ..) (hsorted.imp of_decide_eq_true)⟩

end Sleepers

namespace Debouncer

variable {α : Type}

/-- Whatever the calls: what a call runs are the tasks whose time it is the first to reach, each of them once
and in the order of their times. A task has its time a delay after the call that put it off, and runs while
the clock passes it, unless its key is scheduled again or cancelled before. Calls about other keys make no
difference to it. Cancelling says whether a task is outstanding under a key, and as many tasks wait as there
are such keys. Tasks that sleep each by themselves, under numbers of their own, do all of that in the same
way. -/
theorem exact_of_calls (delay : Nat) (calls : List (DebounceCall α)) :
    (∀ m, Lists (fun n t => RunsAt delay t n calls m) (ranAt delay calls m) ∧
        (ranAt delay calls m).Pairwise (·.due ≤ ·.due)) ∧
      (∀ n t, HappensAt (PutsOff delay t) calls n →
        t.due = clock (calls.take n) + delay ∧
        ((∃ m, RunsAt delay t n calls m) ↔ ∃ m, n < m ∧ HappensAt (Reaches t) calls m ∧
          ∀ k, n < k → k < m → ¬ HappensAt (Replaces t) calls k) ∧
        ∀ m, RunsAt delay t n calls m →
          (clock (calls.take m) ≤ t.due ∧ t.due ≤ clock (calls.take (m + 1))) ∧
          ∀ k, RunsAt delay t n calls k → m = k) ∧
      (∀ key, (ran delay calls).filter (·.key = key) =
        (ran delay (calls.filter (·.concerns key))).filter (·.key = key)) ∧
      (∀ key, ((after delay calls).cancel key).1 = true ↔ Pending delay key calls) ∧
      (∃ keys : List String, keys.Nodup ∧ keys.length = (after delay calls).pending ∧
        ∀ key, key ∈ keys ↔ Pending delay key calls) ∧
      ∀ p, Sleepers.Run delay calls p →
        (∀ key, (p.cancel key).1 = ((after delay calls).cancel key).1) ∧
        p.pending = (after delay calls).pending ∧
        (∀ call, ∃ ran q, p.Step call ran q) ∧
        ∀ call ran q, p.Step call ran q →
          ran.Perm ((after delay calls).perform call).1 ∧ ran.Pairwise (·.due ≤ ·.due) := by
  refine ⟨fun m => ⟨lists_ranAt delay calls m, pairwise_due_ranAt delay calls m⟩, ?_,
    fun key => (tasks_filter_concerns delay key calls).1, fun key => fst_cancel_iff, ?_, ?_⟩
  · intro n t hputs
    refine ⟨due_of_putsOff hputs, ?_, fun m hruns => ⟨hruns.due_mem, fun k hruns' => hruns.unique hruns'⟩⟩
    rw [exists_runsAt_iff]
    exact and_iff_right hputs
  · exact ⟨_, nodup_keys_waiting delay calls, List.length_map _, fun key => mem_keys_waiting_iff⟩
  · intro p hrun
    have hkeys := nodup_keys_waiting delay calls
    have hp := Sleepers.InStep.run hrun
    refine ⟨hp.fst_cancel, hp.pending_eq, p.exists_step, fun call ran q hstep => ⟨?_, ?_⟩⟩
    · exact (hp.step hkeys hstep).2
    · exact hstep.pairwise_due hp hkeys

end Debouncer

end PolicyAudit
