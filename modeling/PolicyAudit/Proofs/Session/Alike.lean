-- SUMMARY: When two states of the service cannot be told apart through one document.
import PolicyAudit.Proofs.Schema.Warmth
import PolicyAudit.Proofs.Session.Act

/-! ## The tasks of a document

What waits under one key is not changed by what happens to the other keys. -/

namespace PolicyAudit

namespace Debouncer

variable {α : Type} {d : Debouncer α} {key other : String} {task : DelayedTask α}

/-- The tasks that wait under a key. -/
def tasks (d : Debouncer α) (key : String) : List (DelayedTask α) := d.waiting.filter (·.key = key)

theorem tasks_cancel_self (d : Debouncer α) (key : String) : (d.cancel key).2.tasks key = [] := by
  simp [cancel, tasks, others]

theorem tasks_cancel_of_ne (h : other ≠ key) : (d.cancel key).2.tasks other = d.tasks other := by
  simp only [cancel, tasks, others, List.filter_filter]
  refine List.filter_congr fun task _ => ?_
  by_cases htask : task.key = other
  · simp [htask, h]
  · simp [htask]

theorem tasks_schedule_self (d : Debouncer α) (key : String) (a : α) :
    (d.schedule key a).tasks key = [⟨key, d.now + d.delay, a⟩] := by
  simp [schedule, tasks, others]

theorem tasks_schedule_of_ne (h : other ≠ key) (a : α) :
    (d.schedule key a).tasks other = d.tasks other := by
  have hcancel := tasks_cancel_of_ne (d := d) h
  simp only [cancel, tasks] at hcancel
  simp [schedule, tasks, hcancel, Ne.symm h]

theorem isWaiting_eq_any_tasks (d : Debouncer α) (key : String) :
    d.isWaiting key = (d.tasks key).any fun _ => true := by
  simp [isWaiting, tasks, List.any_filter]

/-- Of the tasks that fall due, those under a key are the tasks under the key that fall due. -/
theorem filter_due (d : Debouncer α) (key : String) (ms : Nat) :
    (d.due ms).filter (·.key = key) = (d.tasks key).filter (·.due ≤ d.now + ms) := by
  simp only [due, tasks, List.filter_filter]
  exact List.filter_congr fun task _ => Bool.and_comm _ _

end Debouncer

/-! ## Alike

Two states are alike for a document if they know the same of it and of the time, and their registries give
the same answers. They may differ in the cache, in what is counted, and in everything about the other
documents. -/

namespace Service

variable {s t u : Service} {id other text : String} {version : Nat}

/-- Two states that know the same of a document. -/
structure Alike (id : String) (s t : Service) : Prop where
  registry : s.registry.Agrees t.registry
  options : t.options = s.options
  document : t.document? id = s.document? id
  shown : t.board.shown? id = s.board.shown? id
  delay : t.debouncer.delay = s.debouncer.delay
  now : t.debouncer.now = s.debouncer.now
  tasks : t.debouncer.tasks id = s.debouncer.tasks id

namespace Alike

theorem refl (id : String) (s : Service) : Alike id s s := ⟨.refl _, rfl, rfl, rfl, rfl, rfl, rfl⟩

theorem symm (h : Alike id s t) : Alike id t s :=
  ⟨h.registry.symm, h.options.symm, h.document.symm, h.shown.symm, h.delay.symm, h.now.symm,
    h.tasks.symm⟩

theorem trans (h : Alike id s t) (h' : Alike id t u) : Alike id s u where
  registry := h.registry.trans h'.registry
  options := h'.options.trans h.options
  document := h'.document.trans h.document
  shown := h'.shown.trans h.shown
  delay := h'.delay.trans h.delay
  now := h'.now.trans h.now
  tasks := h'.tasks.trans h.tasks

theorem isWaiting_eq (h : Alike id s t) : t.debouncer.isWaiting id = s.debouncer.isWaiting id := by
  rw [Debouncer.isWaiting_eq_any_tasks, Debouncer.isWaiting_eq_any_tasks, h.tasks]

theorem isCurrent_eq (h : Alike id s t) (version : Nat) :
    t.isCurrent id version = s.isCurrent id version := by
  simp only [isCurrent, h.document]

end Alike

/-- A text calls for the same validation in states whose registries give the same answers. -/
theorem fresh?_of_agrees (hwarm : s.registry.Warm) (hagrees : s.registry.Agrees t.registry)
    (hoptions : t.options = s.options) (stored : Stored) : t.fresh? id stored = s.fresh? id stored := by
  rw [fresh?, hoptions]
  exact (asks_validateText s.options id stored.text stored.version).repeats.same hwarm hagrees

/-! ## Validating -/

theorem debouncer_validate (s : Service) (id text : String) (version : Nat) :
    (s.validate id text version).2.debouncer = s.debouncer := by
  by_cases hhit : ∃ r, s.cache.peek? id = some r ∧ r.version = version
  · obtain ⟨r, hr, hversion⟩ := hhit
    rw [validate_of_hit hr hversion]
  · rw [validate_of_miss fun r hr hversion => hhit ⟨r, hr, hversion⟩]
    split
    · exact debouncer_adopt
    · rfl

theorem agrees_validate (hwarm : s.registry.Warm) (id text : String) (version : Nat) :
    s.registry.Agrees (s.validate id text version).2.registry := by
  have hagrees : s.registry.Agrees (s.validated id text version).registry :=
    (asks_validateText s.options id text version).repeats.agrees hwarm
  by_cases hhit : ∃ r, s.cache.peek? id = some r ∧ r.version = version
  · obtain ⟨r, hr, hversion⟩ := hhit
    rw [validate_of_hit hr hversion]
    exact .refl _
  · rw [validate_of_miss fun r hr hversion => hhit ⟨r, hr, hversion⟩]
    split
    · rw [renewed, registry_adopt]
      exact hagrees
    · exact hagrees

/-! ## What happens to other documents -/

/-- An act on another document. -/
theorem alike_act {a : Act} (hwarm : s.registry.Warm) (hsubject : a.subject? = some other)
    (hne : id ≠ other) : Alike id s (s.act a) := by
  have hspares : Spares id s (s.act a) := spares_act (by simp [hsubject, Ne.symm hne])
  cases a <;> simp only [Act.subject?, Option.some.injEq, reduceCtorEq] at hsubject
  all_goals subst hsubject
  case validate d text version =>
    have hdebouncer := debouncer_validate s d text version
    exact ⟨agrees_validate hwarm d text version, hspares.options, hspares.document, hspares.shown,
      congrArg _ hdebouncer, congrArg _ hdebouncer, congrArg (·.tasks id) hdebouncer⟩
  case change d text version =>
    cases hcurrent : s.isCurrent d version with
    | false =>
      rw [act, didChange_of_old hcurrent]
      exact .refl id s
    | true =>
      rw [act, didChange_of_current hcurrent] at hspares ⊢
      exact ⟨.refl _, hspares.options, hspares.document, hspares.shown, rfl, rfl,
        Debouncer.tasks_schedule_of_ne hne ()⟩
  case cancel d =>
    exact ⟨.refl _, hspares.options, hspares.document, hspares.shown, rfl, rfl,
      Debouncer.tasks_cancel_of_ne hne⟩

theorem alike_enact {acts : List Act} (hwarm : s.registry.Warm)
    (hsubject : ∀ a ∈ acts, a.subject? = some other) (hne : id ≠ other) :
    Alike id s (s.enact acts) := by
  induction acts generalizing s with
  | nil => exact .refl id s
  | cons a rest ih =>
    have hfirst : Alike id s (s.act a) := alike_act hwarm (hsubject a List.mem_cons_self) hne
    exact hfirst.trans (ih (hwarm.of_agrees hfirst.registry)
      fun b hb => hsubject b (List.mem_cons_of_mem a hb))

/-- An event that is about another document. -/
theorem alike_perform {e : Event} (hwarm : s.registry.Warm) (hsubject : e.subject? = some other)
    (hne : id ≠ other) : Alike id s (s.perform e) := by
  rcases perform_cases s e with ⟨d, rfl⟩ | hacts
  · obtain rfl := Option.some.inj hsubject
    have hspares := spares_didClose hne s
    exact ⟨.refl _, hspares.options, hspares.document, hspares.shown, rfl, rfl,
      Debouncer.tasks_cancel_of_ne hne⟩
  · rw [hacts]
    exact alike_enact hwarm (Event.subject?_of_mem_acts hsubject) hne

end Service

end PolicyAudit
