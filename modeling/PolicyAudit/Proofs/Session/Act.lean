-- SUMMARY: The single acts that the events come down to.
import PolicyAudit.Proofs.Session.Event

/-! ## Acts

Every event but the closing of a document comes down to acts of four kinds, each on one document or on
the clock. What every act keeps is kept by every event and by every run. The calls that validate a text,
the service's own among them, are the acts of the first kind: as the cache counts its look-ups, an event
has the effect of its acts only if no such call is left out. -/

namespace PolicyAudit

/-- One act of the service. -/
inductive Act where
  | validate (id text : String) (version : Nat)
  | change (id text : String) (version : Nat)
  | cancel (id : String)
  | tick (ms : Nat)

/-- The document that an act is on. -/
def Act.subject? : Act → Option String
  | .validate id _ _ | .change id _ _ | .cancel id => some id
  | .tick _ => none

namespace Service

variable {s : Service} {id : String}

/-- The state after an act. -/
def act (s : Service) : Act → Service
  | .validate id text version => (s.validate id text version).2
  | .change id text version => s.didChange id text version
  | .cancel id => s.cancel id
  | .tick ms => { s with debouncer := s.debouncer.tick ms }

/-- The state after one act upon the other. -/
def enact (s : Service) (acts : List Act) : Service := acts.foldl act s

@[simp] theorem enact_nil (s : Service) : s.enact [] = s := rfl

@[simp] theorem enact_cons (s : Service) (a : Act) (acts : List Act) :
    s.enact (a :: acts) = (s.act a).enact acts := rfl

@[simp] theorem enact_append (s : Service) (first second : List Act) :
    s.enact (first ++ second) = (s.enact first).enact second := List.foldl_append

/-- An act on one document spares all the others. -/
theorem spares_act {a : Act} (hne : a.subject? ≠ some id) : Spares id s (s.act a) := by
  cases a <;> simp only [Act.subject?, ne_eq, Option.some.injEq] at hne
  case validate => exact spares_validate (Ne.symm hne)
  case change => exact spares_didChange (Ne.symm hne) ..
  case cancel => exact spares_cancel (Ne.symm hne) s
  case tick => exact spares_tick s _

/-- What sparing a document keeps, and what the acts on it keep, every act keeps. -/
theorem act_cases {motive : Service → Prop} (a : Act) (hspares : ∀ t, Spares id s t → motive t)
    (hvalidate : ∀ text version, a = .validate id text version →
      motive (s.validate id text version).2)
    (hchange : ∀ text version, a = .change id text version → motive (s.didChange id text version))
    (hcancel : motive (s.cancel id)) : motive (s.act a) := by
  by_cases hid : a.subject? = some id
  · cases a <;> simp only [Act.subject?, Option.some.injEq, reduceCtorEq] at hid
    all_goals subst hid
    case validate d text version => exact hvalidate text version rfl
    case change d text version => exact hchange text version rfl
    case cancel => exact hcancel
  · exact hspares _ (spares_act hid)

theorem options_validate (s : Service) (id text : String) (version : Nat) :
    (s.validate id text version).2.options = s.options := by
  rcases validate_self_cases s id text version with hspares | ⟨-, -, hrenewed⟩
  · exact hspares.options
  · rw [hrenewed]
    exact options_adopt

@[simp] theorem options_act (s : Service) (a : Act) : (s.act a).options = s.options := by
  cases a with
  | validate id text version => exact options_validate s id text version
  | change id text version =>
    cases hcurrent : s.isCurrent id version with
    | true => rw [act, didChange_of_current hcurrent]; rfl
    | false => rw [act, didChange_of_old hcurrent]
  | cancel | tick => rfl

@[simp] theorem options_enact (s : Service) (acts : List Act) :
    (s.enact acts).options = s.options := by
  induction acts generalizing s with
  | nil => rfl
  | cons a rest ih => rw [enact_cons, ih, options_act]

/-! ## The acts of each operation -/

/-- The acts of validating the stored text of a document. -/
def storedActs (s : Service) (id : String) : List Act :=
  match s.document? id with
  | some stored => [.validate id stored.text stored.version]
  | none => []

/-- The acts of a task of a document that has fallen due. -/
def expireActs (s : Service) (id : String) : List Act :=
  if s.debouncer.isWaiting id then .cancel id :: s.storedActs id else []

/-- The acts of several tasks that fall due, in their order. -/
def dueActs : List (DelayedTask Unit) → Service → List Act
  | [], _ => []
  | task :: rest, s => s.expireActs task.key ++ dueActs rest (s.expire task.key)

/-- The acts of applying an edit to the stored text of a document. -/
def commitActs (s : Service) (id : String) (edit : Edit) : List Act :=
  match (s.commit id edit).1 with
  | .ok fixed => [.cancel id, .validate id fixed.text fixed.version]
  | .error _ => []

/-- The acts of resolving one finding. -/
def applyFixActs (s : Service) (id code : String) (range : Range) : List Act :=
  s.storedActs id ++
    match s.requestFix id code range with
    | (some edit, s) => s.commitActs id edit
    | (none, _) => []

/-- The acts of a number of passes. -/
def passActs (id : String) : (passes : Nat) → FixAll → Service → List Act
  | 0, _, _ => []
  | passes + 1, done, s =>
    match done.result?.bind (nextFix? s.options done.text) with
    | none => []
    | some (code, edit) =>
      s.commitActs id edit ++
        match s.commit id edit with
        | (.error _, _) => []
        | (.ok fixed, s) =>
          passActs id passes
            ⟨done.applied ++ [code], fixed.text, fixed.version, fixed.result?⟩ s

/-- The acts of resolving every finding. -/
def fixAllActs (s : Service) (id : String) : List Act :=
  s.storedActs id ++
    match s.document? id with
    | none => []
    | some stored =>
      let (result?, s) := s.validate id stored.text stored.version
      passActs id maxFixes ⟨[], stored.text, stored.version, result?⟩ s

/-! ## Acts on one document

An operation on a document only does away with the document's task and validates texts of it. -/

/-- The acts do away with the task of a document and validate texts of it. -/
def Examines (id : String) (acts : List Act) : Prop :=
  ∀ a ∈ acts, a = .cancel id ∨ ∃ text version, a = .validate id text version

namespace Examines

variable {first second : List Act}

theorem nil (id : String) : Examines id [] := fun _ ha => absurd ha List.not_mem_nil

theorem append (h : Examines id first) (h' : Examines id second) : Examines id (first ++ second) :=
  fun a ha => (List.mem_append.mp ha).elim (h a) (h' a)

theorem validate (id text : String) (version : Nat) : Examines id [.validate id text version] :=
  fun _ ha => .inr ⟨text, version, List.mem_singleton.mp ha⟩

theorem cancel (h : Examines id first) : Examines id (.cancel id :: first) :=
  fun a ha => (List.mem_cons.mp ha).elim .inl (h a)

theorem storedActs (s : Service) (id : String) : Examines id (s.storedActs id) := by
  unfold Service.storedActs
  split
  · exact validate id _ _
  · exact nil id

theorem expireActs (s : Service) (id : String) : Examines id (s.expireActs id) := by
  unfold Service.expireActs
  split
  · exact (storedActs s id).cancel
  · exact nil id

theorem commitActs (s : Service) (id : String) (edit : Edit) : Examines id (s.commitActs id edit) := by
  unfold Service.commitActs
  split
  · exact (validate id _ _).cancel
  · exact nil id

theorem applyFixActs (s : Service) (id code : String) (range : Range) :
    Examines id (s.applyFixActs id code range) := by
  refine (storedActs s id).append ?_
  split
  · exact commitActs _ id _
  · exact nil id

theorem passActs (id : String) (passes : Nat) (done : FixAll) (s : Service) :
    Examines id (passActs id passes done s) := by
  induction passes generalizing done s with
  | zero => exact nil id
  | succ n ih =>
    unfold Service.passActs
    split
    · exact nil id
    · refine (commitActs s id _).append ?_
      split
      · exact nil id
      · exact ih _ _

theorem fixAllActs (s : Service) (id : String) : Examines id (s.fixAllActs id) := by
  refine (storedActs s id).append ?_
  split
  · exact nil id
  · exact passActs id maxFixes _ _

theorem subject? (h : Examines id first) : ∀ a ∈ first, a.subject? = some id := by
  intro a ha
  rcases h a ha with rfl | ⟨text, version, rfl⟩
  · rfl
  · rfl

end Examines

/-! ## The operations are their acts -/

@[simp] theorem enact_storedActs (s : Service) (id : String) :
    s.enact (s.storedActs id) = s.validateStored id := by
  unfold storedActs validateStored
  cases s.document? id <;> rfl

@[simp] theorem enact_expireActs (s : Service) (id : String) :
    s.enact (s.expireActs id) = s.expire id := by
  unfold expireActs expire
  split
  · exact enact_storedActs (s.cancel id) id
  · rfl

@[simp] theorem enact_dueActs (tasks : List (DelayedTask Unit)) (s : Service) :
    s.enact (dueActs tasks s) = tasks.foldl (fun s task => s.expire task.key) s := by
  induction tasks generalizing s with
  | nil => rfl
  | cons task rest ih => rw [dueActs, enact_append, enact_expireActs, ih, List.foldl_cons]

@[simp] theorem enact_commitActs (s : Service) (id : String) (edit : Edit) :
    s.enact (s.commitActs id edit) = (s.commit id edit).2 := by
  unfold commitActs
  rcases commit_cases s id edit with ⟨e, hcommit⟩ | ⟨stored, text, -, -, hcommit⟩
  · rw [hcommit]
    rfl
  · rw [hcommit]
    rfl

@[simp] theorem enact_applyFixActs (s : Service) (id code : String) (range : Range) :
    s.enact (s.applyFixActs id code range) = (s.applyFix id code range).2 := by
  rw [applyFixActs, enact_append, enact_storedActs, ← snd_requestFix s id code range]
  unfold applyFix
  rcases s.requestFix id code range with ⟨_ | edit, s'⟩
  · rfl
  · dsimp only
    rw [enact_commitActs]
    rcases s'.commit id edit with ⟨_ | fixed, s''⟩ <;> rfl

@[simp] theorem enact_passActs (id : String) (passes : Nat) (done : FixAll) (s : Service) :
    s.enact (passActs id passes done s) = (fixPasses id passes done s).2 := by
  induction passes generalizing done s with
  | zero => rfl
  | succ n ih =>
    unfold passActs fixPasses
    rcases done.result?.bind (nextFix? s.options done.text) with _ | ⟨code, edit⟩
    · rfl
    · dsimp only
      rw [enact_append, enact_commitActs]
      rcases s.commit id edit with ⟨_ | fixed, s'⟩
      · rfl
      · exact ih ..

@[simp] theorem enact_fixAllActs (s : Service) (id : String) :
    s.enact (s.fixAllActs id) = (s.fixAll id).2 := by
  unfold fixAllActs fixAll fixSome storedActs
  cases s.document? id with
  | none => rfl
  | some stored => exact enact_passActs ..

end Service

/-- The acts that an event comes down to. The closing of a document is none of them. -/
def Event.acts (s : Service) : Event → List Act
  | .didOpen id text version | .validate id text version => [.validate id text version]
  | .didChange id text version => [.change id text version]
  | .fixApplied id text version => [.cancel id, .validate id text version]
  | .requestFix id _ _ => s.storedActs id
  | .applyFix id code range => s.applyFixActs id code range
  | .fixAll id => s.fixAllActs id
  | .didClose _ => []
  | .expire id => s.expireActs id
  | .sleep ms =>
    .tick ms :: Service.dueActs (s.debouncer.due ms) { s with debouncer := s.debouncer.tick ms }

/-- The acts of an event are on the document that the event is about. -/
theorem Event.subject?_of_mem_acts {s : Service} {id : String} {e : Event} (h : e.subject? = some id) :
    ∀ a ∈ e.acts s, a.subject? = some id := by
  cases e <;> simp only [Event.subject?, Option.some.injEq, reduceCtorEq] at h
  all_goals subst h
  case didOpen d text version => exact (Service.Examines.validate d text version).subject?
  case validate d text version => exact (Service.Examines.validate d text version).subject?
  case didChange d text version => exact fun a ha => List.mem_singleton.mp ha ▸ rfl
  case fixApplied d text version => exact (Service.Examines.validate d text version).cancel.subject?
  case requestFix d code range => exact (Service.Examines.storedActs s d).subject?
  case applyFix d code range => exact (Service.Examines.applyFixActs s d code range).subject?
  case fixAll d => exact (Service.Examines.fixAllActs s d).subject?
  case didClose d => exact (Service.Examines.nil d).subject?
  case expire d => exact (Service.Examines.expireActs s d).subject?

/-- An event closes a document or is its acts. -/
theorem Service.perform_cases (s : Service) (e : Event) :
    (∃ d, e = .didClose d) ∨ s.perform e = s.enact (e.acts s) := by
  cases e
  case didClose id => exact .inl ⟨id, rfl⟩
  all_goals right
  case requestFix id code range => exact (snd_requestFix ..).trans (enact_storedActs s id).symm
  case applyFix id code range => exact (enact_applyFixActs ..).symm
  case fixAll id => exact (enact_fixAllActs ..).symm
  case expire id => exact (enact_expireActs ..).symm
  case sleep ms => exact (enact_dueActs ..).symm
  all_goals rfl

theorem Service.options_perform (s : Service) (e : Event) : (s.perform e).options = s.options := by
  rcases perform_cases s e with ⟨d, rfl⟩ | hacts
  · rfl
  · rw [hacts, options_enact]

theorem Service.options_foldl_perform (s : Service) (events : List Event) :
    (events.foldl perform s).options = s.options := by
  induction events generalizing s with
  | nil => rfl
  | cons e rest ih => rw [List.foldl_cons, ih, options_perform]

end PolicyAudit
