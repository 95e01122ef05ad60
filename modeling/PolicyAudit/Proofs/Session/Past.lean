-- SUMMARY: What has happened to a document, and what the service knows of it in consequence.
import PolicyAudit.Proofs.Session.Event

/-! ## The past of a document

The past of a document is what has happened to it since it was last closed. It is no part of the
state: it says in terms of the events which text the service answers for. -/

namespace PolicyAudit

/-- What has happened to a document since it was last closed. -/
structure Past where
  /-- The texts that came with events or were made by fixes. -/
  received : List Stored
  /-- The text that was in store when it was last validated. -/
  checked? : Option Stored
  /-- The task of the document was done away with for a version out of date, and its stored text has
  not been validated since. -/
  dropped : Bool

namespace Event

/-- The texts of a document that come with an event or are made by its fixes. -/
def receipts (s : Service) (id : String) (e : Event) : List Stored :=
  if e.subject? = some id then
    match e with
    | .didOpen _ text version | .validate _ text version | .didChange _ text version
    | .fixApplied _ text version => [⟨text, version⟩]
    | .applyFix _ code range =>
      match (s.applyFix id code range).1 with
      | .ok (some fixed) => [⟨fixed.text, fixed.version⟩]
      | _ => []
    | .fixAll _ =>
      -- What has been made after each number of passes.
      (List.range (Service.maxFixes + 1)).filterMap fun passes =>
        match (s.fixSome id passes).1 with
        | .ok done => some ⟨done.text, done.version⟩
        | .error _ => none
    | _ => []
  else []

/-- Whether an event validates the text of a document that is then in store. -/
def checks (s : Service) (id : String) : Event → Bool
  | .didOpen d _ version | .validate d _ version | .fixApplied d _ version =>
    d = id && s.isCurrent id version
  | .requestFix d _ _ | .applyFix d _ _ | .fixAll d => d = id && (s.document? id).isSome
  | .expire d => d = id && s.debouncer.isWaiting id
  | .sleep ms => (s.debouncer.due ms).any (·.key = id)
  | .didChange .. | .didClose _ => false

/-- Whether an event does away with the task of a document for a version that is out of date. -/
def drops (s : Service) (id : String) : Event → Bool
  | .fixApplied d _ version => d = id && s.debouncer.isWaiting id && !s.isCurrent id version
  | _ => false

end Event

namespace Past

/-- Nothing has happened yet. -/
def clear : Past := ⟨[], none, false⟩

/-- No version came with two texts. -/
def Consistent (past : Past) : Prop :=
  ∀ a ∈ past.received, ∀ b ∈ past.received, a.version = b.version → a = b

instance (past : Past) : Decidable past.Consistent :=
  inferInstanceAs (Decidable (∀ a ∈ past.received, ∀ b ∈ past.received,
    a.version = b.version → a = b))

/-- More texts came. -/
def receive (past : Past) (texts : List Stored) : Past :=
  { past with received := past.received ++ texts }

/-- The text in store has been validated. -/
def check (past : Past) (stored : Stored) : Past := ⟨past.received, some stored, false⟩

/-- The past after an event. -/
def after (past : Past) (s : Service) (id : String) : Event → Past
  | .didClose d => if d = id then clear else past
  | e =>
    { received := past.received ++ e.receipts s id
      checked? := if e.checks s id then (s.perform e).document? id else past.checked?
      dropped := !e.checks s id && (past.dropped || e.drops s id) }

/-- The past after events that happen from a state on. -/
def along (id : String) : Past → Service → List Event → Past
  | past, _, [] => past
  | past, s, e :: rest => along id (past.after s id e) (s.perform e) rest

end Past

/-- The runs of the service, with the past of one document. No version of it comes with two texts
between two closes. -/
inductive Run (start : Service) (id : String) : Service → Past → Prop where
  | start : Run start id start .clear
  | step {s past} (e : Event) : Run start id s past → (past.after s id e).Consistent →
      Run start id (s.perform e) (past.after s id e)

/-! ## What is known of a document -/

namespace Past

open Service

variable {past : Past} {s s' : Service} {id text : String} {version : Nat} {stored : Stored}

/-- The state knows of a document what its past says. The text that was checked last is at most as new
as the one in store, what is kept and shown is its validation, and it is the one in store unless a
task waits or has been dropped. -/
structure Matches (past : Past) (s : Service) (id : String) : Prop where
  stored : ∀ {d}, s.document? id = some d → d ∈ past.received
  checked : ∀ {c}, past.checked? = some c →
    c ∈ past.received ∧ ∃ d, s.document? id = some d ∧ c.version ≤ d.version
  settled : ∀ {c}, past.checked? = some c → ∀ {r}, s.registry.GrowsInto r →
    (validateText r s.options id c.text c.version).1 = s.fresh? id c
  cached : ∀ {v}, s.cache.peek? id = some v → ∃ c, past.checked? = some c ∧ s.fresh? id c = some v
  shown : s.board.shown? id = past.checked?.bind (s.freshly? id)
  waiting : s.debouncer.isWaiting id = true → ∃ d, s.document? id = some d
  rest : s.debouncer.isWaiting id = false → past.dropped = false →
    past.checked? = s.document? id

theorem matches_new (registry : Registry) (options : LintOptions) (delay capacity : Nat)
    (id : String) : Matches .clear (.new registry options delay capacity) id where
  stored := nofun
  checked := nofun
  settled := nofun
  cached := nofun
  shown := rfl
  waiting := nofun
  rest := fun _ _ => rfl

theorem Matches.of_spares (h : past.Matches s id) (hspares : Spares id s s') :
    past.Matches s' id := by
  have hfresh : ∀ {c}, past.checked? = some c → s'.fresh? id c = s.fresh? id c := by
    intro c hc
    rw [fresh?, hspares.options]
    exact h.settled hc hspares.registry
  constructor
  case stored => rw [hspares.document]; exact h.stored
  case checked => rw [hspares.document]; exact h.checked
  case settled =>
    intro c hc r hgrow
    rw [hspares.options, hfresh hc]
    exact h.settled hc (hspares.registry.trans hgrow)
  case cached =>
    intro v hv
    obtain ⟨c, hc, hcv⟩ := h.cached (hspares.cached hv)
    exact ⟨c, hc, (hfresh hc).trans hcv⟩
  case shown =>
    rw [hspares.shown, h.shown]
    cases hc : past.checked? with
    | none => rfl
    | some c => simp only [Option.bind_some, freshly?, hfresh hc]
  case waiting => rw [hspares.waiting, hspares.document]; exact h.waiting
  case rest => rw [hspares.waiting, hspares.document]; exact h.rest

theorem Matches.receive (h : past.Matches s id) (texts : List Stored) :
    (past.receive texts).Matches s id where
  stored := fun hd => List.mem_append_left _ (h.stored hd)
  checked := fun hc => ⟨List.mem_append_left _ (h.checked hc).1, (h.checked hc).2⟩
  settled := h.settled
  cached := h.cached
  shown := h.shown
  waiting := h.waiting
  rest := h.rest

/-- A task that is done away with is dropped until the document is validated again. -/
theorem Matches.cancel (h : past.Matches s id) :
    Matches { past with dropped := past.dropped || s.debouncer.isWaiting id } (s.cancel id) id where
  stored := h.stored
  checked := h.checked
  settled := h.settled
  cached := h.cached
  shown := h.shown
  waiting := by
    intro hwaiting
    exact absurd hwaiting (by simp [Service.cancel, Debouncer.isWaiting_cancel_self])
  rest := by
    intro _ hdropped
    rw [Bool.or_eq_false_iff] at hdropped
    exact h.rest hdropped.2 hdropped.1

theorem matches_of_renews (hrenews : Renews id stored s s') (hmem : stored ∈ past.received) :
    (past.check stored).Matches s' id where
  stored := by
    intro d hd
    obtain rfl : stored = d := Option.some.inj (hrenews.document.symm.trans hd)
    exact hmem
  checked := by
    rintro c ⟨⟩
    exact ⟨hmem, stored, hrenews.document, Nat.le_refl _⟩
  settled := by
    rintro c ⟨⟩ r hgrow
    exact hrenews.settled hgrow
  cached := fun hv => ⟨stored, rfl, hrenews.cached hv⟩
  shown := hrenews.shown
  waiting := fun _ => ⟨stored, hrenews.document⟩
  rest := fun _ _ => hrenews.document.symm

end Past

end PolicyAudit
