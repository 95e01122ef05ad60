-- SUMMARY: The findings of the rules point at the places that they are about.
import PolicyAudit.Lint.Check
import PolicyAudit.Proofs.Policy.Part
import PolicyAudit.Proofs.Syntax.Placement

/-! ## Findings that point at a part -/

namespace PolicyAudit

/-- The names under which the data of a finding quote the text that it is about. -/
def Issue.quoting : List String := ["effect", "referenceId", "name"]

namespace Context

variable {ctx : Context} {issue : Issue} {issues more : List Issue} {part : Part}

/-- A finding points at a part of the document: its data hold the path of the part and quote no text
but the one there, and its range is the one at that path. -/
structure PointsAt (ctx : Context) (part : Part) (issue : Issue) : Prop where
  stands : part.StandsIn ctx.value
  path : issue.data.get? "path" = some part.path.toJson
  range : issue.range = ctx.doc.rangeAt part.path
  quotes : ∀ name ∈ Issue.quoting, ∀ text, issue.text? name = some text →
    part.value.string? = some text

/-- Each of some findings points at a part. -/
def Points (ctx : Context) (issues : List Issue) : Prop :=
  ∀ issue ∈ issues, ∃ part, ctx.PointsAt part issue

/-- A finding points at a part when its data are the path of the part and texts that are there. Its
severity and its hint do not matter. -/
theorem PointsAt.of_data {quoted : List (String × Json)} (h : part.StandsIn ctx.value)
    (hdata : issue.data = .ofMembers (("path", part.path.toJson) :: quoted))
    (hrange : issue.range = ctx.doc.rangeAt part.path)
    (hquoted : ∀ name ∈ Issue.quoting, ∀ text, Keyed.find? name quoted = some (.string text) →
      part.value.string? = some text) : ctx.PointsAt part issue where
  stands := h
  path := by rw [hdata, Json.get?_ofMembers, Keyed.find?_cons, if_pos rfl]
  range := hrange
  quotes := by
    intro name hname text htext
    obtain ⟨value, hvalue, hstring⟩ := Option.bind_eq_some_iff.mp htext
    have hne : "path" ≠ name := by
      rintro rfl
      simp [Issue.quoting] at hname
    rw [hdata, Json.get?_ofMembers, Keyed.find?_cons, if_neg hne] at hvalue
    unfold Json.string? at hstring
    split at hstring
    · obtain rfl := Option.some.inj hstring
      exact hquoted name hname _ hvalue
    · cases hstring

theorem Points.nil (ctx : Context) : ctx.Points [] := nofun

theorem Points.singleton (h : ctx.PointsAt part issue) : ctx.Points [issue] := by
  intro other hother
  rw [List.mem_singleton.mp hother]
  exact ⟨part, h⟩

theorem Points.append (h : ctx.Points issues) (hmore : ctx.Points more) :
    ctx.Points (issues ++ more) :=
  fun issue hissue => (List.mem_append.mp hissue).elim (h issue) (hmore issue)

theorem Points.flatMap {α : Type} {xs : List α} {f : α → List Issue}
    (h : ∀ x ∈ xs, ctx.Points (f x)) : ctx.Points (xs.flatMap f) := by
  intro issue hissue
  obtain ⟨x, hx, hmem⟩ := List.mem_flatMap.mp hissue
  exact h x hx issue hmem

end Context

open Context

variable {ctx : Context} {part : Part}

/-! ## Effects -/

namespace Effect

/-- The effect is found through three fields. -/
theorem fields_of_effectPart? {value : Json} {effect : String} (h : effectPart? value = some (part, effect)) :
    ∃ rule consequence, (Part.properties value).field? .rule = some rule ∧
      rule.field? .consequence = some consequence ∧ consequence.field? .effect = some part ∧
      part.value.string? = some effect := by
  obtain ⟨rule, hrule, h⟩ := Option.bind_eq_some_iff.mp h
  obtain ⟨consequence, hconsequence, h⟩ := Option.bind_eq_some_iff.mp h
  obtain ⟨found, hfound, h⟩ := Option.bind_eq_some_iff.mp h
  obtain ⟨text, htext, h⟩ := Option.bind_eq_some_iff.mp h
  obtain ⟨rfl, rfl⟩ := Prod.mk.inj (Option.some.inj h)
  exact ⟨rule, consequence, hrule, hconsequence, hfound, htext⟩

theorem standsIn_effectPart? {value : Json} {effect : String}
    (h : effectPart? value = some (part, effect)) :
    part.StandsIn value ∧ part.value.string? = some effect := by
  obtain ⟨rule, consequence, hrule, hconsequence, hfound, htext⟩ := fields_of_effectPart? h
  exact ⟨(((Part.standsIn_properties value).field? hrule).field? hconsequence).field? hfound, htext⟩

theorem points_check (ctx : Context) : ctx.Points (check ctx) := by
  unfold check
  split
  · exact .nil ctx
  · next part effect hpart =>
    obtain ⟨hstands, htext⟩ := standsIn_effectPart? hpart
    split
    · split
      · exact .nil ctx
      · refine .singleton (.of_data hstands rfl rfl ?_)
        simp [Issue.quoting, Keyed.find?_cons]
    · split
      · exact .nil ctx
      · split
        · exact .nil ctx
        · refine .singleton (.of_data hstands rfl rfl ?_)
          simp [Issue.quoting, Keyed.find?_cons, htext]

end Effect

/-! ## Entries of collections -/

namespace Reference

theorem standsIn_list? {value : Json} (h : list? value = some part) : part.StandsIn value :=
  (Part.standsIn_properties value).field? h

theorem standsIn_entries (value : Json) : ∀ entry ∈ entries value, entry.StandsIn value := by
  unfold entries
  cases hlist : list? value with
  | none => exact nofun
  | some list =>
    cases hitems : list.items? with
    | none => simp [hitems]
    | some items =>
      simp only [Option.bind_some, hitems, Option.getD_some]
      exact (standsIn_list? hlist).items? hitems

theorem standsIn_referenceId? {value : Json} {entry : Part} {id : String}
    (hentry : entry.StandsIn value) (h : referenceId? entry = some (part, id)) :
    part.StandsIn value ∧ part.value.string? = some id := by
  unfold referenceId? at h
  obtain ⟨found, hfound, h⟩ := Option.bind_eq_some_iff.mp h
  obtain ⟨text, htext, h⟩ := Option.bind_eq_some_iff.mp h
  split at h
  · cases h
  · obtain ⟨rfl, rfl⟩ := Prod.mk.inj (Option.some.inj h)
    exact ⟨hentry.field? hfound, htext⟩

theorem points_nameIssues (index : Nat) (h : part.StandsIn ctx.value) :
    ctx.Points (nameIssues ctx index part) := by
  unfold nameIssues
  dsimp only
  split
  · exact .singleton (.of_data h rfl rfl nofun)
  · exact .nil ctx

theorem points_idIssues (seen : List String) (index : Nat) (h : part.StandsIn ctx.value) :
    ctx.Points (idIssues ctx seen index part) := by
  unfold idIssues
  split
  · next found id hid =>
    obtain ⟨hstands, htext⟩ := standsIn_referenceId? h hid
    split
    · refine .singleton (.of_data hstands rfl rfl ?_)
      simp [Issue.quoting, Keyed.find?_cons, htext]
    · exact .nil ctx
  · exact .singleton (.of_data h rfl rfl nofun)

theorem points_checkFrom (seen : List String) (index : Nat) {parts : List Part}
    (h : ∀ part ∈ parts, part.StandsIn ctx.value) : ctx.Points (checkFrom ctx seen index parts) := by
  induction parts generalizing seen index with
  | nil => exact .nil ctx
  | cons entry rest ih =>
    have hentry := h entry List.mem_cons_self
    have hrest := ih (see seen entry) (index + 1) fun part hpart => h part (List.mem_cons_of_mem _ hpart)
    exact ((points_nameIssues index hentry).append (points_idIssues seen index hentry)).append hrest

theorem points_check (ctx : Context) : ctx.Points (check ctx) :=
  points_checkFrom [] 0 (standsIn_entries ctx.value)

theorem points_checkNotEmpty (ctx : Context) : ctx.Points (checkNotEmpty ctx) := by
  unfold checkNotEmpty
  split
  · exact .nil ctx
  · next list hlist =>
    split
    · exact .singleton (.of_data (standsIn_list? hlist) rfl rfl nofun)
    · exact .nil ctx

end Reference

/-! ## Nodes of assignments -/

namespace Assignment

theorem standsIn_nodesFrom {value : Json} (inherited : Bool) (h : part.StandsIn value) :
    ∀ node ∈ nodesFrom inherited part, node.part.StandsIn value := by
  fun_induction nodesFrom inherited part with
  | case1 inherited part hobject covered ih =>
    intro node hnode
    rcases List.mem_cons.mp hnode with rfl | hbelow
    · exact h
    · obtain ⟨⟨child, hchild⟩, -, hmem⟩ := List.mem_flatMap.mp hbelow
      exact ih child hchild (h.fieldItems .children child hchild) node hmem
  | case2 => exact nofun

theorem standsIn_nodes (value : Json) : ∀ node ∈ nodes value, node.part.StandsIn value :=
  standsIn_nodesFrom false (Part.standsIn_root value)

theorem standsIn_names {value : Json} {name : String} {holder : Part} (hholder : holder.StandsIn value)
    (h : (part, name) ∈ names holder) : part.StandsIn value ∧ part.value.string? = some name := by
  obtain ⟨found, hfound, hname⟩ := List.mem_filterMap.mp h
  have hstands : found.StandsIn value := by
    rcases List.mem_cons.mp hfound with rfl | hentry
    · exact hholder
    · exact hholder.fieldItems .entries found hentry
  unfold name? at hname
  obtain ⟨assignment, hassignment, hname⟩ := Option.bind_eq_some_iff.mp hname
  obtain ⟨place, hplace, hname⟩ := Option.bind_eq_some_iff.mp hname
  obtain ⟨text, htext, hname⟩ := Option.bind_eq_some_iff.mp hname
  obtain ⟨rfl, rfl⟩ := Prod.mk.inj (Option.some.inj hname)
  exact ⟨(hstands.field? hassignment).field? hplace, htext⟩

theorem points_checkNames (ctx : Context) : ctx.Points (checkNames ctx) := by
  refine .flatMap fun node hnode => .flatMap fun ⟨part, name⟩ hname => ?_
  obtain ⟨hstands, htext⟩ := standsIn_names (standsIn_nodes ctx.value node hnode) hname
  unfold nameIssues
  dsimp only
  split
  · exact .nil ctx
  · refine .singleton (.of_data hstands rfl rfl ?_)
    simp [Issue.quoting, Keyed.find?_cons, htext]

theorem points_placeIssues (environment : String) (h : part.StandsIn ctx.value) :
    ctx.Points (placeIssues ctx environment part) := by
  unfold placeIssues
  split
  · split
    · exact .nil ctx
    · exact .singleton (.of_data h rfl rfl nofun)
  · exact .singleton (.of_data h rfl rfl nofun)

theorem points_scopePlaces (environment : String) (h : part.StandsIn ctx.value) :
    ctx.Points ((scopePlaces part).flatMap (placeIssues ctx environment)) := by
  refine .flatMap fun place hplace => points_placeIssues environment ?_
  unfold scopePlaces at hplace
  cases hitems : part.items? with
  | none =>
    rw [hitems] at hplace
    rw [List.mem_singleton.mp hplace]
    exact h
  | some items =>
    rw [hitems] at hplace
    exact h.items? hitems place hplace

theorem points_missingScopeIssues {node : Node} (h : node.part.StandsIn ctx.value) :
    ctx.Points (missingScopeIssues ctx node) := by
  unfold missingScopeIssues
  split
  · exact .singleton (.of_data h rfl rfl nofun)
  · exact .nil ctx

theorem points_ownScopeIssues (h : part.StandsIn ctx.value)
    (hapart : ∀ part : Part, part.StandsIn ctx.value → part.value.NamesApart) :
    ctx.Points (ownScopeIssues ctx part) := by
  unfold ownScopeIssues
  split
  · exact .nil ctx
  · next scope hscope =>
    have hstands := h.field? hscope
    split
    · next environments hmembers =>
      have hinside := hstands.members? (hapart scope hstands) hmembers
      exact .flatMap fun ⟨environment, place⟩ hplace => points_scopePlaces environment (hinside _ hplace)
    · exact .singleton (.of_data hstands rfl rfl nofun)

theorem points_checkScopes (ctx : Context)
    (hapart : ∀ part : Part, part.StandsIn ctx.value → part.value.NamesApart) :
    ctx.Points (checkScopes ctx) := by
  refine .flatMap fun node hnode => ?_
  have hstands := standsIn_nodes ctx.value node hnode
  exact (points_missingScopeIssues hstands).append (points_ownScopeIssues hstands hapart)

theorem standsIn_references {value : Json} {holder : Part} (h : holder.StandsIn value) :
    ∀ part ∈ references holder, part.StandsIn value := by
  intro part hpart
  rcases List.mem_append.mp hpart with hentry | hentries
  · exact h.field? (Option.mem_toList.mp hentry)
  · exact h.fieldItems .entries part hentries

theorem points_bothIssues (h : part.StandsIn ctx.value) : ctx.Points (bothIssues ctx part) := by
  unfold bothIssues
  split
  · next entry _ hentry _ => exact .singleton (.of_data (h.field? hentry) rfl rfl nofun)
  · exact .nil ctx

theorem points_referenceIssues (h : part.StandsIn ctx.value) :
    ctx.Points (referenceIssues ctx part) := by
  unfold referenceIssues
  dsimp only
  split
  · exact .singleton (.of_data h rfl rfl nofun)
  · exact .nil ctx

theorem points_checkReferences (ctx : Context) : ctx.Points (checkReferences ctx) := by
  refine .flatMap fun node hnode => ?_
  have hstands := standsIn_nodes ctx.value node hnode
  refine (points_bothIssues hstands).append (.flatMap fun part hpart => ?_)
  exact points_referenceIssues (standsIn_references hstands part hpart)

end Assignment

end PolicyAudit
