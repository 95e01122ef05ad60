-- SUMMARY: Fixing everything repairs a tree of assignments, one finding with each pass.
import PolicyAudit.Proofs.Lint.Mending
import PolicyAudit.Proofs.Session.Passes
import PolicyAudit.Proofs.Session.Request

/-! ## Trees of assignments in hand -/

namespace PolicyAudit

open Service

variable {s t : Service} {id text : String} {options : LintOptions} {done next : FixAll} {left n : Nat}
variable {marks : List (String × Option Path)} {tree : Tree} {x y : Service × FixAll}

theorem Repairable.finds (h : Repairable tree text) (hruns : options.RunsAll) (registry : Registry) (id : String)
    (version : Nat) :
    ∃ v, (validateText registry options id text version).1 = some v ∧ v.Finds options tree text := by
  refine ⟨((⟨some .assignment⟩ : Validator).validate ⟨.ofText text, tree.toJson⟩ options registry id version).1,
    ?_, rfl, Validator.exists_issues_eq hruns _ registry id version⟩
  simp only [validateText, h.isClean, h.select?_eq, h.context_eq, if_true]

/-- What is in hand is a repairable document and its validation. So many findings are left to be repaired, and
the marks are those of the findings that stay. -/
def FixAll.Mending (options : LintOptions) (left : Nat) (marks : List (String × Option Path)) (done : FixAll) :
    Prop :=
  ∃ tree v, Repairable tree done.text ∧ done.result? = some v ∧ v.Finds options tree done.text ∧
    v.count Code.repairable = left ∧ v.marks Code.standing = marks

/-- A pass repairs one finding and leaves those that are to stay. -/
theorem Pass.mending (h : Pass id x y) (hruns : x.1.options.RunsAll) (hdone : x.2.Mending x.1.options left marks) :
    y.1.options = x.1.options ∧ ∃ fewer, left = fewer + 1 ∧ y.2.Mending x.1.options fewer marks := by
  cases h with
  | @fix s t done v code text edit _ hresult hoffers happly hvalid hfixed =>
    obtain ⟨tree, v, hdoc, hv, hfinds, rfl, rfl⟩ := hdone
    obtain rfl := Option.some.inj (hresult.symm.trans hv)
    obtain ⟨issue, hissue, -, kind, ctx, hkind, hctx, hfix⟩ := hoffers
    obtain rfl := Option.some.inj (hkind.symm.trans hfinds.kind)
    obtain rfl := Option.some.inj (hctx.symm.trans hdoc.context_eq)
    have hfixable : ∀ rule ∈ Kind.assignment.rules, ∀ code ∈ rule.fixableCodes, code ∈ Code.repairable := by
      decide
    obtain ⟨rule, hrule, hcode⟩ := Validator.exists_rule_of_fix? hfix
    obtain ⟨edit', hedit, hmends⟩ := hdoc.exists_fix? hfinds hruns hissue (hfixable rule hrule _ hcode)
    obtain rfl := Option.some.inj (hfix.symm.trans hedit)
    obtain ⟨tree', mark, hdoc', hmark, hloses⟩ := hmends _ happly
    obtain ⟨v', hv', hfinds'⟩ := hdoc'.finds hruns s.registry id (done.version + 1)
    have hoptions : t.options = s.options := by
      have hkept : (s.fixApplied id text (done.version + 1)).2.options = s.options := options_validate ..
      rwa [hfixed] at hkept
    refine ⟨hoptions, v'.count Code.repairable, ?_, tree', v', hdoc', hvalid.symm.trans hv', hfinds', rfl, ?_⟩
    · rw [hfinds.count_eq (by decide), hfinds'.count_eq (by decide)]
      exact (hloses.countP_add_one (by simpa using hmark)).symm
    · have hstays : ∀ code ∈ Code.repairable, code ∉ Code.standing := by decide
      rw [hfinds.marks_eq (by decide), hfinds'.marks_eq (by decide)]
      exact hloses.filter_eq (by simpa using hstays _ hmark)

/-- As many findings are repaired as there are passes. -/
theorem Passes.mending (h : Passes id n x y) (hruns : x.1.options.RunsAll) (hdone : x.2.Mending x.1.options left marks) :
    y.1.options = x.1.options ∧ ∃ fewer, left = fewer + n ∧ y.2.Mending x.1.options fewer marks := by
  induction h generalizing left with
  | none => exact ⟨rfl, left, rfl, hdone⟩
  | step hpass _ ih =>
    obtain ⟨hoptions, fewer, rfl, hnext⟩ := hpass.mending hruns hdone
    rw [hoptions] at ih
    obtain ⟨hlast, least, rfl, hmade⟩ := ih hruns hnext
    exact ⟨hlast, least, Nat.add_assoc .., hmade⟩

/-- Where no fix is left, nothing is left to be repaired. -/
theorem FixAll.Mending.eq_zero (h : done.Mending options left marks) (hruns : options.RunsAll)
    (hnone : done.result?.bind (nextFix? options done.text) = none) : left = 0 := by
  obtain ⟨tree, v, hdoc, hv, hfinds, rfl, -⟩ := h
  rw [hv, Option.bind_some] at hnone
  rw [Validation.count, List.countP_eq_zero]
  intro issue hissue hcode
  obtain ⟨edit, hedit, -⟩ := hdoc.exists_fix? hfinds hruns hissue (of_decide_eq_true hcode)
  have hoffer := nextFix?_eq_none hnone issue hissue
  rw [hfinds.kind, editFor?_of_context hdoc.context_eq, hedit] at hoffer
  cases hoffer

/-! ## Fixing everything -/

/-- A document that is opened is validated afresh, and the outcome is kept. -/
theorem Service.didOpen_new (registry : Registry) (options : LintOptions) (delay capacity : Nat)
    (id text : String) (version : Nat) :
    let s := ((new registry options delay capacity).didOpen id text version).2
    ((new registry options delay capacity).didOpen id text version).1 =
        (validateText registry options id text version).1 ∧
      s.options = options ∧ InStep s id ∧ s.document? id = some ⟨text, version⟩ ∧
      (s.validate id text version).1 = (validateText registry options id text version).1 := by
  intro s
  have hnew := InStep.new registry options delay capacity id
  have hcurrent : (new registry options delay capacity).isCurrent id version = true := rfl
  obtain ⟨hfirst, hstored, hagain⟩ := hnew.validate_of_miss hcurrent nofun text
  exact ⟨hfirst, options_validate .., hnew.validate text version, hstored, hagain⟩

/-- The validator that is chosen for a clean document is that of its kind. -/
theorem Validator.of?_of_select? {value : Json} {kind : Kind} (hclean : (Document.ofText text).isClean = true)
    (hvalue : (Document.ofText text).value? = some value)
    (h : Validator.select? (.ofText text) = some ⟨some kind⟩) : Kind.of? value = some kind := by
  rw [Validator.select?_eq hclean hvalue] at h
  obtain ⟨found, hfound, hchosen⟩ := Option.bind_eq_some_iff.mp h
  split at hchosen
  · cases hchosen
    exact hfound
  · cases hchosen

/-- **Fixing everything repairs a tree of assignments.** A new service where every rule runs opens a clean text
and validates it as a tree of assignments. At most 125 containers in it are around each other, and a key for
the node name of the root is written without escapes. (The bytes of a text are counted in 64 bits.) Where there
are no more findings of long names and missing scopes than there may be fixes, fixing everything applies one fix
for each of them and counts a version for each. The last validation is still of a tree of assignments. It has
none of these findings, and those of invalid scopes and conflicting references are the ones before. -/
theorem Service.fixAll_of_assignment {registry : Registry} {delay capacity : Nat} {v : Validation}
    (hmax : options.maxErrors? = none) (hall : ∀ rule : Rule, options.isDisabled rule.id = false)
    (hclean : (Document.ofText text).isClean = true) (htree : (Document.ofText text).tree? = some tree)
    (hnesting : tree.nesting ≤ 125) (hkey : tree.SpellsKey .nodeName text.toList)
    (hsize : Text.byteLength text.toList < 0x10000000000000000)
    (hopen : (new registry options delay capacity).didOpen id text 1 = (some v, s))
    (hkind : v.kind? = some .assignment) (hcount : v.count Code.repairable = n) (hn : n ≤ maxFixes) :
    ∃ made t w, s.fixAll id = (.ok made, t) ∧ made.applied.length = n ∧ made.version = 1 + n ∧
      made.result? = some w ∧ w.kind? = some .assignment ∧
      (∀ issue ∈ w.issues, issue.code ≠ Code.nameLength ∧ issue.code ≠ Code.missingScope) ∧
      w.marks Code.standing = v.marks Code.standing := by
  have hruns : options.RunsAll := ⟨hmax, hall⟩
  have hvalue : (Document.ofText text).value? = some tree.toJson := by
    rw [Document.value?, htree, Option.map_some]
  obtain ⟨hfirst, hoptions, hstep, hstored, hagain⟩ := didOpen_new registry options delay capacity id text 1
  simp only [hopen] at hfirst hoptions hstep hstored hagain
  have hchosen : Kind.of? tree.toJson = some .assignment := by
    have hfresh : (new registry options delay capacity).fresh? id ⟨text, 1⟩ = some v := hfirst.symm
    obtain ⟨-, validator, ctx, hselect, -, rfl⟩ := fresh?_eq_some_iff.mp hfresh
    obtain rfl : validator = ⟨some .assignment⟩ := by
      rw [← hkind]
      rfl
    exact Validator.of?_of_select? hclean hvalue hselect
  have hdoc := Repairable.of_isClean hclean htree hchosen hkey hnesting hsize
  obtain ⟨v', hv', hfinds⟩ := hdoc.finds hruns registry id 1
  obtain rfl := Option.some.inj (hfirst.trans hv')
  have hsame : (s.validate id text 1).2.options = options := (options_validate ..).trans hoptions
  have hstart : FixAll.Mending options n (v.marks Code.standing) ⟨[], text, 1, (s.validate id text 1).1⟩ :=
    ⟨tree, v, hdoc, hagain.trans hv', hfinds, hcount, rfl⟩
  have hroom : 1 + maxFixes < 0x10000000000000000 := by decide
  obtain ⟨k, made, t, hk, hmade, hpasses, -, hstop⟩ :=
    (InHand.of_validate hstep hstored []).exists_passes (n := maxFixes) hroom
  obtain ⟨happlied, hversion⟩ := hpasses.counts
  dsimp only [List.length_nil] at happlied hversion
  obtain ⟨hlast, fewer, hleft, hdone⟩ := hpasses.mending (hsame.symm ▸ hruns) (hsame.symm ▸ hstart)
  rw [hsame] at hlast hdone
  have hzero : fewer = 0 := by
    rcases Nat.lt_or_eq_of_le hk with hlt | rfl
    · rw [hlast] at hstop
      exact hdone.eq_zero hruns (hstop hlt)
    · omega
  obtain ⟨tree', w, -, hw, hfinal, hnone, hstays⟩ := hdone
  have hfix : s.fixAll id = (.ok made, t) := by
    simpa only [fixAll, fixSome, hstored] using hmade
  refine ⟨made, t, w, hfix, by omega, by omega, hw, hfinal.kind, ?_, hstays⟩
  rw [hzero, Validation.count, List.countP_eq_zero] at hnone
  intro issue hissue
  simpa [Code.repairable] using hnone issue hissue

/-- A tree of one node has no scope, and the name of its assignment is too long. -/
theorem Service.fixAll_of_assignment_of_leaf :
    let text := "\x7b\"nodeName\":\"é\",\"assignment\":\x7b\"name\":\"a name of more than 24 characters\"\x7d\x7d"
    let s := ((new (.new none) .default 500 256).didOpen "tree" text 1).2
    ∃ made t w, s.fixAll "tree" = (.ok made, t) ∧ made.applied.length = 2 ∧ made.version = 3 ∧
      made.result? = some w ∧ w.kind? = some .assignment ∧
      ∀ issue ∈ w.issues, issue.code ≠ Code.nameLength ∧ issue.code ≠ Code.missingScope := by
  intro text s
  have hclean : (Document.ofText text).isClean = true := by decide +kernel
  have hshape : (Document.ofText text).tree?.map
      (fun tree => (decide (tree.nesting ≤ 125), decide (tree.SpellsKey .nodeName text.toList))) =
        some (true, true) := by decide +kernel
  have hfirst : ((new (.new none) .default 500 256).didOpen "tree" text 1).1.map
      (fun v => (v.kind?, v.count Code.repairable)) = some (some .assignment, 2) := by decide +kernel
  obtain ⟨tree, htree, hshape⟩ := Option.map_eq_some_iff.mp hshape
  obtain ⟨hnesting, hkey⟩ := Prod.mk.inj hshape
  obtain ⟨v, hv, hfirst⟩ := Option.map_eq_some_iff.mp hfirst
  obtain ⟨hkind, hcount⟩ := Prod.mk.inj hfirst
  obtain ⟨made, t, w, hfix, happlied, hversion, hw, hkept, hnone, -⟩ :=
    fixAll_of_assignment rfl (fun _ => rfl) hclean htree (of_decide_eq_true hnesting) (of_decide_eq_true hkey)
      (by decide +kernel) (Prod.ext hv rfl) hkind hcount (by decide)
  exact ⟨made, t, w, hfix, happlied, hversion, hw, hkept, hnone⟩

end PolicyAudit
