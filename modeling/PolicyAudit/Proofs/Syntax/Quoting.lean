-- SUMMARY: Without escapes, the strings and names of a value stand in its text as they are.
import PolicyAudit.Proofs.Policy.Part
import PolicyAudit.Proofs.Syntax.Acceptance
import PolicyAudit.Text.Fold

/-! ## The texts in a value -/

namespace PolicyAudit

/-- A text is a string of a value or the name of a member in it. -/
inductive Json.Quotes : Json → String → Prop where
  | string (s : String) : Quotes (.string s) s
  | item {items : List Json} {item : Json} {s : String} :
      item ∈ items → Quotes item s → Quotes (.array items) s
  | name {members : List (String × Json)} {name : String} {value : Json} :
      (name, value) ∈ members → Quotes (.object members) name
  | member {members : List (String × Json)} {name s : String} {value : Json} :
      (name, value) ∈ members → Quotes value s → Quotes (.object members) s

namespace Json

variable {value found : Json} {name s : String} {field : Field} {members : List (String × Json)}

theorem mem_of_get? (h : value.get? name = some found) :
    ∃ members, value = .object members ∧ (name, found) ∈ members := by
  obtain ⟨members, hmembers, hfind⟩ := Option.bind_eq_some_iff.mp h
  cases value with
  | object entries =>
    obtain rfl := Option.some.inj hmembers
    exact ⟨entries, rfl, Keyed.mem_of_find? hfind⟩
  | array items => cases hmembers
  | scalar scalar => cases hmembers

/-- A field is quoted with one of its spellings, and with all that its value quotes. -/
theorem quotes_of_field? (h : value.field? field = some found) :
    (∃ name ∈ field.spellings, value.Quotes name) ∧ ∀ s, found.Quotes s → value.Quotes s := by
  obtain ⟨⟨name, _⟩, hspelling, rfl⟩ := Option.map_eq_some_iff.mp h
  obtain ⟨spelling, hmem, hget⟩ := List.exists_of_findSome?_eq_some hspelling
  obtain ⟨_, hfound, hpair⟩ := Option.map_eq_some_iff.mp hget
  obtain ⟨rfl, rfl⟩ := Prod.mk.inj hpair
  obtain ⟨members, rfl, hmember⟩ := mem_of_get? hfound
  exact ⟨⟨spelling, hmem, .name hmember⟩, fun s hs => .member hmember hs⟩

theorem quotes_of_text? (h : value.text? field = some s) : value.Quotes s := by
  obtain ⟨found, hfound, hstring⟩ := Option.bind_eq_some_iff.mp h
  have hquotes : found.Quotes s := by
    unfold string? at hstring
    split at hstring
    · obtain rfl := Option.some.inj hstring
      exact .string _
    · cases hstring
  exact (quotes_of_field? hfound).2 s hquotes

theorem quotes_of_properties (h : (Part.properties value).value.Quotes s) : value.Quotes s := by
  unfold Part.properties at h
  split at h
  · next part hpart =>
    split at h
    · exact (quotes_of_field? (Part.field?_value hpart)).2 s h
    · exact h
  · exact h

end Json

/-! ## Where they stand -/

namespace Quoted

/-- Without a backslash, what is written is what is meant. -/
theorem decode_of_not_mem {body text : List Char} (h : decode body = some text)
    (hslash : '\\' ∉ body) : text = body := by
  induction body generalizing text with
  | nil => simpa [decode, eq_comm] using h
  | cons c rest ih =>
    simp only [List.mem_cons, not_or] at hslash
    obtain ⟨hc, hrest⟩ := hslash
    rw [decode] at h
    · split at h
      · cases h
      · obtain ⟨tail, htail, rfl⟩ := Option.map_eq_some_iff.mp h
        rw [ih htail hrest]
    · rintro _ _ _ _ _ rfl
      exact absurd rfl hc
    · rintro _ _ rfl
      exact absurd rfl hc

end Quoted

namespace Phrase

/-- A phrase is written for a text. -/
def Quotes (s : String) : Phrase → Prop
  | value v => v.Quotes s
  | items elements => ∃ item ∈ elements, item.Quotes s
  | member name v => s = name ∨ v.Quotes s
  | members entries => ∃ m ∈ entries, s = m.1 ∨ m.2.Quotes s

end Phrase

variable {s : String} {w : List Char}

theorem Literal.infix_of_string (h : Literal (.string s) w) (hslash : '\\' ∉ w) :
    s.toList <:+: w := by
  cases h with
  | string hbody =>
    rw [Quoted.decode_of_not_mem hbody (by simp_all), String.toList_ofList]
    exact ⟨['"'], ['"'], rfl⟩

theorem Json.quotes_ofMembers {members : List (String × Json)} (h : (Json.ofMembers members).Quotes s) :
    (Phrase.members members).Quotes s := by
  cases h with
  | name hname =>
    have hmem := (Keyed.mem_of_mem_foldl_insertNew hname).resolve_left List.not_mem_nil
    exact ⟨_, hmem, .inl rfl⟩
  | member hname hs =>
    have hmem := (Keyed.mem_of_mem_foldl_insertNew hname).resolve_left List.not_mem_nil
    exact ⟨_, hmem, .inr hs⟩

/-- Without a backslash, every text that a phrase is written for stands in what is written. -/
theorem Spells.infix_of_quotes {depth : Nat} {p : Phrase} (h : Spells depth p w) (hslash : '\\' ∉ w)
    (hquotes : p.Quotes s) : s.toList <:+: w := by
  induction h with
  | scalar _ hw =>
    cases hquotes
    exact hw.infix_of_string hslash
  | @array _ _ w _ _ ih =>
    cases hquotes with
    | item hitem hs =>
      have hinside := ih (by simp_all) ⟨_, hitem, hs⟩
      exact hinside.trans (List.infix_append ['['] w [']'])
  | @object _ _ w _ _ ih =>
    have hinside := ih (by simp_all) (Json.quotes_ofMembers hquotes)
    exact hinside.trans (List.infix_append ['{'] w ['}'])
  | noItem =>
    obtain ⟨item, hitem, -⟩ := hquotes
    cases hitem
  | @lastItem _ _ g w g' _ _ _ ih =>
    obtain ⟨item, hitem, hs⟩ := hquotes
    rw [List.mem_singleton.mp hitem] at hs
    exact (ih (by simp_all) hs).trans (List.infix_append' g w g')
  | @consItem _ _ _ g w g' rest _ _ _ _ ih ihrest =>
    obtain ⟨item, hitem, hs⟩ := hquotes
    rcases List.mem_cons.mp hitem with rfl | hmem
    · exact (ih (by simp_all) hs).trans (List.infix_append' g w _)
    · have hinside := ihrest (by simp_all) ⟨item, hmem, hs⟩
      exact hinside.trans (List.IsSuffix.isInfix ⟨g ++ (w ++ (g' ++ [','])), by simp⟩)
  | @named _ _ _ k g g' w hk _ _ _ ih =>
    rcases hquotes with rfl | hs
    · exact (hk.infix_of_string (by simp_all)).trans (List.prefix_append k _).isInfix
    · exact (ih (by simp_all) hs).trans (List.IsSuffix.isInfix ⟨k ++ (g ++ ':' :: g'), by simp⟩)
  | noMember =>
    obtain ⟨m, hm, -⟩ := hquotes
    cases hm
  | @lastMember _ _ _ g w g' _ _ _ ih =>
    obtain ⟨m, hm, hs⟩ := hquotes
    rw [List.mem_singleton.mp hm] at hs
    exact (ih (by simp_all) hs).trans (List.infix_append' g w g')
  | @consMember _ _ _ _ g w g' rest _ _ _ _ ih ihrest =>
    obtain ⟨m, hm, hs⟩ := hquotes
    rcases List.mem_cons.mp hm with rfl | hmem
    · exact (ih (by simp_all) hs).trans (List.infix_append' g w _)
    · have hinside := ihrest (by simp_all) ⟨m, hmem, hs⟩
      exact hinside.trans (List.IsSuffix.isInfix ⟨g ++ (w ++ (g' ++ [','])), by simp⟩)

/-- Every text in the value of a clean document without a backslash stands in it. -/
theorem Document.infix_of_quotes {text : String} {v : Json} (hclean : (ofText text).isClean = true)
    (hvalue : (ofText text).value? = some v) (hslash : '\\' ∉ text.toList) (hquotes : v.Quotes s) :
    s.toList <:+: text.toList := by
  obtain ⟨v', hv', g, w, g', -, hw, -, htext⟩ := spells_of_clean hclean
  obtain rfl := Option.some.inj (hvalue.symm.trans hv')
  rw [htext] at hslash ⊢
  exact (hw.infix_of_quotes (by simp_all) hquotes).trans (List.infix_append' g w g')

end PolicyAudit
