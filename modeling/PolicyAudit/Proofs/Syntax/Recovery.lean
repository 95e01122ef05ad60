-- SUMMARY: Where values and commas are missing from an object, everything else in it is read.
import PolicyAudit.Proofs.Keyed
import PolicyAudit.Proofs.Syntax.Acceptance

/-! ## Omissions

An object under way may lack values and commas. After a name and its colon a comma or the closing brace
stands in the place of the value, and after a value the next name in the place of the comma. -/

namespace PolicyAudit

open Text

/-- What is left out of an object, with the byte at which something else stands in its place. -/
inductive Omission where
  | value (pos : Nat)
  | comma (pos : Nat)
deriving DecidableEq, Repr

namespace Omission

/-- How an omission is reported. -/
def error : Omission → SyntaxError
  | value pos => ⟨.noValue, ⟨pos, 1⟩⟩
  | comma pos => ⟨.noComma, ⟨pos, 0⟩⟩

/-- What is left out of a member when byte `pos` comes after it. -/
def ofValue (value? : Option Json) (pos : Nat) : List Omission :=
  match value? with
  | some _ => []
  | none => [.value pos]

end Omission

/-- Whether a stretch of text inside `depth` containers is a member with a value, or a member's name and
colon. -/
inductive DraftsMember (depth : Nat) (name : String) : Option Json → List Char → Prop
  | whole {value : Json} {w : List Char} (hw : Spells depth (.member name value) w) :
      DraftsMember depth name (some value) w
  | valueless {k g : List Char} (hk : Literal (.string name) k) (hg : Gap g) :
      DraftsMember depth name none (k ++ (g ++ [':']))

/-- Whether a stretch of text that starts at byte `pos`, inside `depth` containers, is what is left of the
members of an object, from the first name on, without some values and commas. The comma after a member
without a value is never left out. -/
inductive Drafts (depth : Nat) : (pos : Nat) → List (String × Option Json) → List Omission → List Char → Prop
  | last {pos : Nat} {name : String} {value? : Option Json} {w g : List Char}
      (hw : DraftsMember depth name value? w) (hg : Gap g) :
      Drafts depth pos [(name, value?)] (Omission.ofValue value? (pos + byteLength (w ++ g))) (w ++ g)
  | lastComma {pos : Nat} {name : String} {value? : Option Json} {w g g' : List Char}
      (hw : DraftsMember depth name value? w) (hg : Gap g) (hg' : Gap g') :
      Drafts depth pos [(name, value?)] (Omission.ofValue value? (pos + byteLength (w ++ g)))
        (w ++ (g ++ ',' :: g'))
  | cons {pos : Nat} {name : String} {value? : Option Json} {members : List (String × Option Json)}
      {omissions : List Omission} {w g g' rest : List Char}
      (hw : DraftsMember depth name value? w) (hg : Gap g) (hg' : Gap g')
      (hrest : Drafts depth (pos + byteLength (w ++ (g ++ ',' :: g'))) members omissions rest) :
      Drafts depth pos ((name, value?) :: members)
        (Omission.ofValue value? (pos + byteLength (w ++ g)) ++ omissions) (w ++ (g ++ ',' :: (g' ++ rest)))
  | noComma {pos : Nat} {name : String} {value : Json} {members : List (String × Option Json)}
      {omissions : List Omission} {w g rest : List Char}
      (hw : DraftsMember depth name (some value) w) (hg : Gap g)
      (hrest : Drafts depth (pos + byteLength (w ++ g)) members omissions rest) :
      Drafts depth pos ((name, some value) :: members) (.comma (pos + byteLength (w ++ g)) :: omissions)
        (w ++ (g ++ rest))

/-- Whether a text is an object from which something is left out, between gaps. -/
def DraftsDocument (members : List (String × Option Json)) (omissions : List Omission) (text : List Char) :
    Prop :=
  ∃ g g' w g'', Gap g ∧ Gap g' ∧ Drafts 1 (byteLength (g ++ '{' :: g')) members omissions w ∧ FinalGap g'' ∧
    text = g ++ '{' :: (g' ++ (w ++ '}' :: g''))

variable {depth pos : Nat} {name : String} {value? : Option Json} {members : List (String × Option Json)}
variable {omissions : List Omission} {w : List Char}

theorem DraftsMember.exists_head (h : DraftsMember depth name value? w) : ∃ w', w = '"' :: w' := by
  cases h with
  | whole hw => cases hw with | named hk => cases hk with | string => exact ⟨_, rfl⟩
  | valueless hk => cases hk with | string => exact ⟨_, rfl⟩

theorem Drafts.exists_head (h : Drafts depth pos members omissions w) : ∃ w', w = '"' :: w' := by
  cases h with
  | last hw | lastComma hw | cons hw | noComma hw =>
    obtain ⟨w', rfl⟩ := hw.exists_head
    exact ⟨_, rfl⟩

/-! ## What is read of a member -/

/-- A member as it is drafted: its name, and its value if it has one. -/
def Member.draft (m : Member Tree) : String × Option Json := (m.name, m.value?.map Tree.toJson)

/-- What stands at byte `pos` after a member and its gap, what of it is left to read, and what is missing
there. -/
inductive EndsDraft (value? : Option Json) (pos : Nat) : (t s : List Char) → List Omission → Prop
  | comma (s : List Char) : EndsDraft value? pos (',' :: s) s (Omission.ofValue value? pos)
  | brace (s : List Char) : EndsDraft value? pos ('}' :: s) ('}' :: s) (Omission.ofValue value? pos)
  | name {value : Json} (s : List Char) (hvalue : value? = some value) :
      EndsDraft value? pos ('"' :: s) ('"' :: s) [.comma pos]

theorem EndsDraft.endsNumber {t s : List Char} (h : EndsDraft value? pos t s omissions) : EndsNumber t := by
  cases h with
  | comma | brace | name =>
    intro d hd
    obtain rfl := Option.some.inj hd
    decide

namespace Cursor

variable {c : Cursor} {value : ValueReader} {g t s : List Char}

/-- Whether a reader of values reports a value that is left out, and reads nothing. -/
def MissesValue (value : ValueReader) : Prop :=
  ∀ {c : Cursor} {ch : Char} {s : List Char}, c.rest = ch :: s → ch = ',' ∨ ch = '}' →
    (value c).errors = [⟨.noValue, ⟨c.pos, 1⟩⟩] ∧ (value c).next = c ∧ (value c).result = none

theorem missesValue_readValue (room : Nat) : MissesValue (readValue (room + 1)) := by
  rintro c ch s hc (rfl | rfl)
  · have hone : ','.utf8Size = 1 := by decide
    simp [readValue, hc, fault, hone]
  · have hone : '}'.utf8Size = 1 := by decide
    simp [readValue, hc, fault, hone]

theorem readJunk_next_of_stop {ch : Char} (hc : c.rest = ch :: s) (hch : ch = ',' ∨ ch = '}') :
    c.readJunk.next = c := by
  have hzero : Junk.length c.rest = 0 := by
    rcases hch with rfl | rfl <;> simp [hc, Junk.length, Junk.scan]
  simp [readJunk, hzero]

/-- The name after a value stands for a comma. -/
theorem readMemberEnd_of_quote (hg : Gap g) (hc : c.rest = g ++ '"' :: s) :
    c.readMemberEnd.errors = [⟨.noComma, ⟨c.pos + byteLength g, 0⟩⟩] ∧
      c.readMemberEnd.next.rest = '"' :: s := by
  obtain ⟨herrors, hnext⟩ := readTrivia_of_gap hg (Trivia.solid_cons (by decide) (by decide)) hc
  have hpos : c.readTrivia.next.pos = c.pos + byteLength g :=
    c.readTrivia.reaches.pos_eq (by rw [hnext, hc])
  simp [readMemberEnd, herrors, peek?, hnext, fault, hpos]

/-- What ends a member with a value is read, and a missing comma is reported. -/
theorem readMemberEnd_of_endsDraft {v : Json} (hg : Gap g)
    (ht : EndsDraft (some v) (c.pos + byteLength g) t s omissions) (hc : c.rest = g ++ t) :
    c.readMemberEnd.errors = omissions.map Omission.error ∧ c.readMemberEnd.next.rest = s := by
  cases ht with
  | comma => exact readMemberEnd_of_gap hg (.inl rfl) hc
  | brace => exact readMemberEnd_of_gap hg (.inr ⟨rfl, _, rfl⟩) hc
  | name s => exact readMemberEnd_of_quote hg hc

/-- After a name and its colon the missing value is reported. -/
theorem readMemberValue_of_missing (hmisses : MissesValue value) (name : String) {g' : List Char} {ch : Char}
    (hg' : Gap g') (hg : Gap g) (hch : ch = ',' ∨ ch = '}') (hc : c.rest = g' ++ ':' :: (g ++ ch :: s)) :
    (readMemberValue value name c).errors = [⟨.noValue, ⟨c.pos + byteLength (g' ++ ':' :: g), 1⟩⟩] ∧
      (readMemberValue value name c).next.rest = ch :: s ∧ (readMemberValue value name c).result = none := by
  obtain ⟨herrors, hnext⟩ := readTrivia_of_gap hg' (Trivia.solid_cons (by decide) (by decide)) hc
  have hcolon : (c.readTrivia.next.skip 1).rest = g ++ ch :: s := by simp [hnext]
  have hsolid : Trivia.Solid (ch :: s) := by
    rcases hch with rfl | rfl <;> exact Trivia.solid_cons (by decide) (by decide)
  obtain ⟨herrors', hnext'⟩ := readTrivia_of_gap hg hsolid hcolon
  have hpos : (c.readTrivia.next.skip 1).readTrivia.next.pos = c.pos + byteLength (g' ++ ':' :: g) :=
    (c.readTrivia.reaches.trans ((reaches_skip _ 1).trans (Reading.reaches _))).pos_eq
      (by rw [hnext', hc]; simp)
  obtain ⟨hmissing, hstay, hresult⟩ := hmisses hnext' hch
  simp [readMemberValue, peek?, hnext, herrors, herrors', hmissing, hstay, hpos, hresult, hnext']

/-- Where a member has no value, the text up to its end is skipped. -/
theorem readMember_of_none
    (hresult : (readMemberValue value c.quotation.text (c.skip c.quotation.length)).result = none) :
    let found := readMemberValue value c.quotation.text (c.skip c.quotation.length)
    (readMember value c).result =
        memberOf c.quotation.text (c.spanOf c.quotation.length) none ∧
      (readMember value c).errors =
        c.quotationErrors ++ (found.errors ++ found.next.readJunk.next.readMemberEnd.errors) ∧
      (readMember value c).next = found.next.readJunk.next.readMemberEnd.next := by
  intro found
  have hjunk : found.next.readJunk.errors = [] := rfl
  simp [readMember, readName, found, hresult, skipUnread, hjunk]

/-- What stands in the place of a missing value ends the member. -/
theorem readMember_of_valueless (hmisses : MissesValue value) {k g' : List Char}
    (hk : Literal (.string name) k) (hg' : Gap g') (hg : Gap g)
    (ht : EndsDraft none (c.pos + byteLength (k ++ (g' ++ [':']) ++ g)) t s omissions)
    (hc : c.rest = k ++ (g' ++ [':']) ++ (g ++ t)) :
    (readMember value c).errors = omissions.map Omission.error ∧ (readMember value c).next.rest = s ∧
      (readMember value c).result.draft = (name, none) := by
  obtain ⟨ch, r, rfl, hch, hend, rfl⟩ : ∃ ch r, t = ch :: r ∧ (ch = ',' ∨ ch = '}') ∧ EndsPart '}' t s ∧
      omissions = [.value (c.pos + byteLength (k ++ (g' ++ [':']) ++ g))] := by
    cases ht with
    | comma => exact ⟨_, _, rfl, .inl rfl, .inl rfl, rfl⟩
    | brace => exact ⟨_, _, rfl, .inr rfl, .inr ⟨rfl, _, rfl⟩, rfl⟩
    | name s hvalue => cases hvalue
  cases hk with
  | @string body text hbody =>
    obtain ⟨hquote, htext, hname, -⟩ := quotation_of_decode hbody (hc.trans (List.append_assoc _ _ _))
    have hpos : (c.skip c.quotation.length).pos = c.pos + byteLength ('"' :: (body ++ ['"'])) :=
      (c.reaches_skip _).pos_eq (by rw [hname, hc]; simp)
    obtain ⟨hmissing, hstop, hnone⟩ := readMemberValue_of_missing (s := r) hmisses c.quotation.text hg' hg hch
      (c := c.skip c.quotation.length) (by rw [hname]; simp)
    obtain ⟨hend', hrest⟩ := readMemberEnd_of_gap .nil hend hstop
    obtain ⟨hresult, herrors, hnext⟩ := readMember_of_none hnone
    rw [readJunk_next_of_stop hstop hch] at herrors hnext
    refine ⟨?_, by rw [hnext, hrest], ?_⟩
    · rw [herrors, hquote, hmissing, hend', hpos, Nat.add_assoc, ← byteLength_append]
      simp [Omission.error]
    · rw [hresult, htext]
      rfl

/-- One member of a draft with what ends it. -/
theorem readMember_of_draftsMember (hvalue : CompleteAt depth value) (hmisses : MissesValue value)
    (hw : DraftsMember depth name value? w) (hg : Gap g)
    (ht : EndsDraft value? (c.pos + byteLength (w ++ g)) t s omissions) (hc : c.rest = w ++ (g ++ t)) :
    (readMember value c).errors = omissions.map Omission.error ∧ (readMember value c).next.rest = s ∧
      (readMember value c).result.draft = (name, value?) := by
  cases hw with
  | whole hw =>
    obtain ⟨_, hwrites, hpiece⟩ := hw.exists_writes c.pos
    cases hpiece with
    | member _ nameSpan tree =>
      obtain ⟨d, hpos, hrest, herrors, hnext, hresult⟩ :=
        exists_end_of_writes hvalue hwrites (.of_gap hg ht.endsNumber) hc
      rw [byteLength_append, ← Nat.add_assoc, ← hpos] at ht
      obtain ⟨hend, hafter⟩ := readMemberEnd_of_endsDraft hg ht hrest
      exact ⟨by rw [herrors, hend], by rw [hnext, hafter], by rw [hresult]; rfl⟩
  | valueless hk hg' => exact readMember_of_valueless hmisses hk hg' hg ht hc

/-! ## What is read of the members -/

variable {opened : Nat}

/-- Whether the members at the start of `s`, the first of which is named at byte `pos`, are read as they are
drafted, with a report for each omission and with `s'` left over. -/
def TakesDraft (value : ValueReader) (opened pos : Nat) (s s' : List Char)
    (members : List (String × Option Json)) (omissions : List Omission) : Prop :=
  ∀ (c : Cursor) (g : List Char), Gap g → c.pos + byteLength g = pos → c.rest = g ++ s →
    (readMembers value opened c).errors = omissions.map Omission.error ∧
      (readMembers value opened c).next.rest = s' ∧
      (readMembers value opened c).result.map Member.draft = members

theorem takesDraft_nil (s : List Char) : TakesDraft value opened pos ('}' :: s) s [] [] := by
  intro c g hg _ hc
  have htaken : TakesMembers value opened c.pos (g ++ '}' :: s) s [] := takesMembers_nil hg s
  obtain ⟨herrors, hnext, hresult⟩ := htaken c rfl hc
  exact ⟨herrors, hnext, by rw [hresult]; rfl⟩

theorem takesDraft_cons (hvalue : CompleteAt depth value) (hmisses : MissesValue value) (pos : Nat)
    {found : List Omission} {m g' s' : List Char} (hw : DraftsMember depth name value? w) (hg : Gap g)
    (hg' : Gap g') (ht : EndsDraft value? (pos + byteLength (w ++ g)) (m ++ (g' ++ s)) (g' ++ s) found)
    (hrest : TakesDraft value opened (pos + byteLength (w ++ (g ++ (m ++ g')))) s s' members omissions) :
    TakesDraft value opened pos (w ++ (g ++ (m ++ (g' ++ s)))) s' ((name, value?) :: members)
      (found ++ omissions) := by
  intro c g₀ hg₀ hpos hc
  obtain ⟨w', hhead⟩ := hw.exists_head
  obtain ⟨herrors, hnext⟩ := readTrivia_of_gap hg₀
    (by rw [hhead]; exact Trivia.solid_cons (by decide) (by decide)) hc
  have hstart : c.readTrivia.next.pos = pos :=
    (c.readTrivia.reaches.pos_eq (by rw [hnext, hc])).trans hpos
  obtain ⟨hresult, herrors', hnext'⟩ := readMembers_quote value opened
    (hnext.trans (by rw [hhead]; rfl))
  obtain ⟨hmember, hafter, hdraft⟩ := readMember_of_draftsMember hvalue hmisses hw hg
    (by rw [hstart]; exact ht) hnext
  have hplace : (readMember value c.readTrivia.next).next.pos + byteLength g' =
      pos + byteLength (w ++ (g ++ (m ++ g'))) := by
    have := (Reading.reaches (readMember value c.readTrivia.next)).pos_eq
      (w := w ++ (g ++ m)) (by rw [hafter, hnext]; simp)
    rw [this, hstart]
    simp only [byteLength_append]
    omega
  obtain ⟨hmore, hend, hdrafts⟩ := hrest _ g' hg' hplace hafter
  refine ⟨?_, by rw [hnext', hend], ?_⟩
  · rw [herrors', herrors, hmember, hmore, List.nil_append, List.map_append]
  · rw [hresult, List.map_cons, hdraft, hdrafts]

/-- The members of a draft are read as they are drafted. -/
theorem takesDraft_of_drafts (hvalue : CompleteAt depth value) (hmisses : MissesValue value) (opened : Nat)
    (hw : Drafts depth pos members omissions w) (s : List Char) :
    TakesDraft value opened pos (w ++ '}' :: s) s members omissions := by
  have hnil (pos : Nat) : TakesDraft value opened pos ('}' :: s) s [] [] := takesDraft_nil s
  induction hw with
  | @last pos _ _ _ _ hw hg =>
    simpa using takesDraft_cons (m := []) hvalue hmisses pos hw hg .nil (.brace s) (hnil _)
  | @lastComma pos _ _ _ _ _ hw hg hg' =>
    simpa using takesDraft_cons (m := [',']) hvalue hmisses pos hw hg hg' (.comma _) (hnil _)
  | @cons pos _ _ _ _ _ _ _ _ hw hg hg' _ ih =>
    simpa using takesDraft_cons (m := [',']) hvalue hmisses pos hw hg hg' (.comma _) ih
  | @noComma pos _ _ _ _ _ _ _ hw hg hrest ih =>
    obtain ⟨w', rfl⟩ := hrest.exists_head
    simpa using takesDraft_cons (m := []) hvalue hmisses pos hw hg .nil (.name _ rfl) (by simpa using ih)

/-- The object around a draft is read up to its brace. -/
theorem readValue_of_drafts {room : Nat} (hroom : room + depth = Document.maxDepth + 1) {g : List Char}
    (hg : Gap g) (hw : Drafts depth (c.pos + byteLength ('{' :: g)) members omissions w)
    (hc : c.rest = '{' :: (g ++ (w ++ '}' :: s))) (hdeep : room ≠ 0) :
    (readValue (room + 1) c).errors = omissions.map Omission.error ∧
      (readValue (room + 1) c).next.rest = s ∧
      ∃ span found, (readValue (room + 1) c).result = some (.object span found) ∧
        found.map Member.draft = members := by
  obtain ⟨room, rfl⟩ := Nat.exists_eq_succ_of_ne_zero hdeep
  have hone : (c.skip 1).pos + byteLength g = c.pos + byteLength ('{' :: g) := by
    simp [skip, hc, Nat.add_assoc]
  obtain ⟨herrors, hnext, hdraft⟩ := takesDraft_of_drafts (completeAt_readValue _ depth hroom)
    (missesValue_readValue room) c.pos hw s (c.skip 1) g hg hone (by simp [hc])
  simp only [readValue, hc]
  exact ⟨herrors, hnext, _, _, rfl, hdraft⟩

end Cursor

/-! ## Documents -/

/-- The members of a draft that have a value. -/
def keptMembers (members : List (String × Option Json)) : List (String × Json) :=
  members.filterMap fun (name, value?) => value?.map (name, ·)

/-- The value of the first member of a name that has one. -/
def firstKept? (members : List (String × Option Json)) (name : String) : Option Json :=
  members.findSome? fun (other, value?) => if other = name then value? else none

theorem entries_eq_keptMembers (found : List (Member Tree)) :
    Tree.entries found = keptMembers (found.map Member.draft) := by
  rw [Tree.entries, keptMembers, List.filterMap_map]
  congr 1
  funext m
  cases hm : m.value? <;> simp [Member.draft, hm]

theorem find?_keptMembers (name : String) (members : List (String × Option Json)) :
    Keyed.find? name (keptMembers members) = firstKept? members name := by
  induction members with
  | nil => rfl
  | cons first members ih =>
    obtain ⟨other, _ | value⟩ := first
    · simpa [keptMembers, firstKept?] using ih
    · by_cases h : other = name
      · simp [keptMembers, firstKept?, Keyed.find?_cons, h]
      · simpa [keptMembers, firstKept?, Keyed.find?_cons, h] using ih

/-- The object of a draft has a member for each name under which a value is left, with the first such
value. -/
theorem mem_ofMembers_iff (members : List (String × Option Json)) :
    ∃ entries, Json.ofMembers (keptMembers members) = .object entries ∧
      ∀ name value, (name, value) ∈ entries ↔ firstKept? members name = some value := by
  refine ⟨_, rfl, fun name value => ?_⟩
  have hfind := Keyed.find?_foldl_insertNew name (keptMembers members) []
  rw [Keyed.find?_nil, Option.none_or, find?_keptMembers] at hfind
  rw [← hfind]
  exact ⟨(Keyed.ascending_nil.foldl_insertNew).find?_eq_some_of_mem, Keyed.mem_of_find?⟩

namespace Document

variable {text : String}

/-- **Recovery.** From an object that lacks values and commas all that is there is read: its tree has every
member in order, its value has the first value left under each name and nothing else, and each omission is
reported once, where it shows. -/
theorem ofText_of_drafts (h : DraftsDocument members omissions text.toList) :
    (∃ span found, (ofText text).tree? = some (.object span found) ∧ found.map Member.draft = members) ∧
      (∃ entries, (ofText text).value? = some (.object entries) ∧
        ∀ name value, (name, value) ∈ entries ↔ firstKept? members name = some value) ∧
      (ofText text).errors = omissions.map Omission.error := by
  obtain ⟨g, g', w, g'', hg, hg', hw, hg'', htext⟩ := h
  obtain ⟨hgap, hnext⟩ := Cursor.readTrivia_of_gap (c := ⟨0, text.toList⟩) hg
    (Trivia.solid_cons (by decide) (by decide)) htext
  have hpos : (Cursor.readTrivia ⟨0, text.toList⟩).next.pos = byteLength g := by
    rw [Cursor.Reaches.pos_eq (Reading.reaches _) (by rw [hnext]; exact htext), Nat.zero_add]
  have hroot : readRoot (Cursor.readTrivia ⟨0, text.toList⟩).next = Cursor.readValue 129 _ := by
    rw [readRoot, if_neg (by simp [hnext])]
    rfl
  rw [byteLength_append, ← hpos] at hw
  obtain ⟨herrors, hafter, span, found, htree, hdraft⟩ :=
    Cursor.readValue_of_drafts (show 128 + 1 = maxDepth + 1 from rfl) hg' hw hnext (by decide)
  obtain ⟨htrailing, hend⟩ := Cursor.readTrivia_of_finalGap (by rw [hafter]; exact hg'')
  have hsome : (ofText text).tree? = some (.object span found) := by
    simp only [ofText]
    rw [hroot, htree]
  refine ⟨⟨span, found, hsome, hdraft⟩, ?_, ?_⟩
  · obtain ⟨entries, hentries, hmem⟩ := mem_ofMembers_iff members
    refine ⟨entries, ?_, hmem⟩
    rw [value?, hsome, Option.map_some, Tree.toJson_object, entries_eq_keptMembers, hdraft, hentries]
  · simp only [ofText]
    rw [hroot]
    simp [hgap, herrors, htree, htrailing, trailingErrors, hend]

/-- A draft with a comment in the place of the first value, no comma before the second `a`, and no value at
the end. -/
def draft : String := "\x7b\"b\": // later\n, \"a\": 1 \"a\": \"é\", \"c\":\x7d"

theorem draftsDocument_draft :
    DraftsDocument [("b", none), ("a", some (.number (.int 1))), ("a", some (.string "é")), ("c", none)]
      [.value 15, .comma 24, .value 39] draft.toList := by
  have ha : Literal (.string "a") "\"a\"".toList := .string (show Quoted.decode ['a'] = some ['a'] from rfl)
  have hb : Literal (.string "b") "\"b\"".toList := .string (show Quoted.decode ['b'] = some ['b'] from rfl)
  have hc : Literal (.string "c") "\"c\"".toList := .string (show Quoted.decode ['c'] = some ['c'] from rfl)
  have hé : Literal (.string "é") "\"é\"".toList := .string (show Quoted.decode ['é'] = some ['é'] from rfl)
  have hone : Literal (.number (.int 1)) ['1'] := .number rfl
  have hblank : Gap [' '] := .blank rfl .nil
  have hcomment : Gap " // later\n".toList := .blank rfl (.lineComment (show '\n' ∉ " later".toList by decide) .nil)
  have hfirst : DraftsMember 1 "a" (some (.number (.int 1))) "\"a\": 1".toList :=
    .whole (.named ha .nil hblank (.scalar (by decide) hone))
  have hsecond : DraftsMember 1 "a" (some (.string "é")) "\"a\": \"é\"".toList :=
    .whole (.named ha .nil hblank (.scalar (by decide) hé))
  exact ⟨[], [], _, [], .nil, .nil, .cons (.valueless hb .nil) hcomment hblank
    (.noComma hfirst hblank (.cons hsecond .nil hblank (.last (.valueless hc .nil) .nil))), .closed .nil, rfl⟩

theorem ofText_of_drafts_of_draft :
    (∃ members omissions, DraftsDocument members omissions draft.toList) ∧
      (∃ entries, (ofText draft).value? = some (.object entries) ∧ ("a", .number (.int 1)) ∈ entries) ∧
      (ofText draft).errors.map (·.fault) = [.noValue, .noComma, .noValue] := by
  obtain ⟨-, ⟨entries, hvalue, hmem⟩, herrors⟩ := ofText_of_drafts draftsDocument_draft
  refine ⟨⟨_, _, draftsDocument_draft⟩, ⟨entries, hvalue, (hmem _ _).mpr rfl⟩, ?_⟩
  rw [herrors]
  rfl

end Document

end PolicyAudit
