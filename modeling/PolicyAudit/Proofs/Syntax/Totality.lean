-- SUMMARY: Reading a text byte by byte ends, stays in the text, and finds what the reader finds.
import PolicyAudit.Proofs.Syntax.Lookup
import PolicyAudit.Proofs.Syntax.Skipping
import PolicyAudit.Proofs.Syntax.Walk

/-! ## Containers

A scan of containers follows a reader of containers as long as the scan of values that it is given follows the
reader of values that the other is given. -/

namespace PolicyAudit

open Text

namespace Scan

variable {text : List Char} {value : Scan (Option (Tree × Json))} {read : Cursor.ValueReader} {c : Cursor}

/-- Whether a scan of values finds the trees that a reader of values finds, with the values that they stand for, and
moves on for every one. -/
structure Follows (text : List Char) (value : Scan (Option (Tree × Json))) (read : Cursor.ValueReader) : Prop where
  runs : ∀ {c : Cursor}, c.Within text →
    Runs text value c.pos ((read c).result.map Tree.valued) (read c).errors (read c).next.pos
  moves : ∀ {c : Cursor} {tree : Tree}, c.Within text → (read c).result = some tree →
    (read c).next.rest.length < c.rest.length

theorem Follows.runs_scanMemberValue (h : Follows text value read) (hc : c.Within text) (name : String) :
    Runs text (scanMemberValue text value name) c.pos ((Cursor.readMemberValue read name c).result.map Tree.valued)
      (Cursor.readMemberValue read name c).errors (Cursor.readMemberValue read name c).next.pos := by
  have hd : c.readTrivia.next.Within text := hc.of_reaches c.readTrivia.reaches
  simp only [Cursor.readMemberValue, Reading.andThen_errors, Reading.andThen_next, Reading.andThen_result]
  refine (runs_skipTrivia hc).bind (Runs.of_cursor ?_)
  generalize c.readTrivia.next = d at hd ⊢
  simp only [hd.getElem?_bytes_eq_iff ':' (by decide)]
  by_cases hcolon : d.peek? = some ':'
  · have he : (d.skip 1).Within text := hd.of_reaches (d.reaches_skip 1)
    simp only [if_pos hcolon]
    refine (runs_advance_peek hd hcolon (by decide)).followed ?_
    exact (runs_skipTrivia he).bind (h.runs (he.of_reaches (d.skip 1).readTrivia.reaches))
  · simp only [if_neg hcolon]
    exact (runs_report _ _ _ _).bind_pure _

theorem runs_skipUnread (hc : c.Within text) (found : Option Tree) :
    Runs text (onlyIf found.isNone (skipJunk text '}')) c.pos () (Cursor.skipUnread found c).errors
      (Cursor.skipUnread found c).next.pos := by
  cases found with
  | none => exact runs_skipJunk hc (.inl rfl)
  | some tree => exact runs_pure () c.pos

theorem Follows.runs_scanMember (h : Follows text value read) {s : List Char} (hc : c.Within text)
    (hrest : c.rest = '"' :: s) :
    Runs text (scanMember text value) c.pos
      ((Cursor.readMember read c).result, (Cursor.readMember read c).result.value?.map Tree.toJson)
      (Cursor.readMember read c).errors (Cursor.readMember read c).next.pos := by
  have hname : (c.skip c.quotation.length).Within text := hc.of_reaches (c.reaches_skip _)
  have hvalue := h.runs_scanMemberValue hname c.quotation.text
  have hd := hname.of_reaches (Cursor.readMemberValue read c.quotation.text (c.skip c.quotation.length)).reaches
  refine (runs_scanString hc hrest).bind (hvalue.bind ?_)
  rw [Tree.isNone_map_valued, Tree.fst_map_valued, Tree.snd_map_valued]
  exact (runs_skipUnread hd _).bind ((runs_endMember (hd.of_reaches (Reading.reaches _))).bind_pure _)

/-- The value of a member is kept before those of the members after it. -/
theorem membersToJson_keepValue (values : Keyed Json) (member : Member Tree) (rest : List (Member Tree)) :
    Tree.membersToJson values (member :: rest) =
      Tree.membersToJson (keepValue values member.name (member.value?.map Tree.toJson)) rest := by
  obtain ⟨span, name, nameSpan, value?⟩ := member
  cases value? with
  | none => rw [Tree.membersToJson]; rfl
  | some tree => rw [Tree.membersToJson]; rfl

/-- Reading members, behind those that have been found. -/
theorem Follows.runs_scanMembers (h : Follows text value read) (hc : c.Within text) (opened : Nat)
    (found : List (Member Tree)) (values : Keyed Json) :
    Runs text (rounds (membersRound text value opened) (found, values)) c.pos
      (found ++ (Cursor.readMembers read opened c).result,
        Tree.membersToJson values (Cursor.readMembers read opened c).result)
      (Cursor.readMembers read opened c).errors (Cursor.readMembers read opened c).next.pos := by
  fun_induction Cursor.readMembers read opened c generalizing found values with
  | case1 c gap hend =>
    rw [List.append_nil, Tree.membersToJson]
    exact (Runs.of_trivia hc hend ((runs_report _ _ _ _).bind_pure _)).rounds_stop
  | case2 c gap s hclose =>
    rw [List.append_nil, Tree.membersToJson]
    have hd : gap.next.Within text := hc.of_reaches gap.reaches
    apply Runs.rounds_stop
    refine (Runs.of_trivia hc hclose ?_).of_eq rfl (List.append_nil _) rfl
    simp (disch := decide) only [List.head?_cons, Option.map_some, leadByte_eq_byte_iff, if_true]
    exact (runs_advance_one hd hclose (by decide)).bind_pure _
  | case3 c gap s member rest hquote hclose hlt ih =>
    have hd : gap.next.Within text := hc.of_reaches gap.reaches
    let kept := keepValue values member.result.name (member.result.value?.map Tree.toJson)
    have hround : Runs text (membersRound text value opened (found, values)) c.pos
        (.inr (found ++ [member.result], kept)) (gap.errors ++ member.errors) member.next.pos := by
      refine Runs.of_trivia hc hquote ?_
      simp (disch := decide) only [List.head?_cons, Option.map_some, leadByte_eq_byte_iff, hclose, if_true,
        if_false]
      exact (h.runs_scanMember hd hquote).bind_pure _
    have hrest := ih (hd.of_reaches member.reaches) (found ++ [member.result]) kept
    rw [List.append_assoc] at hrest
    rw [membersToJson_keepValue]
    exact hround.rounds_next ((gap.reaches.trans member.reaches).pos_lt hlt) hrest
  | case4 c gap ch s hother hclose hquote past hlt rest ih =>
    have hd : gap.next.Within text := hc.of_reaches gap.reaches
    have hround : Runs text (membersRound text value opened (found, values)) c.pos (.inr (found, values))
        (gap.errors ++ past.errors) past.next.pos := by
      refine Runs.of_trivia hc hother ?_
      simp (disch := decide) only [List.head?_cons, Option.map_some, leadByte_eq_byte_iff, hclose, hquote,
        if_false]
      exact (runs_skipNoName hd hother).bind_pure _
    have hrest := ih (hd.of_reaches past.reaches) found values
    exact hround.rounds_next ((gap.reaches.trans past.reaches).pos_lt hlt) hrest

theorem Follows.runs_scanItem (h : Follows text value read) {ch : Char} {s : List Char} (hc : c.Within text)
    (hrest : c.rest = ch :: s) (hch : ch ≠ ']') :
    Runs text (scanItem text value) c.pos ((Cursor.readItem read c).result.map Tree.valued)
      (Cursor.readItem read c).errors (Cursor.readItem read c).next.pos := by
  have hd : (read c).next.Within text := hc.of_reaches (read c).reaches
  cases hresult : (read c).result with
  | some tree =>
    obtain ⟨hitem, herrors, hnext⟩ := Cursor.readItem_of_some hresult (h.moves hc hresult)
    rw [hitem, herrors, hnext]
    refine Runs.of_cursor ((h.runs hc).bind ?_)
    rw [hresult]
    exact (runs_pure () _).followed ((runs_endItem hd).bind_pure _)
  | none =>
    have hskip := runs_skipNoItem hc hrest hch (read c).reaches
    simp only [Cursor.readItem, hresult, Cursor.skipUnread, Reading.andThen_errors, Reading.andThen_next,
      Reading.andThen_result, Reading.map_errors, Reading.map_next, Reading.map_result]
    refine Runs.of_cursor ((h.runs hc).bind ?_)
    have hend := runs_endItem ((hd.of_reaches (Reading.reaches _)).of_reaches
      ((read c).next.readJunk.next.skipIf ((read c).next.readJunk.next.pos = c.pos)).reaches)
    rw [hresult, Cursor.skipIf_errors]
    exact hskip.followed (hend.bind_pure _)

/-- Reading elements, behind those that have been found. -/
theorem Follows.runs_scanItems (h : Follows text value read) (hc : c.Within text) (opened : Nat)
    (found : List Tree) (values : List Json) :
    Runs text (rounds (itemsRound text value opened) (found, values)) c.pos
      (found ++ (Cursor.readItems read opened c).result,
        values ++ (Cursor.readItems read opened c).result.map Tree.toJson)
      (Cursor.readItems read opened c).errors (Cursor.readItems read opened c).next.pos := by
  fun_induction Cursor.readItems read opened c generalizing found values with
  | case1 c gap hend =>
    rw [List.map_nil, List.append_nil, List.append_nil]
    exact (Runs.of_trivia hc hend ((runs_report _ _ _ _).bind_pure _)).rounds_stop
  | case2 c gap s hclose =>
    rw [List.map_nil, List.append_nil, List.append_nil]
    have hd : gap.next.Within text := hc.of_reaches gap.reaches
    apply Runs.rounds_stop
    refine (Runs.of_trivia hc hclose ?_).of_eq rfl (List.append_nil _) rfl
    simp (disch := decide) only [List.head?_cons, Option.map_some, leadByte_eq_byte_iff, if_true]
    exact (runs_advance_one hd hclose (by decide)).bind_pure _
  | case3 c gap ch s hother hclose item hlt rest ih =>
    have hd : gap.next.Within text := hc.of_reaches gap.reaches
    have hround : Runs text (itemsRound text value opened (found, values)) c.pos
        (.inr (found ++ item.result.toList, values ++ item.result.toList.map Tree.toJson))
        (gap.errors ++ item.errors) item.next.pos := by
      refine Runs.of_trivia hc hother ?_
      simp (disch := decide) only [List.head?_cons, Option.map_some, leadByte_eq_byte_iff, hclose, if_false]
      refine ((h.runs_scanItem hd hother hclose).bind_pure _).of_eq ?_ rfl rfl
      rw [Tree.fst_map_valued, Tree.snd_map_valued, Option.toList_map]
    have hrest := ih (hd.of_reaches item.reaches) (found ++ item.result.toList)
      (values ++ item.result.toList.map Tree.toJson)
    rw [List.append_assoc, List.append_assoc, ← List.map_append] at hrest
    exact hround.rounds_next ((gap.reaches.trans item.reaches).pos_lt hlt) hrest

/-! ## Values -/

theorem runs_scanValue_tooDeep {depth : Nat} (hdepth : depth = Document.maxDepth + 1) (hc : c.Within text) :
    Runs text (scanValue text depth) c.pos ((Cursor.readValue 0 c).result.map Tree.valued)
      (Cursor.readValue 0 c).errors (Cursor.readValue 0 c).next.pos := by
  have hcall : (ScanEvent.call depth).Sound text := Nat.le_of_eq hdepth
  have hend : byteLength text = c.atEnd.pos := by
    rw [Cursor.atEnd, Cursor.skip_length, hc.pos_add_byteLength]
  have hlt : Document.maxDepth < depth := Nat.lt_of_succ_le (Nat.le_of_eq hdepth.symm)
  rw [scanValue]
  simp only [if_pos hlt]
  refine (runs_note hcall _).followed (Runs.of_cursor ((runs_report _ _ _ _).bind ?_))
  exact ((runs_seek (Nat.le_refl _) _).bind_pure _).of_eq rfl rfl hend

/-- Where a value may be read, the byte at the cursor tells which one. -/
theorem runs_scanValue {depth room : Nat} (hdepth : depth ≤ Document.maxDepth)
    (h : Follows text (scanValue text (depth + 1)) (Cursor.readValue room)) (hc : c.Within text) :
    Runs text (scanValue text depth) c.pos ((Cursor.readValue (room + 1) c).result.map Tree.valued)
      (Cursor.readValue (room + 1) c).errors (Cursor.readValue (room + 1) c).next.pos := by
  have hcall : (ScanEvent.call depth).Sound text := Nat.le_succ_of_le hdepth
  have hvalue : (ScanEvent.value depth).Sound text := hdepth
  have hbyte := hc.getElem?_bytes
  have hopen : (c.skip 1).Within text := hc.of_reaches (c.reaches_skip 1)
  rw [scanValue]
  simp only [if_neg (Nat.not_lt_of_le hdepth)]
  refine (runs_note hcall _).followed (Runs.of_cursor ((runs_note hvalue _).followed ?_))
  cases hrest : c.rest with
  | nil =>
    rw [hrest, List.head?_nil, Option.map_none] at hbyte
    simp only [Cursor.readValue, hrest, hbyte]
    exact runs_pure _ _
  | cons ch s =>
    rw [hrest, List.head?_cons, Option.map_some] at hbyte
    simp (disch := decide) only [Cursor.readValue, hrest, hbyte, leadByte_eq_byte_iff, isDigitByte_leadByte]
    split
    · next hbrace =>
      have hmembers := h.runs_scanMembers hopen c.pos [] []
      refine (runs_advance_one hc hrest (by rw [hbrace]; decide)).followed ?_
      refine (hmembers.bind ((runs_cursor _).bind_pure _)).of_eq rfl (List.append_nil _) rfl
    split
    · next hbracket =>
      have hitems := h.runs_scanItems hopen c.pos [] []
      simp only [Option.map_some, Tree.valued, Tree.toJson_array]
      refine (runs_advance_one hc hrest (by rw [hbracket]; decide)).followed ?_
      refine (hitems.bind ((runs_cursor _).bind_pure _)).of_eq rfl (List.append_nil _) rfl
    split
    · next hquote =>
      subst hquote
      exact (runs_scanString hc hrest).bind_pure _
    split
    · exact runs_scanNumber hc
    split
    · exact runs_scanWord hc _ _
    split
    · exact runs_scanWord hc _ _
    split
    · exact runs_scanWord hc _ _
    · have hslice : Runs text (slice text c.pos (byteLength text)) c.pos c.rest [] c.pos :=
        runs_slice_rest (w := []) hc rfl c.pos
      refine hslice.followed ?_
      rw [hrest]
      exact (runs_report _ _ _ _).bind_pure _

theorem moves_readValue (text : List Char) (room : Nat) {tree : Tree} (hc : c.Within text)
    (hresult : (Cursor.readValue room c).result = some tree) :
    (Cursor.readValue room c).next.rest.length < c.rest.length :=
  (Cursor.placesIn_readValue text room c hc tree hresult).2.1

/-- The scan of values inside `depth` containers follows the reader that has the room for what is left. -/
theorem follows_scanValue (text : List Char) {depth room : Nat} (h : room + depth = Document.maxDepth + 1) :
    Follows text (scanValue text depth) (Cursor.readValue room) := by
  refine ⟨?_, moves_readValue text room⟩
  induction room generalizing depth with
  | zero => exact runs_scanValue_tooDeep (by omega)
  | succ room ih =>
    intro c hc
    have hinner : room + (depth + 1) = Document.maxDepth + 1 := by omega
    exact runs_scanValue (by omega) ⟨ih hinner, moves_readValue text room⟩ hc

/-- Reading the value of a document. -/
theorem runs_scanRoot (hc : c.Within text) :
    Runs text (scanRoot text) c.pos ((Document.readRoot c).result.map Tree.valued) (Document.readRoot c).errors
      (Document.readRoot c).next.pos := by
  refine Runs.of_cursor ?_
  simp only [hc.pos_lt_iff]
  by_cases hend : c.rest = []
  · simp only [Document.readRoot, if_pos hend, if_neg (not_not_intro hend)]
    exact (runs_report _ _ _ _).bind_pure _
  · simp only [Document.readRoot, if_neg hend, if_pos hend]
    exact (follows_scanValue text (Nat.add_zero _)).runs hc

/-- What follows the value of a document is a fault. -/
theorem runs_trailing (hc : c.Within text) (root? : Option Tree) :
    Runs text (onlyIf (root?.isSome ∧ c.pos < byteLength text)
        (report .trailingContent c.pos (byteLength text - c.pos))) c.pos ()
      (if root?.isSome then Document.trailingErrors c else []) c.pos := by
  cases root? with
  | none => exact runs_pure () c.pos
  | some tree =>
    simp only [hc.pos_lt_iff, Document.trailingErrors, Option.isSome_some, true_and, if_true]
    by_cases hend : c.rest = []
    · simp only [hend, ne_eq, not_true, decide_false, if_true]
      exact runs_pure () c.pos
    · simp only [hend, ne_eq, not_false_eq_true, decide_true, if_false]
      refine (runs_report _ _ _ _).of_eq rfl ?_ rfl
      rw [← hc.pos_add_byteLength, Nat.add_sub_cancel_left]

/-- Reading a document. -/
theorem runs_scanDocument (text : String) :
    ∃ stop ≤ byteLength text.toList,
      Runs text.toList (scanDocument text.toList) 0 ((Document.ofText text).tree?.map Tree.valued)
        (Document.ofText text).errors stop := by
  let gap := Cursor.readTrivia ⟨0, text.toList⟩
  let root := Document.readRoot gap.next
  let trailing := root.next.readTrivia
  have hstart : (⟨0, text.toList⟩ : Cursor).Within text.toList := .refl _
  have hgap : gap.next.Within text.toList := hstart.of_reaches gap.reaches
  have hroot : root.next.Within text.toList := hgap.of_reaches root.reaches
  have hend : trailing.next.Within text.toList := hroot.of_reaches trailing.reaches
  have hrun : Runs text.toList (scanDocument text.toList) 0 (root.result.map Tree.valued)
      (gap.errors ++ (root.errors ++ (trailing.errors ++
        if root.result.isSome then Document.trailingErrors trailing.next else []))) trailing.next.pos := by
    refine (runs_skipTrivia hstart).bind ((runs_scanRoot hgap).bind ((runs_skipTrivia hroot).bind ?_))
    rw [Option.isSome_map]
    exact Runs.of_cursor ((runs_trailing hend root.result).bind_pure _)
  refine ⟨trailing.next.pos, hend.pos_le, hrun.of_eq rfl ?_ rfl⟩
  simp only [Document.ofText, List.append_assoc, gap, root, trailing]

end Scan

/-! ## Limits of reading -/

namespace Cursor

variable {room : Nat} {c : Cursor} {tree sub : Tree} {path p : Path}

/-- A reader that has the room for so many levels finds no more of them. -/
theorem length_lt_of_readValue (h : (readValue room c).result = some tree)
    (hwalk : (p, sub) ∈ tree.walkFrom path) : p.length < path.length + room := by
  induction room generalizing c tree path with
  | zero => cases h
  | succ room ih =>
    rcases readValue_cases h with ⟨span, rfl, -⟩ | ⟨span, rfl, -⟩ | ⟨span, value, rfl⟩
    · rcases List.mem_cons.mp hwalk with hhere | hbelow
      · obtain ⟨rfl, -⟩ := Prod.mk.inj hhere
        omega
      · obtain ⟨m, hm, part, hpart, hentry⟩ := Tree.mem_walkMembers_iff.mp hbelow
        obtain ⟨d, -, hvalue, -⟩ := exists_of_mem_readMembers hm hpart
        have hlt := ih hvalue hentry
        rw [List.length_append, List.length_singleton] at hlt
        omega
    · rcases List.mem_cons.mp hwalk with hhere | hbelow
      · obtain ⟨rfl, -⟩ := Prod.mk.inj hhere
        omega
      · obtain ⟨i, item, hitem, hentry⟩ := Tree.mem_walkItems_iff.mp hbelow
        obtain ⟨d, -, hvalue, -⟩ := exists_of_mem_readItems (List.mem_of_getElem? hitem)
        have hlt := ih hvalue hentry
        rw [List.length_append, List.length_singleton] at hlt
        omega
    · obtain ⟨rfl, -⟩ := Prod.mk.inj (List.mem_singleton.mp hwalk)
      omega

/-- Whether a value or a fault is found. -/
def Answers (r : Reading c (Option Tree)) : Prop := r.errors = [] → r.result ≠ none

theorem answers_readNumber (c : Cursor) : Answers c.readNumber := by
  intro herrors
  obtain ⟨n, w, hresult, -⟩ := literal_of_readNumber herrors
  rw [hresult]
  exact Option.some_ne_none _

theorem answers_readWord (c : Cursor) (word : List Char) (value : Scalar) : Answers (c.readWord word value) := by
  intro herrors
  rw [(append_of_readWord herrors).1]
  exact Option.some_ne_none _

/-- Where there is something to read, a value or a fault is found. -/
theorem answers_readValue (hrest : c.rest ≠ []) : Answers (readValue room c) := by
  cases room with
  | zero => exact fun herrors => absurd herrors (List.cons_ne_nil _ _)
  | succ room =>
    cases hc : c.rest with
    | nil => exact absurd hc hrest
    | cons ch s =>
      refine readValue_of_head hc ?object ?array ?string ?number ?word ?noValue
      case object => exact fun _ _ => Option.some_ne_none _
      case array => exact fun _ _ => Option.some_ne_none _
      case string => exact fun _ _ => Option.some_ne_none _
      case number => exact fun _ => answers_readNumber c
      case word => exact fun _ _ => answers_readWord c _ _
      case noValue => exact fun herrors => absurd herrors (List.cons_ne_nil _ _)

end Cursor

/-! ## Documents -/

namespace Document

variable {text : String} {tree sub : Tree} {path : Path}

theorem length_le_of_mem_walk (htree : (ofText text).tree? = some tree) (hwalk : (path, sub) ∈ tree.walk) :
    path.length ≤ maxDepth := by
  obtain ⟨c, -, hresult, -⟩ := readValue_of_tree? htree
  have hlt := Cursor.length_lt_of_readValue hresult hwalk
  rw [List.length_nil, Nat.zero_add] at hlt
  exact Nat.le_of_lt_succ hlt

theorem errors_ne_nil_of_tree?_none (h : (ofText text).tree? = none) : (ofText text).errors ≠ [] := by
  intro herrors
  simp only [ofText, List.append_eq_nil_iff] at h herrors
  obtain ⟨⟨⟨-, hroot⟩, -⟩, -⟩ := herrors
  unfold readRoot at hroot h
  split at h
  · next hend =>
    rw [if_pos hend] at hroot
    cases hroot
  · next hne =>
    rw [if_neg hne] at hroot
    exact Cursor.answers_readValue hne hroot h

/-- **Totality.** Read byte by byte, with nothing to keep the cursor in the text or its loops from going on, any
text is read to the end: the scan has an outcome, which is the tree of the document, the value that it stands for,
and its faults. On the way
the cursor stays in the text, every round of a loop over members, elements or skipped text moves it on, every
part of the text that is taken begins and ends between two characters, and no value is read inside more than 128
containers. So the values of the tree nest in at most 129 levels. Where a value is asked for before the end of
the text and none is found, there is a fault, and so there is where there is no tree at all, or a member in it
without a value. -/
theorem scan_ofText (text : String) :
    (∃ stop ≤ byteLength text.toList, ∃ events, (∀ e ∈ events, e.Sound text.toList) ∧
      Scan.scanDocument text.toList ⟨0, [], []⟩ =
        Part.some ((ofText text).tree?.map fun tree => (tree, tree.toJson), ⟨stop, (ofText text).errors, events⟩)) ∧
    (∀ tree, (ofText text).tree? = some tree → ∀ entry ∈ tree.walk, entry.1.length < 129) ∧
    (∀ room (c : Cursor), c.rest ≠ [] → (c.readValue room).result = none → (c.readValue room).errors ≠ []) ∧
    ((ofText text).tree? = none → (ofText text).errors ≠ []) ∧
    (∀ tree, (ofText text).tree? = some tree → ¬ tree.Whole → (ofText text).errors ≠ []) := by
  refine ⟨?_, ?_, ?_, errors_ne_nil_of_tree?_none, ?_⟩
  · obtain ⟨stop, hstop, hrun⟩ := Scan.runs_scanDocument text
    obtain ⟨events, hsound, houtcome⟩ := hrun ⟨0, [], []⟩ rfl
    exact ⟨stop, hstop, events, hsound, houtcome⟩
  · intro tree htree entry hentry
    exact Nat.lt_succ_of_le (length_le_of_mem_walk htree hentry)
  · exact fun room c hrest hnone herrors => Cursor.answers_readValue hrest herrors hnone
  · intro tree htree hwhole herrors
    exact hwhole (whole_of_isClean (isClean_iff.mpr ⟨herrors, tree, htree⟩) htree)

end Document

end PolicyAudit
