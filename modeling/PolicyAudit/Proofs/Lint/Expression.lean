-- SUMMARY: Which effects are read as naming a parameter, and which names are read back from what is written for them.
import PolicyAudit.Lint.Effect
import PolicyAudit.Proofs.Text.Trimming

/-! ## Marks and words -/

namespace PolicyAudit

namespace Text

variable {p c : Char} {read word text gap rest : List Char}

/-- A character below the small letters that is no capital letter. -/
def IsMark (c : Char) : Prop := c.toNat < 65 ∨ 90 < c.toNat ∧ c.toNat < 97

instance (c : Char) : Decidable (IsMark c) := inferInstanceAs (Decidable (_ ∨ _))

/-- A mark stands for itself only. -/
theorem IsMark.matchesChar_iff (hp : IsMark p) : matchesChar p c = true ↔ c = p := by
  have hs : p ≠ 's' := by
    rintro rfl
    exact absurd hp (by decide)
  have hk : p ≠ 'k' := by
    rintro rfl
    exact absurd hp (by decide)
  simp only [matchesChar, beq_iff_eq, beq_eq_false_iff_ne.mpr hs, beq_eq_false_iff_ne.mpr hk, Bool.false_and,
    Bool.or_false, ← Char.toNat_inj, toNat_toLower]
  unfold IsMark at hp
  split <;> omega

/-- A mark stands for no other character. -/
theorem IsMark.eq_of_matchesChar (hc : IsMark c) (h : matchesChar p c = true) : p = c := by
  have hsame : c.toLower = c := by
    rw [← Char.toNat_inj, toNat_toLower, if_neg]
    unfold IsMark at hc
    omega
  simp only [matchesChar, hsame, Bool.or_eq_true, Bool.and_eq_true, beq_iff_eq] at h
  rcases h with (rfl | ⟨-, rfl⟩) | ⟨-, rfl⟩
  · rfl
  · exact absurd hc (by decide)
  · exact absurd hc (by decide)

theorem IsMark.not_mem_of_readsAs (hc : IsMark c) (h : ReadsAs word read) (hword : c ∉ word) : c ∉ read := by
  induction h with
  | nil => exact List.not_mem_nil
  | @cons p d word text hchar hread ih =>
    obtain ⟨hp, hrest⟩ := not_or.mp (mt List.mem_cons.mpr hword)
    rw [List.mem_cons, not_or]
    refine ⟨?_, ih hrest⟩
    rintro rfl
    exact hp (hc.eq_of_matchesChar hchar).symm

theorem IsMark.readsAs_iff (hp : IsMark p) : ReadsAs [p] read ↔ read = [p] := by
  constructor
  · intro h
    cases h with
    | cons hchar hrest =>
      cases hrest
      rw [hp.matchesChar_iff.mp hchar]
  · rintro rfl
    exact .cons (hp.matchesChar_iff.mpr rfl) .nil

theorem IsMark.stripWord?_iff (hp : IsMark p) : stripWord? [p] text = some rest ↔ text = p :: rest := by
  simp only [stripWord?_eq_some_iff, hp.readsAs_iff, exists_eq_left, List.singleton_append]

/-- A word behind blanks. -/
theorem stripWord?_blanks_iff (hp : isBlank p = false) : stripWord? (p :: word) (text.dropWhile isBlank) = some rest ↔
    ∃ gap read, (∀ c ∈ gap, isBlank c = true) ∧ ReadsAs (p :: word) read ∧ text = gap ++ (read ++ rest) := by
  rw [stripWord?_eq_some_iff]
  constructor
  · rintro ⟨read, hread, hrest⟩
    refine ⟨text.takeWhile isBlank, read, fun c hc => List.all_eq_true.mp List.all_takeWhile c hc, hread, ?_⟩
    rw [← hrest, List.takeWhile_append_dropWhile]
  · rintro ⟨gap, read, hgap, hread, rfl⟩
    refine ⟨read, hread, ?_⟩
    cases hread with
    | @cons _ c _ read hchar _ =>
      have hc : isBlank c = false := Bool.eq_false_iff.mpr fun hc =>
        Bool.false_ne_true (hp.symm.trans (isBlank_of_matchesChar hchar hc))
      rw [List.dropWhile_append_of_pos hgap, List.cons_append, List.dropWhile_cons_of_neg (by simp [hc])]

/-- A mark behind blanks. -/
theorem IsMark.stripWord?_blanks_iff (hp : IsMark p) (hblank : isBlank p = false) :
    stripWord? [p] (text.dropWhile isBlank) = some rest ↔
      ∃ gap, (∀ c ∈ gap, isBlank c = true) ∧ text = gap ++ p :: rest := by
  simp only [Text.stripWord?_blanks_iff hblank, hp.readsAs_iff, exists_and_left, exists_eq_left,
    List.singleton_append]

theorem readsAs_self (h : (word.all fun p => matchesChar p p) = true) : ReadsAs word word := by
  induction word with
  | nil => exact .nil
  | cons p word ih =>
    obtain ⟨hp, hrest⟩ := Bool.and_eq_true_iff.mp h
    exact .cons hp (ih hrest)

/-- What begins and ends with no blank is not trimmed. -/
theorem trim_eq_self (hhead : ∀ c, text.head? = some c → isBlank c = false)
    (hlast : ∀ c, text.getLast? = some c → isBlank c = false) : trim text = text := by
  have hstart : ∀ {s : List Char}, (∀ c, s.head? = some c → isBlank c = false) → s.dropWhile isBlank = s := by
    intro s h
    cases s with
    | nil => rfl
    | cons c s => rw [List.dropWhile_cons_of_neg (by simp [h c rfl])]
  rw [trim, trimStart, hstart hhead, trimEnd, hstart (by rwa [List.head?_reverse]), List.reverse_reverse]

end Text

/-! ## Expressions that name a parameter -/

namespace Effect

open Text

variable {effect parameter : String}

/-- The texts of the expressions that take the value of a parameter: blanks may stand between their tokens, and
letters are in either case. -/
inductive Expresses (parameter : String) : List Char → Prop where
  | intro {a b c d word : List Char} : parameter ≠ "" → '\'' ∉ parameter.toList →
      ReadsAs "parameters(".toList word → (∀ x ∈ a, isBlank x = true) → (∀ x ∈ b, isBlank x = true) →
      (∀ x ∈ c, isBlank x = true) → (∀ x ∈ d, isBlank x = true) →
      Expresses parameter
        ('[' :: (a ++ (word ++ (b ++ '\'' :: (parameter.toList ++ '\'' :: (c ++ ')' :: (d ++ [']'])))))))

theorem expresses_of_parameterOf? (h : parameterOf? effect = some parameter) :
    Expresses parameter (trim effect.toList) := by
  unfold parameterOf? at h
  obtain ⟨inner, hopen, h⟩ := Option.bind_eq_some_iff.mp h
  obtain ⟨opened, hword, h⟩ := Option.bind_eq_some_iff.mp h
  obtain ⟨quoted, hquote, h⟩ := Option.bind_eq_some_iff.mp h
  dsimp only at h
  split at h
  · cases h
  next hfilled =>
  obtain ⟨closing, hclose, h⟩ := Option.bind_eq_some_iff.mp h
  obtain ⟨last, hparen, h⟩ := Option.bind_eq_some_iff.mp h
  obtain ⟨tail, hbracket, h⟩ := Option.bind_eq_some_iff.mp h
  split at h
  · next htail =>
    let name := quoted.takeWhile (· ≠ '\'')
    obtain rfl : String.ofList name = parameter := Option.some.inj h
    obtain rfl := List.isEmpty_iff.mp htail
    have hopen : trim effect.toList = '[' :: inner := (IsMark.stripWord?_iff (by decide)).mp hopen
    obtain ⟨a, word, ha, hread, rfl⟩ := (stripWord?_blanks_iff (by decide)).mp hword
    obtain ⟨b, hb, rfl⟩ : ∃ b, (∀ x ∈ b, isBlank x = true) ∧ opened = b ++ '\'' :: quoted :=
      (IsMark.stripWord?_blanks_iff (by decide) (by decide)).mp hquote
    have hclose : quoted.drop name.length = '\'' :: closing := (IsMark.stripWord?_iff (by decide)).mp hclose
    obtain ⟨c, hc, rfl⟩ : ∃ c, (∀ x ∈ c, isBlank x = true) ∧ closing = c ++ ')' :: last :=
      (IsMark.stripWord?_blanks_iff (by decide) (by decide)).mp hparen
    obtain ⟨d, hd, rfl⟩ : ∃ d, (∀ x ∈ d, isBlank x = true) ∧ last = d ++ [']'] :=
      (IsMark.stripWord?_blanks_iff (by decide) (by decide)).mp hbracket
    have hquoted : quoted = name ++ quoted.drop name.length :=
      (List.prefix_iff_eq_append.mp (List.takeWhile_prefix _)).symm
    have hname : '\'' ∉ name := fun hmem =>
      absurd (List.all_eq_true.mp List.all_takeWhile '\'' hmem) (by decide)
    have hne : String.ofList name ≠ "" := fun hempty => by
      rw [← String.toList_inj, String.toList_ofList] at hempty
      exact hfilled (List.isEmpty_iff.mpr hempty)
    have hform := Expresses.intro hne (by rwa [String.toList_ofList]) hread ha hb hc hd
    rwa [String.toList_ofList, ← hclose, ← hquoted, ← hopen] at hform
  · cases h

theorem parameterOf?_of_expresses (h : Expresses parameter (trim effect.toList)) :
    parameterOf? effect = some parameter := by
  unfold parameterOf?
  generalize trim effect.toList = text at h
  cases h with
  | @intro a b c d word hne hname hread ha hb hc hd =>
    have htake : (parameter.toList ++ '\'' :: (c ++ ')' :: (d ++ [']']))).takeWhile (· ≠ '\'') = parameter.toList := by
      have hquotes : ∀ x ∈ parameter.toList, decide (x ≠ '\'') = true := fun x hx =>
        decide_eq_true fun heq => hname (heq ▸ hx)
      rw [List.takeWhile_append_of_pos hquotes, List.takeWhile_cons_of_neg (by decide), List.append_nil]
    have hfilled : ¬ parameter.toList.isEmpty = true := fun hempty =>
      hne (String.toList_inj.mp (List.isEmpty_iff.mp hempty))
    refine Option.bind_eq_some_iff.mpr ⟨_, (IsMark.stripWord?_iff (by decide)).mpr rfl, ?_⟩
    refine Option.bind_eq_some_iff.mpr ⟨_, (stripWord?_blanks_iff (by decide)).mpr ⟨a, word, ha, hread, rfl⟩, ?_⟩
    refine Option.bind_eq_some_iff.mpr
      ⟨_, (IsMark.stripWord?_blanks_iff (by decide) (by decide)).mpr ⟨b, hb, rfl⟩, ?_⟩
    dsimp only
    rw [htake, if_neg hfilled, List.drop_left]
    refine Option.bind_eq_some_iff.mpr ⟨_, (IsMark.stripWord?_iff (by decide)).mpr rfl, ?_⟩
    refine Option.bind_eq_some_iff.mpr
      ⟨_, (IsMark.stripWord?_blanks_iff (by decide) (by decide)).mpr ⟨c, hc, rfl⟩, ?_⟩
    refine Option.bind_eq_some_iff.mpr
      ⟨_, (IsMark.stripWord?_blanks_iff (by decide) (by decide)).mpr ⟨d, hd, rfl⟩, ?_⟩
    rw [String.ofList_toList]
    rfl

/-- An effect names a parameter just if it is the text of such an expression, blanks at its ends aside. -/
theorem parameterOf?_eq_some_iff : parameterOf? effect = some parameter ↔ Expresses parameter (trim effect.toList) :=
  ⟨expresses_of_parameterOf?, parameterOf?_of_expresses⟩

/-! ## What is written for a name

The name is written as it is, so a quote in it ends what is read of it. -/

theorem toList_expression (parameter : String) :
    (expression parameter).toList = "[parameters('".toList ++ (parameter.toList ++ "')]".toList) := by
  rw [expression, String.toList_append, String.toList_append, List.append_assoc]
  rfl

theorem trim_expression (parameter : String) :
    trim (expression parameter).toList = (expression parameter).toList := by
  rw [toList_expression]
  apply trim_eq_self
  · rintro c ⟨⟩
    decide
  · have hlast : "')]".toList.getLast? = some ']' := rfl
    rw [List.getLast?_append, List.getLast?_append, hlast]
    rintro c ⟨⟩
    decide

theorem isExpression_expression (parameter : String) : isExpression (expression parameter) = true := by
  rw [isExpression, toList_expression]
  rfl

/-- The only quotes of an expression are those around the name. -/
theorem count_quote_of_expresses {text : List Char} (h : Expresses parameter text) : text.count '\'' = 2 := by
  have hblanks : ∀ {gap : List Char}, (∀ x ∈ gap, isBlank x = true) → gap.count '\'' = 0 := fun hgap =>
    List.count_eq_zero.mpr fun hmem => absurd (hgap _ hmem) (by decide)
  cases h with
  | @intro a b c d word hne hname hread ha hb hc hd =>
    have hword : '\'' ∉ word := IsMark.not_mem_of_readsAs (by decide) hread (by decide)
    simp [hblanks ha, hblanks hb, hblanks hc, hblanks hd, List.count_eq_zero.mpr hword,
      List.count_eq_zero.mpr hname]

/-- A name is read back unless it is empty or has a quote in it. -/
theorem parameterOf?_expression (parameter : String) : parameterOf? (expression parameter) =
    if parameter ≠ "" ∧ '\'' ∉ parameter.toList then some parameter else none := by
  split
  · next hplain =>
    rw [parameterOf?_eq_some_iff, trim_expression, toList_expression]
    have hword : ReadsAs "parameters(".toList "parameters(".toList := readsAs_self (by decide)
    exact .intro (a := []) (b := []) (c := []) (d := []) hplain.1 hplain.2 hword nofun nofun nofun nofun
  · next hplain =>
    refine Option.eq_none_iff_forall_ne_some.mpr fun found hfound => hplain ?_
    have hcount := count_quote_of_expresses (expresses_of_parameterOf? hfound)
    have hends : "[parameters('".toList.count '\'' + "')]".toList.count '\'' = 2 := by decide
    rw [trim_expression, toList_expression, List.count_append, List.count_append] at hcount
    refine ⟨?_, List.count_eq_zero.mp (by omega)⟩
    rintro rfl
    have hnone : parameterOf? (expression "") = none := by decide
    cases hfound.symm.trans hnone

end Effect

end PolicyAudit
