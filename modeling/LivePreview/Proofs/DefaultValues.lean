/-
  LivePreview.Proofs.DefaultValues

  Default exports and the values behind them.

  Of a default export the name at the beginning of its value is recorded
  (`ModuleRecord.defaultExport_value`).  What stands behind the name is not looked at: a call
  or a member access is recorded as its first name, like that name alone.
-/

import LivePreview.Proofs.RecordedNames
import LivePreview.Proofs.StatementPlace

namespace LivePreview.Pattern

variable {p : Pattern} {u t r : List Char} {gs : List (List Char)}

/-! ## Patterns that can match at one place -/

/-- In the text nothing is taken but behind its beginning `u`. -/
def OnlyBehind (p : Pattern) (u s : List Char) : Prop :=
  ∀ a t r gs, u ++ s = a ++ (t ++ r) → p.Takes (lastAfter none a) t r gs → a = u

/-- A part of the text before that place stays, and so does one behind it. -/
theorem OnlyBehind.reads_part {f : Match → List Char} {s a b c : List Char}
    (h : p.OnlyBehind u s) (hsplit : u ++ s = a ++ (b ++ c))
    (hpart : ∀ b₁ d b₂, b = b₁ ++ d :: b₂ → a ++ b₁ ≠ u) :
    p.Reads f (lastAfter none a) b c b [] := by
  apply reads_of_fails
  rintro b₁ d b₂ rfl
  rw [fails_iff]
  intro t r gs heq htakes
  refine hpart b₁ d b₂ rfl (h (a ++ b₁) t r gs ?_ ?_)
  · rw [hsplit, List.append_assoc, List.append_assoc, List.cons_append, heq]
  · rwa [lastAfter_append]

/-- The one match that there is. -/
theorem OnlyBehind.groups_eq (h : p.OnlyBehind u (t ++ r))
    (ht : p.Prefers (lastAfter none u) t r gs) (hne : t ≠ []) :
    (p.allMatches (u ++ (t ++ r))).map Match.groups = [gs] := by
  have hbefore : p.Reads Match.text none u (t ++ r) u [] := by
    apply h.reads_part (a := []) rfl
    rintro b₁ d b₂ hu heq
    have hlength := congrArg List.length hu
    rw [← heq, List.nil_append, List.length_append, List.length_cons] at hlength
    omega
  have hbehind : p.Reads Match.text (lastAfter (lastAfter none u) t) r [] r [] := by
    rw [← lastAfter_append]
    apply h.reads_part (by simp)
    rintro b₁ d b₂ - heq
    have hnil : t ++ b₁ = [] := by simpa using heq
    exact hne (List.append_eq_nil_iff.mp hnil).1
  exact (reads_single hbefore ht hne hbehind).map_groups_allMatches

theorem OnlyBehind.allMatches_eq_nil {s : List Char} (h : p.OnlyBehind u s)
    (hs : p.Fails (lastAfter none u) s) : p.allMatches (u ++ s) = [] := by
  have hread : p.Reads Match.text none (u ++ s) [] (u ++ s) [] := by
    apply reads_of_no_match
    intro a t r gs hwhole htakes
    obtain rfl := h a t r gs hwhole htakes
    exact fails_iff.mp hs t r gs (List.append_cancel_left hwhole) htakes
  exact hread.allMatches_eq_nil

end LivePreview.Pattern

namespace LivePreview.Script

open Pattern Text

variable {u e r s : List Char}

/-! ## The name of a value -/

theorem defaultWords_append (g₁ g₂ : Gap) (s : List Char) : defaultWords g₁ g₂ ++ s =
    "export".toList ++ (g₁.chars ++ ("default".toList ++ (g₂.chars ++ s))) := by
  unfold defaultWords
  simp only [List.append_assoc]

/-- The name that a text begins with. -/
def leadingName? (s : List Char) : Option (List Char) :=
  if s.head?.any isIdentifierStart then some (s.takeWhile isIdentifierPart) else none

/-- The name that is recorded of a value: behind `function` and white space if it stands there,
    and else at the beginning. -/
def valueName? (s : List Char) : Option (List Char) :=
  if wordThenName "function" s then
    leadingName? ((s.drop "function".toList.length).dropWhile isBlank)
  else leadingName? s

/-- `function` and a name, as a text that begins with them. -/
theorem exists_of_wordThenName {word : String} (h : wordThenName word s = true) :
    ∃ g : Gap, ∃ n : Name, ∃ r, s = word.toList ++ (g.chars ++ (n.chars ++ r)) ∧
      Stops isIdentifierPart r ∧
      leadingName? ((s.drop word.toList.length).dropWhile isBlank) = some n.chars := by
  rw [wordThenName, Bool.and_eq_true, List.isPrefixOf_iff_prefix] at h
  obtain ⟨⟨v, rfl⟩, hname⟩ := h
  rw [List.drop_left] at hname ⊢
  rw [nameFollows, Bool.and_eq_true] at hname
  obtain ⟨n, hn⟩ := exists_name_of_head hname.2
  have hgap : v.takeWhile isBlank ≠ [] := by
    obtain ⟨c, v, rfl⟩ : ∃ c v', v = c :: v' := by
      cases v with
      | nil => simp at hname
      | cons c v => exact ⟨c, v, rfl⟩
    have hc : isBlank c = true := hname.1
    simp [hc]
  refine ⟨⟨⟨v.takeWhile isBlank, fun c hc => List.mem_takeWhile_imp hc⟩, hgap⟩, n,
    (v.dropWhile isBlank).dropWhile isIdentifierPart, ?_, ?_, ?_⟩
  · rw [hn, List.takeWhile_append_dropWhile, List.takeWhile_append_dropWhile]
  · have hstops := stops_dropWhile isIdentifierPart (v.dropWhile isBlank) [] (stops_nil _)
    rwa [List.append_nil] at hstops
  · rw [leadingName?, if_pos hname.2, hn]

/-- A value with a name is matched up to the end of the name. -/
theorem exists_prefers_of_valueName? (last : Option Char) (g₁ g₂ : Gap) {n : List Char}
    (h : valueName? s = some n) :
    ∃ t r, s = t ++ r ∧ Shape.defaultExport.Prefers last (defaultWords g₁ g₂ ++ t) r [n] := by
  rw [valueName?] at h
  split at h
  · next hfunction =>
    obtain ⟨g₃, m, r, rfl, hr, hname⟩ := exists_of_wordThenName hfunction
    obtain rfl : m.chars = n := Option.some.inj (hname.symm.trans h)
    have hmatch := prefers_defaultExport_function last g₁ g₂ g₃ m hr
    rw [List.append_assoc _ ("function".toList ++ g₃.chars)] at hmatch
    exact ⟨_, r, by simp only [List.append_assoc], hmatch⟩
  · next hfunction =>
    -- Any other name stands alone, and `function` with a name behind it does not begin there.
    rw [leadingName?] at h
    split at h
    · next hhead =>
      obtain ⟨m, hm⟩ := exists_name_of_head hhead
      obtain rfl : m.chars = n := hm.trans (Option.some.inj h)
      have hsplit : s = m.chars ++ s.dropWhile isIdentifierPart := by
        rw [hm, List.takeWhile_append_dropWhile]
      have hstops := stops_dropWhile isIdentifierPart s [] (stops_nil _)
      rw [List.append_nil] at hstops
      refine ⟨m.chars, s.dropWhile isIdentifierPart, hsplit, ?_⟩
      apply prefers_defaultExport_value last g₁ g₂ m hstops
      rw [← hsplit]
      exact Bool.not_eq_true _ ▸ hfunction
    · cases h

theorem fails_of_valueName? (last : Option Char) (g₁ g₂ : Gap) (hs : Stops isBlank s)
    (h : valueName? s = none) : Shape.defaultExport.Fails last (defaultWords g₁ g₂ ++ s) := by
  have hhead : s.head?.any isIdentifierStart = false := by
    rw [valueName?] at h
    split at h
    · next hfunction =>
      obtain ⟨_, n, _, -, -, hname⟩ := exists_of_wordThenName hfunction
      cases hname.symm.trans h
    · rw [leadingName?] at h
      split at h
      · cases h
      · next hhead => exact Bool.not_eq_true _ ▸ hhead
  rw [defaultWords_append]
  exact fails_defaultExport last g₁ g₂ hs hhead

/-! ## The whole value -/

/-- A character of a value: the value ends with its line, or at a semicolon. -/
def isValuePart (c : Char) : Bool := c != ';' && c != '\n'

theorem isValuePart_of_isIdentifierPart {c : Char} (h : isIdentifierPart c = true) :
    isValuePart c = true := by
  rw [isValuePart, Bool.and_eq_true, bne_iff_ne, bne_iff_ne]
  constructor
  · rintro rfl
    exact absurd h (by decide)
  · rintro rfl
    exact absurd h (by decide)

theorem takeWhile_append_of_stops {cls : Char → Bool} (hr : Stops cls r) (e : List Char) :
    (e ++ r).takeWhile cls = e.takeWhile cls := by
  have hnone : r.takeWhile cls = [] := by
    cases r with
    | nil => rfl
    | cons c r => exact List.takeWhile_cons_of_neg (by simp [stops_cons.mp hr])
  rw [List.takeWhile_append, hnone]
  split
  · next hall => rw [List.append_nil, (List.takeWhile_prefix cls).eq_of_length hall]
  · rfl

/-- A text that begins with a name is that name, up to white space at its end, if only white
    space follows. -/
theorem trim_eq_iff (n : Name) (x : List Char) :
    trim (n.chars ++ x) = n.chars ↔ isBlankText x = true := by
  have hfront : (n.chars ++ x).dropWhile isBlank = n.chars ++ x :=
    dropWhile_of_stops (n.stops_isBlank x)
  rw [trim, hfront, isBlankText, List.all_eq_true]
  constructor
  · intro htrim c hc
    have hsplit := (List.rdropWhile_append_rtakeWhile (p := isBlank) (l := n.chars ++ x))
    have hdrop : (n.chars ++ x).rdropWhile isBlank = n.chars := htrim
    rw [hdrop, List.append_cancel_left_eq] at hsplit
    exact List.mem_rtakeWhile_imp (hsplit ▸ hc)
  · intro hx
    have hlast : Stops isBlank n.chars.reverse := by
      intro c hc
      rw [List.head?_reverse] at hc
      exact isBlank_of_isIdentifierPart (n.isIdentifierPart_of_mem c (List.mem_of_getLast? hc))
    rw [List.reverse_append, dropWhile_run (fun c hc => hx c (List.mem_reverse.mp hc)) hlast,
      List.reverse_reverse]

/-- The name of a value is what the value begins with. -/
theorem isPrefix_of_valueName? {n : List Char} (hr : Stops isValuePart r)
    (hfunction : wordThenName "function" (e ++ r) = false) (h : valueName? (e ++ r) = some n) :
    n <+: e ∧ (trim e = n ↔ isBlankText (e.drop n.length) = true) := by
  rw [valueName?, if_neg (by simp [hfunction]), leadingName?] at h
  split at h
  · next hhead =>
    obtain ⟨m, hm⟩ := exists_name_of_head hhead
    obtain rfl : m.chars = n := hm.trans (Option.some.inj h)
    have hstops : Stops isIdentifierPart r := by
      intro c hc
      by_contra hpart
      rw [Bool.not_eq_false] at hpart
      exact Bool.false_ne_true ((hr c hc).symm.trans (isValuePart_of_isIdentifierPart hpart))
    rw [takeWhile_append_of_stops hstops] at hm
    have hlead : m.chars <+: e := hm ▸ List.takeWhile_prefix _
    refine ⟨hlead, ?_⟩
    obtain ⟨x, rfl⟩ := hlead
    rw [List.drop_left]
    exact trim_eq_iff m x
  · cases h

/-! ## The one default export of a text -/

/-- `export default` and white space stand in the text only behind its beginning `u`. -/
def OneDefault (u s : List Char) : Prop :=
  ∀ a k₁ k₂ b, u ++ s = a ++ (defaultWords k₁ k₂ ++ b) → a = u

theorem OneDefault.onlyBehind (h : OneDefault u s) : Shape.defaultExport.OnlyBehind u s := by
  intro a t r gs hsplit htakes
  rw [defaultExport_eq] at htakes
  obtain ⟨_, _, n, rfl, -, ⟨_, x, _, _, rfl, -, hwords, -⟩⟩ := takes_seq_identifier.mp htakes
  obtain ⟨k₁, k₂, rfl, -⟩ := takes_defaultExpression.mp hwords
  refine h a k₁ k₂ (x ++ (n.chars ++ r)) (hsplit.trans ?_)
  unfold defaultWords
  simp only [List.append_assoc]

theorem not_mem_gap {c : Char} (hc : isBlank c = false) (g : Gap) : c ∉ g.chars :=
  fun h => Bool.false_ne_true (hc.symm.trans (g.blank c h))

/-- Behind its first letter a default export holds no `export`: it has one more `e`, and no `x`
    follows that one. -/
theorem not_infix_defaultWords (g₁ g₂ : Gap) (hs : Lacks "export".toList s) :
    ¬ "export".toList <:+: "xport".toList ++ g₁.chars ++ ['d'] ++
      ('e' :: ("fault".toList ++ g₂.chars ++ s)) := by
  have hgap : ∀ g : Gap, 'e' ∉ g.chars := not_mem_gap (by decide)
  have hbefore : 'e' ∉ "xport".toList ++ g₁.chars ++ ['d'] := by
    simp only [List.mem_append, not_or]
    exact ⟨⟨by decide, hgap g₁⟩, by decide⟩
  have hbehind : 'e' ∉ "fault".toList ++ g₂.chars := by
    simp only [List.mem_append, not_or]
    exact ⟨by decide, hgap g₂⟩
  change ¬ 'e' :: "xport".toList <:+: _
  apply not_infix_append hbefore
  rw [List.infix_cons_iff, not_or]
  constructor
  · intro hfront
    have hletter : 'x' = 'f' := (List.cons_prefix_cons.mp (List.cons_prefix_cons.mp hfront).2).1
    exact absurd hletter (by decide)
  · exact not_infix_append hbehind hs

/-- A text without `export` before the default export and in its value. -/
theorem oneDefault_of_lacks (hu : Lacks "export".toList u) (g₁ g₂ : Gap)
    (hs : Lacks "export".toList s) : OneDefault u (defaultWords g₁ g₂ ++ s) := by
  intro a k₁ k₂ b hsplit
  rw [defaultWords_append, defaultWords_append] at hsplit
  obtain ⟨y, rfl⟩ : u <+: a :=
    hu.isPrefix_of_isPrefix (.inr rfl) hsplit (List.prefix_append _ _)
  rw [List.append_assoc, List.append_cancel_left_eq] at hsplit
  cases y with
  | nil => rw [List.append_nil]
  | cons c y =>
    exfalso
    refine not_infix_defaultWords g₁ g₂ hs
      ⟨y, k₁.chars ++ ("default".toList ++ (k₂.chars ++ b)), ?_⟩
    have htail : "xport".toList ++ (g₁.chars ++ ("default".toList ++ (g₂.chars ++ s))) =
        y ++ ("export".toList ++ (k₁.chars ++ ("default".toList ++ (k₂.chars ++ b)))) :=
      (List.cons.inj hsplit).2
    simpa using htail.symm

namespace ModuleRecord

/-- The name that is recorded, if it is no other word. -/
def bindingName? (s : List Char) : Option String :=
  ((valueName? s).map String.ofList).filter fun name => decide (name ∉ nonBindingWords)

theorem defaultExports_value {g₁ g₂ : Gap} (hone : OneDefault u (defaultWords g₁ g₂ ++ s))
    (hs : Stops isBlank s) : defaultExports (u ++ (defaultWords g₁ g₂ ++ s)) =
      (bindingName? s).toList.map (⟨defaultName, ·⟩) := by
  rw [defaultExports, first?, bindingName?]
  cases hname : valueName? s with
  | none =>
    rw [hone.onlyBehind.allMatches_eq_nil (fails_of_valueName? _ g₁ g₂ hs hname)]
    rfl
  | some n =>
    obtain ⟨t, r, rfl, hmatch⟩ := exists_prefers_of_valueName? (lastAfter none u) g₁ g₂ hname
    rw [← List.append_assoc (defaultWords g₁ g₂)] at hone ⊢
    have hne : defaultWords g₁ g₂ ≠ [] :=
      (export_isPrefix_defaultWords g₁ g₂).ne_nil (by decide)
    have hgroups := hone.onlyBehind.groups_eq hmatch (List.append_ne_nil_of_left_ne_nil hne t)
    obtain ⟨m, hmatches, hm⟩ := List.map_eq_singleton_iff.mp hgroups
    have hgroup : m.group 0 = n := by
      rw [Match.group, hm]
      rfl
    rw [hmatches, List.head?_cons]
    dsimp only
    rw [hgroup, Option.map_some]
    by_cases hbinding : String.ofList n ∈ nonBindingWords
    · rw [if_pos hbinding, Option.filter_some, if_neg (by simpa using hbinding)]
      rfl
    · rw [if_neg hbinding, Option.filter_some, if_pos (by simpa using hbinding)]
      rfl

/-- The name of the default export if a declaration is exported that is called `default`. -/
def declaredDefault? (source : List Char) : Option String :=
  if (namedExports source).any (·.exportedName == defaultName) then some defaultName else none

theorem find?_namedExports (source : List Char) :
    ((namedExports source).find? (·.exportedName == defaultName)).map (·.localName) =
      declaredDefault? source := by
  rw [declaredDefault?]
  cases hfind : (namedExports source).find? (·.exportedName == defaultName) with
  | none =>
    have hany := List.find?_eq_none.mp hfind
    rw [if_neg]
    · rfl
    · rw [List.any_eq_true]
      rintro ⟨b, hb, hname⟩
      exact hany b hb hname
  | some b =>
    have hname := List.find?_some hfind
    rw [if_pos (List.any_eq_true.mpr ⟨b, List.mem_of_find?_eq_some hfind, hname⟩), Option.map_some]
    -- A declaration is exported under its own name.
    obtain ⟨m, -, rfl⟩ := List.mem_map.mp (List.mem_of_find?_eq_some hfind)
    exact congrArg some (beq_iff_eq.mp hname)

/-- Of the one default export of a source the name in front of its value is recorded, if it can
    name a binding.  It is a beginning of the value, and all of it only if nothing but white
    space follows; nothing else is asked of what follows. -/
theorem defaultExport_value (path : String) {g₁ g₂ : Gap}
    (hone : OneDefault u (defaultWords g₁ g₂ ++ (e ++ r))) (hs : Stops isBlank (e ++ r))
    (hr : Stops isValuePart r) :
    (ofSource path (String.ofList (u ++ (defaultWords g₁ g₂ ++ (e ++ r))))).defaultExport? =
      (bindingName? (e ++ r)).or (declaredDefault? (u ++ (defaultWords g₁ g₂ ++ (e ++ r)))) ∧
    ∀ n, valueName? (e ++ r) = some n → wordThenName "function" (e ++ r) = false →
      n <+: e ∧ (trim e = n ↔ isBlankText (e.drop n.length) = true) := by
  refine ⟨?_, fun n hname hfunction => isPrefix_of_valueName? hr hfunction hname⟩
  rw [defaultExport?, ofSource, String.toList_ofList (l := u ++ _), defaultExports_value hone hs,
    List.find?_append, Option.map_or, find?_namedExports]
  cases bindingName? (e ++ r) <;> rfl

/-- Of a member access the object is recorded. -/
theorem defaultExport_value_member :
    (ofSource "App.js" "const x = 1;\nexport default pages.Home;\n").defaultExport? =
      some "pages" ∧
    trim "pages.Home".toList ≠ "pages".toList := by
  have hone : OneDefault "const x = 1;\n".toList
      (defaultWords .space .space ++ ("pages.Home".toList ++ ";\n".toList)) :=
    oneDefault_of_lacks (by decide) _ _ (by decide)
  have h := defaultExport_value "App.js" hone (stops_cons.mpr (by decide))
    (stops_cons.mpr (by decide))
  refine ⟨h.1.trans (by decide), ?_⟩
  intro htrim
  exact absurd ((h.2 "pages".toList (by decide) (by decide)).2.mp htrim) (by decide)

/-- Of a call the function is recorded. -/
theorem exists_recorded_call :
    (ofSource "App.js" "export default connect(App);\n").defaultExport? = some "connect" ∧
    trim "connect(App)".toList ≠ "connect".toList := by
  decide

end ModuleRecord

end LivePreview.Script
