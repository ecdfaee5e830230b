/-
  LivePreview.Proofs.JsonText

  JSON texts are read back.

  The text of an object (`Json.SpelledObject`) may have white space around each of its words and
  any spelling of its keys.  A map is found at it if the values of its members are found at
  their texts (`reads_map`); a record takes up the members that are its fields and skips the
  others (`reads_spelledObject`).  Objects are written in one of these ways
  (`Json.ObjectText`).
-/

import LivePreview.Proofs.JsonGrammar
import Mathlib.Data.List.Forall2

namespace LivePreview.Json

/-! ## Arrays of strings -/

/-- The text of the strings in an array, from the opening bracket on or, if the first string
    was there already, from behind a string on. -/
inductive StringsText : Bool → List String → List Char → Prop
  | close {first : Bool} {space : List Char} (hspace : IsSpaces space) :
      StringsText first [] (space ++ [']'])
  | first {s : String} {strings : List String} {before text rest : List Char}
      (hbefore : IsSpaces before) (h : StringText s text)
      (hrest : StringsText false strings rest) :
      StringsText true (s :: strings) (before ++ (text ++ rest))
  | next {s : String} {strings : List String} {space before text rest : List Char}
      (hspace : IsSpaces space) (hbefore : IsSpaces before) (h : StringText s text)
      (hrest : StringsText false strings rest) :
      StringsText false (s :: strings) (space ++ ',' :: (before ++ (text ++ rest)))

/-- The text of an array of strings. -/
def ArrayText (strings : List String) (text : List Char) : Prop :=
  ∃ body, StringsText true strings body ∧ text = '[' :: body

variable {first : Bool} {s : String} {strings : List String} {text : List Char}

theorem StringsText.length_lt (h : StringsText first strings text) :
    strings.length < text.length := by
  induction h with
  | close => simp
  | first _ h _ ih =>
    obtain ⟨inner, -, rfl⟩ := h
    simp only [List.length_cons, List.length_append] at *
    omega
  | next _ _ _ _ ih =>
    simp only [List.length_cons, List.length_append] at *
    omega

theorem StringsText.nextElement_nil (h : StringsText first [] text) (rest : List Char) :
    nextElement first (text ++ rest) = .ok (none, rest) := by
  cases h with
  | close hspace =>
    rw [List.append_assoc, List.singleton_append, nextElement,
      skipSpace_append hspace (by decide)]
    rfl

/-- The next string is read, and the strings behind it are left. -/
theorem StringsText.exists_element (h : StringsText first (s :: strings) text)
    (rest : List Char) :
    ∃ item left, StringText s item ∧ StringsText false strings left ∧
      nextElement first (text ++ rest) = .ok (some (item ++ (left ++ rest)), []) := by
  cases h with
  | @first _ _ _ item left hbefore h hrest =>
    refine ⟨item, left, h, hrest, ?_⟩
    obtain ⟨inner, -, rfl⟩ := h
    simp only [nextElement, List.append_assoc, List.cons_append,
      skipSpace_append hbefore (c := '"') (by decide)]
    rfl
  | @next _ _ _ _ item left hspace hbefore h hrest =>
    refine ⟨item, left, h, hrest, ?_⟩
    obtain ⟨inner, -, rfl⟩ := h
    have hquote := skipSpace_append hbefore (c := '"') (by decide)
    simp [nextElement, skipSpace_append hspace (c := ',') (by decide), hquote]

theorem StringsText.readElementsWithin (h : StringsText first strings text) {n : Nat}
    (hn : strings.length < n) (rest : List Char) :
    readElementsWithin readString n first (text ++ rest) = .ok (strings, rest) := by
  induction strings generalizing first text n with
  | nil =>
    obtain ⟨n, rfl⟩ : ∃ k, n = k + 1 := ⟨n - 1, by omega⟩
    simp only [Json.readElementsWithin, h.nextElement_nil rest]
  | cons s strings ih =>
    rw [List.length_cons] at hn
    obtain ⟨n, rfl⟩ : ∃ k, n = k + 1 := ⟨n - 1, by omega⟩
    obtain ⟨item, left, hitem, hleft, hnext⟩ := h.exists_element rest
    have hread : readString (item ++ (left ++ rest)) = .ok (s, left ++ rest) :=
      reads_stringText hitem [] (left ++ rest) isSpaces_nil
    simp only [Json.readElementsWithin, hnext, hread, ih hleft (n := n) (by omega)]
    rfl

theorem reads_arrayText (h : ArrayText strings text) :
    Reads (readSequence readString) text strings := by
  obtain ⟨body, hbody, rfl⟩ := h
  intro space rest hspace
  have hlength := hbody.length_lt
  simp only [readSequence, List.cons_append, skipSpace_append hspace (c := '[') (by decide)]
  refine hbody.readElementsWithin ?_ rest
  rw [List.length_append]
  omega

/-! ## Objects -/

/-- The text of a member: its key in any spelling and the text of its value. -/
def SpelledMember (key : String) (value text : List Char) : Prop :=
  ∃ before name behind space, IsSpaces before ∧ StringText key name ∧ IsSpaces behind ∧
    IsSpaces space ∧ text = before ++ (name ++ (behind ++ ':' :: (space ++ value)))

/-- The text of the members of an object, from the opening brace on or, if the first member
    was there already, from behind a member on. -/
inductive SpelledMembers : Bool → List (String × List Char) → List Char → Prop
  | close {first : Bool} {space : List Char} (hspace : IsSpaces space) :
      SpelledMembers first [] (space ++ ['\x7d'])
  | first {key : String} {value text rest : List Char} {members : List (String × List Char)}
      (hmember : SpelledMember key value text) (hrest : SpelledMembers false members rest) :
      SpelledMembers true ((key, value) :: members) (text ++ rest)
  | next {key : String} {value text rest space : List Char}
      {members : List (String × List Char)} (hspace : IsSpaces space)
      (hmember : SpelledMember key value text) (hrest : SpelledMembers false members rest) :
      SpelledMembers false ((key, value) :: members) (space ++ ',' :: (text ++ rest))

/-- The text of an object with the texts of its values. -/
def SpelledObject (members : List (String × List Char)) (text : List Char) : Prop :=
  ∃ body, SpelledMembers true members body ∧ text = '\x7b' :: body

variable {members : List (String × List Char)} {key : String} {value : List Char}

theorem SpelledMembers.length_lt (h : SpelledMembers first members text) :
    members.length < text.length := by
  induction h with
  | close => simp
  | first hmember _ ih =>
    obtain ⟨before, name, behind, space, -, -, -, -, rfl⟩ := hmember
    simp only [List.length_cons, List.length_append] at *
    omega
  | next _ _ _ ih =>
    simp only [List.length_cons, List.length_append] at *
    omega

/-- The characters that are left are fuel enough for the members. -/
theorem SpelledMembers.length_lt_append (h : SpelledMembers first members text)
    (rest : List Char) : members.length < (text ++ rest).length + 1 := by
  have hlength := h.length_lt
  rw [List.length_append]
  omega

theorem SpelledMembers.nextKey_nil (h : SpelledMembers first [] text) (rest : List Char) :
    nextKey first (text ++ rest) = .ok (none, rest) := by
  cases h with
  | close hspace =>
    rw [List.append_assoc, List.singleton_append, nextKey, skipSpace_append hspace (by decide)]
    rfl

/-- No number goes on behind a member. -/
theorem SpelledMembers.stopsNumeral (h : SpelledMembers false members text) (rest : List Char) :
    StopsNumeral (text ++ rest) := by
  cases h with
  | close hspace =>
    rw [List.append_assoc]
    exact stopsNumeral_append hspace (by decide) rest
  | next hspace =>
    rw [List.append_assoc]
    exact stopsNumeral_append hspace (by decide) _

/-- How a member is read: behind a quote its key, the colon, and then its value. -/
theorem SpelledMember.exists_key (h : SpelledMember key value text) (rest : List Char) :
    ∃ before s behind space, IsSpaces before ∧ text ++ rest = before ++ '"' :: s ∧
      readChars s = .ok (key.toList, behind) ∧
        readColon behind = .ok (space ++ (value ++ rest)) ∧ IsSpaces space := by
  obtain ⟨before, name, behind, space, hbefore, ⟨inner, hinner, rfl⟩, hbehind, hspace, rfl⟩ := h
  refine ⟨before, inner ++ '"' :: (behind ++ ':' :: (space ++ (value ++ rest))), _, space,
    hbefore, ?_, hinner.readChars _, ?_, hspace⟩
  · simp only [List.append_assoc, List.cons_append, List.nil_append]
  · simp only [readColon, skipSpace_append hbehind (c := ':') (by decide)]

theorem nextKey_first {space : List Char} (h : IsSpaces space) (s : List Char) :
    nextKey true (space ++ '"' :: s) = .ok (some s, []) := by
  rw [nextKey, skipSpace_append h (by decide)]
  rfl

theorem nextKey_next {space before : List Char} (hspace : IsSpaces space)
    (hbefore : IsSpaces before) (s : List Char) :
    nextKey false (space ++ ',' :: (before ++ '"' :: s)) = .ok (some s, []) := by
  have hcomma := skipSpace_append hspace (c := ',') (by decide) (before ++ '"' :: s)
  have hquote := skipSpace_append hbefore (c := '"') (by decide) s
  simp [nextKey, hcomma, hquote]

/-- The next member is read, and the members behind it are left. -/
theorem SpelledMembers.exists_member
    (h : SpelledMembers first ((key, value) :: members) text) (rest : List Char) :
    ∃ s behind space left, nextKey first (text ++ rest) = .ok (some s, []) ∧
      readChars s = .ok (key.toList, behind) ∧
        readColon behind = .ok (space ++ (value ++ (left ++ rest))) ∧ IsSpaces space ∧
          SpelledMembers false members left := by
  cases h with
  | @first _ _ _ left _ hmember hrest =>
    obtain ⟨before, s, behind, space, hbefore, htext, hchars, hcolon, hspace⟩ :=
      hmember.exists_key (left ++ rest)
    refine ⟨s, behind, space, left, ?_, hchars, hcolon, hspace, hrest⟩
    rw [List.append_assoc, htext, nextKey_first hbefore]
  | @next _ _ _ left _ _ hcomma hmember hrest =>
    obtain ⟨before, s, behind, space, hbefore, htext, hchars, hcolon, hspace⟩ :=
      hmember.exists_key (left ++ rest)
    refine ⟨s, behind, space, left, ?_, hchars, hcolon, hspace, hrest⟩
    rw [List.append_assoc, List.cons_append, List.append_assoc, htext,
      nextKey_next hcomma hbefore]

/-! ## Maps -/

variable {α : Type}

theorem readMembersWithin_text {item : Reader α} {values : List (String × α)}
    (h : SpelledMembers first members text)
    (hvalues : List.Forall₂ (fun m v => m.1 = v.1 ∧ Reads item m.2 v.2) members values)
    {n : Nat} (hn : members.length < n) (rest : List Char) :
    readMembersWithin item n first (text ++ rest) = .ok (values, rest) := by
  induction hvalues generalizing first text n with
  | nil =>
    obtain ⟨n, rfl⟩ : ∃ k, n = k + 1 := ⟨n - 1, by omega⟩
    simp only [readMembersWithin, h.nextKey_nil rest]
  | @cons m v members values hmv _ ih =>
    obtain ⟨n, rfl⟩ : ∃ k, n = k + 1 := ⟨n - 1, by omega⟩
    obtain ⟨s, behind, space, left, hkey, hchars, hcolon, hspace, hleft⟩ := h.exists_member rest
    have hitem := hmv.2 space (left ++ rest) hspace
    have hmore := ih hleft (n := n) (by simpa using hn)
    simp only [readMembersWithin, hkey, hchars, hcolon, hitem, hmore, String.ofList_toList, hmv.1]
    rfl

/-- A map is found where the values of its members are found at their texts. -/
theorem reads_map {item : Reader α} {values : List (String × α)} (h : SpelledObject members text)
    (hvalues : List.Forall₂ (fun m v => m.1 = v.1 ∧ Reads item m.2 v.2) members values) :
    Reads (readMap item) text (.ofList values) := by
  obtain ⟨body, hbody, rfl⟩ := h
  intro space rest hspace
  have hbrace := skipSpace_append hspace (c := '\x7b') (by decide) (body ++ rest)
  have hmembers := readMembersWithin_text hbody hvalues (hbody.length_lt_append rest) rest
  simp only [readMap, List.cons_append, hbrace, hmembers]
  rfl

/-! ## Records -/

section Record

variable {σ : Type} {r : Record σ}

/-- The member sets a field of the record: the field reads its value as this change. -/
def Record.Sets (r : Record σ) (m : String × List Char) (change : σ → σ) : Prop :=
  ∃ field, r.fields.find? (·.name == m.1) = some field ∧ Reads field.read m.2 change

/-- The record has a field of this name. -/
def Record.knows (r : Record σ) (key : String) : Bool :=
  (r.fields.find? (·.name == key)).isSome

/-- The member sets a field as this change, or it is no field, and nothing changes. -/
def Record.Passes (r : Record σ) (m : String × List Char) (change : σ → σ) : Prop :=
  r.Sets m change ∨ r.knows m.1 = false ∧ PartText .value m.2 ∧ change = id

theorem Record.Sets.knows_eq {m : String × List Char} {change : σ → σ} (h : r.Sets m change) :
    r.knows m.1 = true := by
  obtain ⟨field, hfield, -⟩ := h
  rw [knows, hfield, Option.isSome_some]

theorem Record.filter_knows_eq {changes : List (σ → σ)}
    (h : List.Forall₂ r.Sets members changes) :
    (members.map Prod.fst).filter r.knows = members.map Prod.fst := by
  induction h with
  | nil => rfl
  | cons hset _ ih => rw [List.map_cons, List.filter_cons_of_pos hset.knows_eq, ih]

/-- The members change the record one after the other.  A field may stand there once, any other
    member as often as it likes. -/
theorem Record.readMembersWithin_text {changes : List (σ → σ)}
    (h : SpelledMembers first members text) (hpasses : List.Forall₂ r.Passes members changes)
    {seen : List String} (hnodup : ((members.map Prod.fst).filter r.knows ++ seen).Nodup)
    (hmissing : r.missing? (((members.map Prod.fst).filter r.knows).reverse ++ seen) = none)
    {n : Nat} (hn : members.length < n) (x : σ) (rest : List Char) :
    r.readMembersWithin n first seen x (text ++ rest) =
      .ok (changes.foldl (fun x change => change x) x, rest) := by
  induction hpasses generalizing first text n seen x with
  | nil =>
    obtain ⟨n, rfl⟩ : ∃ k, n = k + 1 := ⟨n - 1, by omega⟩
    have hnone : r.missing? seen = none := hmissing
    simp only [readMembersWithin, h.nextKey_nil rest, hnone, List.foldl_nil]
  | @cons m change members changes hpass _ ih =>
    rw [List.length_cons] at hn
    obtain ⟨n, rfl⟩ : ∃ k, n = k + 1 := ⟨n - 1, by omega⟩
    obtain ⟨s, behind, space, left, hkey, hchars, hcolon, hspace, hleft⟩ := h.exists_member rest
    have hlength : members.length < n := by omega
    rw [List.map_cons] at hnodup hmissing
    rcases hpass with hset | ⟨hunknown, hvalue, rfl⟩
    · -- The member sets a field, which was not there before and is from now on.
      rw [List.filter_cons_of_pos hset.knows_eq] at hnodup hmissing
      obtain ⟨field, hfield, hread⟩ := hset
      have hvalue := hread space (left ++ rest) hspace
      rw [List.cons_append, List.nodup_cons] at hnodup
      have hnew : seen.contains m.1 = false := by
        simpa using fun hmem => hnodup.1 (List.mem_append_right _ hmem)
      have hnodupLeft : ((members.map Prod.fst).filter r.knows ++ m.1 :: seen).Nodup :=
        List.perm_middle.nodup_iff.mpr (List.nodup_cons.mpr hnodup)
      have hmore := ih hleft hnodupLeft (by simpa using hmissing) hlength (change x)
      simp only [readMembersWithin, hkey, hchars, String.ofList_toList, hfield, hnew,
        Bool.false_eq_true, if_false, hcolon, hvalue, hmore, List.foldl_cons]
    · -- The member is unknown: its value is skipped and the record stays.
      have hfilter : ¬r.knows m.1 = true := by simp [hunknown]
      rw [List.filter_cons_of_neg hfilter] at hnodup hmissing
      have hfield : r.fields.find? (·.name == m.1) = none := by simpa [knows] using hunknown
      have hskip := hvalue.skipValue hspace (hleft.stopsNumeral rest)
      have hmore := ih hleft hnodup hmissing hlength x
      simp only [readMembersWithin, hkey, hchars, String.ofList_toList, hfield, hcolon, hskip,
        hmore, List.foldl_cons, id]

/-- A record is found where each member is no field or sets one, once, and none is missing. -/
theorem reads_spelledObject (h : SpelledObject members text) (changes : List (σ → σ))
    (hpasses : List.Forall₂ r.Passes members changes)
    (hnodup : ((members.map Prod.fst).filter r.knows).Nodup)
    (hmissing : r.missing? ((members.map Prod.fst).filter r.knows).reverse = none) :
    Reads r.read text (changes.foldl (fun x change => change x) r.start) := by
  obtain ⟨body, hbody, rfl⟩ := h
  intro space rest hspace
  have hbrace := skipSpace_append hspace (c := '\x7b') (by decide) (body ++ rest)
  simp only [Record.read, List.cons_append, hbrace]
  exact Record.readMembersWithin_text hbody hpasses (by simpa using hnodup)
    (by simpa using hmissing) (hbody.length_lt_append rest) r.start rest

/-- A record is found where each member, once, sets a field, and none is missing. -/
theorem reads_record (h : SpelledObject members text) (changes : List (σ → σ))
    (hsets : List.Forall₂ r.Sets members changes) (hnodup : (members.map Prod.fst).Nodup)
    (hmissing : r.missing? (members.map Prod.fst).reverse = none) :
    Reads r.read text (changes.foldl (fun x change => change x) r.start) := by
  rw [← Record.filter_knows_eq hsets] at hnodup hmissing
  exact reads_spelledObject h changes (hsets.imp fun _ _ => .inl) hnodup hmissing

/-- A member that is a string sets a field that holds a text. -/
theorem Record.Sets.string (name : String) (required : Bool) (set : String → σ → σ)
    (h : r.fields.find? (·.name == name) = some (.text name required set)) {value : String}
    (htext : StringText value text) : r.Sets (name, text) (set value) :=
  ⟨_, h, (reads_stringText htext).map set⟩

end Record

/-! ## Written objects

Both forms in which values are written lay the members out in one way, with the same
white space before every key, before every value and before the closing brace. -/

/-- The text of a member: a key and the text of its value. -/
def MemberText (key : String) (value text : List Char) : Prop :=
  ∃ before behind space, IsSpaces before ∧ IsSpaces behind ∧ IsSpaces space ∧
    text = before ++ (Quoted.encode key.toList ++ (behind ++ ':' :: (space ++ value)))

/-- The text of the members of an object, from the opening brace on or, if the first
    member was there already, from behind a member on. -/
inductive MembersText : Bool → List (String × List Char) → List Char → Prop
  | close {first : Bool} {space : List Char} (hspace : IsSpaces space) :
      MembersText first [] (space ++ ['\x7d'])
  | first {key : String} {value text rest : List Char} {members : List (String × List Char)}
      (hmember : MemberText key value text) (hrest : MembersText false members rest) :
      MembersText true ((key, value) :: members) (text ++ rest)
  | next {key : String} {value text rest space : List Char}
      {members : List (String × List Char)} (hspace : IsSpaces space)
      (hmember : MemberText key value text) (hrest : MembersText false members rest) :
      MembersText false ((key, value) :: members) (space ++ ',' :: (text ++ rest))

/-- The text of an object with the texts of its values. -/
def ObjectText (members : List (String × List Char)) (text : List Char) : Prop :=
  ∃ body, MembersText true members body ∧ text = '\x7b' :: body

theorem MemberText.spelled (h : MemberText key value text) : SpelledMember key value text := by
  obtain ⟨before, behind, space, hbefore, hbehind, hspace, rfl⟩ := h
  exact ⟨before, _, behind, space, hbefore, stringText_encode key, hbehind, hspace, rfl⟩

theorem MembersText.spelled (h : MembersText first members text) :
    SpelledMembers first members text := by
  induction h with
  | close hspace => exact .close hspace
  | first hmember _ ih => exact .first hmember.spelled ih
  | next hspace hmember _ ih => exact .next hspace hmember.spelled ih

/-- The keys of a written object are in one of their spellings. -/
theorem ObjectText.spelled (h : ObjectText members text) : SpelledObject members text := by
  obtain ⟨body, hbody, rfl⟩ := h
  exact ⟨body, hbody.spelled, rfl⟩

section Layout

variable {before space close : List Char}

/-- A member with this white space before its key and before its value. -/
def memberChars (before space : List Char) (m : String × List Char) : List Char :=
  before ++ (Quoted.encode m.1.toList ++ ':' :: (space ++ m.2))

/-- What stands behind a member: the other members and the brace. -/
def behindMember (before space close : List Char) : List (String × List Char) → List Char
  | [] => close ++ ['\x7d']
  | m :: members => ',' :: (memberChars before space m ++ behindMember before space close members)

theorem memberText_memberChars (hbefore : IsSpaces before) (hspace : IsSpaces space)
    (m : String × List Char) : MemberText m.1 m.2 (memberChars before space m) :=
  ⟨before, [], space, hbefore, isSpaces_nil, hspace, rfl⟩

theorem membersText_behindMember (hbefore : IsSpaces before) (hspace : IsSpaces space)
    (hclose : IsSpaces close) (members : List (String × List Char)) :
    MembersText false members (behindMember before space close members) := by
  induction members with
  | nil => exact .close hclose
  | cons m members ih =>
    exact .next isSpaces_nil (memberText_memberChars hbefore hspace m) ih

theorem objectText_memberChars (hbefore : IsSpaces before) (hspace : IsSpaces space)
    (hclose : IsSpaces close) (m : String × List Char) (members : List (String × List Char)) :
    ObjectText (m :: members)
      ('\x7b' :: (memberChars before space m ++ behindMember before space close members)) :=
  ⟨_, .first (memberText_memberChars hbefore hspace m)
    (membersText_behindMember hbefore hspace hclose members), rfl⟩

end Layout

namespace Value

theorem compactMembers_cons (m : String × Value) (members : List (String × Value)) :
    compactMembers (m :: members) ++ ['\x7d'] =
      memberChars [] [] (m.1, m.2.compactChars) ++
        behindMember [] [] [] (members.map fun m => (m.1, m.2.compactChars)) := by
  induction members generalizing m with
  | nil => simp [compactMembers, memberChars, behindMember]
  | cons next members ih =>
    rw [List.map_cons, behindMember, ← ih next]
    simp [compactMembers, memberChars]

/-- The text of an object on one line. -/
theorem objectText_compactChars (members : List (String × Value)) :
    ObjectText (members.map fun m => (m.1, m.2.compactChars)) (object members).compactChars := by
  cases members with
  | nil => exact ⟨_, .close isSpaces_nil, rfl⟩
  | cons m members =>
    rw [compactChars, List.cons_append, compactMembers_cons]
    exact objectText_memberChars isSpaces_nil isSpaces_nil isSpaces_nil _ _

theorem isSpaces_newline (level : Nat) : IsSpaces (newline level) := by
  intro c hc
  rcases List.mem_cons.mp hc with rfl | hc
  · decide
  · rw [List.eq_of_mem_replicate hc]
    decide

theorem prettyMembers_cons (level : Nat) (close : List Char) (m : String × Value)
    (members : List (String × Value)) :
    prettyMembers level (m :: members) ++ (close ++ ['\x7d']) =
      memberChars (newline level) [' '] (m.1, m.2.prettyChars level) ++
        behindMember (newline level) [' '] close
          (members.map fun m => (m.1, m.2.prettyChars level)) := by
  induction members generalizing m with
  | nil => simp [prettyMembers, memberChars, behindMember]
  | cons next members ih =>
    rw [List.map_cons, behindMember, ← ih next]
    simp [prettyMembers, memberChars]

/-- The text of an object with a line for every member. -/
theorem objectText_prettyChars (level : Nat) (members : List (String × Value)) :
    ObjectText (members.map fun m => (m.1, m.2.prettyChars (level + 1)))
      ((object members).prettyChars level) := by
  cases members with
  | nil => exact ⟨_, .close isSpaces_nil, rfl⟩
  | cons m members =>
    rw [prettyChars, List.cons_append, List.cons_append, List.append_assoc, prettyMembers_cons]
    exact objectText_memberChars (isSpaces_newline _) (by simp [IsSpaces, isSpace])
      (isSpaces_newline _) _ _

end Value

end LivePreview.Json
