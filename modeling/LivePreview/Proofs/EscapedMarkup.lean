/-
  LivePreview.Proofs.EscapedMarkup

  Escaped texts read back.

  An escaped text has no character that would end it, and every ampersand in it begins an
  entity (`Html.exists_entity_isPrefix`), so reading the entities from left to right gives
  the text again (`Html.unescape_escape`).  Where a page puts an escaped text before `<` or
  `"`, the text can be told from what follows (`Html.escape_append_cons_inj`).  So a page
  determines its title, and the urls and attributes of its scripts as far as it is the
  same page before them (`Document.runtime_eq_of_page_eq`).
-/

import LivePreview.Proofs.PageTags

namespace LivePreview

open Html Pattern Text

namespace Html

/-! ## Entities -/

/-- The entities that escaping writes. -/
def entities : List String := ["&amp;", "&lt;", "&gt;", "&quot;"]

/-- A text with the entities in it read from left to right, each as its character. -/
def unescapeChars : List Char → List Char
  | '&' :: 'a' :: 'm' :: 'p' :: ';' :: rest => '&' :: unescapeChars rest
  | '&' :: 'l' :: 't' :: ';' :: rest => '<' :: unescapeChars rest
  | '&' :: 'g' :: 't' :: ';' :: rest => '>' :: unescapeChars rest
  | '&' :: 'q' :: 'u' :: 'o' :: 't' :: ';' :: rest => '"' :: unescapeChars rest
  | c :: rest => c :: unescapeChars rest
  | [] => []

/-- The text of which this one is the escaped form. -/
def unescape (s : String) : String := String.ofList (unescapeChars s.toList)

/-- A character is written as an entity, or it begins none and stays. -/
theorem entity_cases (c : Char) :
    (∃ e ∈ entities, entity c = e.toList) ∨ c ≠ '&' ∧ entity c = [c] := by
  unfold entity
  split_ifs with hamp hlt hgt hquote
  · exact .inl ⟨"&amp;", by decide, rfl⟩
  · exact .inl ⟨"&lt;", by decide, rfl⟩
  · exact .inl ⟨"&gt;", by decide, rfl⟩
  · exact .inl ⟨"&quot;", by decide, rfl⟩
  · exact .inr ⟨hamp, rfl⟩

/-- An ampersand of an entity is where the entity begins. -/
theorem before_eq_nil_of_mem_entities {e : String} (he : e ∈ entities) {before after : List Char}
    (h : e.toList = before ++ '&' :: after) : before = [] := by
  have hone : ∀ e ∈ entities, '&' ∉ e.toList.tail := by decide
  cases before with
  | nil => rfl
  | cons c before =>
    have htail : e.toList.tail = before ++ '&' :: after := by rw [h]; rfl
    exact absurd (htail ▸ List.mem_append_cons_self) (hone e he)

/-- Every ampersand of an escaped text begins an entity. -/
theorem exists_entity_isPrefix {s before after : List Char}
    (h : escapeChars s = before ++ '&' :: after) : ∃ e ∈ entities, e.toList <+: '&' :: after := by
  induction s generalizing before with
  | nil => exact absurd h.symm (List.append_ne_nil_of_right_ne_nil _ (List.cons_ne_nil _ _))
  | cons c cs ih =>
    rw [escapeChars_cons] at h
    rcases List.append_eq_append_iff.mp h with ⟨before, rfl, hrest⟩ | ⟨inside, hentity, hamp⟩
    · exact ih hrest
    · -- The ampersand is in what the first character is written as, or right behind it.
      cases inside with
      | nil =>
        have hstart : escapeChars cs = [] ++ '&' :: after := hamp.symm
        exact ih hstart
      | cons d inside =>
        rw [List.cons_append, List.cons.injEq] at hamp
        obtain ⟨rfl, rfl⟩ := hamp
        rcases entity_cases c with ⟨e, he, hc⟩ | ⟨hne, hc⟩
        · rw [hc] at hentity
          obtain rfl := before_eq_nil_of_mem_entities he hentity
          exact ⟨e, he, escapeChars cs, by rw [hentity]; rfl⟩
        · -- A character that stays would be the ampersand itself.
          have hmem : '&' ∈ [c] := by
            rw [← hc, hentity]
            exact List.mem_append_cons_self
          exact absurd (List.mem_singleton.mp hmem).symm hne

/-! ## Reading back -/

theorem unescapeChars_cons {c : Char} (h : c ≠ '&') (rest : List Char) :
    unescapeChars (c :: rest) = c :: unescapeChars rest := by
  rw [unescapeChars]
  all_goals
    rintro - rfl
    exact absurd rfl h

theorem unescapeChars_entity_append (c : Char) (rest : List Char) :
    unescapeChars (entity c ++ rest) = c :: unescapeChars rest := by
  unfold entity
  split_ifs with hamp hlt hgt hquote
  · rw [hamp]; rfl
  · rw [hlt]; rfl
  · rw [hgt]; rfl
  · rw [hquote]; rfl
  · exact unescapeChars_cons hamp rest

theorem unescapeChars_escapeChars (s : List Char) : unescapeChars (escapeChars s) = s := by
  induction s with
  | nil => rfl
  | cons c cs ih => rw [escapeChars_cons, unescapeChars_entity_append, ih]

theorem unescape_escape (s : String) : unescape (escape s) = s := by
  rw [unescape, toList_escape, unescapeChars_escapeChars, String.ofList_toList]

theorem escape_injective : Function.Injective escape :=
  Function.LeftInverse.injective unescape_escape

/-- An escaped text ends where a character stands that would end it. -/
theorem escape_append_cons_inj {c : Char} (hc : c ∈ ['<', '>', '"']) {v w : String}
    {s t : List Char} (h : (escape v).toList ++ c :: s = (escape w).toList ++ c :: t) :
    v = w ∧ s = t := by
  have hrun : ∀ (x : String), ∀ d ∈ (escape x).toList, (d != c) = true := by
    intro x d hd
    rw [toList_escape] at hd
    simpa using ne_of_mem_of_not_mem hd (not_mem_escapeChars hc _)
  have hstops : ∀ x : List Char, Stops (· != c) (c :: x) := by simp
  obtain ⟨hescape, hrest⟩ := run_unique h (hrun v) (hrun w) (hstops s) (hstops t)
  exact ⟨escape_injective (String.toList_inj.mp hescape), (List.cons.inj hrest).2⟩

end Html

namespace Document

variable {s t : List Char}

/-! ## Fields of a page -/

/-- Where two texts differ, none goes on as the other. -/
theorem not_isPrefix_of_clash {p q : List Char} (h : clash p q = true) (rest : List Char) :
    ¬ p <+: q ++ rest := by
  rintro ⟨x, hx⟩
  exact append_ne_of_clash h x rest hx

/-- What an attribute begins with. -/
def attrOpening (name : String) : List Char := (" " ++ name ++ "=\"").toList

theorem toList_attr {value : String} (h : value ≠ "") (name : String) :
    (attr name value).toList = attrOpening name ++ ((escape value).toList ++ ['"']) := by
  simp [attr, attrOpening, h]

/-- An attribute that may be left out begins like a text only if one of the two does. -/
theorem not_isPrefix_attr {p : List Char} {name : String}
    (hname : clash p (attrOpening name) = true) (hs : ¬ p <+: s) (value : String) :
    ¬ p <+: (attr name value).toList ++ s := by
  by_cases h : value = ""
  · simpa [attr, h] using hs
  · rw [toList_attr h, List.append_assoc]
    exact not_isPrefix_of_clash hname _

/-- An attribute can be told from what follows, as long as that does not begin like it. -/
theorem attr_append_inj {name v w : String} (hs : ¬ attrOpening name <+: s)
    (ht : ¬ attrOpening name <+: t)
    (h : (attr name v).toList ++ s = (attr name w).toList ++ t) : v = w ∧ s = t := by
  -- An attribute that is left out leaves the text behind it, which would begin like the other.
  by_cases hv : v = "" <;> by_cases hw : w = ""
  · exact ⟨hv.trans hw.symm, by simpa [attr, hv, hw] using h⟩
  · rw [toList_attr hw, List.append_assoc] at h
    exact absurd ⟨_, by simpa [attr, hv] using h.symm⟩ hs
  · rw [toList_attr hv, List.append_assoc] at h
    exact absurd ⟨_, by simpa [attr, hw] using h⟩ ht
  · rw [toList_attr hv, toList_attr hw] at h
    simp only [List.append_assoc, List.append_cancel_left_eq] at h
    exact escape_append_cons_inj (by decide) h

/-- The attributes of the bundle script. -/
theorem toList_bundleTag (o : Options) : (bundleTag o).toList =
    "<script".toList ++ ((attr "type" o.bundleScriptType).toList ++
      ((attr "data-presets" o.bundlePresets).toList ++ ">\n".toList)) := by
  simp only [bundleTag, String.toList_append, List.append_assoc]

theorem bundleTag_append_inj {o o' : Options}
    (h : (bundleTag o).toList ++ s = (bundleTag o').toList ++ t) :
    o.bundleScriptType = o'.bundleScriptType ∧ o.bundlePresets = o'.bundlePresets := by
  have hend : ∀ {name : String} (x : List Char), clash (attrOpening name) ">\n".toList = true →
      ¬ attrOpening name <+: ">\n".toList ++ x := fun x hname => not_isPrefix_of_clash hname x
  rw [toList_bundleTag, toList_bundleTag] at h
  simp only [List.append_assoc, List.append_cancel_left_eq] at h
  obtain ⟨htype, hrest⟩ := attr_append_inj
    (not_isPrefix_attr (by decide) (hend s (by decide)) _)
    (not_isPrefix_attr (by decide) (hend t (by decide)) _) h
  exact ⟨htype, (attr_append_inj (hend s (by decide)) (hend t (by decide)) hrest).1⟩

/-- What the tag of a runtime script begins with. -/
def runtimeOpening : List Char := "<script crossorigin src=\"".toList

theorem toList_runtimeScript (url : String) : (runtimeScript url).toList =
    runtimeOpening ++ ((escape url).toList ++ '"' :: "></script>\n".toList) := by
  have hclose : "\"></script>\n".toList = '"' :: "></script>\n".toList := by decide
  unfold runtimeScript
  rw [String.toList_append, String.toList_append, hclose, List.append_assoc]
  rfl

/-- The bundle script is no runtime script. -/
theorem not_isPrefix_bundleTag (o : Options) (rest : List Char) :
    ¬ runtimeOpening <+: (bundleTag o).toList ++ rest := by
  have hopen : runtimeOpening = "<script".toList ++ " crossorigin src=\"".toList := by decide
  rw [toList_bundleTag, hopen, List.append_assoc, List.prefix_append_right_inj, List.append_assoc,
    List.append_assoc]
  refine not_isPrefix_attr (by decide) (not_isPrefix_attr (by decide) ?_ _) _
  exact not_isPrefix_of_clash (by decide) _

theorem toList_join_runtimeScript_cons (url : String) (urls : List String) (rest : List Char) :
    (String.join ((url :: urls).map runtimeScript)).toList ++ rest =
      runtimeOpening ++ ((escape url).toList ++ '"' :: ("></script>\n".toList ++
        ((String.join (urls.map runtimeScript)).toList ++ rest))) := by
  simp only [List.map_cons, String.join_cons, String.toList_append, toList_runtimeScript,
    List.append_assoc, List.cons_append]

/-- The urls of some runtime scripts can be told from what follows, as long as that is no
    other runtime script. -/
theorem runtimeScripts_append_inj {us vs : List String} (hs : ¬ runtimeOpening <+: s)
    (ht : ¬ runtimeOpening <+: t)
    (h : (String.join (us.map runtimeScript)).toList ++ s =
      (String.join (vs.map runtimeScript)).toList ++ t) : us = vs ∧ s = t := by
  -- One script more on a side would begin what follows the scripts of the other side.
  induction us generalizing vs with
  | nil =>
    cases vs with
    | nil => exact ⟨rfl, by simpa using h⟩
    | cons v vs =>
      rw [toList_join_runtimeScript_cons] at h
      exact absurd ⟨_, h.symm⟩ hs
  | cons u us ih =>
    cases vs with
    | nil =>
      rw [toList_join_runtimeScript_cons] at h
      exact absurd ⟨_, h⟩ ht
    | cons v vs =>
      rw [toList_join_runtimeScript_cons, toList_join_runtimeScript_cons,
        List.append_cancel_left_eq] at h
      obtain ⟨hurl, hrest⟩ := escape_append_cons_inj (by decide) h
      obtain ⟨hurls, hbehind⟩ := ih (List.append_cancel_left hrest)
      exact ⟨congrArg₂ List.cons hurl hurls, hbehind⟩

/-! ## Pages -/

/-- What a page holds before its title. -/
def untitled : List Char :=
  (lines ["<!DOCTYPE html>", "<html>", "<head>", "  <meta charset=\"utf-8\">"]).toList ++
    "  <title>".toList

theorem exists_toList_head (o : Options) : ∃ rest,
    (head o).toList = untitled ++ ((escape o.documentTitle).toList ++ '<' :: rest) := by
  have hclose : "</title>".toList = '<' :: "/title>".toList := by decide
  unfold head untitled lines
  simp only [List.map_cons, List.map_nil, String.join_cons, String.join_nil, String.toList_append,
    hclose, List.append_assoc, List.cons_append, List.append_cancel_left_eq]
  exact ⟨_, rfl⟩

variable {o o' : Options} {markup markup' code code' : String} {hints hints' : EntryHints}

/-- Pages that are equal have the same title. -/
theorem documentTitle_eq_of_page_eq (h : page o markup code hints = page o' markup' code' hints') :
    o.documentTitle = o'.documentTitle := by
  obtain ⟨rest, hhead⟩ := exists_toList_head o
  obtain ⟨rest', hhead'⟩ := exists_toList_head o'
  have hchars := congrArg String.toList h
  simp only [page_eq, opening, String.toList_append, hhead, hhead', List.append_assoc,
    List.cons_append, List.append_cancel_left_eq] at hchars
  exact (escape_append_cons_inj (by decide) hchars).1

/-- Pages that are equal, with the same element and the same markup, load the same scripts
    and have the same attributes on the bundle script. -/
theorem runtime_eq_of_page_eq (hroot : o.rootElementId = o'.rootElementId)
    (h : page o markup code hints = page o' markup code' hints') :
    o.runtimeScripts = o'.runtimeScripts ∧ o.bundleScriptType = o'.bundleScriptType ∧
      o.bundlePresets = o'.bundlePresets := by
  have hhead : head o = head o' := by
    unfold head
    rw [documentTitle_eq_of_page_eq h, hroot]
  have hreporter : reporter o = reporter o' := by
    unfold reporter
    rw [hroot]
  have hchars := congrArg String.toList h
  simp only [page_eq, opening, hhead, hreporter, String.toList_append, List.append_assoc,
    List.append_cancel_left_eq] at hchars
  obtain ⟨hscripts, hrest⟩ := runtimeScripts_append_inj (not_isPrefix_bundleTag o _)
    (not_isPrefix_bundleTag o' _) hchars
  exact ⟨hscripts, bundleTag_append_inj hrest⟩

end Document

open Document

/-- An escaped text has no `<`, no `>` and no `"`, each `&` in it begins one of the four
    entities, and reading these from left to right gives the text that was escaped.  So the
    replacements one after the other amount to one for each character, and different texts
    stay different: pages with different titles differ whatever else they hold, and pages
    that are the same before their scripts differ if the urls of the scripts or the
    attributes of the bundle script do. -/
theorem Html.escape_loses_nothing :
    (∀ v : String,
      ('<' ∉ (escape v).toList ∧ '>' ∉ (escape v).toList ∧ '"' ∉ (escape v).toList) ∧
      (∀ before after, (escape v).toList = before ++ '&' :: after →
        ∃ e ∈ ["&amp;", "&lt;", "&gt;", "&quot;"], e.toList <+: '&' :: after) ∧
      unescape (escape v) = v ∧
      (escape v).toList = v.toList.flatMap entity) ∧
    (∀ v w, v ≠ w → escape v ≠ escape w) ∧
    (∀ (o o' : Options) (markup markup' code code' : String) (hints hints' : EntryHints),
      o.documentTitle ≠ o'.documentTitle →
        page o markup code hints ≠ page o' markup' code' hints') ∧
    (∀ (o o' : Options) (markup code code' : String) (hints hints' : EntryHints),
      o.rootElementId = o'.rootElementId →
      (o.runtimeScripts ≠ o'.runtimeScripts ∨ o.bundleScriptType ≠ o'.bundleScriptType ∨
        o.bundlePresets ≠ o'.bundlePresets) →
        page o markup code hints ≠ page o' markup code' hints') := by
  refine ⟨fun v => ?_, ?_, ?_, ?_⟩
  · rw [toList_escape]
    refine ⟨⟨?_, ?_, ?_⟩, fun before after h => exists_entity_isPrefix h, unescape_escape v,
      escapeChars_eq_flatMap _⟩
    all_goals exact not_mem_escapeChars (by decide) _
  · intro v w hne h
    exact hne (escape_injective h)
  · intro o o' markup markup' code code' hints hints' hne h
    exact hne (documentTitle_eq_of_page_eq h)
  · intro o o' markup code code' hints hints' hroot hne h
    obtain ⟨hscripts, htype, hpresets⟩ := runtime_eq_of_page_eq hroot h
    rcases hne with hne | hne | hne
    · exact hne hscripts
    · exact hne htype
    · exact hne hpresets

/-- A text that holds an entity stays apart from the one that holds its character. -/
theorem Html.escape_loses_nothing_writtenEntities :
    let v := "<&lt;\"&"
    let o : Options := { documentTitle := "&lt;", runtimeScripts := ["app.js?a&amp;b"] }
    let titled : Options := { o with documentTitle := "<" }
    let loaded : Options := { o with runtimeScripts := ["app.js?a&b"] }
    let hints : EntryHints := ⟨false, none, []⟩
    ((escape v).toList = "&lt;".toList ++ '&' :: "amp;lt;&quot;&amp;".toList ∧
        ∃ e ∈ ["&amp;", "&lt;", "&gt;", "&quot;"],
          e.toList <+: '&' :: "amp;lt;&quot;&amp;".toList) ∧
      ("&lt;" ≠ "<" ∧ escape "&lt;" ≠ escape "<") ∧
      (o.documentTitle ≠ titled.documentTitle ∧ page o "" "" hints ≠ page titled "" "" hints) ∧
      (o.rootElementId = loaded.rootElementId ∧ o.runtimeScripts ≠ loaded.runtimeScripts ∧
        page o "" "" hints ≠ page loaded "" "" hints) := by
  intro v o titled loaded hints
  obtain ⟨htexts, hescape, htitle, hscripts⟩ := Html.escape_loses_nothing
  have hv : (escape v).toList = "&lt;".toList ++ '&' :: "amp;lt;&quot;&amp;".toList := by decide
  have hurls : o.runtimeScripts ≠ loaded.runtimeScripts := by decide
  exact ⟨⟨hv, (htexts v).2.1 _ _ hv⟩, ⟨by decide, hescape _ _ (by decide)⟩,
    ⟨by decide, htitle o titled _ _ _ _ _ _ (by decide)⟩,
    ⟨rfl, hurls, hscripts o loaded _ _ _ _ _ rfl (.inl hurls)⟩⟩

end LivePreview
