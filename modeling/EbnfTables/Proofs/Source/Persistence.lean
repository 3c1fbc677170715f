import EbnfTables.Proofs.Source.Definite

/-!
# Readings that persist

What was read of a text before a definite fault, or before the last definition that begins in it, is
read in the same way when the text goes on with `more`.

* `StartsWith limit ds text rest`: the text begins with the definitions `ds`, each of them complete.
  They are the same in a text that goes on (`StartsWith.append`), and a text is refused where,
  behind such definitions, one is refused (`read_eq_refusal_iff`);
* a definition that is refused for a definite fault is refused for it in a text that goes on
  (`readDefinition_append_of_error`);
* a text begins with a definition exactly where a name stands (`readDefinitions_begins`,
  `nameText_of_begins`).

Main results: `read_append_of_refusal` for a text that is refused, and `exists_begins_append` for a
definition that begins before the end of the text.
-/

namespace EbnfTables

variable {cs site text rest more : List Char} {limit : ℕ}

/-! ### Definitions -/

/-- The same definition in a text that goes on. -/
def Definition.append (d : Definition) (more : List Char) : Definition :=
  { d with site := d.site ++ more }

/-- What was read of a definition, in a text that goes on. -/
def OpenDefinition.append (d : OpenDefinition) (more : List Char) : OpenDefinition :=
  { d with site := d.site ++ more, frames := d.frames.map fun f => f.append more }

/-- The same refusal in a text that goes on. -/
def Refusal.append (refusal : Refusal) (more : List Char) : Refusal :=
  ⟨refusal.fault.append more, refusal.begun.map fun d => d.append more⟩

theorem Text.after?_append {expected : List Char} (h : Text.after? expected text = some rest)
    (more : List Char) : Text.after? expected (text ++ more) = some (rest ++ more) := by
  rw [Text.after?_eq_some_iff] at h ⊢
  rw [h, List.append_assoc]

/-- A definition that is refused for a definite fault is refused for it in a text that goes on. -/
theorem readDefinition_append_of_error {refusal : Refusal} (hcs : cs ≠ [])
    (h : readDefinition limit cs = .error refusal) (hfault : refusal.fault.error.IsDefinite)
    (more : List Char) : readDefinition limit (cs ++ more) = .error (refusal.append more) := by
  unfold readDefinition at h
  split at h
  · rename_i hname
    cases h
    obtain ⟨c, cs, rfl⟩ := List.exists_cons_of_ne_nil hcs
    have hname' : readName? (c :: (cs ++ more)) = none := by
      rwa [readName?_cons_eq_none_iff] at hname ⊢
    unfold readDefinition
    rw [List.cons_append, hname']
    rfl
  · rename_i name mid hname
    simp only at h
    split at h
    · cases h
      exact hfault.elim
    · rename_i mark hmark
      split at h
      · rename_i fault frames finished hread
        cases h
        -- the sign of the definition and its right side stand behind the name
        have hskip : Spacing.sameLine.skip mid ≠ [] := by
          rw [Text.after?_eq_some_iff.1 hmark]
          exact List.cons_ne_nil _ _
        have hmid : Seam .sameLine mid more :=
          .inl (ne_nil_of_isSuffix (Spacing.skip_suffix _ _) hskip)
        have hname' := readName?_eq_some_iff.2 ((readName?_eq_some_iff.1 hname).append hmid)
        have hmark' := Text.after?_append hmark more
        have hright := ne_nil_of_readAlternatives_eq_error hread hfault
        have hread' := readAlternatives_append_of_error hread hfault more
        unfold readDefinition
        simp only [hname', Spacing.skip_append hskip, hmark', Spacing.skip_append hright, hread']
        rfl
      · cases h

/-- `text` begins with the definitions `ds` and goes on with `rest`. -/
inductive StartsWith (limit : ℕ) : List Definition → List Char → List Char → Prop
  | nil {text : List Char} : StartsWith limit [] text text
  | cons {d : Definition} {ds : List Definition} {text mid rest : List Char}
      (hd : DefinitionText limit d text mid) (hds : StartsWith limit ds mid rest) :
      StartsWith limit (d :: ds) text rest

namespace StartsWith

variable {ds : List Definition}

theorem isSuffix (h : StartsWith limit ds text rest) : rest <:+ text := by
  induction h with
  | nil => exact List.suffix_rfl
  | cons hd _ ih =>
    exact ih.trans (readDefinition_remains (readDefinition_eq_ok_iff.2 hd)).isSuffix

theorem readDefinitions_eq (h : StartsWith limit ds text rest) :
    readDefinitions limit text =
      ⟨ds ++ (readDefinitions limit rest).definitions, (readDefinitions limit rest).refusal⟩ := by
  induction h with
  | nil => rfl
  | cons hd _ ih =>
    rw [readDefinitions_of_eq_ok (readDefinition_eq_ok_iff.2 hd), ih]
    rfl

/-- Definitions that do not reach to the end of the text are the same in a text that goes on. -/
theorem append (h : StartsWith limit ds text rest) (hrest : rest ≠ []) (more : List Char) :
    StartsWith limit (ds.map fun d => d.append more) (text ++ more) (rest ++ more) := by
  induction h with
  | nil => exact .nil
  | @cons d ds text mid rest hd hds ih =>
    have hsite : d.site = text := (definitionText_iff.1 hd).1
    have hd' := hd.append (ne_nil_of_isSuffix hds.isSuffix hrest) more
    rw [← hsite] at hd'
    exact .cons (hsite ▸ hd') (ih hrest)

end StartsWith

/-- The first definitions of a reading are those that its text begins with, and the others are read
behind them. -/
theorem exists_startsWith {ds es : List Definition} {refusal : Option Refusal}
    (h : readDefinitions limit text = ⟨ds ++ es, refusal⟩) :
    ∃ rest, StartsWith limit ds text rest ∧ readDefinitions limit rest = ⟨es, refusal⟩ := by
  induction ds generalizing text with
  | nil => exact ⟨text, .nil, h⟩
  | cons d ds ih =>
    cases text with
    | nil =>
      rw [readDefinitions] at h
      cases h
    | cons c cs =>
      cases hread : readDefinition limit (c :: cs) with
      | error refusal' =>
        rw [readDefinitions_of_eq_error hread] at h
        cases h
      | ok result =>
        obtain ⟨d', mid⟩ := result
        rw [readDefinitions_of_eq_ok hread, List.cons_append] at h
        simp only [Reading.mk.injEq, List.cons.injEq] at h
        obtain ⟨⟨rfl, hds⟩, hrefusal⟩ := h
        obtain ⟨rest, hstarts, hrest⟩ := ih (by rw [← hds, ← hrefusal])
        exact ⟨rest, .cons (readDefinition_eq_ok_iff.1 hread) hstarts, hrest⟩

theorem readDefinitions_eq_refusal_iff {refusal : Refusal} :
    readDefinitions limit text = ⟨[], some refusal⟩ ↔
      text ≠ [] ∧ readDefinition limit text = .error refusal := by
  cases text with
  | nil =>
    rw [readDefinitions]
    simp
  | cons c cs =>
    cases hread : readDefinition limit (c :: cs) with
    | error refusal' => simp [readDefinitions_of_eq_error hread]
    | ok result =>
      obtain ⟨d, rest⟩ := result
      simp [readDefinitions_of_eq_ok hread]

/-- A text that begins with a name begins with a definition of it, whatever is wrong with this. -/
theorem readDefinitions_begins {name : String} (h : NameText name text rest) (limit : ℕ) :
    (readDefinitions limit text).Begins name text := by
  have hname := readName?_eq_some_iff.2 h
  obtain ⟨c, cs, rfl⟩ : ∃ c cs, text = c :: cs := by
    cases text with
    | nil => cases hname
    | cons c cs => exact ⟨c, cs, rfl⟩
  cases hread : readDefinition limit (c :: cs) with
  | error refusal =>
    rw [readDefinitions_of_eq_error hread]
    unfold readDefinition at hread
    simp only [hname] at hread
    split at hread
    · cases hread
      exact .openDefinition rfl rfl
    · split at hread
      · cases hread
        exact .openDefinition rfl rfl
      · cases hread
  | ok result =>
    rw [readDefinitions_of_eq_ok hread]
    unfold readDefinition at hread
    simp only [hname] at hread
    split at hread
    · cases hread
    · split at hread
      · cases hread
      · cases hread
        exact .definition rfl rfl

/-- A reading begins with one definition at most. -/
theorem Reading.Begins.unique {name name' : String} {site site' : List Char} {r : Reading}
    (h : r.Begins name site) (h' : r.Begins name' site') : name = name' ∧ site = site' := by
  cases h with
  | definition hname hsite =>
    cases h' with
    | definition hname' hsite' => exact ⟨hname.symm.trans hname', hsite.symm.trans hsite'⟩
  | openDefinition hname hsite =>
    cases h' with
    | openDefinition hname' hsite' => exact ⟨hname.symm.trans hname', hsite.symm.trans hsite'⟩

/-- A reading begins with a definition only where a name stands. -/
theorem nameText_of_begins {name : String}
    (h : (readDefinitions limit text).Begins name site) :
    text = site ∧ ∃ rest, NameText name text rest := by
  cases hname : readName? text with
  | some result =>
    obtain ⟨name', rest⟩ := result
    have hname' := readName?_eq_some_iff.1 hname
    obtain ⟨rfl, rfl⟩ := (readDefinitions_begins hname' limit).unique h
    exact ⟨rfl, rest, hname'⟩
  | none =>
    cases text with
    | nil =>
      rw [readDefinitions] at h
      cases h
    | cons c cs =>
      have hread : readDefinition limit (c :: cs) = .error ⟨⟨.expectingName, c :: cs⟩, none⟩ := by
        unfold readDefinition
        rw [hname]
      rw [readDefinitions_of_eq_error hread] at h
      cases h

/-! ### Whole texts -/

/-- A text is refused where, behind definitions that are complete, one is refused. -/
theorem read_eq_refusal_iff {ds : List Definition} {refusal : Refusal} :
    read limit text = ⟨ds, some refusal⟩ ↔
      ∃ start, StartsWith limit ds (Spacing.anyLine.skip text) start ∧ start ≠ [] ∧
        readDefinition limit start = .error refusal := by
  constructor
  · intro h
    rw [read, ← List.append_nil ds] at h
    obtain ⟨start, hstarts, hrest⟩ := exists_startsWith h
    exact ⟨start, hstarts, readDefinitions_eq_refusal_iff.1 hrest⟩
  · rintro ⟨start, hstarts, hstart⟩
    rw [read, hstarts.readDefinitions_eq, readDefinitions_eq_refusal_iff.2 hstart, List.append_nil]

/-- A text that is refused for a definite fault is refused for it when it goes on, behind the same
definitions. -/
theorem read_append_of_refusal {ds : List Definition} {refusal : Refusal}
    (h : read limit text = ⟨ds, some refusal⟩) (hfault : refusal.fault.error.IsDefinite)
    (more : List Char) : read limit (text ++ more) =
      ⟨ds.map fun d => d.append more, some (refusal.append more)⟩ := by
  obtain ⟨start, hstarts, hne, hread⟩ := read_eq_refusal_iff.1 h
  have hstarts' := hstarts.append hne more
  rw [← Spacing.skip_append (ne_nil_of_isSuffix hstarts.isSuffix hne)] at hstarts'
  exact read_eq_refusal_iff.2 ⟨start ++ more, hstarts', List.append_ne_nil_of_left_ne_nil hne more,
    readDefinition_append_of_error hne hread hfault more⟩

/-- A definition begins inside its text, and with its name. -/
theorem exists_nameText_of_begins {ds : List Definition} {r : Reading} {name : String}
    (h : read limit text = ⟨ds ++ r.definitions, r.refusal⟩) (hbegins : r.Begins name site) :
    site <:+ text ∧ ∃ rest, NameText name site rest := by
  obtain ⟨rest, hstarts, hrest⟩ := exists_startsWith h
  have hbegins' : (readDefinitions limit rest).Begins name site := by rwa [hrest]
  obtain ⟨rfl, hname⟩ := nameText_of_begins hbegins'
  exact ⟨hstarts.isSuffix.trans (Spacing.skip_suffix _ _), hname⟩

/-- A text in which a definition begins, and behind its name something else, begins this definition
when it goes on as well, behind the same definitions. -/
theorem exists_begins_append {ds : List Definition} {r : Reading} {name : String}
    (h : read limit text = ⟨ds ++ r.definitions, r.refusal⟩) (hbegins : r.Begins name site)
    (hsite : site ≠ name.toList) (more : List Char) :
    ∃ r' : Reading, r'.Begins name (site ++ more) ∧ read limit (text ++ more) =
      ⟨ds.map (fun d => d.append more) ++ r'.definitions, r'.refusal⟩ := by
  obtain ⟨rest, hstarts, hrest⟩ := exists_startsWith h
  have hbegins' : (readDefinitions limit rest).Begins name site := by rwa [hrest]
  obtain ⟨rfl, behind, hname⟩ := nameText_of_begins hbegins'
  have hbehind : behind ≠ [] := by
    rintro rfl
    rw [hname.eq_append, List.append_nil] at hsite
    exact hsite rfl
  have hne : rest ≠ [] := ne_nil_of_isSuffix hname.isSuffix hbehind
  have hname' := hname.append (.inl hbehind : Seam .anyLine behind more)
  refine ⟨_, readDefinitions_begins hname' limit, ?_⟩
  rw [read, Spacing.skip_append (ne_nil_of_isSuffix hstarts.isSuffix hne),
    (hstarts.append hne more).readDefinitions_eq]

end EbnfTables
