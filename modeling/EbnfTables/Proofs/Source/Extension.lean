import EbnfTables.Proofs.Source.Nesting
import Mathlib.Data.List.Basic

/-!
# Texts that go on

What was read of a text is read in the same way when the text goes on with `more`.

* Behind a closing quote or bracket, anything may follow (`LiteralText.append`,
  `ClassText.append`).  Names and blanks are taken as long as possible: if they reach to the end of
  the text, then `more` has to begin where they end in any case.  A `Seam` is such a place;
* an expression goes on as well, but for one case: behind a last bar at the end of the text, the
  line that follows belongs to the definition (`ExprText.append`, `Expr.endsWithBar`);
* `RuleText` is the line of a definition up to the end of the line.

Main result: `DefinitionsText.exists_append`.  If the text of a row of definitions goes on behind a
line break, then the definitions stay what they are.
-/

namespace EbnfTables

variable {cs text rest more : List Char}

/-! ### What is left of a text -/

theorem Skips.isSuffix {s : Spacing} (h : Skips s text rest) : rest <:+ text := by
  obtain ⟨w, -, rfl⟩ := h.row
  exact List.suffix_append w rest

theorem NameText.isSuffix {name : String} (h : NameText name text rest) : rest <:+ text := by
  rw [h.eq_append]
  exact List.suffix_append _ _

theorem LiteralText.isSuffix {chars : List Char} (h : LiteralText chars text rest) :
    rest <:+ text := by
  have hread : readLiteral [] text = _ := readLiteral_eq_ok_iff.2 h
  exact (readLiteral_remains hread).isSuffix

theorem ClassText.isSuffix {negated : Bool} {ms : List Member} (h : ClassText negated ms text rest) :
    rest <:+ text := by
  have hread : readClass [] text = _ := readClass_eq_ok_iff.2 ⟨_, _, rfl, h⟩
  exact (readClass_remains hread).isSuffix

/-! ### Characters, literals and classes -/

theorem Text.readHex?_append {width value n : ℕ} (h : readHex? width value cs = some (n, rest))
    (more : List Char) : readHex? width value (cs ++ more) = some (n, rest ++ more) := by
  fun_induction readHex? width value cs with
  | case1 =>
    cases h
    rfl
  | case2 => cases h
  | case3 => cases h
  | case4 width value c cs d hd ih =>
    simp only [List.cons_append, readHex?, hd]
    exact ih h

theorem readEscape_append {d : Char} (h : readEscape cs = .ok (d, rest)) (more : List Char) :
    readEscape (cs ++ more) = .ok (d, rest ++ more) := by
  cases cs with
  | nil => cases h
  | cons c cs =>
    simp only [readEscape, List.cons_append] at h ⊢
    split at h
    · cases h
      rfl
    · split at h
      · cases h
      · rename_i hread
        obtain ⟨width, hwidth, hhex⟩ := Option.bind_eq_some_iff.1 hread
        simp only [hwidth, Option.bind_some, Text.readHex?_append hhex]
        split at h
        · rename_i hvalid
          cases h
          rw [if_pos hvalid]
        · cases h

theorem readChar_append {c : Char} (h : readChar cs = .ok (c, rest)) (more : List Char) :
    readChar (cs ++ more) = .ok (c, rest ++ more) := by
  cases cs with
  | nil => cases h
  | cons c cs =>
    simp only [readChar, List.cons_append] at h ⊢
    split at h
    · rename_i hc
      rw [if_pos hc]
      exact readEscape_append h more
    · rename_i hc
      cases h
      rw [if_neg hc]

theorem ne_nil_of_readChar {c : Char} (h : readChar cs = .ok (c, rest)) : cs ≠ [] := by
  rintro rfl
  cases h

theorem LiteralText.append {chars : List Char} (h : LiteralText chars text rest)
    (more : List Char) : LiteralText chars (text ++ more) (rest ++ more) := by
  induction h with
  | close => exact .close
  | char hopen hc _ ih =>
    refine .char ?_ (readChar_append hc more) ih
    rwa [List.head?_append_of_ne_nil _ (ne_nil_of_readChar hc)]

theorem MemberText.append {m : Member} (h : MemberText m text rest) (hrest : rest ≠ [])
    (more : List Char) : MemberText m (text ++ more) (rest ++ more) := by
  cases h with
  | single hc hdash =>
    refine .single (readChar_append hc more) fun after hafter => ?_
    obtain ⟨d, behind, rfl⟩ := List.exists_cons_of_ne_nil hrest
    obtain ⟨rfl, rfl⟩ := List.cons.inj hafter
    have hclose := hdash behind rfl
    show (behind ++ more).head? = some ']'
    rwa [List.head?_append_of_ne_nil]
    rintro rfl
    cases hclose
  | range hlower hmid hupper =>
    refine .range (readChar_append hlower more) ?_ (readChar_append hupper more)
    show (_ ++ more).head? ≠ some ']'
    rwa [List.head?_append_of_ne_nil _ (ne_nil_of_readChar hupper)]

theorem MemberText.ne_nil {m : Member} (h : MemberText m text rest) : text ≠ [] := by
  rintro rfl
  cases h with
  | single hc => cases hc
  | range hlower => cases hlower

theorem MembersText.ne_nil {ms : List Member} (h : MembersText ms text rest) : text ≠ [] := by
  cases h with
  | close => exact List.cons_ne_nil _ _
  | member _ hm _ => exact hm.ne_nil

theorem MembersText.append {ms : List Member} (h : MembersText ms text rest) (more : List Char) :
    MembersText ms (text ++ more) (rest ++ more) := by
  induction h with
  | close => exact .close
  | member hopen hm hms ih =>
    refine .member ?_ (hm.append hms.ne_nil more) ih
    rwa [List.head?_append_of_ne_nil _ hm.ne_nil]

theorem ClassText.append {negated : Bool} {ms : List Member} (h : ClassText negated ms text rest)
    (more : List Char) : ClassText negated ms (text ++ more) (rest ++ more) := by
  cases h with
  | negated h => exact .negated (h.append more)
  | plain hplain h =>
    refine .plain ?_ (h.append more)
    rwa [List.head?_append_of_ne_nil _ h.ne_nil]

/-! ### Names and blanks -/

/-- The text may go on behind `rest` with `more`: either `rest` is not used up, or items stand on
one line and `more` begins a new one. -/
def Seam (s : Spacing) (rest more : List Char) : Prop :=
  rest ≠ [] ∨ s = .sameLine ∧ more.head? = some '\n'

/-- What is not used up later was not used up before. -/
theorem Seam.of_isSuffix {s : Spacing} {mid : List Char} (h : Seam s rest more)
    (hsuffix : rest <:+ mid) : Seam s mid more := by
  refine h.imp_left fun hrest => ?_
  rintro rfl
  exact hrest (List.suffix_nil.1 hsuffix)

theorem NameText.append {s : Spacing} {name : String} (h : NameText name text rest)
    (hseam : Seam s rest more) : NameText name (text ++ more) (rest ++ more) := by
  refine ⟨by rw [h.eq_append, List.append_assoc], h.ne_nil, h.isWordChar_of_mem, ?_⟩
  intro c cs hcs
  cases rest with
  | nil =>
    obtain ⟨-, hmore⟩ := hseam.resolve_left fun hrest => hrest rfl
    obtain rfl : c = '\n' := by simpa [show more = c :: cs from hcs] using hmore
    rfl
  | cons d rest =>
    obtain ⟨rfl, -⟩ := List.cons.inj hcs
    exact h.longest d rest rfl

namespace Spacing

variable {s : Spacing}

theorem skipFrom_append (inComment : Bool) (hseam : Seam s (s.skipFrom inComment cs) more) :
    s.skipFrom inComment (cs ++ more) = s.skipFrom inComment cs ++ more := by
  fun_induction skipFrom s inComment cs with
  | case1 inComment =>
    -- a line that is not skipped begins here
    obtain ⟨rfl, hmore⟩ := hseam.resolve_left fun hrest => hrest rfl
    cases more with
    | nil => cases hmore
    | cons c more =>
      cases hmore
      cases inComment <;> rfl
  | case2 c cs hc ih => simpa [skipFrom, hc] using ih hseam
  | case3 cs _ ih => simpa [skipFrom] using ih hseam
  | case4 c cs hc hhash => simp [skipFrom, hc, hhash]
  | case5 c cs hbreak hc ih => simpa [skipFrom, hbreak, hc] using ih hseam
  | case6 c cs hbreak hc => simp [skipFrom, hbreak, hc]
  | case7 c cs hbreak ih => simpa [skipFrom, hbreak] using ih hseam

/-- If all of a text is skipped, its line break is skipped as well. -/
theorem skipFrom_append_of_eq_nil (inComment : Bool) (h : anyLine.skipFrom inComment cs = [])
    (more : List Char) : anyLine.skipFrom inComment (cs ++ '\n' :: more) = anyLine.skip more := by
  fun_induction skipFrom anyLine inComment cs with
  | case1 inComment => cases inComment <;> rfl
  | case2 c cs hc ih => simpa [skipFrom, hc] using ih h
  | case3 cs _ ih => simpa [skipFrom] using ih h
  | case4 => cases h
  | case5 c cs hbreak hc ih => simpa [skipFrom, hbreak, hc] using ih h
  | case6 => cases h
  | case7 c cs hbreak ih => simpa [skipFrom, hbreak] using ih h

end Spacing

theorem Skips.append {s : Spacing} (h : Skips s text rest) (hseam : Seam s rest more) :
    Skips s (text ++ more) (rest ++ more) := by
  rw [← Spacing.skip_eq_iff] at h ⊢
  rw [← h] at hseam ⊢
  exact Spacing.skipFrom_append false hseam

theorem Skips.append_of_nil (h : Skips .anyLine text []) (more : List Char) :
    Skips .anyLine (text ++ '\n' :: more) (Spacing.anyLine.skip more) := by
  rw [← Spacing.skip_eq_iff] at h ⊢
  exact Spacing.skipFrom_append_of_eq_nil false h more

/-! ### Expressions -/

/-- Whether the last alternative is empty: a bar stands at the end. -/
def Expr.endsWithBar : {level : Level} → Expr level → Bool
  | _, orElse _ nothing => true
  | _, literal _ | _, charClass _ _ | _, ref _ | _, group _ | _, repeated _ _ | _, nothing
  | _, snoc _ _ | _, only _ | _, orElse _ (snoc _ _) => false

theorem Expr.endsWithBar_of_level_ne {level : Level} (e : Expr level)
    (hlevel : level ≠ .alternatives) : e.endsWithBar = false := by
  cases e <;> first | rfl | exact absurd rfl hlevel

namespace ExprText

variable {s : Spacing} {depth : ℕ}

theorem isSuffix {level : Level} {e : Expr level} (h : ExprText s depth e text rest) :
    rest <:+ text := by
  induction h with
  | literal h => exact h.isSuffix.trans (List.suffix_cons _ _)
  | charClass h => exact h.isSuffix.trans (List.suffix_cons _ _)
  | ref h => exact h.isSuffix
  | group hskip _ _ ih =>
    exact (((List.suffix_cons _ _).trans ih).trans hskip.isSuffix).trans (List.suffix_cons _ _)
  | nothing => exact List.suffix_rfl
  | snoc _ _ hskip ihfront ihlast => exact (hskip.isSuffix.trans ihlast).trans ihfront
  | quantified _ _ hskip ih => exact (hskip.isSuffix.trans (List.suffix_cons _ _)).trans ih
  | only _ ih => exact ih
  | orElse _ hskip _ ihearlier ihlast =>
    exact ((ihlast.trans hskip.isSuffix).trans (List.suffix_cons _ _)).trans ihearlier

/-- An item has a character. -/
theorem ne_nil {e : Expr .item} (h : ExprText s depth e text rest) : text ≠ [] := by
  rintro rfl
  cases h with
  | ref h => exact h.ne_nil (List.append_eq_nil_iff.1 h.eq_append.symm).1

theorem eq_nothing_of_nil {e : Expr .sequence} (h : ExprText s depth e [] rest) :
    e = .nothing := by
  cases h with
  | nothing => rfl
  | snoc hfront hlast _ =>
    exact absurd (List.suffix_nil.1 hfront.isSuffix) hlast.ne_nil
  | quantified hfront _ _ => cases List.suffix_nil.1 hfront.isSuffix

theorem ne_nil_of_contributes {e : Expr .alternatives} (h : ExprText s depth e text rest)
    (hc : e.contributes) : text ≠ [] := by
  rintro rfl
  cases h with
  | only h =>
    rw [h.eq_nothing_of_nil] at hc
    cases hc
  | orElse hearlier _ _ => cases List.suffix_nil.1 hearlier.isSuffix

/-- An expression stays what it is when its text goes on, unless it ends with a bar and the text
with it. -/
theorem append {level : Level} {e : Expr level} (h : ExprText s depth e text rest)
    (hseam : Seam s rest more) (hbar : rest ≠ [] ∨ e.endsWithBar = false) :
    ExprText s depth e (text ++ more) (rest ++ more) := by
  have hcons (c : Char) (cs : List Char) : c :: cs ≠ [] := List.cons_ne_nil c cs
  induction h with
  | literal h => exact .literal (h.append more)
  | charClass h => exact .charClass (h.append more)
  | ref h => exact .ref (h.append hseam)
  | group hskip hbody hc ih =>
    have hmid : Seam .anyLine _ more := .of_isSuffix (.inl (hcons _ _)) hbody.isSuffix
    exact .group (hskip.append hmid) (ih (.inl (hcons _ _)) (.inl (hcons _ _))) hc
  | nothing => exact .nothing
  | snoc hfront hlast hskip ihfront ihlast =>
    have hmid' := hseam.of_isSuffix hskip.isSuffix
    have hmid := hmid'.of_isSuffix hlast.isSuffix
    exact .snoc (ihfront hmid (.inr (Expr.endsWithBar_of_level_ne _ nofun)))
      (ihlast hmid' (.inr (Expr.endsWithBar_of_level_ne _ nofun))) (hskip.append hseam)
  | quantified hfront hc hskip ih =>
    exact .quantified (ih (.inl (hcons _ _)) (.inl (hcons _ _))) hc (hskip.append hseam)
  | only _ ih => exact .only (ih hseam (.inr (Expr.endsWithBar_of_level_ne _ nofun)))
  | @orElse s depth earlier last text mid mid' rest hearlier hskip hlast ihearlier ihlast =>
    -- behind the bar line breaks are skipped as well, so something has to stand there
    have hmid' : mid' ≠ [] := by
      rintro rfl
      obtain rfl := hlast.eq_nothing_of_nil
      rcases hbar with hne | hfalse
      · exact hne (List.suffix_nil.1 hlast.isSuffix)
      · cases hfalse
    exact .orElse (ihearlier (.inl (hcons _ _)) (.inl (hcons _ _))) (hskip.append (.inl hmid'))
      (ihlast hseam (.inr (Expr.endsWithBar_of_level_ne _ nofun)))

end ExprText

/-! ### Definitions -/

/-- `text` starts with the line of a definition, which ends before `stop`. -/
inductive RuleText (limit : ℕ) (name : String) (body : Expr .alternatives) :
    List Char → List Char → Prop
  | intro {text mid mark right stop : List Char} (hname : NameText name text mid)
      (hmark : Skips .sameLine mid (':' :: ':' :: '=' :: mark)) (hright : Skips .anyLine mark right)
      (hbody : ExprText .sameLine limit body right stop) (hc : body.contributes) :
      RuleText limit name body text stop

variable {limit : ℕ}

theorem definitionText_iff {d : Definition} :
    DefinitionText limit d text rest ↔
      d.site = text ∧ ∃ stop, RuleText limit d.name d.body text stop ∧ DefinitionEnd stop rest := by
  constructor
  · rintro ⟨hname, hmark, hright, hbody, hc, hend⟩
    exact ⟨rfl, _, ⟨hname, hmark, hright, hbody, hc⟩, hend⟩
  · obtain ⟨name, site, body⟩ := d
    rintro ⟨rfl, stop, ⟨hname, hmark, hright, hbody, hc⟩, hend⟩
    exact ⟨hname, hmark, hright, hbody, hc, hend⟩

/-- A definition stays what it is when its text goes on, unless it ends with a bar and the text
with it. -/
theorem RuleText.append {name : String} {body : Expr .alternatives} {stop : List Char}
    (h : RuleText limit name body text stop) (hseam : Seam .sameLine stop more)
    (hbar : stop ≠ [] ∨ body.endsWithBar = false) :
    RuleText limit name body (text ++ more) (stop ++ more) := by
  cases h with
  | @intro mid mark right _ hname hmark hright hbody hc =>
    have hmark' : Seam .sameLine (':' :: ':' :: '=' :: mark) more := .inl (List.cons_ne_nil _ _)
    have hmid := hmark'.of_isSuffix hmark.isSuffix
    exact ⟨hname.append hmid, hmark.append hmark',
      hright.append (.inl (hbody.ne_nil_of_contributes hc)), hbody.append hseam hbar, hc⟩

theorem LineEnd.ne_nil (h : LineEnd text rest) : text ≠ [] := by
  cases h <;> exact List.cons_ne_nil _ _

theorem LineEnd.append (h : LineEnd text rest) (more : List Char) :
    LineEnd (text ++ more) (rest ++ more) := by
  cases h with
  | lf => exact .lf
  | cr => exact .cr
  | crlf => exact .crlf

/-- Behind a line break, whatever follows does not change a definition. -/
theorem RuleText.append_of_lineEnd {name : String} {body : Expr .alternatives}
    {stop mid : List Char} (h : RuleText limit name body text stop) (hline : LineEnd stop mid)
    (more : List Char) : RuleText limit name body (text ++ more) (stop ++ more) :=
  h.append (.inl hline.ne_nil) (.inl hline.ne_nil)

theorem DefinitionText.append {d : Definition} (h : DefinitionText limit d text rest)
    (hrest : rest ≠ []) (more : List Char) :
    DefinitionText limit { d with site := text ++ more } (text ++ more) (rest ++ more) := by
  obtain ⟨-, stop, hrule, hend⟩ := definitionText_iff.1 h
  cases hend with
  | ending => exact absurd rfl hrest
  | line hline hskip =>
    exact definitionText_iff.2 ⟨rfl, _, hrule.append_of_lineEnd hline more,
      .line (hline.append more) (hskip.append (.inl hrest))⟩

/-- The last definition of a text may be followed by a line break and more. -/
theorem DefinitionText.append_line {d : Definition} (h : DefinitionText limit d text [])
    (hbar : d.body.endsWithBar = false) (more : List Char) :
    DefinitionText limit { d with site := text ++ '\n' :: more } (text ++ '\n' :: more)
      (Spacing.anyLine.skip more) := by
  obtain ⟨-, stop, hrule, hend⟩ := definitionText_iff.1 h
  refine definitionText_iff.2 ⟨rfl, _, hrule.append ?_ (.inr hbar), ?_⟩
  · exact .inr ⟨rfl, rfl⟩
  · cases hend with
    | ending => exact .line .lf (Spacing.skips_skip _ _)
    | line hline hskip => exact .line (hline.append _) (hskip.append_of_nil more)

theorem DefinitionsText.ne_nil {defs : List Definition} (h : DefinitionsText limit defs text)
    (hdefs : defs ≠ []) : text ≠ [] := by
  rintro rfl
  rw [← readDefinitions_eq_iff, readDefinitions] at h
  exact hdefs (Reading.mk.inj h).1.symm

/-- The first definition of a row is the one that its text starts with. -/
theorem DefinitionsText.exists_cons {defs : List Definition} {d : Definition}
    (h : DefinitionsText limit defs text) (hd : DefinitionText limit d text rest) :
    ∃ ds, defs = d :: ds ∧ DefinitionsText limit ds rest := by
  rw [← readDefinitions_eq_iff, readDefinitions_of_eq_ok (readDefinition_eq_ok_iff.2 hd)] at h
  obtain ⟨rfl, hnone⟩ := Reading.mk.inj h
  exact ⟨_, rfl, readDefinitions_eq_iff.1 (by rw [← hnone])⟩

/-- What a definition says, wherever it stands. -/
def Definition.rule (d : Definition) : String × Expr .alternatives := (d.name, d.body)

/-- The definitions of a text that does not end with a bar stay what they are when the text goes on
in a new line. -/
theorem DefinitionsText.exists_append {ds : List Definition} {d : Definition}
    {defs : List Definition} (h : DefinitionsText limit (ds ++ [d]) text)
    (hbar : d.body.endsWithBar = false) (hmore : DefinitionsText limit defs (text ++ '\n' :: more)) :
    ∃ front es, defs = front ++ es ∧
      front.map Definition.rule = (ds ++ [d]).map Definition.rule := by
  induction ds generalizing text defs with
  | nil =>
    cases h with
    | cons hd hnil =>
      cases hnil
      obtain ⟨es, rfl, -⟩ := hmore.exists_cons (hd.append_line hbar more)
      exact ⟨[_], es, rfl, rfl⟩
  | cons d₁ ds ih =>
    cases h with
    | cons hd₁ hds =>
      have hrest := hds.ne_nil (List.append_ne_nil_of_right_ne_nil ds (List.cons_ne_nil d []))
      obtain ⟨defs', rfl, hdefs'⟩ := hmore.exists_cons (hd₁.append hrest _)
      obtain ⟨front, es, rfl, hfront⟩ := ih hds hdefs'
      exact ⟨_ :: front, es, rfl, by rw [List.map_cons, hfront]; rfl⟩

/-- The definitions of a source that does not end with a bar stay what they are when the source goes
on in a new line. -/
theorem SourceText.exists_append {ds : List Definition} {d : Definition}
    {defs : List Definition} (h : SourceText limit (ds ++ [d]) text)
    (hbar : d.body.endsWithBar = false) (hmore : SourceText limit defs (text ++ '\n' :: more)) :
    ∃ front es, defs = front ++ es ∧
      front.map Definition.rule = (ds ++ [d]).map Definition.rule := by
  obtain ⟨rest, hskip, hdefs⟩ := h.definitions
  obtain ⟨rest', hskip', hdefs'⟩ := hmore.definitions
  have hrest : Skips .anyLine (text ++ '\n' :: more) (rest ++ '\n' :: more) :=
    hskip.append (.inl (hdefs.ne_nil h.ne_nil))
  rw [← Spacing.skip_eq_iff] at hrest hskip'
  obtain rfl := hrest.symm.trans hskip'
  exact hdefs.exists_append hbar hdefs'

end EbnfTables
