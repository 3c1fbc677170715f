import EbnfTables.Proofs.Source.Machine

/-!
# What the machine reads

The right side of a definition is read exactly as the grammar of sources says.

* `Opened limit text` is the invariant of a run that began at `text`: every frame holds an
  expression that its text starts with, and a group is nested in the frame around it.  A step
  keeps it (`Opened.step`), so what a run returns is described by the grammar.
* `Passes` is the converse.  Whatever frames are around it, the machine passes over an expression
  that the text starts with (`passes_of_exprText`).

The two give `readAlternatives_eq_ok_iff`.
-/

namespace EbnfTables

section Frames

variable {s : Spacing} {depth : ℕ} {f g : Frame} {text mid rest : List Char}

theorem exprText_push {mid' : List Char} {e : Expr .item} (hf : ExprText s depth f.body text mid)
    (he : ExprText s depth e mid mid') (hskip : Skips s mid' rest) :
    ExprText s depth (f.push e).body text rest := by
  obtain ⟨site, earlier, current⟩ := f
  cases earlier with
  | none => cases hf with | only h => exact .only (.snoc h he hskip)
  | some earlier =>
    cases hf with | orElse hearlier hbar h => exact .orElse hearlier hbar (.snoc h he hskip)

theorem exprText_bar (hf : ExprText s depth f.body text ('|' :: mid))
    (hskip : Skips .anyLine mid rest) : ExprText s depth f.bar.body text rest :=
  .orElse hf hskip .nothing

theorem exprText_quantify {q : Quantifier} (hg : f.quantify? q = some g)
    (hf : ExprText s depth f.body text (q.sign :: mid)) (hskip : Skips s mid rest) :
    ExprText s depth g.body text rest := by
  obtain ⟨front, last, hcurrent, hc, rfl⟩ := Frame.quantify?_eq_some_iff.1 hg
  obtain ⟨site, earlier, current⟩ := f
  cases hcurrent
  cases earlier with
  | none => cases hf with | only h => exact .only (.quantified h hc hskip)
  | some earlier =>
    cases hf with | orElse hearlier hbar h => exact .orElse hearlier hbar (.quantified h hc hskip)

end Frames

/-! ### From the machine to the grammar -/

/-- The invariant of a run that began at `text`: what the frames hold was read from where they
start, and `depth` more groups may be opened. -/
inductive Opened (limit : ℕ) (text : List Char) : ℕ → Frame → List Frame → List Char → Prop
  | definition {f : Frame} {rest : List Char} (hsite : f.site = text)
      (hf : ExprText .sameLine limit f.body f.site rest) : Opened limit text limit f [] rest
  | group {depth : ℕ} {f g : Frame} {outer : List Frame} {mid rest : List Char}
      (houter : Opened limit text (depth + 1) g outer ('(' :: mid))
      (hskip : Skips .anyLine mid f.site) (hf : ExprText .anyLine depth f.body f.site rest) :
      Opened limit text depth f (g :: outer) rest

namespace Opened

variable {limit depth : ℕ} {text rest : List Char} {f g : Frame} {outer : List Frame}

theorem depth_add_length (h : Opened limit text depth f outer rest) :
    depth + outer.length = limit := by
  induction h with
  | definition => rfl
  | group _ _ _ ih => rw [List.length_cons]; omega

theorem exprText (h : Opened limit text depth f outer rest) :
    ExprText (Config.mk f outer rest).spacing depth f.body f.site rest := by
  cases h with
  | definition _ hf => exact hf
  | group _ _ hf => exact hf

/-- The innermost frame may go on as the grammar allows. -/
theorem advance {rest' : List Char} (h : Opened limit text depth f outer rest)
    (hsite : g.site = f.site)
    (hg : ExprText (Config.mk f outer rest).spacing depth g.body f.site rest') :
    Opened limit text depth g outer rest' := by
  cases h with
  | definition hf => exact .definition (hsite.trans hf) (hsite ▸ hg)
  | group houter hskip _ => exact .group houter (hsite ▸ hskip) (hsite ▸ hg)

theorem step {c next : Config} (hstep : c.Step limit next)
    (h : Opened limit text depth c.frame c.outer c.rest) :
    ∃ depth', Opened limit text depth' next.frame next.outer next.rest := by
  cases hstep with
  | atom hatom =>
    refine ⟨depth, h.advance (Frame.site_push _ _) ?_⟩
    exact exprText_push h.exprText (exprText_of_readAtom? hatom) (Spacing.skips_skip _ _)
  | openGroup hrest hlimit =>
    have hdepth := h.depth_add_length
    obtain ⟨depth, rfl⟩ : ∃ d, depth = d + 1 := ⟨depth - 1, by omega⟩
    rw [hrest] at h
    exact ⟨depth, .group h (Spacing.skips_skip _ _) (.only .nothing)⟩
  | bar hrest =>
    refine ⟨depth, h.advance (Frame.site_bar _) ?_⟩
    exact exprText_bar (hrest ▸ h.exprText) (Spacing.skips_skip _ _)
  | quantifier hrest hf =>
    have hsite := (Frame.quantify?_eq_some_iff.1 hf)
    refine ⟨depth, h.advance ?_ ?_⟩
    · obtain ⟨_, _, -, -, rfl⟩ := hsite
      rfl
    · exact exprText_quantify hf (hrest ▸ h.exprText) (Spacing.skips_skip _ _)
  | closeGroup hc =>
    cases h with
    | group houter hskip hf =>
      refine ⟨depth + 1, houter.advance (Frame.site_push _ _) ?_⟩
      exact exprText_push houter.exprText (.group hskip hf hc) (Spacing.skips_skip _ _)

theorem run {c : Config} {body : Expr .alternatives}
    (h : Opened limit text depth c.frame c.outer c.rest) (hrun : c.run limit = .ok (body, rest)) :
    ∃ stop, ExprText .sameLine limit body text stop ∧ body.contributes ∧
      readLineEnd? stop = some rest := by
  fun_induction Config.run limit c generalizing depth with
  | case1 c next hstep ih =>
    obtain ⟨depth', h'⟩ := h.step (Config.step_of_step_eq_more hstep)
    exact ih h' hrun
  | case2 c body' rest' hstep =>
    cases hrun
    obtain ⟨houter, hc, rfl, hend⟩ := Config.step_eq_done_iff.1 hstep
    obtain ⟨f, outer, stop⟩ := c
    cases houter
    cases h with
    | definition hsite hf => exact ⟨stop, hsite ▸ hf, hc, hend⟩
  | case3 => cases hrun

end Opened

/-! ### From the grammar to the machine -/

/-- A frame that holds `body`. -/
def Frame.ofBody (site : List Char) : Expr .alternatives → Frame
  | .only sequence => ⟨site, none, sequence⟩
  | .orElse earlier last => ⟨site, some earlier, last⟩

@[simp] theorem Frame.body_ofBody (site : List Char) (body : Expr .alternatives) :
    (ofBody site body).body = body := by
  cases body <;> rfl

/-- Any number of steps. -/
abbrev Config.Steps (limit : ℕ) : Config → Config → Prop :=
  Relation.ReflTransGen (Config.Step limit)

theorem Config.Steps.run_eq {limit : ℕ} {c d : Config} (h : Config.Steps limit c d) :
    c.run limit = d.run limit := by
  induction h using Relation.ReflTransGen.head_induction_on with
  | refl => rfl
  | head hstep _ ih => rw [run_of_step_eq_more hstep.step_eq_more, ih]

/-- With any frames around it, the machine passes over the expression `e` between `text` and `rest`:
an item is added to the frame at hand, a sequence fills its last alternative, and alternatives fill
a new frame. -/
def Passes (limit : ℕ) (s : Spacing) (depth : ℕ) :
    {level : Level} → Expr level → List Char → List Char → Prop
  | .item, e, text, rest => ∀ f outer, depth + outer.length = limit →
      (Config.mk f outer text).spacing = s →
      Config.Steps limit ⟨f, outer, text⟩ ⟨f.push e, outer, s.skip rest⟩
  | .sequence, e, text, rest => ∀ site earlier outer, depth + outer.length = limit →
      (Config.mk (.start site) outer text).spacing = s →
      Config.Steps limit ⟨⟨site, earlier, .nothing⟩, outer, text⟩ ⟨⟨site, earlier, e⟩, outer, rest⟩
  | .alternatives, e, text, rest => ∀ site outer, depth + outer.length = limit →
      (Config.mk (.start site) outer text).spacing = s →
      Config.Steps limit ⟨.start site, outer, text⟩ ⟨.ofBody site e, outer, rest⟩

theorem passes_of_readAtom? {limit : ℕ} {s : Spacing} {depth : ℕ} {e : Expr .item}
    {text rest : List Char} (h : readAtom? text = some (.ok (e, rest))) :
    Passes limit s depth e text rest := by
  rintro f outer - rfl
  exact .single (Config.Step.atom (c := ⟨f, outer, text⟩) h)

theorem passes_of_exprText {limit : ℕ} {s : Spacing} {depth : ℕ} {level : Level} {e : Expr level}
    {text rest : List Char} (h : ExprText s depth e text rest) :
    Passes limit s depth e text rest := by
  induction h with
  | literal h => exact passes_of_readAtom? (readAtom?_literal h)
  | charClass h => exact passes_of_readAtom? (readAtom?_charClass h)
  | ref h => exact passes_of_readAtom? (readAtom?_ref h)
  | @group s depth body text mid rest hskip _ hc ih =>
    -- the frame at hand waits outside while the body of the group fills a new one
    rintro f outer hdepth rfl
    have hopen : Config.Step limit ⟨f, outer, '(' :: text⟩ ⟨.start mid, f :: outer, mid⟩ := by
      have hlimit : outer.length < limit := by omega
      have hstep : Config.Step limit ⟨f, outer, '(' :: text⟩
          (Config.openGroup ⟨f, outer, '(' :: text⟩ text) := .openGroup rfl hlimit
      rwa [Config.openGroup, Spacing.skip_eq_iff.2 hskip] at hstep
    have hbody := ih mid (f :: outer) (by rw [List.length_cons]; omega) rfl
    have hclose : Config.Step limit ⟨.ofBody mid body, f :: outer, ')' :: rest⟩
        (Config.resume ⟨f, outer, rest⟩ (f.push (.group (Frame.ofBody mid body).body)) rest) :=
      .closeGroup (by rwa [Frame.body_ofBody])
    rw [Frame.body_ofBody] at hclose
    exact .head hopen (hbody.tail hclose)
  | nothing => exact fun _ _ _ _ _ => .refl
  | @snoc s depth front last text mid mid' rest _ _ hskip ihfront ihlast =>
    rintro site earlier outer hdepth hs
    have hlast := ihlast ⟨site, earlier, front⟩ outer hdepth hs
    rw [Spacing.skip_eq_iff.2 hskip] at hlast
    exact (ihfront site earlier outer hdepth hs).trans hlast
  | @quantified s depth front last q text mid rest _ hc hskip ih =>
    rintro site earlier outer hdepth hs
    have hquantify : (⟨site, earlier, .snoc front last⟩ : Frame).quantify? q =
        some ⟨site, earlier, .snoc front (.repeated q last)⟩ :=
      Frame.quantify?_eq_some_iff.2 ⟨front, last, rfl, hc, rfl⟩
    have hstep : Config.Step limit ⟨⟨site, earlier, .snoc front last⟩, outer, q.sign :: mid⟩
        (Config.resume ⟨⟨site, earlier, .snoc front last⟩, outer, q.sign :: mid⟩
          ⟨site, earlier, .snoc front (.repeated q last)⟩ mid) := .quantifier rfl hquantify
    have hspacing :
        Config.spacing ⟨⟨site, earlier, .snoc front last⟩, outer, q.sign :: mid⟩ = s := hs
    rw [Config.resume, hspacing, Spacing.skip_eq_iff.2 hskip] at hstep
    exact (ih site earlier outer hdepth hs).tail hstep
  | only _ ih => exact fun site outer hdepth hs => ih site none outer hdepth hs
  | @orElse s depth earlier last text mid mid' rest _ hskip _ ihearlier ihlast =>
    rintro site outer hdepth hs
    have hstep : Config.Step limit ⟨.ofBody site earlier, outer, '|' :: mid⟩
        ⟨(Frame.ofBody site earlier).bar, outer, Spacing.anyLine.skip mid⟩ := .bar rfl
    have hbar : (Frame.ofBody site earlier).bar = ⟨site, some earlier, .nothing⟩ := by
      cases earlier <;> rfl
    rw [hbar, Spacing.skip_eq_iff.2 hskip] at hstep
    exact ((ihearlier site outer hdepth hs).tail hstep).trans
      (ihlast site (some earlier) outer hdepth hs)

/-- Alternatives are read as the grammar says, to the end of their line. -/
theorem readAlternatives_eq_ok_iff {limit : ℕ} {text rest : List Char}
    {body : Expr .alternatives} :
    readAlternatives limit text = .ok (body, rest) ↔
      ∃ stop, ExprText .sameLine limit body text stop ∧ body.contributes ∧
        readLineEnd? stop = some rest := by
  constructor
  · intro h
    have hstart : Opened limit text limit (.start text) [] text := .definition rfl (.only .nothing)
    exact hstart.run (c := ⟨.start text, [], text⟩) h
  · rintro ⟨stop, hbody, hc, hend⟩
    have hsteps : Config.Steps limit ⟨.start text, [], text⟩ ⟨.ofBody text body, [], stop⟩ :=
      passes_of_exprText hbody text [] rfl rfl
    have hdone : Config.step limit ⟨.ofBody text body, [], stop⟩ = .done body rest :=
      Config.step_eq_done_iff.2 ⟨rfl, by simpa using hc, by simp, hend⟩
    exact hsteps.run_eq.trans (Config.run_of_step_eq_done hdone)

end EbnfTables
