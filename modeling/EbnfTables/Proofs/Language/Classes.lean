import EbnfTables.Proofs.Language.Preservation
import EbnfTables.Proofs.Source.Machine

/-!
# Character classes

A class with a member stands for one character.  `Body.IsClass negated ms run` says so of elements:

* they are one run, whose first element tells whether the class is negated;
* they list the members: `Body.members` reads back which, and in which order, and a range with the
  same bounds twice is told from a single character;
* their words are the characters inside the members, or outside, and nothing longer or shorter.

The elements of a class are such a run (`Body.isClass_classElements`), and they are put behind what
is there already (`Frame.build_push`).  Main theorem: `step_class`.  Classes without members stand
for nothing at all, so a class is not a run in general (`not_forall_isRun`).
-/

namespace EbnfTables

/-- The character that a word stands for. -/
def Element.toChar (e : Element) : Char := Char.ofNat e.value.toNat

@[simp] theorem Element.toChar_mk_val (kind : ElementKind) (c : Char) :
    (⟨kind, c.val⟩ : Element).toChar = c := c.ofNat_toNat

theorem IsRun.ne_nil {run : Body} (h : IsRun run) : run ≠ [] := by
  cases h with
  | intro _ hfirst _ => cases hfirst <;> exact nofun

namespace Body

/-- The members that a run lists.  An upper bound belongs to the element before it. -/
def members : Body → List Member
  | [] => []
  | [e] => [.single e.toChar]
  | e :: e' :: es =>
    if e'.kind = .rangeUpper then .range e.toChar e'.toChar :: members es
    else .single e.toChar :: members (e' :: es)

theorem members_elements_append (kind : ElementKind) (m : Member) {es : Body}
    (hes : ∀ e, es.head? = some e → e.kind ≠ .rangeUpper) :
    members (m.elements kind ++ es) = m :: members es := by
  cases m with
  | single c =>
    cases es with
    | nil => simp [Member.elements, members]
    | cons e es => simp [Member.elements, members, hes e rfl]
  | range lower upper => simp [Member.elements, members]

theorem members_flatMap (ms : List Member) :
    members (ms.flatMap (Member.elements .charAlt)) = ms := by
  induction ms with
  | nil => rfl
  | cons m ms ih =>
    rw [List.flatMap_cons, members_elements_append _ _ (head?_flatMap_ne_rangeUpper ms), ih]

/-- No member is lost or changed. -/
theorem members_classElements (negated : Bool) (ms : List Member) :
    members (classElements negated ms) = ms := by
  cases ms with
  | nil => rfl
  | cons m ms =>
    rw [classElements, members_elements_append _ _ (head?_flatMap_ne_rangeUpper ms),
      members_flatMap]

/-- The elements are those of a class with the given members. -/
structure IsClass (negated : Bool) (ms : List Member) (run : Body) : Prop where
  isRun : IsRun run
  kind_head : run.head?.map Element.kind = some (if negated then .charNot else .char)
  members_eq : run.members = ms
  language_eq : ∀ L, run.language L = oneOf (ClassContains negated ms)

theorem isClass_classElements (negated : Bool) {ms : List Member} (h : ms ≠ []) :
    IsClass negated ms (classElements negated ms) := by
  obtain ⟨m, ms, rfl⟩ := List.exists_cons_of_ne_nil h
  obtain ⟨e, es, heq, hkind, -⟩ := exists_classElements_eq_cons negated m ms
  exact {
    isRun := isRun_classElements negated m ms
    kind_head := by rw [heq, List.head?_cons, Option.map_some, hkind]
    members_eq := members_classElements negated _
    language_eq := fun L => language_classElements L (fun _ => 1) negated (m :: ms) }

end Body

/-! ### The text of a class -/

theorem MemberText.isSuffix {m : Member} {text rest : List Char} (h : MemberText m text rest) :
    rest <:+ text :=
  (readMember_remains h.readMember_eq).isSuffix

/-- What follows a class stands behind its closing bracket. -/
theorem MembersText.bracket_suffix {ms : List Member} {text rest : List Char}
    (h : MembersText ms text rest) : ']' :: rest <:+ text := by
  induction h with
  | close => exact List.suffix_rfl
  | member _ hm _ ih => exact ih.trans hm.isSuffix

theorem MembersText.eq_nil_iff {ms : List Member} {text rest : List Char}
    (h : MembersText ms text rest) : ms = [] ↔ text = ']' :: rest := by
  cases h with
  | close => simp
  | member hopen _ _ =>
    refine iff_of_false nofun ?_
    rintro rfl
    exact hopen rfl

namespace ClassText

variable {negated : Bool} {ms : List Member} {text rest : List Char}

theorem bracket_suffix (h : ClassText negated ms text rest) : ']' :: rest <:+ text := by
  cases h with
  | negated h => exact h.bracket_suffix.trans (List.suffix_cons _ _)
  | plain _ h => exact h.bracket_suffix

theorem negated_iff (h : ClassText negated ms text rest) :
    negated = true ↔ text.head? = some '^' := by
  cases h with
  | negated => simp
  | plain hplain => exact iff_of_false nofun hplain

/-- The classes without members are `[]` and `[^]`. -/
theorem eq_nil_iff (h : ClassText negated ms text rest) :
    ms = [] ↔ text = ']' :: rest ∨ text = '^' :: ']' :: rest := by
  cases h with
  | negated h => simp [h.eq_nil_iff]
  | plain hplain h =>
    rw [h.eq_nil_iff, or_iff_left]
    rintro rfl
    exact hplain rfl

end ClassText

/-! ### Reading a class -/

/-- An item is put behind what is there already. -/
theorem Frame.build_push (f : Frame) (e : Expr .item) (base : String) (b : Builder) :
    (f.push e).body.build base b =
      ((f.body.build base b).1 ++ (e.build base (f.body.build base b).2).1,
        (e.build base (f.body.build base b).2).2) := by
  obtain ⟨site, earlier, current⟩ := f
  cases earlier with
  | none => simp [push, body, Expr.build]
  | some earlier => simp [push, body, Expr.build]

/-- **A class with a member stands for one character.**  Reading one goes on behind its closing
bracket, and puts elements behind those of the alternation at hand.  If the class has members, the
elements are one run for them; the classes without members, `[]` and `[^]`, add nothing. -/
theorem step_class (limit : ℕ) {c : Config} {cs rest : List Char} {e : Expr .item}
    (hrest : c.rest = '[' :: cs) (h : readAtom? c.rest = some (.ok (e, rest))) :
    c.step limit = .more (c.resume (c.frame.push e) rest) ∧ ']' :: rest <:+ cs ∧
      ∃ negated ms, ClassText negated ms cs rest ∧ (negated = true ↔ cs.head? = some '^') ∧
        (ms = [] ↔ cs = ']' :: rest ∨ cs = '^' :: ']' :: rest) ∧
        ∃ run : Body, (ms = [] → run = []) ∧ (ms ≠ [] → run.IsClass negated ms) ∧
          ∀ base b, (c.frame.push e).body.build base b =
            ((c.frame.body.build base b).1 ++ run, (c.frame.body.build base b).2) := by
  have hclass : readClass ('[' :: cs) cs = .ok (e, rest) := by
    rw [hrest] at h
    exact Option.some.inj h
  obtain ⟨negated, ms, rfl, htext⟩ := readClass_eq_ok_iff.1 hclass
  refine ⟨by rw [Config.step, h], htext.bracket_suffix, negated, ms, htext, htext.negated_iff,
    htext.eq_nil_iff, classElements negated ms, ?_, Body.isClass_classElements negated, ?_⟩
  · rintro rfl
    rfl
  · intro base b
    rw [Frame.build_push, Expr.build]

/-- The class `[^\x00-\x1F"]` behind a literal, in front of a quantifier. -/
theorem step_class_negated :
    readAtom? ['[', '^', '\\', 'x', '0', '0', '-', '\\', 'x', '1', 'F', '"', ']', '*'] =
      some (.ok (.charClass true [.range '\x00' '\x1f', .single '"'], ['*'])) ∧
    ∃ run : Body, run.IsClass true [.range '\x00' '\x1f', .single '"'] ∧
      ∀ base b, Expr.build base (.only (.snoc (.snoc .nothing (.literal ['x']))
          (.charClass true [.range '\x00' '\x1f', .single '"']))) b = (.char 'x' :: run, b) := by
  have htext : ClassText true [.range '\x00' '\x1f', .single '"']
      ['^', '\\', 'x', '0', '0', '-', '\\', 'x', '1', 'F', '"', ']', '*'] ['*'] :=
    .negated (.member (by decide) (.range rfl (by decide) rfl)
      (.member (by decide) (.single rfl nofun) .close))
  have hread := readAtom?_charClass htext
  obtain ⟨-, -, negated, ms, hclass, -, -, run, -, hrun, hbuild⟩ :=
    step_class 64 (c := ⟨.push (.start []) (.literal ['x']), [], _⟩) rfl hread
  obtain ⟨rfl, rfl⟩ : true = negated ∧ [.range '\x00' '\x1f', .single '"'] = ms := by
    have heq := (readAtom?_charClass hclass).symm.trans hread
    simpa [eq_comm] using heq
  exact ⟨hread, run, hrun (by simp), hbuild⟩

/-- **A class is not a run in general.**  The class `[]` has no members, and no elements. -/
theorem not_forall_isRun :
    ¬ ∀ (cs rest : List Char) (e : Expr .item), readAtom? ('[' :: cs) = some (.ok (e, rest)) →
      ∀ base b, IsRun (e.build base b).1 := by
  intro h
  exact (h [']'] [] _ (readAtom?_charClass (.plain (by decide) .close)) "" .empty).ne_nil rfl

end EbnfTables
