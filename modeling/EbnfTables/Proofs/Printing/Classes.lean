import EbnfTables.Proofs.Language.Classes
import EbnfTables.Proofs.Printing.Source

/-!
# Printed classes read back

A run of elements is printed as a class, and reading the class gives the run again, whatever follows
it.  This is a property of runs in any tables: nothing is asked of them but that their words are
code points.

* `Body.PrintsAs run text` says that `text` is printed for the run, wherever it stands;
* a run lists members, each of which is a character or a range (`IsMember.exists_elements_eq`), so
  it is the run of a class (`IsRun.exists_classElements_eq`);
* that class is what is printed (`printsAs_classElements`).

Main theorem: `printed_runs_read_back`.
-/

namespace EbnfTables

/-! ### Runs are runs of classes -/

/-- What stands for a member is the elements of a member, if its words are code points. -/
theorem IsMember.exists_elements_eq {kind : ElementKind} {part : Body} (h : IsMember kind part)
    (hvalid : ∀ e ∈ part, e.value.toNat.isValidChar) : ∃ m : Member, part = m.elements kind := by
  cases h with
  | single value =>
    have hvalue : value.toNat.isValidChar := hvalid ⟨kind, value⟩ (by simp)
    exact ⟨.single ⟨value, hvalue⟩, rfl⟩
  | range lower upper =>
    have hlower : lower.toNat.isValidChar := hvalid ⟨kind, lower⟩ (by simp)
    have hupper : upper.toNat.isValidChar := hvalid ⟨.rangeUpper, upper⟩ (by simp)
    exact ⟨.range ⟨lower, hlower⟩ ⟨upper, hupper⟩, rfl⟩

theorem exists_flatMap_elements_eq {kind : ElementKind} {parts : List Body}
    (h : ∀ part ∈ parts, IsMember kind part)
    (hvalid : ∀ e ∈ parts.flatten, e.value.toNat.isValidChar) :
    ∃ ms : List Member, parts.flatten = ms.flatMap (Member.elements kind) := by
  induction parts with
  | nil => exact ⟨[], rfl⟩
  | cons part parts ih =>
    obtain ⟨hpart, hparts⟩ := List.forall_mem_cons.1 h
    rw [List.flatten_cons, List.forall_mem_append] at hvalid
    obtain ⟨m, rfl⟩ := hpart.exists_elements_eq hvalid.1
    obtain ⟨ms, hms⟩ := ih hparts hvalid.2
    exact ⟨m :: ms, by rw [List.flatten_cons, hms, List.flatMap_cons]⟩

/-- A run is that of a class with at least one member, if its words are code points. -/
theorem IsRun.exists_classElements_eq {run : Body} (h : IsRun run)
    (hvalid : ∀ e ∈ run, e.value.toNat.isValidChar) :
    ∃ negated m ms, run = classElements negated (m :: ms) := by
  obtain ⟨hkind, hfirst, hmore⟩ := h
  rw [List.forall_mem_append] at hvalid
  obtain ⟨m, rfl⟩ := hfirst.exists_elements_eq hvalid.1
  obtain ⟨ms, hms⟩ := exists_flatMap_elements_eq hmore hvalid.2
  rcases hkind with rfl | rfl
  · exact ⟨false, m, ms, by rw [hms]; rfl⟩
  · exact ⟨true, m, ms, by rw [hms]; rfl⟩

/-! ### What is printed for a run -/

/-- The text is printed for the run with a space in front, whatever elements stand around it. -/
def Body.PrintsAs (run : Body) (text : List Char) : Prop :=
  ∀ (symbols : SymbolTable) (isEmpty : Bool) (es : Body), es.EndsRun →
    printElements? symbols isEmpty (run ++ es) =
      (printElements? symbols false es).map fun more => ' ' :: (text ++ more)

/-- What stands between the brackets of a printed class. -/
def membersText (negated : Bool) (ms : List Member) : List Char :=
  negationText negated ++ ms.flatMap Member.text

theorem printsAs_classElements (negated : Bool) (m : Member) (ms : List Member) :
    Body.PrintsAs (classElements negated (m :: ms))
      ('[' :: (membersText negated (m :: ms) ++ [']'])) := by
  intro symbols isEmpty es hes
  have h := printElements?_piece symbols (.run negated m ms) isEmpty hes
  rw [Piece.elements] at h
  rw [h]
  simp [Piece.text, membersText]

/-- What is printed for a class is the text of that class, whatever follows. -/
theorem classText_membersText (negated : Bool) (m : Member) (ms : List Member)
    (rest : List Char) :
    ClassText negated (m :: ms) (membersText negated (m :: ms) ++ ']' :: rest) rest := by
  have h := classText_text negated m ms rest
  rwa [← List.append_assoc m.text, ← List.flatMap_cons, ← List.append_assoc] at h

/-! ### Reading it back -/

/-- **Printed classes read back.**  A printed character is read as itself, whatever follows.  For a
run whose words are code points a class is printed, wherever the run stands.  Reading that class goes
on with what follows its closing bracket, and puts the elements of the run, and nothing else, behind
those of the alternation at hand. -/
theorem printed_runs_read_back :
    (∀ (c : Char) (rest : List Char), readChar (printClassChar c.val ++ rest) = .ok (c, rest)) ∧
    ∀ run : Body, IsRun run → (∀ e ∈ run, e.value.toNat.isValidChar) →
      ∃ (text : List Char) (item : Expr .item), run.PrintsAs ('[' :: (text ++ [']'])) ∧
        ∀ rest : List Char, readAtom? ('[' :: (text ++ ']' :: rest)) = some (.ok (item, rest)) ∧
          ∀ (limit : ℕ) (c : Config), c.rest = '[' :: (text ++ ']' :: rest) →
            c.step limit = .more (c.resume (c.frame.push item) rest) ∧
            ∀ base b, (c.frame.push item).body.build base b =
              ((c.frame.body.build base b).1 ++ run, (c.frame.body.build base b).2) := by
  refine ⟨readChar_printClassChar, fun run hrun hvalid => ?_⟩
  obtain ⟨negated, m, ms, rfl⟩ := hrun.exists_classElements_eq hvalid
  refine ⟨_, .charClass negated (m :: ms), printsAs_classElements negated m ms, fun rest => ?_⟩
  have hread := readAtom?_charClass (classText_membersText negated m ms rest)
  refine ⟨hread, fun limit c hc => ⟨?_, fun base b => ?_⟩⟩
  · rw [Config.step, hc, hread]
  · rw [Frame.build_push, Expr.build]

/-- A negated class of a range from `^`, of letters behind an escape, and of a range from `-` to `]`.
The text behind it goes on with what could be a digit, and with a bracket. -/
theorem printed_run_reads_back_signs :
    ∃ (run : Body) (item : Expr .item),
      run = [⟨.charNot, 0x5E⟩, ⟨.rangeUpper, 0x7F⟩, ⟨.charAlt, 0x41⟩, ⟨.charAlt, 0x2D⟩,
        ⟨.rangeUpper, 0x5D⟩] ∧
      IsRun run ∧ printElements? ⟨["a"]⟩ true run = some " [^\\x5E-\\x7FA\\--\\]]".toList ∧
      readAtom? "[^\\x5E-\\x7FA\\--\\]]B]".toList = some (.ok (item, "B]".toList)) ∧
      ∀ base b, (Expr.only (.snoc .nothing item)).build base b = (run, b) := by
  have hrun : IsRun [⟨.charNot, 0x5E⟩, ⟨.rangeUpper, 0x7F⟩, ⟨.charAlt, 0x41⟩, ⟨.charAlt, 0x2D⟩,
      ⟨.rangeUpper, 0x5D⟩] :=
    .intro (.inr rfl) (.range 0x5E 0x7F)
      (List.forall_mem_cons.2 ⟨.single 0x41, List.forall_mem_singleton.2 (.range 0x2D 0x5D)⟩)
  obtain ⟨text, item, hprints, hreads⟩ := printed_runs_read_back.2 _ hrun (by decide)
  -- the text is the one that the printer writes for the run alone
  have hprinted := hprints ⟨["a"]⟩ true [] Body.endsRun_nil
  have htext : text = "^\\x5E-\\x7FA\\--\\]".toList := by
    have heq : some (' ' :: '[' :: ("^\\x5E-\\x7FA\\--\\]".toList ++ [']'])) =
        some (' ' :: '[' :: (text ++ [']'] ++ [])) := hprinted
    rw [List.append_nil, Option.some.injEq, List.cons.injEq, List.cons.injEq] at heq
    exact (List.append_cancel_right heq.2.2).symm
  subst htext
  obtain ⟨hread, hstep⟩ := hreads "B]".toList
  refine ⟨_, item, rfl, hrun, by decide, hread, ?_⟩
  exact (hstep 0 ⟨.start [], [], _⟩ rfl).2

end EbnfTables
