import EbnfTables.Declaration.TokenText
import EbnfTables.Proofs.Tables.StaticLookup

/-!
# Reading generated code

The text of a generated implementation is read back, token by token.

* A `Reader` takes what it reads from the start of a text.  `Reader.Reads r text a`: from `text`,
  whatever follows, `r` reads `a` and leaves what follows;
* there is one reader for each kind of text, and it reads what is printed (`Reader.reads_word`,
  `Reader.reads_symbol`, `Reader.reads_element`, `Reader.reads_body`).  A list is read entry by entry
  (`Reader.entries_separated`), so nothing has to be known of the entries but that they are read;
* only an identifier is taken as long as possible.  What follows it in generated code never goes on
  with it (`Stops`).

Main result: `readImplementation?_implementationText`.  The text of an implementation determines the
type that it is for, and the static tables of the grammar.
-/

namespace EbnfTables

/-! ### Readers -/

/-- Takes something from the start of a text. -/
abbrev Reader (α : Type) := StateT (List Char) Option α

/-- The characters of identifiers. -/
def isIdentifierChar (c : Char) : Bool := c.isAlphanum || c == '_' || 128 ≤ c.toNat

/-- No identifier goes on with the text. -/
def Stops (text : List Char) : Prop := ∀ c ∈ text.head?, isIdentifierChar c = false

theorem stops_append {token : String} {c : Char} (h : token.toList.head? = some c)
    (hc : isIdentifierChar c = false) (rest : List Char) : Stops (token.toList ++ rest) := by
  intro d hd
  rw [List.head?_append, h, Option.some_or] at hd
  cases hd
  exact hc

namespace Reader

variable {α β : Type}

/-- Whatever stands behind `text`, unless an identifier goes on there, the reader takes `a` from
`text`. -/
def Reads (r : Reader α) (text : String) (a : α) : Prop :=
  ∀ rest, Stops rest → r (text.toList ++ rest) = some (a, rest)

theorem bind_eq {r : Reader α} {f : α → Reader β} {text rest : List Char} {a : α}
    (h : r text = some (a, rest)) : (r >>= f) text = f a rest := by
  show (r text).bind _ = _
  rw [h]
  rfl

/-- Takes the given text. -/
def expect (expected : String) : Reader Unit := fun text =>
  (Text.after? expected.toList text).map ((), ·)

theorem expect_append (expected : String) (rest : List Char) :
    expect expected (expected.toList ++ rest) = some ((), rest) := by
  rw [expect, Text.after?_eq_some_iff.2 rfl, Option.map_some]

/-- Takes the longest row of characters of a kind. -/
def takeWhile (p : Char → Bool) : Reader (List Char) := fun text =>
  some (text.takeWhile p, text.dropWhile p)

theorem takeWhile_append {p : Char → Bool} {row rest : List Char} (hrow : ∀ c ∈ row, p c)
    (hrest : ∀ c ∈ rest.head?, p c = false) : takeWhile p (row ++ rest) = some (row, rest) := by
  have hrest' : ∀ c cs, rest = c :: cs → p c = false := by
    rintro c cs rfl
    exact hrest c rfl
  obtain ⟨htake, hdrop⟩ := takeWhile_dropWhile_append hrow hrest'
  rw [takeWhile, htake, hdrop]

/-! ### Lists -/

/-- Reads entries that are divided by commas. -/
def entries (entry : Reader α) (text : List Char) : Option (List α × List Char) :=
  match entry text with
  | none => none
  | some (a, rest) =>
    match Text.after? " , ".toList rest with
    | none => some ([a], rest)
    | some next =>
      -- entries that take nothing would be read forever
      if next.length < text.length then
        (entries entry next).map fun (as, rest) => (a :: as, rest)
      else none
termination_by text.length

/-- Reads a list up to the text that closes it. -/
def list (entry : Reader α) (close : String) : Reader (List α) := fun text =>
  match Text.after? close.toList text with
  | some rest => some ([], rest)
  | none => (do let as ← entries entry; expect close; return as) text

theorem separated_cons_cons (entry entry' : String) (more : List String) :
    (separated (entry :: entry' :: more)).toList =
      entry.toList ++ (" , ".toList ++ (separated (entry' :: more)).toList) := by
  simp only [separated, String.toList_intercalate, List.map_cons, List.intercalate_cons_cons,
    List.append_assoc]

theorem separated_singleton (entry : String) : (separated [entry]).toList = entry.toList := by
  simp only [separated, String.toList_intercalate, List.map_cons, List.map_nil,
    List.intercalate_singleton]

theorem head?_separated_cons {entry : String} {more : List String} {c : Char}
    (h : entry.toList.head? = some c) : (separated (entry :: more)).toList.head? = some c := by
  cases more with
  | nil => rw [separated_singleton, h]
  | cons entry' more => rw [separated_cons_cons, List.head?_append, h, Option.some_or]

/-- If every entry is read as it is printed, a row of entries is. -/
theorem entries_separated {entry : Reader α} {print : α → String} {as : List α}
    (h : ∀ a ∈ as, entry.Reads (print a) a) (hne : as ≠ []) {rest : List Char}
    (hstop : Stops rest) (hnext : Text.after? " , ".toList rest = none) :
    entries entry ((separated (as.map print)).toList ++ rest) = some (as, rest) := by
  induction as with
  | nil => exact absurd rfl hne
  | cons a as ih =>
    rw [List.forall_mem_cons] at h
    cases as with
    | nil =>
      rw [List.map_cons, List.map_nil, separated_singleton, entries, h.1 rest hstop]
      simp only [hnext]
    | cons b bs =>
      have hrest := ih h.2 (List.cons_ne_nil b bs)
      rw [List.map_cons] at hrest
      rw [List.map_cons, List.map_cons, separated_cons_cons, List.append_assoc, List.append_assoc,
        entries, h.1 _ (stops_append rfl rfl _)]
      simp only [Text.after?_eq_some_iff.2 rfl, hrest, Option.map_some]
      rw [if_pos]
      simp only [List.length_append]
      have hlength : " , ".toList.length = 3 := rfl
      omega

theorem after?_eq_none {expected text : List Char} {e c : Char}
    (hexpected : expected.head? = some e) (htext : text.head? = some c) (hne : e ≠ c) :
    Text.after? expected text = none := by
  obtain ⟨es, rfl⟩ := List.head?_eq_some_iff.1 hexpected
  obtain ⟨cs, rfl⟩ := List.head?_eq_some_iff.1 htext
  rw [Text.after?, if_neg hne]

/-- A list of such entries is read up to its closing bracket.  No entry begins with that. -/
theorem list_separated {entry : Reader α} {print : α → String} {as : List α} {close : String}
    (h : ∀ a ∈ as, entry.Reads (print a) a) (hclose : close.toList.head? = some ']')
    (hopen : ∀ a ∈ as, ∃ c, (print a).toList.head? = some c ∧ c ≠ ']') (rest : List Char) :
    list entry close ((separated (as.map print)).toList ++ (close.toList ++ rest)) =
      some (as, rest) := by
  have hhead : (close.toList ++ rest).head? = some ']' := by
    rw [List.head?_append, hclose, Option.some_or]
  cases as with
  | nil =>
    have hnil : (separated ([].map print)).toList = [] := rfl
    rw [hnil, List.nil_append, list, Text.after?_eq_some_iff.2 rfl]
  | cons a as =>
    obtain ⟨c, hc, hne⟩ := hopen a List.mem_cons_self
    have hstop : Stops (close.toList ++ rest) := stops_append hclose rfl rest
    have hnext : Text.after? " , ".toList (close.toList ++ rest) = none :=
      after?_eq_none rfl hhead (by decide)
    have hfirst : ((separated ((a :: as).map print)).toList ++ (close.toList ++ rest)).head? =
        some c := by
      rw [List.head?_append, List.map_cons, head?_separated_cons hc, Option.some_or]
    have hentries := entries_separated h (List.cons_ne_nil a as) hstop hnext
    rw [list, after?_eq_none hclose hfirst hne.symm]
    exact (bind_eq hentries).trans (bind_eq (expect_append close rest))

/-! ### The parts of an implementation -/

/-- Takes a machine word. -/
def word : Reader UInt32 := do
  let digits ← takeWhile Char.isDigit
  expect "u32"
  return (Nat.ofDigitChars 10 digits 0).toUInt32

theorem reads_word (n : UInt32) (rest : List Char) :
    word ((wordText n).toList ++ rest) = some (n, rest) := by
  have hdigits : ∀ c ∈ (toString n.toNat).toList, c.isDigit := by
    intro c hc
    rw [Nat.toString_eq_repr, Nat.toList_repr] at hc
    exact Nat.isDigit_of_mem_toDigits (by decide) (by decide) hc
  have hvalue : (Nat.ofDigitChars 10 (toString n.toNat).toList 0).toUInt32 = n := by
    rw [Nat.toString_eq_repr, Nat.toList_repr, Nat.ofDigitChars_toDigits (by decide) (by decide)]
    simp
  have hstop : ∀ c ∈ ("u32".toList ++ rest).head?, c.isDigit = false := by
    intro c hc
    cases hc
    rfl
  rw [wordText, String.toList_append, List.append_assoc, word,
    bind_eq (takeWhile_append hdigits hstop), bind_eq (expect_append _ _), hvalue]
  rfl

/-- Takes a symbol. -/
def symbol : Reader (String × RuleId) := do
  expect "(\""
  let name ← takeWhile isWordChar
  expect "\" , "
  let id ← word
  expect ")"
  return (String.ofList name, id)

theorem reads_symbol {name : String} (h : ∀ c ∈ name.toList, isWordChar c) (id : RuleId) :
    symbol.Reads (symbolText (name, id)) (name, id) := by
  intro rest _
  have hstop (more : List Char) : ∀ c ∈ ("\" , ".toList ++ more).head?, isWordChar c = false := by
    intro c hc
    cases hc
    rfl
  simp only [symbolText, String.toList_append, List.append_assoc]
  rw [symbol, bind_eq (expect_append _ _), bind_eq (takeWhile_append h (hstop _)),
    bind_eq (expect_append _ _), bind_eq (reads_word id _), bind_eq (expect_append _ _),
    String.ofList_toList]
  rfl

/-- Takes an identifier. -/
def identifier : Reader String := do
  let name ← takeWhile isIdentifierChar
  return String.ofList name

theorem reads_identifier {name : String} (h : ∀ c ∈ name.toList, isIdentifierChar c) :
    identifier.Reads name name := by
  intro rest hstop
  rw [identifier, bind_eq (takeWhile_append h hstop), String.ofList_toList]
  rfl

end Reader

/-- The kind with the given name. -/
def ElementKind.ofLabel? (label : String) : Option ElementKind :=
  [stop, alt, ruleRef, char, charNot, rangeUpper, charAlt].find? (·.label = label)

@[simp] theorem ElementKind.ofLabel?_label (k : ElementKind) : ofLabel? k.label = some k := by
  cases k <;> decide

namespace Reader

/-- Takes an element. -/
def element : Reader Element := do
  expect ":: gbnf :: Element :: new (:: gbnf :: ElementKind :: "
  let label ← identifier
  expect " , "
  let value ← word
  expect ")"
  match ElementKind.ofLabel? label with
  | none => failure
  | some kind => return ⟨kind, value⟩

theorem reads_element (e : Element) : element.Reads e.text e := by
  intro rest _
  have hlabel : ∀ c ∈ e.kind.label.toList, isIdentifierChar c := by
    rw [← List.all_eq_true]
    cases e.kind <;> decide
  have hstop (more : List Char) : Stops (" , ".toList ++ more) := stops_append rfl rfl more
  unfold element Element.text
  -- what the opening text is does not matter
  generalize ":: gbnf :: Element :: new (:: gbnf :: ElementKind :: " = opening
  simp only [String.toList_append, List.append_assoc]
  rw [bind_eq (expect_append _ _), bind_eq (reads_identifier hlabel _ (hstop _)),
    bind_eq (expect_append _ _), bind_eq (reads_word e.value _), bind_eq (expect_append _ _),
    ElementKind.ofLabel?_label]
  rfl

theorem head?_elementText (e : Element) : e.text.toList.head? = some ':' := by
  have hopening :
      ":: gbnf :: Element :: new (:: gbnf :: ElementKind :: ".toList.head? = some ':' := by decide
  unfold Element.text
  generalize ":: gbnf :: Element :: new (:: gbnf :: ElementKind :: " = opening at hopening ⊢
  simp only [String.toList_append, List.head?_append, hopening, Option.some_or]

/-- Takes a body. -/
def body : Reader Body := do
  expect "& ["
  list element "]"

theorem reads_body (es : Body) : body.Reads (bodyText es) es := by
  intro rest _
  have hclose : "]".toList.head? = some ']' := rfl
  have hopen : ∀ e ∈ es, ∃ c, e.text.toList.head? = some c ∧ c ≠ ']' :=
    fun e _ => ⟨':', head?_elementText e, by decide⟩
  have helements : list element "]"
      ((separated (es.map Element.text)).toList ++ ("]".toList ++ rest)) = some (es, rest) :=
    list_separated (fun e _ => reads_element e) hclose hopen rest
  simp only [bodyText, String.toList_append, List.append_assoc]
  rw [body, bind_eq (expect_append _ _), helements]

/-- Takes the parameters of a type, if there are any. -/
def parameters : Reader (List String) := fun text =>
  match Text.after? " < ".toList text with
  | none => some ([], text)
  | some rest => (do let names ← entries identifier; expect " >"; return names) rest

end Reader

/-- The name of a type and its parameters are made of the characters of identifiers. -/
structure TypeHead.IsPlain (h : TypeHead) : Prop where
  name : ∀ c ∈ h.name.toList, isIdentifierChar c
  parameters : ∀ name ∈ h.parameters, ∀ c ∈ name.toList, isIdentifierChar c

namespace Reader

theorem reads_parameters {h : TypeHead} (hplain : h.IsPlain) {rest : List Char}
    (hrest : Text.after? " < ".toList rest = none) :
    parameters (h.parameterText.toList ++ rest) = some (h.parameters, rest) := by
  obtain ⟨name, names⟩ := h
  cases names with
  | nil =>
    have hnil : (TypeHead.parameterText ⟨name, []⟩).toList = [] := rfl
    rw [hnil, List.nil_append, parameters, hrest]
  | cons p ps =>
    have hread : ∀ p' ∈ p :: ps, identifier.Reads (id p') p' :=
      fun p' hp' => reads_identifier (hplain.parameters p' hp')
    have hstop : Stops (" >".toList ++ rest) := stops_append rfl rfl rest
    have hnext : Text.after? " , ".toList (" >".toList ++ rest) = none := rfl
    have hentries := entries_separated hread (List.cons_ne_nil p ps) hstop hnext
    have htext : (TypeHead.parameterText ⟨name, p :: ps⟩).toList ++ rest =
        " < ".toList ++ ((separated (List.map id (p :: ps))).toList ++ (" >".toList ++ rest)) := by
      simp [TypeHead.parameterText]
    rw [htext, parameters, Text.after?_eq_some_iff.2 rfl]
    exact (bind_eq hentries).trans (bind_eq (expect_append _ rest))

/-- Takes an implementation: the type that it is for, and its tables. -/
def implementation : Reader (TypeHead × StaticTables) := do
  expect "impl"
  let names ← parameters
  expect " :: gbnf :: StaticGrammar for "
  let name ← identifier
  let head : TypeHead := ⟨name, names⟩
  expect head.parameterText
  expect " \x7b const SYMBOLS : & 'static [(& 'static str , :: gbnf :: RuleId)] = & ["
  let symbols ← list symbol
    "] ; const RULES : & 'static [& 'static [:: gbnf :: Element]] = & ["
  let rules ← list body "] ; \x7d"
  return (head, ⟨symbols.toArray, rules.toArray⟩)

theorem stops_parameterText (h : TypeHead) {rest : List Char} (hrest : Stops rest) :
    Stops (h.parameterText.toList ++ rest) := by
  obtain ⟨name, names⟩ := h
  cases names with
  | nil => exact hrest
  | cons p ps =>
    intro c hc
    simp only [TypeHead.parameterText, List.isEmpty_cons, Bool.false_eq_true, if_false,
      String.toList_append, List.head?_append] at hc
    cases hc
    rfl

theorem head?_symbolText (entry : String × RuleId) :
    (symbolText entry).toList.head? = some '(' := by
  simp only [symbolText, String.toList_append, List.head?_append]
  rfl

theorem head?_bodyText (es : Body) : (bodyText es).toList.head? = some '&' := by
  simp only [bodyText, String.toList_append, List.head?_append]
  rfl

theorem list_symbolText {t : SymbolTable} (hwords : ∀ name ∈ t.names, IsWord name) {close : String}
    (hclose : close.toList.head? = some ']') (rest : List Char) :
    list symbol close ((separated (t.sorted.map symbolText)).toList ++ (close.toList ++ rest)) =
      some (t.sorted, rest) := by
  refine list_separated (fun entry hentry => ?_) hclose
    (fun entry _ => ⟨'(', head?_symbolText entry, by decide⟩) rest
  have hmem : entry.1 ∈ t.names := by
    rw [← t.map_fst_entries]
    exact List.mem_map_of_mem (f := Prod.fst) (t.sorted_perm.mem_iff.1 hentry)
  exact reads_symbol (hwords entry.1 hmem).isWordChar_of_mem entry.2

theorem list_bodyText (bodies : List Body) {close : String} (hclose : close.toList.head? = some ']')
    (rest : List Char) :
    list body close ((separated (bodies.map bodyText)).toList ++ (close.toList ++ rest)) =
      some (bodies, rest) :=
  list_separated (fun es _ => reads_body es) hclose
    (fun es _ => ⟨'&', head?_bodyText es, by decide⟩) rest

theorem reads_implementation {g : Grammar} {head : TypeHead} (hplain : head.IsPlain)
    (hwords : ∀ name ∈ g.symbols.names, IsWord name) :
    implementation.Reads (g.implementationText head) (head, .ofGrammar g) := by
  intro rest _
  -- of the constant parts, only the first characters matter
  have htrait (more : List Char) :
      Text.after? " < ".toList (" :: gbnf :: StaticGrammar for ".toList ++ more) = none := rfl
  have hsymbols (more : List Char) :
      Stops (" \x7b const SYMBOLS : & 'static [(& 'static str , :: gbnf :: RuleId)] = & [".toList ++
        more) := stops_append rfl rfl more
  have hrules : "] ; const RULES : & 'static [& 'static [:: gbnf :: Element]] = & [".toList.head? =
      some ']' := rfl
  have hend : "] ; \x7d".toList.head? = some ']' := rfl
  unfold implementation Grammar.implementationText
  generalize " :: gbnf :: StaticGrammar for " = trait at htrait ⊢
  generalize " \x7b const SYMBOLS : & 'static [(& 'static str , :: gbnf :: RuleId)] = & [" = symbols
    at hsymbols ⊢
  generalize "] ; const RULES : & 'static [& 'static [:: gbnf :: Element]] = & [" = rules
    at hrules ⊢
  generalize "] ; \x7d" = ending at hend ⊢
  simp only [String.toList_append, List.append_assoc]
  rw [bind_eq (expect_append _ _), bind_eq (reads_parameters hplain (htrait _)),
    bind_eq (expect_append _ _),
    bind_eq (reads_identifier hplain.name _ (stops_parameterText _ (hsymbols _))),
    bind_eq (expect_append _ _), bind_eq (expect_append _ _),
    bind_eq (list_symbolText hwords hrules _), bind_eq (list_bodyText _ hend _)]
  rfl

end Reader

/-- Reads the text of an implementation. -/
def readImplementation? (code : String) : Option (TypeHead × StaticTables) :=
  match Reader.implementation code.toList with
  | some (result, []) => some result
  | _ => none

/-- **The text of an implementation is read back**, as the type that it is for and the static tables
of the grammar. -/
theorem readImplementation?_implementationText {g : Grammar} {head : TypeHead}
    (hplain : head.IsPlain) (hwords : ∀ name ∈ g.symbols.names, IsWord name) :
    readImplementation? (g.implementationText head) = some (head, .ofGrammar g) := by
  have hread : Reader.implementation (g.implementationText head).toList =
      some ((head, .ofGrammar g), []) := by
    rw [← List.append_nil (g.implementationText head).toList]
    exact Reader.reads_implementation hplain hwords [] nofun
  rw [readImplementation?, hread]

end EbnfTables
