import EbnfTables.Proofs.Source.Lexical
import EbnfTables.Source.Definition

/-!
# The grammar of sources

What a source looks like, said without a reader.  Each relation ties a tree to a text and to what
is left of the text behind it.

* `ExprText s depth e text rest`: the text starts with `e`.  Items are separated by the blanks of
  `s`, and `depth` groups may be open inside `e` at a time.  Blanks and names are taken as long as
  possible; a quantifier stands behind an item that gives an element; the alternatives of a group
  have an element or a bar;
* `DefinitionText` adds the name, the sign `::=` and the end of the line;
* `SourceText limit defs text`: the whole text is the row of definitions `defs`.

Nothing is said here about names that are defined twice: that is a matter of the tables.
-/

namespace EbnfTables

/-- `text` starts with the expression `e` and goes on with `rest`. -/
inductive ExprText :
    Spacing → ℕ → {level : Level} → Expr level → List Char → List Char → Prop
  | literal {s : Spacing} {depth : ℕ} {cs text rest : List Char}
      (h : LiteralText cs text rest) : ExprText s depth (.literal cs) ('"' :: text) rest
  | charClass {s : Spacing} {depth : ℕ} {negated : Bool} {ms : List Member}
      {text rest : List Char} (h : ClassText negated ms text rest) :
      ExprText s depth (.charClass negated ms) ('[' :: text) rest
  | ref {s : Spacing} {depth : ℕ} {name : String} {text rest : List Char}
      (h : NameText name text rest) : ExprText s depth (.ref name) text rest
  | group {s : Spacing} {depth : ℕ} {body : Expr .alternatives} {text mid rest : List Char}
      (hskip : Skips .anyLine text mid) (hbody : ExprText .anyLine depth body mid (')' :: rest))
      (hc : body.contributes) : ExprText s (depth + 1) (.group body) ('(' :: text) rest
  | nothing {s : Spacing} {depth : ℕ} {text : List Char} : ExprText s depth .nothing text text
  | snoc {s : Spacing} {depth : ℕ} {front : Expr .sequence} {last : Expr .item}
      {text mid mid' rest : List Char} (hfront : ExprText s depth front text mid)
      (hlast : ExprText s depth last mid mid') (hskip : Skips s mid' rest) :
      ExprText s depth (.snoc front last) text rest
  | quantified {s : Spacing} {depth : ℕ} {front : Expr .sequence} {last : Expr .item}
      {q : Quantifier} {text mid rest : List Char}
      (hfront : ExprText s depth (.snoc front last) text (q.sign :: mid))
      (hc : last.contributes) (hskip : Skips s mid rest) :
      ExprText s depth (.snoc front (.repeated q last)) text rest
  | only {s : Spacing} {depth : ℕ} {sequence : Expr .sequence} {text rest : List Char}
      (h : ExprText s depth sequence text rest) : ExprText s depth (.only sequence) text rest
  | orElse {s : Spacing} {depth : ℕ} {earlier : Expr .alternatives} {last : Expr .sequence}
      {text mid mid' rest : List Char} (hearlier : ExprText s depth earlier text ('|' :: mid))
      (hskip : Skips .anyLine mid mid') (hlast : ExprText s depth last mid' rest) :
      ExprText s depth (.orElse earlier last) text rest

/-- `text` starts with the definition `d`, whose line and the blanks behind it are followed by
`rest`. -/
inductive DefinitionText (limit : ℕ) : Definition → List Char → List Char → Prop
  | intro {name : String} {body : Expr .alternatives} {text mid mark right stop rest : List Char}
      (hname : NameText name text mid) (hmark : Skips .sameLine mid (':' :: ':' :: '=' :: mark))
      (hright : Skips .anyLine mark right) (hbody : ExprText .sameLine limit body right stop)
      (hc : body.contributes) (hend : DefinitionEnd stop rest) :
      DefinitionText limit ⟨name, text, body⟩ text rest

/-- `text` is a row of definitions. -/
inductive DefinitionsText (limit : ℕ) : List Definition → List Char → Prop
  | nil : DefinitionsText limit [] []
  | cons {d : Definition} {ds : List Definition} {text rest : List Char}
      (hd : DefinitionText limit d text rest) (hds : DefinitionsText limit ds rest) :
      DefinitionsText limit (d :: ds) text

/-- `text` is a source: blanks, and at least one definition. -/
structure SourceText (limit : ℕ) (defs : List Definition) (text : List Char) : Prop where
  ne_nil : defs ≠ []
  definitions : ∃ rest, Skips .anyLine text rest ∧ DefinitionsText limit defs rest

end EbnfTables
