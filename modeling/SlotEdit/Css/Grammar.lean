import SlotEdit.Css.Extent

/-!
# Css/Grammar — the concrete syntax of style sheets

`grammarTree?` reads a text as a sequence of rules, at-rules and declarations.  Selectors, values
and queries are leaves; rules, blocks and declarations keep all their pieces, comments included.
`none` means the text does not fit.
-/

namespace SlotEdit.Css.Grammar

/-- Some nodes and the cursor behind them, if they fit here. -/
abbrev Piece := Cursor → Option (List GrammarTree × Cursor)

/-- A named leaf over an extent. -/
def leaf (construct : String) (extent : Extent) : Piece := fun c =>
  (extent c).map fun after => ([.named construct ⟨c.offset, after.offset⟩ []], after)

/-- One expected character as a token. -/
def mark (expected : Char) : Piece := fun c =>
  (char? expected c).map fun after =>
    ([.token (String.singleton expected) ⟨c.offset, after.offset⟩], after)

/-- One piece after another, with the comments between them. -/
def andThen (first second : Piece) : Piece := fun c => do
  let (a, middle) ← first c
  let (comments, next) := extras middle
  let (b, after) ← second next
  some (a ++ comments ++ b, after)

/-- As `andThen`, where the second piece is a value. -/
def andThenValue (first second : Piece) : Piece := fun c => do
  let (a, middle) ← first c
  let (comments, next) := valueExtras middle
  let (b, after) ← second next
  some (a ++ comments ++ b, after)

/-- The first of two pieces that fits. -/
def orElse (first second : Piece) : Piece := fun c => (first c).or (second c)

/-- A piece as the children of one node. -/
def wrapped (construct : String) (piece : Piece) : Piece := fun c =>
  (piece c).map fun (children, after) =>
    ([.named construct ⟨c.offset, after.offset⟩ children], after)

/-- The readers of a text of some size. -/
structure Readers where
  value : Extent
  selector : Extent
  query : Extent

/-- The readers that nest as deep as a text of `size` characters can. -/
def Readers.ofSize (size : Nat) : Readers :=
  let value := atom (size + 1)
  let one := Css.selector value (size + 1)
  ⟨value, one, Css.query value one (size + 1)⟩

/-! ## Declarations -/

/-- The comments up to a colon that opens a declaration's value, and the cursor at that colon.
A colon that opens a pseudo-class or joins a descendant is none.  Each turn passes a comment. -/
def declarationColon? (turns : Nat) (c : Cursor) : Option (List GrammarTree × Cursor) :=
  let next := c.skipWhile isAsciiBlank
  let blank := next.offset ≠ c.offset
  match next.rest with
  | ':' :: rest =>
    if rest.head? = some ':' then none
    else if blank then if startsDescendant next.rest then none else some ([], next)
    else if opensPseudoClass rest then none
    else some ([], next)
  | _ =>
    match turns, comment? next with
    | turns + 1, some (comment, after) =>
      (declarationColon? turns after).map fun (more, colon) => (comment :: more, colon)
    | _, _ => none

/-- Values behind a value, with single commas between some.  Each turn reads a value. -/
def moreValues (value : Extent) (turns : Nat) (c : Cursor) : Option (List GrammarTree × Cursor) :=
  match turns with
  | 0 => some ([], c)
  | turns + 1 =>
    let (comments, next) := valueExtras c
    let item (before : List GrammarTree) (c : Cursor) : Option (List GrammarTree × Cursor) := do
      let (v, after) ← leaf "plain_value" value c
      let (more, last) ← moreValues value turns after
      some (before ++ v ++ more, last)
    match mark ',' next with
    | some (comma, after) =>
      let (comments', start) := valueExtras after
      item (comments ++ comma ++ comments') start
    | none =>
      if (value next).isSome then item comments next
      else
        match operator? next with
        | some after =>
          let (comments', start) := valueExtras after
          item (comments ++ [.token "operator" ⟨next.offset, after.offset⟩] ++ comments') start
        | none => some ([], c)

/-- **A declaration**: a property name, a colon, values, and a semicolon, which only the last
declaration of a block may lack. -/
def declaration (value : Extent) (inBlock : Bool) : Piece := fun c => do
  let (name, afterName) ← leaf "property_name" ident? c
  let (before, atColon) ← declarationColon? afterName.rest.length afterName
  let (colon, afterColon) ← mark ':' atColon
  let (behind, start) := valueExtras afterColon
  let (first, afterFirst) ← leaf "plain_value" value start
  let (more, last) ← moreValues value afterFirst.rest.length afterFirst
  let children := name ++ before ++ colon ++ behind ++ first ++ more
  let (comments, next) := extras last
  let node (children : List GrammarTree) (after : Cursor) :=
    ([GrammarTree.named "declaration" ⟨c.offset, after.offset⟩ children], after)
  match mark ';' next with
  | some (semicolon, after) => some (node (children ++ comments ++ semicolon) after)
  | none => if inBlock && next.peek? == some '}' then some (node children last) else none

/-- A declaration starts here: an identifier and a colon that opens a value. -/
def startsDeclaration (c : Cursor) : Bool :=
  match ident? c with
  | some after => (declarationColon? after.rest.length after).isSome
  | none => false

/-! ## Rules -/

/-- A rule: selectors and a block. -/
def ruleSet (readers : Readers) (block : Piece) : Piece :=
  wrapped "rule_set" (andThen (leaf "selectors" (selectors readers.selector)) block)

/-- Queries with commas between them.  Each turn reads a query. -/
def queries (query : Extent) (turns : Nat) : Piece := fun c =>
  match turns with
  | 0 => none
  | turns + 1 => do
    let (first, after) ← leaf "query" query c
    let (comments, next) := extras after
    match mark ',' next with
    | some _ =>
      let (more, last) ← andThen (mark ',') (queries query turns) next
      some (first ++ comments ++ more, last)
    | none => some (first, after)

/-- Queries, if any, before another piece. -/
def queriesThen (query : Extent) (piece : Piece) : Piece := fun c =>
  match query c with
  | some _ => andThen (queries query (c.rest.length + 1)) piece c
  | none => piece c

/-- One selector of a keyframe: `from`, `to` or a whole percentage. -/
def keyframeSelector : Extent := fun c =>
  ((keyword? "from" c).or (keyword? "to" c)).or <|
    (taken? c (integerLength c.rest)).map fun after => after.drop (unitLength after.rest)

/-- Selectors of a keyframe before its block.  Each turn reads a selector. -/
def keyframeHead (block : Piece) (turns : Nat) : Piece := fun c =>
  match turns with
  | 0 => none
  | turns + 1 =>
    andThen (leaf "integer_value" keyframeSelector)
      (orElse block (andThen (mark ',') (keyframeHead block turns))) c

/-- Items up to and over a closing brace, with the comments between them.  Each turn reads an
item. -/
def itemsUntilBrace (item : Piece) (turns : Nat) (c : Cursor) :
    Option (List GrammarTree × Cursor) :=
  let (comments, next) := extras c
  match mark '}' next with
  | some (brace, after) => some (comments ++ brace, after)
  | none =>
    match turns with
    | 0 => none
    | turns + 1 => do
      let (node, after) ← item next
      let (more, last) ← itemsUntilBrace item turns after
      some (comments ++ node ++ more, last)

/-- Items in braces. -/
def braced (construct : String) (item : Piece) : Piece :=
  wrapped construct fun c => do
    let (brace, inside) ← mark '{' c
    let (items, after) ← itemsUntilBrace item inside.rest.length inside
    some (brace ++ items, after)

/-- The limits of a scope before its block. -/
def scopeHead (one : Extent) (block : Piece) : Piece :=
  let limit (piece : Piece) : Piece :=
    andThen (mark '(') (andThen (leaf "selectors" (selectors one)) (andThen (mark ')') piece))
  let lower : Piece := orElse (andThen (leaf "to" (keyword? "to")) (limit block)) block
  orElse (limit lower) lower

/-- The name of vendor forms of keyframes: lower-case letters and hyphens before the word. -/
def isKeyframesKeyword (keyword : String) : Bool :=
  let body := keyword.toList.drop 1
  let lead := body.take (body.length - 9)
  keyword == "@keyframes" ||
    (body.drop (body.length - 9) == "keyframes".toList && !lead.isEmpty
      && lead.all fun c => c == '-' || ('a' ≤ c ∧ c ≤ 'z'))

/-- The target of a namespace: a string or a call. -/
def namespaceTarget (value : Extent) : Extent := fun c =>
  match c.peek? with
  | some q => if q = '"' ∨ q = '\'' ∨ (c.drop (identLength c.rest)).peek? = some '(' then
      value c else none
  | none => none

/-- The keyword of an at-rule, `n` characters long, as a token. -/
def atKeyword (n : Nat) : Piece := fun c =>
  some ([.token (String.ofList (c.rest.take n)) ⟨c.offset, c.offset + n⟩], c.drop n)

/-- The pieces of an at-rule behind its keyword. -/
def atRuleBody (readers : Readers) (block : Piece) (keyword : String) : Piece :=
  let value := leaf "value" (single readers.value)
  match keyword with
  | "@import" => andThen value (queriesThen readers.query (mark ';'))
  | "@charset" => andThen value (mark ';')
  | "@namespace" =>
    let target := leaf "value" (namespaceTarget readers.value)
    andThen (orElse target (andThenValue (leaf "namespace_name" ident?) target)) (mark ';')
  | "@media" => fun c => andThen (queries readers.query (c.rest.length + 1)) block c
  | "@supports" => andThen (leaf "query" readers.query) block
  | "@scope" => scopeHead readers.selector block
  | _ =>
    if isKeyframesKeyword keyword then
      andThen (leaf "keyframes_name" ident?)
        (braced "keyframe_block_list" fun c =>
          wrapped "keyframe_block" (keyframeHead block (c.rest.length + 1)) c)
    else queriesThen readers.query (orElse (mark ';') block)

/-- **An at-rule**: its keyword, its prelude, and a block or a semicolon. -/
def atRule (readers : Readers) (block : Piece) : Piece := fun c =>
  let n := atKeywordLength c.rest
  if n = 0 then none
  else
    let keyword := String.ofList (c.rest.take n)
    let body := atRuleBody readers block keyword
    let whole := if keyword ∈ ["@import", "@charset"] then andThenValue (atKeyword n) body
      else andThen (atKeyword n) body
    wrapped "at_rule" whole c

/-- A declaration, an at-rule or a rule. -/
def item (readers : Readers) (block : Piece) (inBlock : Bool) : Piece := fun c =>
  if c.peek? = some '@' then atRule readers block c
  else if startsDeclaration c then declaration readers.value inBlock c
  else ruleSet readers block c

/-- **A block**, with blocks nested at most `depth` deep. -/
def block (readers : Readers) (depth : Nat) : Piece := fun c =>
  match depth with
  | 0 => none
  | depth + 1 => braced "block" (item readers (block readers depth) true) c

/-- Items up to the end of the text, with the comments between them.  Each turn reads an item. -/
def itemsUntilEnd (piece : Piece) (turns : Nat) (c : Cursor) : Option (List GrammarTree) :=
  let (comments, next) := extras c
  if next.atEnd then some comments
  else
    match turns with
    | 0 => none
    | turns + 1 => do
      let (node, after) ← piece next
      let more ← itemsUntilEnd piece turns after
      some (comments ++ node ++ more)

/-- **The concrete syntax tree of a style sheet.** -/
def grammarTree? (text : String) : Option GrammarTree :=
  let c := (Cursor.ofText text).skipMark
  let size := c.rest.length
  let readers := Readers.ofSize size
  (itemsUntilEnd (item readers (block readers (size + 1)) false) (size + 1) c).map fun children =>
    .named "stylesheet" ⟨0, c.offset + size⟩ children

end SlotEdit.Css.Grammar
