import SlotEdit.Interpreter
import SlotEdit.Yaml.Layout

/-!
# Yaml/Node — documents as trees

`Node.ofTokens?` makes a tree of the tokens of a text, which hold one document at most.  Handles in
tags are replaced by what the directives say they stand for, and aliases by the node they name, unless
that is a collection around the alias: inside it, `again` stands for it.
-/

namespace SlotEdit.Yaml

variable [Interpreter]

/-- A node with its tag; a scalar without one has the tag its text asks for, a collection that of
its kind. -/
inductive Node
  | scalar (tag : Option String) (text : LooseText)
  | sequence (tag name : Option String) (items : List Node)
  | mapping (tag name : Option String) (entries : List (Node × Node))
  | again (name : String)
deriving Repr, Inhabited

/-- What the tags of the standard types start with. -/
def standardPrefix : String := "tag:yaml.org,2002:"

/-- The tag of a text. -/
def textTag : String := standardPrefix ++ "str"

namespace Node

/-- A node of which nothing is written. -/
def empty : Node := .scalar none ""

/-- The tokens that are left, the nodes that have been given a name, and the names of the collections
around. -/
structure Source where
  tokens : List Token
  named : List (String × Node)
  around : List String

/-- What reading a part of a document gives. -/
abbrev Reader (α : Type) := Source → Except Fault (α × Source)

/-- Where a node stands: between brackets, in a block, or as key or value of a block mapping, where
the items of a sequence need not be indented. -/
inductive Setting
  | flow
  | block
  | entry
deriving DecidableEq

/-- What is written in front of a node. -/
structure Marks where
  anchor : Option String
  tag : Option TagName

/-- The source behind its next token. -/
def Source.next (s : Source) : Source := { s with tokens := s.tokens.drop 1 }

/-- The next token is one of some. -/
def Source.at (s : Source) (expected : List Token) : Bool :=
  (s.tokens.head?.map expected.contains).getD false

/-! ## Collections -/

/-- A node, unless one of the tokens that follow its place comes at once. -/
def orEmpty (node : Reader Node) (ends : List Token) : Reader Node := fun s =>
  if s.at ends then .ok (empty, s) else node s

/-- A value behind its colon, or nothing. -/
def valueOf (node : Reader Node) (ends : List Token) : Reader Node := fun s =>
  if s.at [.value] then orEmpty node ends s.next else .ok (empty, s)

/-- The items of a block sequence, over its end.  Each turn reads a token. -/
def blockItems (node : Reader Node) (turns : Nat) (s : Source) :
    Except Fault (List Node × Source) :=
  match turns, s.tokens with
  | turns + 1, .entry :: _ => do
    let (item, after) ← orEmpty node [.entry, .blockEnd] s.next
    let (more, last) ← blockItems node turns after
    pure (item :: more, last)
  | _, .blockEnd :: _ => .ok ([], s.next)
  | _, _ => invalid .unexpectedToken

/-- The items of a sequence that is indented no further than the key in front of it.  Each turn
reads a token. -/
def looseItems (node : Reader Node) (turns : Nat) (s : Source) :
    Except Fault (List Node × Source) :=
  match turns, s.tokens with
  | turns + 1, .entry :: _ => do
    let (item, after) ← orEmpty node [.entry, .key, .value, .blockEnd] s.next
    let (more, last) ← looseItems node turns after
    pure (item :: more, last)
  | _, _ => .ok ([], s)

/-- The entries of a block mapping, over its end.  Each turn reads a token. -/
def blockEntries (node : Reader Node) (turns : Nat) (s : Source) :
    Except Fault (List (Node × Node) × Source) :=
  match turns, s.tokens with
  | turns + 1, .key :: _ => do
    let (key, after) ← orEmpty node [.key, .value, .blockEnd] s.next
    let (value, after) ← valueOf node [.key, .value, .blockEnd] after
    let (more, last) ← blockEntries node turns after
    pure ((key, value) :: more, last)
  | _, .blockEnd :: _ => .ok ([], s.next)
  | _, _ => invalid .unexpectedToken

/-- The comma in front of every part of a flow but the first; none is needed at its end. -/
def flowComma (closing : Token) (first : Bool) (s : Source) : Except Fault Source :=
  if first || s.at [closing] then .ok s
  else if s.at [.comma] then .ok s.next
  else invalid .unexpectedToken

/-- The items of a flow sequence, over its end; a pair stands for a mapping of one entry.  Each
turn reads a token. -/
def flowItems (node : Reader Node) (first : Bool) (turns : Nat) (s : Source) :
    Except Fault (List Node × Source) :=
  match turns with
  | 0 => invalid .unexpectedToken
  | turns + 1 => do
    let s ← flowComma .flowSequenceEnd first s
    if s.at [.flowSequenceEnd] then return ([], s.next)
    let (item, after) ←
      if s.at [.key] then do
        let (key, after) ← orEmpty node [.value, .comma, .flowSequenceEnd] s.next
        let (value, after) ← valueOf node [.comma, .flowSequenceEnd] after
        pure (Node.mapping none none [(key, value)], after)
      else node s
    let (more, last) ← flowItems node false turns after
    pure (item :: more, last)

/-- The entries of a flow mapping, over its end; a node alone is a key without a value.  Each turn
reads a token. -/
def flowEntries (node : Reader Node) (first : Bool) (turns : Nat) (s : Source) :
    Except Fault (List (Node × Node) × Source) :=
  match turns with
  | 0 => invalid .unexpectedToken
  | turns + 1 => do
    let s ← flowComma .flowMappingEnd first s
    if s.at [.flowMappingEnd] then return ([], s.next)
    let (entry, after) ←
      if s.at [.key] then do
        let (key, after) ← orEmpty node [.value, .comma, .flowMappingEnd] s.next
        let (value, after) ← valueOf node [.comma, .flowMappingEnd] after
        pure ((key, value), after)
      else do
        let (key, after) ← node s
        pure ((key, empty), after)
    let (more, last) ← flowEntries node false turns after
    pure (entry :: more, last)

/-! ## Nodes -/

/-- The anchor and the tag in front of a node, in either order. -/
def marks (s : Source) : Marks × Source :=
  match s.tokens with
  | .anchor name :: .tag tag :: _ => (⟨some name, some tag⟩, s.next.next)
  | .tag tag :: .anchor name :: _ => (⟨some name, some tag⟩, s.next.next)
  | .anchor name :: _ => (⟨some name, none⟩, s.next)
  | .tag tag :: _ => (⟨none, some tag⟩, s.next)
  | _ => (⟨none, none⟩, s)

/-- The full tag a written one stands for; a lone exclamation mark asks for none. -/
def fullTag (handles : List (String × String)) (tag : Option TagName) :
    Except Fault (Option String) :=
  match tag with
  | none => .ok none
  | some ⟨none, rest⟩ => .ok (if rest = "!" then none else some rest)
  | some ⟨some handle, rest⟩ =>
    match handles.lookup handle with
    | some target => .ok (if target ++ rest = "!" then none else some (target ++ rest))
    | none => invalid (.undefinedHandle handle)

/-- The tag of a scalar: a text that is not plain is a text, if no tag is written. -/
def scalarTag (written : Bool) (tag : Option String) (plain : Bool) : Option String :=
  if !written && !plain then some textTag else tag

/-- What stands behind the marks of a node. -/
def content (node : Setting → Reader Node) (setting : Setting) (marked written : Bool)
    (tag name : Option String) : Reader Node := fun s =>
  let turns := s.tokens.length + 1
  let blocks := setting ≠ .flow
  match s.tokens with
  | .scalar plain text :: _ => .ok (.scalar (scalarTag written tag plain) text, s.next)
  | .flowSequence :: _ => do
    let (items, after) ← flowItems (node .flow) true turns s.next
    pure (.sequence tag name items, after)
  | .flowMapping :: _ => do
    let (entries, after) ← flowEntries (node .flow) true turns s.next
    pure (.mapping tag name entries, after)
  | t :: _ =>
    if t = .entry ∧ setting = .entry then do
      let (items, after) ← looseItems (node .block) turns s
      pure (.sequence tag name items, after)
    else if t = .blockSequence ∧ blocks then do
      let (items, after) ← blockItems (node .block) turns s.next
      pure (.sequence tag name items, after)
    else if t = .blockMapping ∧ blocks then do
      let (entries, after) ← blockEntries (node .entry) turns s.next
      pure (.mapping tag name entries, after)
    else if marked then .ok (.scalar tag "", s)
    else invalid .unexpectedToken
  | [] => if marked then .ok (.scalar tag "", s) else invalid .unexpectedToken

/-- The source in which a node has a name; no two nodes have the same. -/
def Source.define (name : String) (n : Node) (s : Source) : Except Fault Source :=
  if (s.named.lookup name).isSome then invalid (.repeatedAnchor name)
  else .ok { s with named := (name, n) :: s.named }

mutual
/-- A node with others in place of the names that are not those of collections around. -/
def replaced (other : List String → String → Node) (around : List String) : Node → Node
  | .scalar tag text => .scalar tag text
  | .sequence tag name items => .sequence tag name (replacedItems other (name.toList ++ around) items)
  | .mapping tag name entries =>
    .mapping tag name (replacedEntries other (name.toList ++ around) entries)
  | .again name => if around.contains name then .again name else other around name

/-- Each of some nodes with others in place of names. -/
def replacedItems (other : List String → String → Node) (around : List String) : List Node → List Node
  | [] => []
  | n :: rest => replaced other around n :: replacedItems other around rest

/-- The entries of a mapping with other nodes in place of names. -/
def replacedEntries (other : List String → String → Node) (around : List String) :
    List (Node × Node) → List (Node × Node)
  | [] => []
  | (k, v) :: rest =>
    (replaced other around k, replaced other around v) :: replacedEntries other around rest
end

/-- **A named node as it stands inside other collections**: what it holds of collections that are no
longer around is put in place.  Each turn goes further out. -/
def placed (named : List (String × Node)) : Nat → List String → Node → Node
  | 0 => fun _ n => n
  | turns + 1 => replaced fun around name =>
    ((named.lookup name).map (placed named turns around)).getD (.again name)

/-- The node an alias names. -/
def aliased (name : String) : Reader Node := fun s =>
  match s.named.lookup name with
  | some n => .ok (placed s.named (s.named.length + 1) s.around n, s.next)
  | none => if s.around.contains name then .ok (.again name, s.next) else invalid (.undefinedAlias name)

/-- A node with its marks, or the one an alias names; `node` reads the nodes inside it. -/
def readWith (handles : List (String × String)) (node : Setting → Reader Node)
    (setting : Setting) : Reader Node := fun s =>
  match s.tokens with
  | .alias name :: _ => aliased name s
  | _ => do
    let (m, after) := marks s
    let tag ← fullTag handles m.tag
    let inside := { after with around := m.anchor.toList ++ s.around }
    let (n, last) ← content node setting (m.anchor.isSome || m.tag.isSome) m.tag.isSome tag m.anchor inside
    let last := { last with around := s.around }
    match m.anchor with
    | none => pure (n, last)
    | some name =>
      let last ← last.define name n
      pure (n, last)

/-- **One node**, with others nested at most `depth` deep in it. -/
def read (handles : List (String × String)) : Nat → Setting → Reader Node
  | 0 => fun _ _ => .error .tooDeep
  | depth + 1 => readWith handles (read handles depth)

/-! ## Documents -/

/-- How deep nodes may nest. -/
def nestingLimit : Nat := Interpreter.yamlLevels

/-- The handles every document knows, behind those its directives define. -/
def standardHandles : List (String × String) := [("!", "!"), ("!!", standardPrefix)]

/-- The directives in front of a document: the handles they define, and the tokens behind them. -/
def directives (versionSeen : Bool) (handles : List (String × String)) :
    List Token → Except Fault (List (String × String) × List Token)
  | .directive (.version major) :: rest =>
    if versionSeen then invalid .repeatedDirective
    else if major ≠ 1 then invalid .unsupportedVersion
    else directives true handles rest
  | .directive (.handle name target) :: rest =>
    if (handles.lookup name).isSome then invalid .repeatedDirective
    else directives versionSeen ((name, target) :: handles) rest
  | .directive .other :: rest => directives versionSeen handles rest
  | rest => .ok (handles, rest)

/-- Nothing follows a document but marks of its end. -/
def lastDocument (n : Node) (rest : List Token) : Except Fault (Option Node) :=
  if rest.all (· == .documentEnd) then .ok (some n) else invalid .severalDocuments

/-- The document behind its start mark. -/
def explicitDocument (handles : List (String × String)) (tokens : List Token) :
    Except Fault (Option Node) :=
  match tokens with
  | [] => .ok (some empty)
  | .documentEnd :: _ => lastDocument empty tokens
  | .documentStart :: _ => invalid .severalDocuments
  | .directive _ :: _ => invalid .severalDocuments
  | _ => do
    let (n, last) ← read handles nestingLimit .block ⟨tokens, [], []⟩
    lastDocument n last.tokens

/-- **The document of a text's tokens**, if there is one. -/
def ofTokens? (tokens : List Token) : Except Fault (Option Node) := do
  let (handles, rest) ← directives false [] tokens
  let handles := handles ++ standardHandles
  match rest with
  | .documentStart :: rest => explicitDocument handles rest
  | _ =>
    if tokens.isEmpty then pure none
    else if rest.length < tokens.length then invalid .unexpectedToken
    else
      let (n, last) ← read handles nestingLimit .block ⟨tokens, [], []⟩
      lastDocument n last.tokens

end Node

end SlotEdit.Yaml
