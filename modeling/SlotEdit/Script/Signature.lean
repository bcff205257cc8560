import SlotEdit.Script.Target

/-!
# Script/Signature — parameters and their types

`typeReader` reads a type: an expression, or a name with type arguments in brackets, perhaps with
alternatives or a bound behind it.  `parameterList` reads the parameters of a function, with types
where those may stand.
-/

namespace SlotEdit.Script

/-- Reads an expression at a place. -/
abbrev ExpressionReader := Place → Cursor → Reading

/-! ## Types -/

/-- Types in brackets, with commas between them, and the cursor behind the bracket.  Each turn
reads a type. -/
def typeArguments (typeReader : ExpressionReader) (p : Place) (turns : Nat) (c : Cursor) :
    Option (List GrammarTree × Cursor) := do
  let (first, after) ← typeReader p.bracketed c
  let next ← onward? p.bracketed after
  match mark? "]" next, turns with
  | some last, _ => pure ([first], last)
  | none, 0 => none
  | none, turns + 1 =>
    let behind ← mark? "," next
    let start ← operandAt? p true behind
    match mark? "]" start with
    | some last => pure ([first], last)
    | none => do
      let (more, last) ← typeArguments typeReader p turns start
      pure (first :: more, last)

/-- Type parameters in brackets, the cursor being at the opening one. -/
def typeParameter (typeReader : ExpressionReader) (p : Place) : Cursor → Reading := fun c => do
  let inside ← mark? "[" c
  let start ← operandAt? p false inside
  let (types, last) ← typeArguments typeReader p start.rest.length start
  pure (nodeOver "type_parameter" c last types, last)

/-- What a type is made of: starred names, a name with type arguments, or an expression. -/
def typeContent (expression typeReader : ExpressionReader) (p : Place) (c : Cursor) : Reading :=
  match (mark? "**" c).or (mark? "*" c) with
  | some behind => do
    let (name, last) ← (operandAt? p false behind).bind identifier?
    pure (nodeOver "splat_type" c last [name], last)
  | none =>
    let arguments : Option (GrammarTree × GrammarTree × Cursor) := do
      let (name, after) ← identifier? c
      let bracket ← onward? p after
      let (parameter, last) ← typeParameter typeReader p bracket
      pure (name, parameter, last)
    let generic? := (identifier? c).bind fun (_, after) =>
      (onward? p after).bind fun next => mark? "[" next
    match generic?, arguments with
    | some _, some (name, parameter, last) =>
      some (nodeOver "generic_type" c last [name, parameter], last)
    | some _, none => none
    | none, _ => expression p c

/-- The way a type goes on: alternatives, a member, or a bound where one may stand.  Each turn
reads a type or a name. -/
def typeRest (typeReader : ExpressionReader) (bounded : Bool) (p : Place) (turns : Nat)
    (first : Cursor) (type : GrammarTree) (after : Cursor) : Reading :=
  match turns, onward? p after with
  | turns + 1, some next =>
    let wrapped (construct : String) (right : GrammarTree) (last : Cursor) : Reading :=
      let joined := nodeOver construct first last [type, right]
      typeRest typeReader bounded p turns first (nodeOver "type" first last [joined]) last
    if next.startsWith "|" then do
      let (right, last) ← (operandAt? p false (next.drop 1)).bind (typeReader p)
      wrapped "union_type" right last
    else if next.startsWith "." then do
      let (name, last) ← (onward? p.inner (next.drop 1)).bind identifier?
      wrapped "member_type" name last
    else if bounded && (colon? next).isSome then
      match (operandAt? p false (next.drop 1)).bind (typeReader p) with
      | some (right, last) => wrapped "constrained_type" right last
      | none => some (type, after)
    else some (type, after)
  | _, _ => some (type, after)

/-- **A type**, wrapped in a node of its own.  Each turn reads a type in a type. -/
def typeReaderFrom (expression : ExpressionReader) (bounded : Bool) (turns : Nat) (p : Place)
    (c : Cursor) : Reading :=
  match turns with
  | 0 => none
  | turns + 1 => do
    let (content, after) ← typeContent expression (typeReaderFrom expression true turns) p c
    typeRest (typeReaderFrom expression false turns) bounded p after.rest.length c
      (nodeOver "type" c after [content]) after

/-- A type, with a bound behind it only if `bounded`. -/
def typeReader (expression : ExpressionReader) (bounded : Bool) : ExpressionReader := fun p c =>
  typeReaderFrom expression bounded (c.rest.length + 1) p c

/-! ## Parameters -/

/-- A value behind an equals sign. -/
def defaultValue? (expression : ExpressionReader) (p : Place) (after : Cursor) : Reading := do
  let behind ← (onward? p after).bind equals?
  (operandAt? p false behind).bind (expression p)

/-- A parameter without a star in front, with its type if types may stand here. -/
def plainParameter (expression : ExpressionReader) (typed : Bool) (p : Place) (c : Cursor)
    (name : GrammarTree) (after : Cursor) : Reading :=
  let type? : Reading :=
    if typed && name.construct == "identifier" then do
      let behind ← (onward? p after).bind (mark? ":")
      (operandAt? p false behind).bind (typeReader expression true p)
    else none
  match type? with
  | some (type, afterType) =>
    match defaultValue? expression p afterType with
    | some (value, last) =>
      some (nodeOver "typed_default_parameter" c last [name, type, value], last)
    | none => some (nodeOver "typed_parameter" c afterType [name, type], afterType)
  | none =>
    match defaultValue? expression p after with
    | some (value, last) => some (nodeOver "default_parameter" c last [name, value], last)
    | none => some (name, after)

/-- A parameter behind a star or two. -/
def starredParameter (expression : ExpressionReader) (typed : Bool) (p : Place) (c : Cursor)
    (pattern : String) (stars : Nat) : Reading := do
  let (name, after) ← (onward? p.inner (c.drop stars)).bind identifier?
  let starred := nodeOver pattern c after [name]
  let type? : Reading :=
    if typed then do
      let behind ← (onward? p after).bind (mark? ":")
      (operandAt? p false behind).bind (typeReader expression true p)
    else none
  match type? with
  | some (type, last) => some (nodeOver "typed_parameter" c last [starred, type], last)
  | none => some (starred, after)

/-- A parameter. -/
def parameter (expression : ExpressionReader) (typed : Bool) (p : Place) (c : Cursor) : Reading :=
  if c.startsWith "**" then starredParameter expression typed p c "dictionary_splat_pattern" 2
  else if c.startsWith "*" then
    (starredParameter expression typed p c "list_splat_pattern" 1).or
      (some (nodeOver "keyword_separator" c (c.drop 1) [], c.drop 1))
  else if c.startsWith "/" then
    some (nodeOver "positional_separator" c (c.drop 1) [], c.drop 1)
  else if c.startsWith "(" then do
    let (tuple, after) ← expression { p.inner with close := p.close } c
    let target ← targetOf? tuple
    plainParameter expression typed p c target after
  else do
    let (name, after) ← identifier? c
    plainParameter expression typed p c name after

/-- Parameters with commas between them, and perhaps one behind the last.  Each turn reads a
parameter. -/
def parameterList (expression : ExpressionReader) (typed : Bool) (p : Place) (turns : Nat)
    (c : Cursor) : Option (List GrammarTree × Cursor) := do
  let (first, after) ← parameter expression typed p c
  match turns, (onward? p after).bind (mark? ",") with
  | turns + 1, some behind =>
    match (onward? p behind).bind (parameterList expression typed p turns) with
    | some (more, last) => pure (first :: more, last)
    | none => pure ([first], behind)
  | _, _ => pure ([first], after)

end SlotEdit.Script
