/-!
# Regex/Term — regular expressions as data

A `Term` is a regular expression with its groups numbered and its counts read.  What a term means
depends on the flags in force, which groups may change for their own body (`Flags.within`).

`width` gives the least and the most characters a term can take; a look-behind needs the two to be
the same.
-/

namespace SlotEdit.Regex

/-- The switches that change what an expression means. -/
inductive Flag
  | ignoreCase
  | multiline
  | dotAll
  | verbose
  | ascii
  | unicode
  | template
deriving DecidableEq, Repr, Inhabited

/-- The switches that choose between the ASCII and the Unicode character classes; one excludes the
other. -/
def Flag.isCharset : Flag → Bool
  | .ascii => true
  | .unicode => true
  | _ => false

/-- A switch that holds for a whole expression or not at all. -/
def Flag.isGlobal : Flag → Bool
  | .template => true
  | _ => false

/-- The switches that are on. -/
abbrev Flags := List Flag

/-- The switches inside a group that turns some on and some off. -/
def Flags.within (flags added removed : Flags) : Flags :=
  let kept := if added.any Flag.isCharset then flags.filter fun f => !f.isCharset else flags
  (kept ++ added).filter fun f => !removed.contains f

/-- The classes of characters with an escape of their own. -/
inductive Category
  | digit
  | blank
  | word
deriving DecidableEq, Repr

/-- A member of a character set. -/
inductive Member
  | code (n : Nat)
  | span (first last : Nat)
  | category (kind : Category) (negated : Bool)
deriving DecidableEq, Repr

/-- The places that take no character. -/
inductive Anchor
  | lineStart
  | lineEnd
  | textStart
  | textEnd
  | wordBoundary
  | noWordBoundary
deriving DecidableEq, Repr

/-- How a repetition goes about its turns: as many as possible first, as few as possible first, or
as many as possible without giving any back. -/
inductive Eagerness
  | greedy
  | lazy
  | possessive
deriving DecidableEq, Repr

/-- **A regular expression.** -/
inductive Term
  | code (n : Nat) (negated : Bool)
  | any
  | oneOf (negated : Bool) (members : List Member)
  | anchor (place : Anchor)
  | sequence (parts : List Term)
  | choice (branches : List Term)
  | group (index : Option Nat) (added removed : Flags) (body : Term)
  | atomic (body : Term)
  | look (behind negated : Bool) (body : Term)
  | backReference (index : Nat)
  | conditional (index : Nat) (present absent : Term)
  | repeated (eagerness : Eagerness) (least : Nat) (most : Option Nat) (body : Term)
deriving Repr, Inhabited

namespace Term

/-- The parts of a sequence; any other term is its own only part. -/
def parts : Term → List Term
  | .sequence ts => ts
  | t => [t]

/-- Groups that neither capture nor change switches are replaced by their parts. -/
def dissolved (ts : List Term) : List Term :=
  ts.flatMap fun t =>
    match t with
    | .group none [] [] body => body.parts
    | t => [t]

/-- The members a one-character branch adds to a set of characters. -/
def members? : Term → Option (List Member)
  | .sequence [.code n false] => some [.code n]
  | .sequence [.oneOf false ms] => some ms
  | _ => none

/-- The branches of a choice; branches of one character each make a set. -/
def ofBranches (branches : List Term) : Term :=
  match branches with
  | [only] => only
  | several =>
    match several.mapM members? with
    | some sets => .oneOf false (sets.flatten.eraseDups)
    | none => .choice several

/-- A set of characters; one of a single character is that character. -/
def ofMembers (negated : Bool) (members : List Member) : Term :=
  match members.eraseDups with
  | [.code n] => .code n negated
  | several => .oneOf negated several

end Term

/-! ## Widths -/

-- Powers are those of the core library, whatever else is in scope.
local instance (priority := 10000) corePow : Pow Nat Nat := instPowNat

/-- The largest width that is told apart. -/
def widthLimit : Nat := 2 ^ (64 : Nat)

/-- A least and a most number of characters. -/
structure Width where
  least : Nat
  most : Nat
deriving DecidableEq, Repr, Inhabited

namespace Width

/-- The width of two terms in a row. -/
def add (a b : Width) : Width := ⟨a.least + b.least, a.most + b.most⟩

/-- The width of either of two terms. -/
def or (a b : Width) : Width := ⟨min a.least b.least, max a.most b.most⟩

/-- Both numbers cut at the limit. -/
def capped (w : Width) : Width := ⟨min w.least widthLimit, min w.most widthLimit⟩

/-- The width of a number of turns. -/
def times (w : Width) (least : Nat) (most : Option Nat) : Width :=
  ⟨w.least * least,
   match most with
   | some n => w.most * n
   | none => if w.most = 0 then 0 else widthLimit⟩

end Width

mutual
/-- **The width of a term**, given the widths of the groups it may refer back to. -/
def width (groups : Nat → Width) : Term → Width
  | .code _ _ => ⟨1, 1⟩
  | .any => ⟨1, 1⟩
  | .oneOf _ _ => ⟨1, 1⟩
  | .anchor _ => ⟨0, 0⟩
  | .sequence ts => (widthOfAll groups ts).capped
  | .choice ts => widthOfAny groups ts
  | .group _ _ _ body => width groups body
  | .atomic body => width groups body
  | .look _ _ _ => ⟨0, 0⟩
  | .backReference index => groups index
  | .conditional _ present absent => (width groups present).or (width groups absent)
  | .repeated _ least most body => (width groups body).times least most

/-- The width of terms in a row. -/
def widthOfAll (groups : Nat → Width) : List Term → Width
  | [] => ⟨0, 0⟩
  | t :: ts => (width groups t).add (widthOfAll groups ts)

/-- The width of whichever of several terms. -/
def widthOfAny (groups : Nat → Width) : List Term → Width
  | [] => ⟨0, 0⟩
  | [t] => width groups t
  | t :: ts => (width groups t).or (widthOfAny groups ts)
end

end SlotEdit.Regex
