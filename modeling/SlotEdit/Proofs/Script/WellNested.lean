import SlotEdit.Script.Tree
import SlotEdit.Proofs.Results
import SlotEdit.Proofs.Syntax.Readings

/-!
# Proofs/Script/WellNested — Python trees are well nested

A construct stands on what its concrete tree stands on: its children are inside it, those that only
group others give way to theirs in the same place, and a dropped name leaves the others in order.
The parts of a decorated definition follow its decorators since none of these stands behind it
(`DecoratorsFirst`).  All this is said of any concrete tree that is nested as it should be.

A `Regular` construct is put together as the grammar does it: it is no comment, names and constants have
no children, the name of a definition or keyword argument comes first, and what is decorated is a
definition behind its decorators.  `LaidOut` adds this to `Laid`; a reader that lays its trees this way gives none that plays a
part already.
-/

namespace SlotEdit

/-- The forms of constants. -/
def PythonForm.isConstant : PythonForm → Bool
  | .string _ | .number _ | .boolean _ | .none => true
  | _ => false

namespace Script

/-- **No decorator stands behind the definition.** -/
def DecoratorsFirst (t : GrammarTree) : Prop :=
  t.construct = "decorated_definition" →
    ∀ c ∈ t.children.dropWhile fun c => c.role != "definition", c.construct ≠ "decorator"

instance (t : GrammarTree) : Decidable (DecoratorsFirst t) :=
  inferInstanceAs (Decidable (_ → ∀ c ∈ _, _))

variable {source : String} {levels : Nat} {a b : Nat}

/-- Nodes inside a span do not widen it. -/
theorem covering_eq {span : Span} {ns : List Node} (h : Span.InOrder span.start span.stop (ns.map Node.span)) :
    covering span ns = span := by
  have hmem : ∀ n ∈ ns, span.start ≤ n.span.start ∧ n.span.stop ≤ span.stop := fun n hn =>
    ⟨(h.mem (List.mem_map_of_mem hn)).1, (h.mem (List.mem_map_of_mem hn)).2.2⟩
  clear h
  induction ns with
  | nil => rfl
  | cons n ns ih =>
    rw [List.forall_mem_cons] at hmem
    have hjoin : span.join n.span = span := by
      rw [Span.join, Nat.min_eq_left hmem.1.1, Nat.max_eq_left hmem.1.2]
    rw [covering, List.foldl_cons, hjoin]
    exact ih hmem.2

/-- A node over nodes in order is well nested and stands on its span. -/
theorem wellNested_covering (form : Form) (span : Span) {ns : List Node}
    (horder : Span.InOrder span.start span.stop (ns.map Node.span)) (hns : ∀ n ∈ ns, n.WellNested) :
    (Node.mk form (covering span ns) ns).WellNested ∧ (Node.mk form (covering span ns) ns).span = span := by
  rw [covering_eq horder]
  exact ⟨Node.wellNested_mk.mpr ⟨horder, hns⟩, rfl⟩

/-! ## Children that are kept -/

namespace Kept

/-- **The children that have nodes.** -/
def among (kept : Kept) : List GrammarTree → List GrammarTree
  | [] => []
  | t :: rest => if kept.keeps t then t :: (kept.behind t).among rest else (kept.behind t).among rest

theorem among_sublist (kept : Kept) (ts : List GrammarTree) : (kept.among ts).Sublist ts := by
  induction ts generalizing kept with
  | nil => exact List.Sublist.refl _
  | cons t ts ih =>
    rw [among]
    split
    · exact (ih _).cons_cons t
    · exact (ih _).cons t

theorem behind_of_ne {kept : Kept} (h : kept ≠ .allButName) (t : GrammarTree) : kept.behind t = kept :=
  if_neg fun hname => h hname.1

/-- Only where a name is left out it matters what stands in front of a child. -/
theorem among_eq_filter {kept : Kept} (h : kept ≠ .allButName) (ts : List GrammarTree) :
    kept.among ts = ts.filter kept.keeps := by
  induction ts with
  | nil => rfl
  | cons t ts ih => rw [among, behind_of_ne h, ih, List.filter_cons]

end Kept

/-! ## What a construct is made of -/

/-- The nodes a construct stands for: those of its children if it only groups them. -/
def groupOf [Interpreter] (source : String) (levels : Nat) (t : GrammarTree) : Except TreeFault (List Node) :=
  if !givesWay t.construct then (nodeOf source levels t).map fun n => [n]
  else if levels = 0 then .error .tooDeep
  else nodesOf source (levels - 1) .all t.children

theorem nodesOf_cons [Interpreter] (source : String) (levels : Nat) (kept : Kept) (t : GrammarTree)
    (ts : List GrammarTree) :
    nodesOf source levels kept (t :: ts) =
      (if kept.keeps t then groupOf source levels t else pure []) >>= fun first =>
        nodesOf source levels (kept.behind t) ts >>= fun more => pure (first ++ more) := by
  obtain ⟨construct, named, role, span, children⟩ := t
  rw [nodesOf]
  cases kept.keeps (.node construct named role span children) <;> rfl

/-- The constructs whose node has no children, whatever they hold. -/
def isConstant (construct : String) : Bool :=
  ["string", "concatenated_string", "integer", "float", "true", "false", "none"].contains construct

/-- **What a construct is made of**: a constant makes a node without children, a decorated definition
takes the form of the definition, and every other node is over those of its children. -/
theorem nodeOf_cases [Interpreter] {construct role : String} {named : Bool} {span : Span} {children : List GrammarTree}
    {n : Node}
    (h : nodeOf source levels (.node construct named role span children) = .ok n) :
    (isConstant construct = true ∧ ∃ form : PythonForm, form.isConstant = true ∧ n = .mk (.python form) span []) ∨
    (construct = "decorated_definition" ∧ ∃ levels form s parts decorators,
      definitionOf source levels span.start children = .ok (.mk form s parts) ∧
      nodesOf source levels .decorators children = .ok decorators ∧
      n = .mk form (covering span (decorators ++ parts)) (decorators ++ parts)) ∨
    (isConstant construct = false ∧ construct ≠ "decorated_definition" ∧ ∃ levels parts,
      nodesOf source levels (.ofConstruct construct) children = .ok parts ∧
      n = .mk (.python (formOf construct (nameText source (.node construct named role span children))))
        (covering span parts) parts) := by
  have hleaf {form : PythonForm} (hconstruct : isConstant construct = true) (hform : form.isConstant = true)
      (h : (.ok (.mk (.python form) span []) : Except TreeFault Node) = .ok n) :
      isConstant construct = true ∧ ∃ form : PythonForm, form.isConstant = true ∧ n = .mk (.python form) span [] :=
    ⟨hconstruct, form, hform, (Except.ok.inj h).symm⟩
  have hliteral {f : Value → PythonForm} {value? : Except TreeFault Value} (hconstruct : isConstant construct = true)
      (hform : ∀ value, (f value).isConstant = true)
      (h : (value?.bind fun value => .ok (.mk (.python (f value)) span [])) = .ok n) :
      isConstant construct = true ∧ ∃ form : PythonForm, form.isConstant = true ∧ n = .mk (.python form) span [] := by
    obtain ⟨value, -, h⟩ := bind_eq_ok.mp h
    exact hleaf hconstruct (hform value) h
  rw [nodeOf] at h
  dsimp only at h
  split at h
  · cases h
  · split at h
    · split at h
      · exact .inl (hleaf rfl rfl h)
      · exact .inl (hliteral rfl (fun _ => rfl) h)
    · split at h
      · exact .inl (hleaf rfl rfl h)
      · exact .inl (hliteral rfl (fun _ => rfl) h)
    · exact .inl (hliteral rfl (fun _ => rfl) h)
    · exact .inl (hliteral rfl (fun _ => rfl) h)
    · exact .inl (hleaf rfl rfl h)
    · exact .inl (hleaf rfl rfl h)
    · exact .inl (hleaf rfl rfl h)
    · obtain ⟨⟨form, s, parts⟩, hdefinition, h⟩ := bind_eq_ok.mp h
      obtain ⟨decorators, hdecorators, h⟩ := bind_eq_ok.mp h
      exact .inr (.inl ⟨rfl, _, form, s, parts, decorators, hdefinition, hdecorators, (Except.ok.inj h).symm⟩)
    · obtain ⟨parts, hparts, h⟩ := bind_eq_ok.mp h
      refine .inr (.inr ⟨?_, ‹_›, _, parts, hparts, (Except.ok.inj h).symm⟩)
      simp only [isConstant, List.contains_cons, List.contains_nil, Bool.or_false, Bool.or_eq_false_iff, beq_eq_false_iff_ne]
      exact ⟨‹_›, ‹_›, ‹_›, ‹_›, ‹_›, ‹_›, ‹_›⟩

/-! ## Places -/

/-- **A construct whose node stands where it does**, and the nodes it stands for in its place. -/
structure KeepsPlace [Interpreter] (source : String) (t : GrammarTree) : Prop where
  node : ∀ ⦃levels n⦄, nodeOf source levels t = .ok n → n.WellNested ∧ n.span = t.span
  group : ∀ ⦃levels ns⦄, groupOf source levels t = .ok ns →
    Span.InOrder t.span.start t.span.stop (ns.map Node.span) ∧ ∀ n ∈ ns, n.WellNested

/-- **The nodes of the children that are kept** are in order where those are. -/
theorem inOrder_nodesOf [Interpreter] {kept : Kept} {ts : List GrammarTree} {ns : List Node}
    (horder : Span.InOrder a b ((kept.among ts).map GrammarTree.span))
    (hts : ∀ t ∈ ts, KeepsPlace source t) (h : nodesOf source levels kept ts = .ok ns) :
    Span.InOrder a b (ns.map Node.span) ∧ ∀ n ∈ ns, n.WellNested := by
  induction ts generalizing a ns kept with
  | nil =>
    rw [nodesOf] at h
    obtain rfl := Except.ok.inj h
    exact ⟨horder, by simp⟩
  | cons t ts ih =>
    rw [List.forall_mem_cons] at hts
    rw [nodesOf_cons] at h
    rw [Kept.among] at horder
    obtain ⟨first, hfirst, h⟩ := bind_eq_ok.mp h
    obtain ⟨more, hmore, h⟩ := bind_eq_ok.mp h
    obtain rfl := pure_eq_ok.mp h
    split at hfirst
    · next hkept =>
      rw [if_pos hkept] at horder
      obtain ⟨hinside, hnested⟩ := hts.1.group hfirst
      obtain ⟨hbehind, hmoreNested⟩ := ih horder.2.2 hts.2 hmore
      rw [List.map_append]
      exact ⟨(hinside.append hbehind).widen horder.1 (Nat.le_refl b), List.forall_mem_append.mpr ⟨hnested, hmoreNested⟩⟩
    · next hleft =>
      rw [if_neg hleft] at horder
      obtain rfl := pure_eq_ok.mp hfirst
      exact ih horder hts.2 hmore

/-- The definition of a decorated one is the first child with that part. -/
theorem exists_of_definitionOf [Interpreter] {offset : Nat} {ts : List GrammarTree} {n : Node}
    (h : definitionOf source levels offset ts = .ok n) : ∃ d behind,
      ts.dropWhile (fun c => c.role != "definition") = d :: behind ∧ nodeOf source levels d = .ok n := by
  induction ts with
  | nil =>
    rw [definitionOf] at h
    cases h
  | cons t ts ih =>
    rw [definitionOf] at h
    split at h
    · next hrole =>
      refine ⟨t, ts, List.dropWhile_cons_of_neg ?_, h⟩
      simpa using hrole
    · next hrole =>
      obtain ⟨d, behind, hdrop, hnode⟩ := ih h
      refine ⟨d, behind, ?_, hnode⟩
      rw [List.dropWhile_cons_of_pos (by simpa using hrole), hdrop]

section

variable {construct role : String} {named : Bool} {span : Span} {children : List GrammarTree} {n : Node}

/-- The parts of a decorated definition are its decorators and then those of the definition. -/
theorem wellNested_decorated [Interpreter] {form : Form} {s : Span} {decorators parts : List Node} {offset : Nat}
    (horder : Span.InOrder span.start span.stop (children.map GrammarTree.span))
    (hfirst : ∀ c ∈ children.dropWhile fun c => c.role != "definition", c.construct ≠ "decorator")
    (hchildren : ∀ t ∈ children, KeepsPlace source t)
    (hdefinition : definitionOf source levels offset children = .ok (.mk form s parts))
    (hdecorators : nodesOf source levels .decorators children = .ok decorators) :
    Span.InOrder span.start span.stop ((decorators ++ parts).map Node.span) ∧
      ∀ n ∈ decorators ++ parts, n.WellNested := by
  obtain ⟨d, behind, hdrop, hnode⟩ := exists_of_definitionOf hdefinition
  rw [hdrop] at hfirst
  have hsplit := List.takeWhile_append_dropWhile (p := fun c => c.role != "definition") (l := children)
  rw [hdrop] at hsplit
  generalize children.takeWhile (fun c => c.role != "definition") = front at hsplit
  subst hsplit
  obtain ⟨hnested, rfl⟩ := (hchildren d (List.mem_append_right _ List.mem_cons_self)).node hnode
  rw [List.map_append] at horder
  obtain ⟨hfront, -, hbehind⟩ := horder.of_append
  -- what is kept stands in front of the definition
  have hnone : (d :: behind).filter Kept.decorators.keeps = [] := List.filter_eq_nil_iff.mpr fun c hc hkeeps => by
    rw [Kept.keeps, Bool.and_eq_true] at hkeeps
    exact hfirst c hc (eq_of_beq hkeeps.2)
  have hkept : Kept.among .decorators (front ++ d :: behind) = Kept.among .decorators front := by
    rw [Kept.among_eq_filter (by decide), Kept.among_eq_filter (by decide), List.filter_append, hnone, List.append_nil]
  obtain ⟨hinside, hall⟩ :=
    inOrder_nodesOf (hkept ▸ hfront.sublist ((Kept.among_sublist _ front).map _)) hchildren hdecorators
  obtain ⟨hparts, hpartsNested⟩ := Node.wellNested_mk.mp hnested
  refine ⟨?_, List.forall_mem_append.mpr ⟨hall, hpartsNested⟩⟩
  rw [List.map_append]
  exact (hinside.append hparts).widen (Nat.le_refl _) hbehind.le

theorem wellNested_nodeOf [Interpreter] (horder : Span.InOrder span.start span.stop (children.map GrammarTree.span))
    (hfirst : DecoratorsFirst (.node construct named role span children))
    (hchildren : ∀ t ∈ children, KeepsPlace source t)
    (h : nodeOf source levels (.node construct named role span children) = .ok n) :
    n.WellNested ∧ n.span = span := by
  rcases nodeOf_cases h with ⟨-, form, -, rfl⟩ |
    ⟨hdecorated, levels, form, s, parts, decorators, hdefinition, hdecorators, rfl⟩ | ⟨-, -, levels, parts, hparts, rfl⟩
  · exact ⟨Node.wellNested_leaf horder.le, rfl⟩
  · obtain ⟨hinside, hnested⟩ := wellNested_decorated horder (hfirst hdecorated) hchildren hdefinition hdecorators
    exact wellNested_covering _ _ hinside hnested
  · obtain ⟨hinside, hnested⟩ := inOrder_nodesOf (horder.sublist ((Kept.among_sublist _ children).map _)) hchildren hparts
    exact wellNested_covering _ _ hinside hnested

/-- A construct that only groups others stands for theirs, in its place. -/
theorem inOrder_groupOf [Interpreter] {ns : List Node}
    (horder : Span.InOrder span.start span.stop (children.map GrammarTree.span))
    (hfirst : DecoratorsFirst (.node construct named role span children))
    (hchildren : ∀ t ∈ children, KeepsPlace source t)
    (h : groupOf source levels (.node construct named role span children) = .ok ns) :
    Span.InOrder span.start span.stop (ns.map Node.span) ∧ ∀ n ∈ ns, n.WellNested := by
  rw [groupOf] at h
  split at h
  · obtain ⟨n, hn, rfl⟩ := map_eq_ok.mp h
    obtain ⟨hnested, hspan⟩ := wellNested_nodeOf horder hfirst hchildren hn
    refine ⟨?_, List.forall_mem_singleton.mpr hnested⟩
    rw [List.map_singleton, hspan]
    exact Span.inOrder_singleton (Nat.le_refl _) horder.le (Nat.le_refl _)
  · split at h
    · cases h
    · exact inOrder_nodesOf (horder.sublist ((Kept.among_sublist _ children).map _)) hchildren h

end

/-- **Every construct keeps its place** in a tree whose constructs are well nested. -/
theorem keepsPlace [Interpreter] {t : GrammarTree} (ht : t.WellNested DecoratorsFirst) : KeepsPlace source t := by
  induction t using GrammarTree.induct with
  | node construct named role span children ih =>
    obtain ⟨⟨horder, hfirst⟩, hnested⟩ := GrammarTree.wellNested_node.mp ht
    have hchildren : ∀ t ∈ children, KeepsPlace source t := fun t hmem => ih t hmem (hnested t hmem)
    exact ⟨fun _ _ => wellNested_nodeOf horder hfirst hchildren, fun _ _ => inOrder_groupOf horder hfirst hchildren⟩

/-- **The tree of a concrete tree is well nested** when that is, inside the text. -/
theorem wellNested_ofGrammar [Interpreter] {text : String} {raw : GrammarTree} {root : Node}
    (hraw : raw.WellNested DecoratorsFirst)
    (hstop : raw.span.stop ≤ text.length) (h : ofGrammar text raw = .ok root) :
    root.WellNested ∧ root.span.stop ≤ text.length := by
  obtain ⟨parts, hparts, h⟩ := bind_eq_ok.mp h
  obtain rfl := pure_eq_ok.mp h
  obtain ⟨hinside, hnested⟩ := inOrder_nodesOf (hraw.inOrder.sublist ((Kept.among_sublist _ _).map _))
    (fun _ ht => keepsPlace (hraw.of_mem_children ht)) hparts
  have hwhole : Span.InOrder 0 text.length (parts.map Node.span) := hinside.widen (Nat.zero_le _) hstop
  obtain ⟨hroot, hspan⟩ := wellNested_covering (.python .module) ⟨0, text.length⟩ hwhole hnested
  exact ⟨hroot, (congrArg Span.stop hspan).le⟩

/-! ## What the constructs of a text are put together of -/

section

/-- The constructs without children. -/
def isBare (construct : String) : Bool := ["identifier", "integer", "float", "true", "false", "none"].contains construct

/-- The constructs that any children may have, whatever parts those play. -/
def isOpen (construct : String) : Bool :=
  !(isBare construct || isNamedConstruct construct || construct == "decorated_definition" || isSkipped construct)

/-- The constructs that may have no children. -/
def standsAlone (construct : String) : Bool :=
  !(isNamedConstruct construct || construct == "decorated_definition" || isSkipped construct)

/-- A construct with a name is none of those without children or a node, and not what is decorated. -/
theorem standsApart_of_isNamedConstruct {construct : String} (h : isNamedConstruct construct = true) :
    isBare construct = false ∧ isSkipped construct = false ∧ construct ≠ "decorated_definition" := by
  rw [isNamedConstruct, List.contains_iff_mem] at h
  simp only [List.mem_cons, List.not_mem_nil, or_false] at h
  rcases h with rfl | rfl | rfl <;> decide

theorem isOpen_eq_false_of_isNamedConstruct {construct : String} (h : isNamedConstruct construct = true) :
    isOpen construct = false := by
  rw [isOpen, h, Bool.or_true, Bool.true_or, Bool.true_or, Bool.not_true]

/-- **A construct put together as the grammar does it.** -/
structure Regular (t : GrammarTree) : Prop where
  named : t.isNamed = true
  spoken : isSkipped t.construct = false
  bare : isBare t.construct = true → t.children = []
  name : isNamedConstruct t.construct = true → ∃ name rest, t.children = name :: rest ∧
    name.role = "name" ∧ name.construct = "identifier" ∧ ∀ c ∈ rest, c.role = ""
  decorated : t.construct = "decorated_definition" → ∃ front definition, t.children = front ++ [definition] ∧
    definition.role = "definition" ∧ isNamedConstruct definition.construct = true ∧
      ∀ c ∈ front, c.role = "" ∧ c.construct = "decorator"
  others : isOpen t.construct = true → ∀ c ∈ t.children, c.role = ""

namespace Regular

variable {t : GrammarTree} {construct role : String} {span : Span} {ts : List GrammarTree}

theorem of_isOpen (h : isOpen construct = true) (hts : ∀ t ∈ ts, t.role = "") :
    Regular (.node construct true role span ts) := by
  simp only [isOpen, Bool.not_eq_true', Bool.or_eq_false_iff, beq_eq_false_iff_ne] at h
  obtain ⟨⟨⟨hbare, hname⟩, hdecorated⟩, hspoken⟩ := h
  exact ⟨rfl, hspoken, fun h => absurd h (Bool.eq_false_iff.mp hbare), fun h => absurd h (Bool.eq_false_iff.mp hname),
    fun h => absurd h hdecorated, fun _ => hts⟩

theorem of_standsAlone (h : standsAlone construct = true) : Regular (.node construct true role span []) := by
  simp only [standsAlone, Bool.not_eq_true', Bool.or_eq_false_iff, beq_eq_false_iff_ne] at h
  obtain ⟨⟨hname, hdecorated⟩, hspoken⟩ := h
  exact ⟨rfl, hspoken, fun _ => rfl, fun h => absurd h (Bool.eq_false_iff.mp hname), fun h => absurd h hdecorated, nofun⟩

/-- The part that a construct plays does not matter. -/
theorem withRole (h : Regular t) (role : String) : Regular (t.withRole role) := by
  obtain ⟨construct, named, role', span, ts⟩ := t
  exact ⟨h.named, h.spoken, h.bare, h.name, h.decorated, h.others⟩

/-- The definition is the last of what is decorated. -/
theorem decoratorsFirst (h : Regular t) : DecoratorsFirst t := by
  intro hdecorated c hc
  obtain ⟨front, definition, hchildren, hrole, hname, hfront⟩ := h.decorated hdecorated
  rw [hchildren, List.dropWhile_append_of_pos fun c hc => by rw [(hfront c hc).1]; rfl,
    List.dropWhile_cons_of_neg (by rw [hrole]; decide), List.mem_singleton] at hc
  rintro hdecorator
  rw [← hc, hdecorator] at hname
  exact absurd hname (by decide)

end Regular

/-- **Regular constructs laid between two cursors**, none of which plays a part yet. -/
structure LaidOut (c : Cursor) (ts : List GrammarTree) (c' : Cursor) : Prop extends Laid Regular c ts c' where
  role : ∀ t ∈ ts, t.role = ""

namespace LaidOut

variable {a b c : Cursor} {t : GrammarTree} {ts us : List GrammarTree}

theorem nil (h : a.Reaches b) : LaidOut a [] b := ⟨.nil h, nofun⟩

theorem append (ht : LaidOut a ts b) (hu : LaidOut b us c) : LaidOut a (ts ++ us) c :=
  ⟨ht.toLaid.append hu.toLaid, List.forall_mem_append.mpr ⟨ht.role, hu.role⟩⟩

theorem cons (ht : LaidOut a [t] b) (hu : LaidOut b us c) : LaidOut a (t :: us) c := ht.append hu

/-- What is laid out behind a cursor is laid out behind every cursor before that one. -/
theorem behind (h : a.Reaches b) (ht : LaidOut b ts c) : LaidOut a ts c := (nil h).append ht

theorem upTo (ht : LaidOut a ts b) (h : b.Reaches c) : LaidOut a ts c := List.append_nil ts ▸ ht.append (nil h)

/-- Some of the trees are laid out as well. -/
theorem sublist (ht : LaidOut a ts b) (hsub : us.Sublist ts) : LaidOut a us b :=
  ⟨ht.toLaid.sublist hsub, fun u hu => ht.role u (hsub.subset hu)⟩

end LaidOut

/-- A node over all that is laid. -/
theorem laid_nodeOver {a b : Cursor} {ts : List GrammarTree} {construct : String} (h : Laid Regular a ts b)
    (hshape : Regular (nodeOver construct a b ts)) : LaidOut a [nodeOver construct a b ts] b :=
  ⟨h.node hshape, by simp [nodeOver, GrammarTree.named, GrammarTree.role]⟩

end

end Script

end SlotEdit
