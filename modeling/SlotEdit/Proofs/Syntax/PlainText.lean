import Mathlib.Data.List.TakeWhile
import SlotEdit.Language
import SlotEdit.Proofs.Syntax.WellNested

/-!
# Proofs/Syntax/PlainText — the lines of a plain text are its rows

The parser of plain texts cuts a text at its line feeds and adds up the lengths of the lines; a line table looks for
the line feeds and searches their offsets.  Both find the same lines (`starts_lineNodes`, `stops_lineNodes`), so the
row of an offset names the one line that the offset stands on (`lines_and_rows_agree`).
-/

namespace SlotEdit

namespace PlainText

variable {s : List Char} {lines : List (List Char)} {index offset : Nat}

/-! ## The lines put a text together -/

/-- The lines are what splitting at the line feeds gives. -/
theorem linesOf_eq_splitOn (s : List Char) : linesOf s = s.splitOn '\n' := by
  induction s with
  | nil => rfl
  | cons c rest ih =>
    rw [linesOf, ih, List.splitOn_cons_eq_if_modifyHead]
    by_cases hc : c = '\n'
    · rw [if_pos hc, if_pos (beq_iff_eq.mpr hc)]
    · rw [if_neg hc, if_neg (by simpa using hc)]
      cases hlines : rest.splitOn '\n' with
      | nil => exact absurd hlines (List.splitOn_ne_nil '\n' rest)
      | cons line lines => rfl

theorem linesOf_ne_nil (s : List Char) : linesOf s ≠ [] :=
  linesOf_eq_splitOn s ▸ List.splitOn_ne_nil '\n' s

theorem intercalate_linesOf (s : List Char) : ['\n'].intercalate (linesOf s) = s := by
  rw [linesOf_eq_splitOn, List.intercalate_splitOn]

/-- No line holds a line feed. -/
theorem notMem_of_mem_linesOf {line : List Char} (h : line ∈ linesOf s) : '\n' ∉ line := by
  induction s generalizing line with
  | nil => rw [linesOf, List.mem_singleton] at h; exact h ▸ List.not_mem_nil
  | cons c rest ih =>
    rw [linesOf] at h
    split at h
    · exact (List.mem_cons.mp h).elim (fun h => h ▸ List.not_mem_nil) ih
    · next hc =>
      have hfirst {front : List Char} (hfront : '\n' ∉ front) : '\n' ∉ c :: front := fun hmem =>
        (List.mem_cons.mp hmem).elim (fun h => hc h.symm) hfront
      cases hlines : linesOf rest with
      | nil =>
        rw [hlines, List.mem_singleton] at h
        exact h ▸ hfirst List.not_mem_nil
      | cons front more =>
        rw [hlines] at h ih
        rcases List.mem_cons.mp h with rfl | h
        · exact hfirst (ih List.mem_cons_self)
        · exact ih (List.mem_cons_of_mem front h)

/-- **The texts of the nodes are the lines**, whatever stands in front of them. -/
theorem map_sliceList_lineNodes (lines : List (List Char)) (index : Nat) (front : List Char) :
    (lineNodes index front.length lines).map
      (fun n => sliceList (front ++ ['\n'].intercalate lines) n.span.start n.span.stop) = lines := by
  induction lines generalizing index front with
  | nil => rfl
  | cons line lines ih =>
    rw [lineNodes, List.map_cons]
    cases lines with
    | nil =>
      rw [List.intercalate_singleton, ← List.append_nil (front ++ line)]
      exact congrArg (· :: []) (sliceList_append_append front line [])
    | cons next lines =>
      have hwhole : front ++ ['\n'].intercalate (line :: next :: lines) =
          (front ++ line ++ ['\n']) ++ ['\n'].intercalate (next :: lines) := by
        rw [List.intercalate_cons_cons]
        simp only [List.append_assoc]
      have hmore := ih (index + 1) (front ++ line ++ ['\n'])
      rw [List.length_append, List.length_append, List.length_singleton, ← hwhole] at hmore
      refine congrArg₂ List.cons ?_ hmore
      rw [hwhole, List.append_assoc (front ++ line)]
      exact sliceList_append_append front line _

/-! ## The lines start and end where the rows do -/

/-- The nodes start where the lines of the table do. -/
theorem starts_lineNodes (s : List Char) (index offset : Nat) :
    (lineNodes index offset (linesOf s)).map (fun n => n.span.start) = offset :: lineStartsFrom offset s := by
  induction s generalizing index offset with
  | nil => rfl
  | cons c rest ih =>
    rw [linesOf, lineStartsFrom]
    split
    · exact congrArg (offset :: ·) (ih (index + 1) (offset + 1))
    · -- one more character in the first line moves only its end
      have hrest := ih index (offset + 1)
      cases hlines : linesOf rest with
      | nil => exact absurd hlines (linesOf_ne_nil rest)
      | cons line lines =>
        rw [hlines, lineNodes, List.map_cons, Nat.add_right_comm offset 1] at hrest
        exact congrArg (offset :: ·) (List.tail_eq_of_cons_eq hrest)

/-- Every node but the last ends at the line feed in front of the next line, the last at the end of the text. -/
theorem stops_lineNodes (s : List Char) (index offset : Nat) :
    (lineNodes index offset (linesOf s)).map (fun n => n.span.stop) =
      (lineStartsFrom offset s).map (· - 1) ++ [offset + s.length] := by
  induction s generalizing index offset with
  | nil => rfl
  | cons c rest ih =>
    rw [linesOf, lineStartsFrom, List.length_cons, Nat.add_comm rest.length, ← Nat.add_assoc]
    split
    · exact congrArg (offset :: ·) (ih (index + 1) (offset + 1))
    · have hrest := ih index (offset + 1)
      cases hlines : linesOf rest with
      | nil => exact absurd hlines (linesOf_ne_nil rest)
      | cons line lines =>
        rw [hlines, lineNodes, Nat.add_right_comm offset 1] at hrest
        exact hrest

/-- The nodes count the lines. -/
theorem form_lineNodes {i : Nat} {n : Node} (h : (lineNodes index offset lines)[i]? = some n) :
    n.form = .line (index + i) := by
  induction lines generalizing index offset i with
  | nil => exact nomatch h
  | cons line lines ih =>
    cases i with
    | zero => exact Option.some.inj h ▸ rfl
    | succ i =>
      rw [ih h, Nat.add_assoc, Nat.add_comm 1]

end PlainText

/-! ## The row of an offset is that of the line it stands on -/

/-- An offset in a row has that row, and how far behind the start of the row it stands as its column. -/
theorem LineTable.Sound.positionAt_of_row {t : LineTable} (h : t.Sound) {row start o : Nat}
    (hrow : t.starts[row]? = some start) (hstart : start ≤ o) (hend : o ≤ t.lineEnd row) :
    t.positionAt o = ⟨row, (o : Int) - start⟩ := by
  obtain ⟨start', hrow', hstart', hend', hposition⟩ := h.positionAt_spec o
  rw [clamp_of_le (hend.trans (h.lineEnd_le row))] at hrow' hstart' hend' hposition
  -- two rows that hold the offset are one, as a row ends before the next one starts
  obtain rfl : t.rowAt o = row := by
    rcases Nat.lt_trichotomy (t.rowAt o) row with hlt | heq | hlt
    · exact absurd (h.lineEnd_lt_start hlt hrow) (by omega)
    · exact heq
    · exact absurd (h.lineEnd_lt_start hlt hrow') (by omega)
  obtain rfl := Option.some.inj (hrow.symm.trans hrow')
  exact hposition

namespace PlainText

variable {text : String} {n : Node} {i : Nat}

/-- **The lines of a text are the rows of its line table.** -/
theorem getElem?_children_ofText (h : (ofText text).children[i]? = some n) :
    n.form = .line i ∧ (LineTable.ofText text).starts[i]? = some n.span.start ∧
      (LineTable.ofText text).lineEnd i = n.span.stop := by
  refine ⟨Nat.zero_add i ▸ form_lineNodes h, ?_, ?_⟩
  · have hstarts := congrArg (·[i]?) (starts_lineNodes text.toList 0 0)
    exact hstarts.symm.trans ((List.getElem?_map ..).trans (congrArg (Option.map _) h))
  · have hstops := congrArg (Option.map (fun m : Node => m.span.stop)) h
    rw [← List.getElem?_map, show (ofText text).children = lineNodes 0 0 (linesOf text.toList) from rfl,
      stops_lineNodes] at hstops
    rw [LineTable.lineEnd, show (LineTable.ofText text).starts[i + 1]? = (lineStartsFrom 0 text.toList)[i]? from rfl]
    rcases Nat.lt_or_ge i (lineStartsFrom 0 text.toList).length with hlt | hge
    · rw [List.getElem?_append_left ((List.length_map _).symm ▸ hlt), List.getElem?_map] at hstops
      rw [List.getElem?_eq_getElem hlt] at hstops ⊢
      exact Option.some.inj hstops
    · rw [List.getElem?_append_right ((List.length_map _).symm ▸ hge)] at hstops
      rw [List.getElem?_eq_none hge]
      have hlast := List.mem_singleton.mp (List.mem_of_getElem? hstops)
      exact (Nat.zero_add text.toList.length).symm.trans hlast.symm

theorem length_children_ofText (text : String) :
    (ofText text).children.length = (LineTable.ofText text).starts.length :=
  (List.length_map _).symm.trans (congrArg List.length (starts_lineNodes text.toList 0 0))

/-- The end of the text is on the last line. -/
theorem length_children_eq (text : String) :
    ((ofText text).children.length : Int) = ((LineTable.ofText text).positionAt text.length).row + 1 := by
  have hsound : (LineTable.ofText text).Sound := LineTable.sound_ofList _
  have hlength : (LineTable.ofText text).length = text.length := String.length_toList
  have hlast : (LineTable.ofText text).starts.length - 1 < (LineTable.ofText text).starts.length :=
    Nat.sub_lt (Nat.succ_pos _) Nat.one_pos
  have hend : (LineTable.ofText text).lineEnd ((LineTable.ofText text).starts.length - 1) = text.length := by
    rw [LineTable.lineEnd, Nat.sub_add_cancel (Nat.one_le_of_lt hlast), List.getElem?_eq_none (Nat.le_refl _)]
    exact hlength
  rw [hsound.positionAt_of_row (List.getElem?_eq_getElem hlast)
    (hlength ▸ hsound.bounded _ (List.getElem_mem hlast)) hend.ge, length_children_ofText]
  simp only
  omega

/-- A line fills its row. -/
theorem range_of_getElem? (h : (ofText text).children[i]? = some n) :
    (n.range (LineTable.ofText text)).start = ⟨i, 0⟩ ∧
      (n.range (LineTable.ofText text)).stop = ⟨i, (n.text text).length⟩ := by
  have hsound : (LineTable.ofText text).Sound := LineTable.sound_ofList _
  obtain ⟨-, hstart, hend⟩ := getElem?_children_ofText h
  have hle := hsound.start_le_lineEnd hstart
  have hlength : (n.text text).length = n.span.stop - n.span.start := by
    rw [← String.length_toList, Node.text, toList_slice, length_sliceList]
    exact hend ▸ hsound.lineEnd_le i
  have hfirst := hsound.positionAt_of_row hstart (Nat.le_refl _) hle
  have hlast := hsound.positionAt_of_row hstart hle (Nat.le_refl _)
  rw [hend] at hle hlast
  rw [Int.sub_self] at hfirst
  rw [← Int.ofNat_sub hle] at hlast
  have hbetween : (⟨i, 0⟩ : Position) ≤ ⟨i, (n.span.stop - n.span.start : Nat)⟩ := Or.inr ⟨rfl, Int.natCast_nonneg _⟩
  rw [Node.range, LineTable.rangeOf, hfirst, hlast, TextRange.between_of_le hbetween, hlength]
  exact ⟨rfl, rfl⟩

/-- The texts of the nodes are the lines. -/
theorem map_text_children_ofText (text : String) :
    (ofText text).children.map (Node.text text) = (linesOf text.toList).map String.ofList := by
  have hlines := map_sliceList_lineNodes (linesOf text.toList) 0 []
  rw [intercalate_linesOf] at hlines
  rw [← hlines, List.map_map]
  rfl

/-- **The lines of a plain text are the rows of its positions.**  The text has one line for each row up to that of
its end; the `i`-th has the index `i`, fills row `i` from the first column on, and holds no line feed.  Joined by line
feeds the lines are the text, and an offset of the text stands on the line that its row names and on no other. -/
theorem lines_and_rows_agree [Interpreter] (text : String) :
    let nodes := (SyntaxTree.ofText .plainText text).root.children
    let table := LineTable.ofText text
    (nodes.length : Int) = (table.positionAt text.length).row + 1 ∧
    (∀ i (n : Node), nodes[i]? = some n → n.form = .line i ∧ (n.range table).start = ⟨i, 0⟩ ∧
      (n.range table).stop = ⟨i, (n.text text).length⟩ ∧ '\n' ∉ (n.text text).toList) ∧
    "\n".intercalate (nodes.map (Node.text text)) = text ∧
    ∀ o ≤ text.length, ∃ row : Nat, (table.positionAt o).row = row ∧ row < nodes.length ∧
      ∀ i (n : Node), nodes[i]? = some n → (n.span.start ≤ o ∧ o ≤ n.span.stop ↔ i = row) := by
  intro nodes table
  have hsound : table.Sound := LineTable.sound_ofList _
  have hlength : table.length = text.length := String.length_toList
  refine ⟨length_children_eq text, fun i n hn => ?_, ?_, fun o ho => ?_⟩
  · obtain ⟨hstart, hstop⟩ := range_of_getElem? hn
    refine ⟨(getElem?_children_ofText hn).1, hstart, hstop, ?_⟩
    have hmem : n.text text ∈ (linesOf text.toList).map String.ofList :=
      map_text_children_ofText text ▸ List.mem_map_of_mem (List.mem_of_getElem? hn)
    obtain ⟨line, hline, htext⟩ := List.mem_map.mp hmem
    rw [← htext, String.toList_ofList]
    exact notMem_of_mem_linesOf hline
  · have htexts : nodes.map (Node.text text) = (linesOf text.toList).map String.ofList :=
      map_text_children_ofText text
    have hid : String.toList ∘ String.ofList = id := funext fun _ => String.toList_ofList
    rw [htexts, ← String.toList_inj, String.toList_intercalate, List.map_map, hid, List.map_id]
    exact intercalate_linesOf text.toList
  · obtain ⟨start, hrow, hstart, hend, hposition⟩ := hsound.positionAt_spec o
    rw [LineTable.clamp_of_le (ho.trans_eq hlength.symm)] at hrow hstart hend hposition
    refine ⟨table.rowAt o, congrArg Position.row hposition, ?_, fun i n hn => ?_⟩
    · exact (length_children_ofText text).symm ▸ (List.getElem?_eq_some_iff.mp hrow).1
    · obtain ⟨-, hfirst, hlast⟩ := getElem?_children_ofText hn
      constructor
      · rintro ⟨hle, hle'⟩
        have hn := hsound.positionAt_of_row hfirst hle (hlast ▸ hle')
        exact Int.ofNat_inj.mp (congrArg Position.row (hn.symm.trans hposition))
      · rintro rfl
        obtain rfl := Option.some.inj (hfirst.symm.trans hrow)
        exact ⟨hstart, hlast ▸ hend⟩

end PlainText

end SlotEdit
