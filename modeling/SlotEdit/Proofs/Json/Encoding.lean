import SlotEdit.Proofs.Json.Decoding
import SlotEdit.Proofs.Json.Floats
import SlotEdit.Proofs.Json.Whole

/-!
# Proofs/Json/Encoding — JSON values are read back as they were written

A JSON value is written as the text of a phrase, `Phrase.ofValue` (`encode_eq_ok`), which is a
well-formed one, stands for the value and decodes to it (`value_ofValue`, `decode_encode`); a value
with an integer of too many digits or that nests too deep is refused.  A plain
value, one that may hold floating-point numbers too, is written in the same way; its phrase is
well formed when the grammar has a form for each of them (`shaped_of_strict`).
-/

namespace SlotEdit

/-- **A JSON value**: built from null, booleans, integers, texts, lists and mappings from texts, in
which no key comes twice. -/
inductive Value.IsJson : Value → Prop
  | null : IsJson .null
  | bool (b : Bool) : IsJson (.bool b)
  | int (n : Int) : IsJson (.int n)
  | str (s : String) : IsJson (.str s)
  | list {items : List Value} (h : ∀ v ∈ items, IsJson v) : IsJson (.list items)
  | dict {entries : List (String × Value)} (distinct : (entries.map Prod.fst).Nodup)
      (h : ∀ e ∈ entries, IsJson e.2) : IsJson (.dict (entries.map fun e => (.str e.1, e.2)))

/-- **A plain value**: a JSON value in which floating-point numbers in their form may stand. -/
inductive Value.IsPlain : Value → Prop
  | null : IsPlain .null
  | bool (b : Bool) : IsPlain (.bool b)
  | int (n : Int) : IsPlain (.int n)
  | float {x : Binary64} (h : x.Canonical) : IsPlain (.float x)
  | str (s : String) : IsPlain (.str s)
  | list {items : List Value} (h : ∀ v ∈ items, IsPlain v) : IsPlain (.list items)
  | dict {entries : List (String × Value)} (distinct : (entries.map Prod.fst).Nodup)
      (h : ∀ e ∈ entries, IsPlain e.2) : IsPlain (.dict (entries.map fun e => (.str e.1, e.2)))

mutual
/-- The integers in a value. -/
def Value.integers : Value → List Int
  | .int n => [n]
  | .list items => integersOfItems items
  | .dict entries => integersOfEntries entries
  | _ => []

/-- The integers in some values. -/
def Value.integersOfItems : List Value → List Int
  | [] => []
  | v :: rest => integers v ++ integersOfItems rest

/-- The integers in the values of some entries. -/
def Value.integersOfEntries : List (Value × Value) → List Int
  | [] => []
  | (_, v) :: rest => integers v ++ integersOfEntries rest
end

mutual
/-- The floating-point numbers in a value. -/
def Value.floats : Value → List Binary64
  | .float x => [x]
  | .list items => floatsOfItems items
  | .dict entries => floatsOfEntries entries
  | _ => []

/-- The floating-point numbers in some values. -/
def Value.floatsOfItems : List Value → List Binary64
  | [] => []
  | v :: rest => floats v ++ floatsOfItems rest

/-- The floating-point numbers in the values of some entries. -/
def Value.floatsOfEntries : List (Value × Value) → List Binary64
  | [] => []
  | (_, v) :: rest => floats v ++ floatsOfEntries rest
end

mutual
/-- How deep lists and mappings nest in a value. -/
def Value.depth : Value → Nat
  | .list items => depthOfItems items + 1
  | .dict entries => depthOfEntries entries + 1
  | _ => 0

/-- How deep they nest in some items. -/
def Value.depthOfItems : List Value → Nat
  | [] => 0
  | v :: rest => max v.depth (depthOfItems rest)

/-- How deep they nest in the values of some entries. -/
def Value.depthOfEntries : List (Value × Value) → Nat
  | [] => 0
  | (_, v) :: rest => max v.depth (depthOfEntries rest)
end

/-- No integer of a value has too many digits to be written. -/
def Value.Fits (v : Value) : Prop := ∀ n ∈ v.integers, n.natAbs < 10 ^ digitLimit

/-- **A value that can be written**: its integers can, and it nests at most `levels` deep. -/
def Value.FitsWithin (levels : Nat) (v : Value) : Prop := v.Fits ∧ v.depth ≤ levels

/-- The grammar has a form for each floating-point number of a value. -/
def Value.Strict (v : Value) : Prop := ∀ x ∈ v.floats, Json.Regular x

namespace Json

namespace Phrase

/-- The text a key is. -/
def keyOf : Value → String
  | .str s => s
  | _ => ""

/-- How a floating-point number is written: with digits, or as a word when it has none. -/
def ofFloat (x : Binary64) : Phrase :=
  match x with
  | .finite .. => .number x.chars
  | _ => .word (encodeFloat x)

mutual
/-- **How a value is written**: one blank behind each comma and each colon. -/
def ofValue : Value → Phrase
  | .bool b => .word (if b then "true" else "false")
  | .int n => .number (intText n)
  | .float x => ofFloat x
  | .str s => .string (escaped s)
  | .list items => .group .array (ofItems [] items) []
  | .dict entries => .group .object (ofEntries [] entries) []
  | _ => .word "null"

/-- How the items of a list are written, with some blanks before the first. -/
def ofItems (lead : List Char) : List Value → List (Item Phrase)
  | [] => []
  | v :: rest => ⟨[], lead, ofValue v⟩ :: ofItems [' '] rest

/-- How the entries of a mapping are written, with some blanks before the first. -/
def ofEntries (lead : List Char) : List (Value × Value) → List (Item Phrase)
  | [] => []
  | (k, v) :: rest =>
    ⟨[], lead, .member (escaped (keyOf k)) [] [' '] (ofValue v)⟩ :: ofEntries [' '] rest
end

theorem isMember_ofFloat (x : Binary64) : (ofFloat x).isMember = false := by
  cases x <;> rfl

theorem height_ofFloat (x : Binary64) : (ofFloat x).height = 0 := by
  cases x <;> rfl

theorem render_ofFloat (x : Binary64) : String.ofList (ofFloat x).render = encodeFloat x := by
  cases x with
  | finite negative m e => rfl
  | infinite negative => exact String.ofList_toList
  | nan => exact String.ofList_toList

theorem ofFloat_of_regular {x : Binary64} (h : Regular x) : ofFloat x = .number x.chars := by
  obtain ⟨⟨negative, m, e, rfl⟩, -⟩ := h
  rfl

/-- Phrases in a list with one blank between comma and phrase. -/
def spaced (lead : List Char) : List Phrase → List (Item Phrase)
  | [] => []
  | p :: rest => ⟨[], lead, p⟩ :: spaced [' '] rest

/-- How an entry is written. -/
def ofEntry (e : Value × Value) : Phrase := .member (escaped (keyOf e.1)) [] [' '] (ofValue e.2)

theorem ofItems_eq (lead : List Char) (items : List Value) :
    ofItems lead items = spaced lead (items.map ofValue) := by
  induction items generalizing lead with
  | nil => rfl
  | cons v rest ih => rw [ofItems, List.map_cons, spaced, ih]

theorem ofEntries_eq (lead : List Char) (entries : List (Value × Value)) :
    ofEntries lead entries = spaced lead (entries.map ofEntry) := by
  induction entries generalizing lead with
  | nil => rfl
  | cons e rest ih => rw [ofEntries, List.map_cons, spaced, ih, ofEntry]

theorem map_content_spaced (lead : List Char) (ps : List Phrase) :
    (spaced lead ps).map Item.content = ps := by
  induction ps generalizing lead with
  | nil => rfl
  | cons p rest ih => rw [spaced, List.map_cons, ih]

theorem map_spaced {β : Type} (g : Phrase → β) (lead : List Char) (ps : List Phrase) :
    (spaced lead ps).map (fun i => g i.content) = ps.map g := by
  have hcomp : (spaced lead ps).map (fun i => g i.content) = ((spaced lead ps).map Item.content).map g :=
    List.map_map.symm
  rw [hcomp, map_content_spaced]

theorem content_mem_of_mem_spaced {lead : List Char} {ps : List Phrase} {i : Item Phrase}
    (h : i ∈ spaced lead ps) : i.content ∈ ps := by
  have := List.mem_map_of_mem (f := Item.content) h
  rwa [map_content_spaced] at this

theorem spaces_of_mem_spaced {lead : List Char} {ps : List Phrase} {i : Item Phrase}
    (hlead : Spaces lead) (h : i ∈ spaced lead ps) : Spaces i.gap ∧ Spaces i.lead := by
  induction ps generalizing lead with
  | nil => cases h
  | cons p rest ih =>
    rcases List.mem_cons.mp h with rfl | h
    · exact ⟨spaces_nil, hlead⟩
    · exact ih (List.forall_mem_singleton.mpr rfl) h

theorem head?_spaced (lead : List Char) (ps : List Phrase) : ∀ i ∈ (spaced lead ps).head?, i.gap = [] := by
  intro i hi
  cases ps with
  | nil => cases hi
  | cons p rest => exact Option.some.inj hi ▸ rfl

/-- A list of phrases is well formed when they are. -/
theorem shaped_spaced {bracket : Bracket} {ps : List Phrase}
    (hkind : ∀ p ∈ ps, p.isMember = bracket.holdsMembers) (h : ∀ p ∈ ps, p.Shaped) :
    (Phrase.group bracket (spaced [] ps) []).Shaped :=
  have hblank (i : Item Phrase) (hi : i ∈ spaced [] ps) : Blank i.gap ∧ Blank i.lead :=
    (spaces_of_mem_spaced spaces_nil hi).imp Spaces.blank Spaces.blank
  .group spaces_nil.blank (head?_spaced [] ps) hblank
    (fun _ hi => hkind _ (content_mem_of_mem_spaced hi)) fun _ hi => h _ (content_mem_of_mem_spaced hi)

theorem renderItems_spaced (ps : List Phrase) :
    renderItems [] (spaced [] ps) = [',', ' '].intercalate (ps.map render) := by
  cases ps with
  | nil => rfl
  | cons p rest =>
    rw [spaced, renderItems, List.nil_append, List.nil_append, List.nil_append, List.map_cons]
    induction rest generalizing p with
    | nil => simp [spaced, renderItems]
    | cons q rest ih =>
      rw [List.map_cons, List.intercalate_cons_cons, ← ih q, spaced, renderItems]
      simp only [List.append_assoc, List.nil_append, List.cons_append]

end Phrase

open Phrase

/-! ## Values as phrases -/

theorem fits_list {items : List Value} : (Value.list items).Fits ↔ ∀ v ∈ items, v.Fits := by
  rw [Value.Fits, Value.integers]
  induction items with
  | nil => simp [Value.integersOfItems]
  | cons v rest ih =>
    rw [Value.integersOfItems, List.forall_mem_append, ih, List.forall_mem_cons]
    rfl

theorem fits_dict {entries : List (Value × Value)} :
    (Value.dict entries).Fits ↔ ∀ e ∈ entries, e.2.Fits := by
  rw [Value.Fits, Value.integers]
  induction entries with
  | nil => simp [Value.integersOfEntries]
  | cons e rest ih =>
    rw [Value.integersOfEntries, List.forall_mem_append, ih, List.forall_mem_cons]
    rfl

theorem depth_list_le_iff {items : List Value} {n : Nat} :
    (Value.list items).depth ≤ n + 1 ↔ ∀ v ∈ items, v.depth ≤ n := by
  rw [Value.depth, Nat.succ_le_succ_iff]
  induction items with
  | nil => simp [Value.depthOfItems]
  | cons v rest ih => rw [Value.depthOfItems, Nat.max_le, ih, List.forall_mem_cons]

theorem depth_dict_le_iff {entries : List (Value × Value)} {n : Nat} :
    (Value.dict entries).depth ≤ n + 1 ↔ ∀ e ∈ entries, e.2.depth ≤ n := by
  rw [Value.depth, Nat.succ_le_succ_iff]
  induction entries with
  | nil => simp [Value.depthOfEntries]
  | cons e rest ih => rw [Value.depthOfEntries, Nat.max_le, ih, List.forall_mem_cons]

theorem fitsWithin_list {items : List Value} {levels : Nat} :
    (Value.list items).FitsWithin (levels + 1) ↔ ∀ v ∈ items, v.FitsWithin levels := by
  simp only [Value.FitsWithin, fits_list, depth_list_le_iff, forall_and]

theorem fitsWithin_dict {entries : List (Value × Value)} {levels : Nat} :
    (Value.dict entries).FitsWithin (levels + 1) ↔ ∀ e ∈ entries, e.2.FitsWithin levels := by
  simp only [Value.FitsWithin, fits_dict, depth_dict_le_iff, forall_and]

theorem strict_list {items : List Value} : (Value.list items).Strict ↔ ∀ v ∈ items, v.Strict := by
  rw [Value.Strict, Value.floats]
  induction items with
  | nil => simp [Value.floatsOfItems]
  | cons v rest ih =>
    rw [Value.floatsOfItems, List.forall_mem_append, ih, List.forall_mem_cons]
    rfl

theorem strict_dict {entries : List (Value × Value)} :
    (Value.dict entries).Strict ↔ ∀ e ∈ entries, e.2.Strict := by
  rw [Value.Strict, Value.floats]
  induction entries with
  | nil => simp [Value.floatsOfEntries]
  | cons e rest ih =>
    rw [Value.floatsOfEntries, List.forall_mem_append, ih, List.forall_mem_cons]
    rfl

theorem isPlain_of_isJson {v : Value} (h : v.IsJson) : v.IsPlain := by
  induction h with
  | null => exact .null
  | bool b => exact .bool b
  | int n => exact .int n
  | str s => exact .str s
  | list _ ih => exact .list ih
  | dict distinct _ ih => exact .dict distinct ih

/-- No floating-point number stands in a JSON value. -/
theorem strict_of_isJson {v : Value} (h : v.IsJson) : v.Strict := by
  induction h with
  | list _ ih => exact strict_list.mpr ih
  | dict _ _ ih => exact strict_dict.mpr (List.forall_mem_map.mpr ih)
  | _ => exact fun x hx => nomatch hx

theorem isMember_ofValue (v : Value) : (ofValue v).isMember = false := by
  cases v with
  | float x => exact isMember_ofFloat x
  | _ => rfl

/-- **A plain value is written as a well-formed phrase** when the grammar has a form for its numbers. -/
theorem shaped_of_strict {v : Value} (h : v.IsPlain) (hstrict : v.Strict) : (ofValue v).Shaped := by
  induction h with
  | null => exact .word (by decide)
  | bool b => exact .word (by cases b <;> decide)
  | int n => exact .number (intText_ne_nil n) (Grammar.numberLength_intText n)
  | float hcanonical =>
    have hregular := hstrict _ (List.mem_singleton_self _)
    rw [ofValue, ofFloat_of_regular hregular]
    exact shaped_chars hcanonical hregular
  | str s => exact .string (stringEnd?_escaped s)
  | list h ih =>
    rw [strict_list] at hstrict
    rw [ofValue, ofItems_eq]
    refine shaped_spaced ?_ ?_
    · rintro p hp
      obtain ⟨v, -, rfl⟩ := List.mem_map.mp hp
      exact isMember_ofValue v
    · rintro p hp
      obtain ⟨v, hv, rfl⟩ := List.mem_map.mp hp
      exact ih v hv (hstrict v hv)
  | dict distinct h ih =>
    rw [strict_dict, List.forall_mem_map] at hstrict
    rw [ofValue, ofEntries_eq, List.map_map]
    refine shaped_spaced ?_ ?_
    · rintro p hp
      obtain ⟨e, -, rfl⟩ := List.mem_map.mp hp
      rfl
    · rintro p hp
      obtain ⟨e, he, rfl⟩ := List.mem_map.mp hp
      exact .member (stringEnd?_escaped e.1) spaces_nil.blank
        (List.forall_mem_singleton.mpr rfl) (isMember_ofValue e.2) (ih e he (hstrict e he))

/-- **A JSON value is written as a well-formed phrase.** -/
theorem shaped_ofValue {v : Value} (h : v.IsJson) : (ofValue v).Shaped :=
  shaped_of_strict (isPlain_of_isJson h) (strict_of_isJson h)

mutual
/-- What a value is written as nests as deep as the value. -/
theorem height_ofValue : (v : Value) → (ofValue v).height = v.depth
  | .list items => by rw [ofValue, height, Value.depth, heightItems_ofItems]
  | .dict entries => by rw [ofValue, height, Value.depth, heightItems_ofEntries]
  | .float x => height_ofFloat x
  | .null | .bool _ | .int _ | .imaginary _ | .bytes _ | .str _ | .loose _ | .moment _ => rfl

theorem heightItems_ofItems (lead : List Char) :
    (items : List Value) → heightItems (ofItems lead items) = Value.depthOfItems items
  | [] => rfl
  | v :: rest => by
    rw [ofItems, heightItems, Value.depthOfItems, height_ofValue v, heightItems_ofItems _ rest]

theorem heightItems_ofEntries (lead : List Char) :
    (entries : List (Value × Value)) → heightItems (ofEntries lead entries) = Value.depthOfEntries entries
  | [] => rfl
  | (k, v) :: rest => by
    rw [ofEntries, heightItems, Value.depthOfEntries, height, height_ofValue v, heightItems_ofEntries _ rest]
end

/-! ## Writing -/

theorem encodeInt_eq_ok {n : Int} {s : String} :
    encodeInt n = .ok s ↔ n.natAbs < 10 ^ digitLimit ∧ s = String.ofList (intText n) := by
  unfold encodeInt renderInt?
  generalize 10 ^ digitLimit = bound
  by_cases h : n.natAbs < bound
  · simp only [h, if_true, true_and, eq_comm (a := s)]
    exact ⟨Except.ok.inj, congrArg Except.ok⟩
  · rw [if_neg h]
    exact ⟨fun h' => (nomatch h'), fun h' => absurd h'.1 h⟩

theorem encodeText_ofString (s : String) : encodeText s = encodeString s := by
  rw [encodeText, encodeString, LooseText.ofString_ofList, LooseText.ext_iff, LooseText.letters_ofString]
  induction s.toList with
  | nil => rfl
  | cons c rest ih =>
    simp only [LooseText.ofChars, List.map_cons, List.flatMap_cons, List.map_append, List.cons_append,
      List.append_assoc, List.cons.injEq, true_and, escapeLetter] at ih ⊢
    rw [ih]

/-- Items are written one after another. -/
theorem encodeItems_eq_ok {levels : Nat} {items : List Value} {parts : List LooseText}
    (ih : ∀ v ∈ items, ∀ t : LooseText,
      encodeWithin levels v = .ok t ↔ v.FitsWithin levels ∧ t = String.ofList (ofValue v).render) :
    encodeItems levels items = .ok parts ↔
      (∀ v ∈ items, v.FitsWithin levels) ∧ parts = items.map fun v => (String.ofList (ofValue v).render : LooseText) := by
  induction items generalizing parts with
  | nil => rw [encodeItems]; simp [eq_comm]
  | cons v rest ihrest =>
    rw [List.forall_mem_cons] at ih
    rw [encodeItems, bind_eq_ok, List.forall_mem_cons]
    simp only [ih.1, bind_eq_ok, ihrest ih.2, pure_eq_ok]
    constructor
    · rintro ⟨_, ⟨hv, rfl⟩, _, ⟨hrest, rfl⟩, rfl⟩
      exact ⟨⟨hv, hrest⟩, rfl⟩
    · rintro ⟨⟨hv, hrest⟩, rfl⟩
      exact ⟨_, ⟨hv, rfl⟩, _, ⟨hrest, rfl⟩, rfl⟩

/-- Entries are written one after another. -/
theorem encodeEntries_eq_ok {levels : Nat} {entries : List (String × Value)} {parts : List LooseText}
    (ih : ∀ e ∈ entries, ∀ t : LooseText,
      encodeWithin levels e.2 = .ok t ↔ e.2.FitsWithin levels ∧ t = String.ofList (ofValue e.2).render) :
    encodeEntries levels (entries.map fun e => (.str e.1, e.2)) = .ok parts ↔
      (∀ e ∈ entries, e.2.FitsWithin levels) ∧
        parts = entries.map fun e => (String.ofList (ofEntry (.str e.1, e.2)).render : LooseText) := by
  induction entries generalizing parts with
  | nil => rw [List.map_nil, encodeEntries]; simp [eq_comm]
  | cons e rest ihrest =>
    rw [List.forall_mem_cons] at ih
    have hentry : encodeText e.1 ++ ": " ++ String.ofList (ofValue e.2).render
        = (String.ofList (ofEntry (.str e.1, e.2)).render : LooseText) := by
      rw [encodeText_ofString, LooseText.ofString_append, LooseText.ofString_append, LooseText.ofString_inj,
        ← String.toList_inj]
      simp only [encodeString, escaped, String.toList_append, String.toList_ofList, ofEntry, keyOf, render,
        List.append_assoc, List.cons_append, List.nil_append]
      rfl
    rw [List.map_cons, encodeEntries, keyText, List.forall_mem_cons]
    simp only [bind_eq_ok, Except.ok.injEq, ih.1, ihrest ih.2, pure_eq_ok]
    constructor
    · rintro ⟨_, rfl, _, ⟨hv, rfl⟩, _, ⟨hrest, rfl⟩, rfl⟩
      exact ⟨⟨hv, hrest⟩, by rw [hentry, List.map_cons]⟩
    · rintro ⟨⟨hv, hrest⟩, rfl⟩
      exact ⟨_, rfl, _, ⟨hv, rfl⟩, _, ⟨hrest, rfl⟩, by rw [hentry, List.map_cons]⟩

/-- A value that is no integer and nests nothing is always written. -/
theorem encodeWithin_eq_ok_of_flat {v : Value} {levels : Nat} {name : String} {t : LooseText}
    (hv : v.integers = []) (hdepth : v.depth = 0) (hname : encodeWithin levels v = .ok name)
    (hrender : String.ofList (ofValue v).render = name) :
    encodeWithin levels v = .ok t ↔ v.FitsWithin levels ∧ t = String.ofList (ofValue v).render := by
  have hfits : v.FitsWithin levels := ⟨fun n hn => (nomatch (hv ▸ hn : n ∈ [])), hdepth ▸ Nat.zero_le levels⟩
  rw [hname, hrender]
  exact ⟨fun h => ⟨hfits, (Except.ok.inj h).symm⟩, fun h => congrArg Except.ok h.2.symm⟩

/-- The brackets around what is written of the items. -/
theorem bracketed_joined (bracket : Bracket) (ps : List Phrase) :
    String.ofList [bracket.opening]
        ++ LooseText.joined ", " (ps.map fun p => (String.ofList p.render : LooseText))
        ++ String.ofList [bracket.closing]
      = (String.ofList (Phrase.group bracket (spaced [] ps) []).render : LooseText) := by
  have hmap : (ps.map fun p => (String.ofList p.render : LooseText))
      = (ps.map fun p => String.ofList p.render).map LooseText.ofString := by
    rw [List.map_map]
    rfl
  rw [hmap, LooseText.joined_map_ofString, LooseText.ofString_append, LooseText.ofString_append,
    LooseText.ofString_inj, ← String.toList_inj]
  simp only [String.toList_append, String.toList_intercalate, String.toList_ofList, List.map_map, render,
    renderItems_spaced, List.append_nil, List.cons_append, List.nil_append]
  exact congrArg (bracket.opening :: List.intercalate [',', ' '] · ++ [bracket.closing])
    (List.map_congr_left fun p _ => String.toList_ofList)

/-- **How a plain value is written**, which fails on integers of too many digits and on what nests too
deep only. -/
theorem encodeWithin_eq_ok {v : Value} (h : v.IsPlain) {levels : Nat} {t : LooseText} :
    encodeWithin levels v = .ok t ↔ v.FitsWithin levels ∧ t = String.ofList (ofValue v).render := by
  induction h generalizing levels t with
  | null => exact encodeWithin_eq_ok_of_flat rfl rfl rfl rfl
  | bool b => cases b <;> exact encodeWithin_eq_ok_of_flat rfl rfl rfl rfl
  | int n =>
    have hfits : (Value.int n).FitsWithin levels ↔ n.natAbs < 10 ^ digitLimit :=
      (and_iff_left (Nat.zero_le levels)).trans List.forall_mem_singleton
    rw [encodeWithin, map_eq_ok, hfits]
    simp only [encodeInt_eq_ok]
    constructor
    · rintro ⟨_, ⟨hn, rfl⟩, rfl⟩
      exact ⟨hn, rfl⟩
    · rintro ⟨hn, rfl⟩
      exact ⟨_, ⟨hn, rfl⟩, rfl⟩
  | @float x _ =>
    exact encodeWithin_eq_ok_of_flat rfl rfl rfl (render_ofFloat x)
  | str t =>
    refine encodeWithin_eq_ok_of_flat rfl rfl rfl ?_
    rw [ofValue, render, escaped, encodeString]
    rfl
  | @list items h ih =>
    cases levels with
    | zero => exact ⟨fun hread => (by cases hread), fun hfits => absurd hfits.1.2 (Nat.not_succ_le_zero _)⟩
    | succ levels =>
      have hjoined := bracketed_joined .array (items.map ofValue)
      rw [List.map_map] at hjoined
      rw [encodeWithin, bind_eq_ok, fitsWithin_list, ofValue, ofItems_eq, ← hjoined]
      simp only [encodeItems_eq_ok fun v hv _ => ih v hv, pure_eq_ok]
      constructor
      · rintro ⟨_, ⟨hfits, rfl⟩, rfl⟩
        exact ⟨hfits, rfl⟩
      · rintro ⟨hfits, rfl⟩
        exact ⟨_, ⟨hfits, rfl⟩, rfl⟩
  | @dict entries distinct h ih =>
    cases levels with
    | zero => exact ⟨fun hread => (by cases hread), fun hfits => absurd hfits.1.2 (Nat.not_succ_le_zero _)⟩
    | succ levels =>
      have hjoined := bracketed_joined .object (entries.map fun e => ofEntry (.str e.1, e.2))
      rw [List.map_map] at hjoined
      rw [encodeWithin, bind_eq_ok, fitsWithin_dict, ofValue, ofEntries_eq, List.map_map, List.forall_mem_map]
      simp only [encodeEntries_eq_ok fun e he _ => ih e he, pure_eq_ok]
      constructor
      · rintro ⟨_, ⟨hfits, rfl⟩, rfl⟩
        exact ⟨hfits, hjoined⟩
      · rintro ⟨hfits, rfl⟩
        exact ⟨_, ⟨hfits, rfl⟩, hjoined⟩

theorem encode_eq_ok_text [Interpreter] {v : Value} (h : v.IsPlain) {t : LooseText} :
    encode v = .ok t ↔ v.FitsWithin nestingLimit ∧ t = String.ofList (ofValue v).render :=
  encodeWithin_eq_ok h

/-- **How a JSON value is written**, which fails on integers of too many digits and on what nests too
deep only. -/
theorem encode_eq_ok [Interpreter] {v : Value} (h : v.IsJson) {s : String} :
    encode v = .ok s ↔ v.FitsWithin nestingLimit ∧ s = String.ofList (ofValue v).render := by
  rw [encode_eq_ok_text (isPlain_of_isJson h), LooseText.ofString_inj]

/-! ## Reading back -/

theorem readValue_quote (depth o : Nat) (s : String) (rest : List Char) :
    readValue depth ⟨o, '"' :: escaped s ++ rest⟩
      = .ok (.str s, ⟨o + ('"' :: escaped s).length, rest⟩) := by
  rw [readValue.eq_def, ← Value.ofText_ofString]
  simp only [Cursor.peek?, List.cons_append, List.head?_cons, List.drop_one, List.tail_cons,
    scanString_escaped, bind, Except.bind, List.length_cons]
  refine congrArg Except.ok (Prod.ext rfl (congrArg (Cursor.mk · rest) ?_))
  omega

theorem textOf_escaped (s : String) : textOf (escaped s) = s := by
  have hread := readValue_quote nestingLimit 0 s []
  rw [List.append_nil, ← Value.ofText_ofString] at hread
  exact textOf_of_decode (decode_of_readValue (p := .string (escaped s)) (.string (stringEnd?_escaped s)) hread)

theorem key_ofEntry (k : String) (v : Value) : (ofEntry (.str k, v)).key = k := textOf_escaped k

theorem readValue_intText {n : Int} (h : n.natAbs < 10 ^ digitLimit) (depth o : Nat) {s : List Char}
    (hs : Stops s) :
    readValue depth ⟨o, intText n ++ s⟩ = .ok (.int n, ⟨o + (intText n).length, s⟩) := by
  have hscalar := readScalar_intText h o hs
  obtain ⟨c, t, hc, hd⟩ := exists_intText n
  have hne : c ≠ '"' ∧ c ≠ '[' ∧ c ≠ '\x7b' := by
    rcases hd with rfl | hd
    · decide
    · refine ⟨?_, ?_, ?_⟩ <;>
        · rintro rfl
          exact absurd hd (by decide)
  rw [hc, List.cons_append] at hscalar ⊢
  rw [readValue_scalar hne, hscalar]

theorem numberOf_intText {n : Int} (h : n.natAbs < 10 ^ digitLimit) : numberOf (intText n) = .int n := by
  have hread := readValue_intText h nestingLimit 0 Grammar.stops_nil
  rw [List.append_nil] at hread
  have hshaped : (Phrase.number (intText n)).Shaped := .number (intText_ne_nil n) (Grammar.numberLength_intText n)
  exact numberOf_of_decode hshaped (decode_of_readValue (p := .number (intText n)) hshaped hread)

theorem insertEntry_of_not_mem {d : List (String × Value)} {k : String} (v : Value)
    (hk : k ∉ d.map Prod.fst) : Value.insertEntry (d.map fun e => (.str e.1, e.2)) (.str k) v
      = (d ++ [(k, v)]).map fun e => (.str e.1, e.2) := by
  induction d with
  | nil => rfl
  | cons e rest ih =>
    rw [List.map_cons, List.mem_cons, not_or] at hk
    have hsame : (Value.str e.1).sameKey (.str k) = false := beq_eq_false_iff_ne.mpr (Ne.symm hk.1)
    rw [List.map_cons, Value.insertEntry, hsame, if_neg Bool.false_ne_true, ih hk.2]
    rfl

/-- A mapping keeps its entries when no key comes twice. -/
theorem dictOfEntries_of_nodup {entries : List (String × Value)} (h : (entries.map Prod.fst).Nodup) :
    Value.dictOfEntries (entries.map fun e => (.str e.1, e.2))
      = .dict (entries.map fun e => (.str e.1, e.2)) := by
  have hfold (d rest : List (String × Value)) (h : ((d ++ rest).map Prod.fst).Nodup) :
      (rest.map fun e => (Value.str e.1, e.2)).foldl (fun d e => Value.insertEntry d e.1 e.2)
          (d.map fun e => (.str e.1, e.2))
        = (d ++ rest).map fun e => (.str e.1, e.2) := by
    induction rest generalizing d with
    | nil => rw [List.append_nil]; rfl
    | cons e rest ih =>
      have hk : e.1 ∉ d.map Prod.fst := by
        rw [List.map_append, List.map_cons, List.nodup_append] at h
        exact fun hmem => h.2.2 e.1 hmem e.1 List.mem_cons_self rfl
      have hsplit : d ++ e :: rest = d ++ [(e.1, e.2)] ++ rest := by simp
      rw [List.map_cons, List.foldl_cons, insertEntry_of_not_mem e.2 hk, hsplit, ih]
      rwa [← hsplit]
  exact congrArg Value.dict (hfold [] entries h)

/-- **What a plain value is written as stands for the value.** -/
theorem value_of_strict {v : Value} (h : v.IsPlain) (hfits : v.Fits) (hstrict : v.Strict) : (ofValue v).value = v := by
  induction h with
  | null => rfl
  | bool b => cases b <;> rfl
  | int n => exact numberOf_intText (hfits n (List.mem_singleton_self n))
  | float hcanonical =>
    have hregular := hstrict _ (List.mem_singleton_self _)
    rw [ofValue, ofFloat_of_regular hregular, Phrase.value, numberOf_of_decode (shaped_chars hcanonical hregular)
      (decode_chars hcanonical hregular)]
  | str s => rw [ofValue, Phrase.value, textOf_escaped, Value.ofText_ofString]
  | @list items h ih =>
    rw [fits_list] at hfits
    rw [strict_list] at hstrict
    rw [ofValue, ofItems_eq, Phrase.value, fields_eq, List.map_map]
    refine congrArg Value.list ((map_spaced Phrase.value [] _).trans ?_)
    rw [List.map_map]
    exact (List.map_congr_left (g := id) fun v hv => ih v hv (hfits v hv) (hstrict v hv)).trans (List.map_id items)
  | @dict entries distinct h ih =>
    rw [fits_dict, List.forall_mem_map] at hfits
    rw [strict_dict, List.forall_mem_map] at hstrict
    rw [ofValue, ofEntries_eq, Phrase.value, fields_eq, map_spaced (fun p => (p.key, p.value)),
      ← dictOfEntries_of_nodup distinct]
    simp only [List.map_map]
    refine congrArg Value.dictOfEntries (List.map_congr_left fun e he => ?_)
    rw [Function.comp_apply, Function.comp_apply, Function.comp_apply, key_ofEntry, ofEntry,
      Phrase.value, ih e he (hfits e he) (hstrict e he), Value.ofText_ofString]

/-- **A written value stands for the value.** -/
theorem value_ofValue {v : Value} (h : v.IsJson) (hfits : v.Fits) : (ofValue v).value = v :=
  value_of_strict (isPlain_of_isJson h) hfits (strict_of_isJson h)

theorem heightItems_spaced_le_iff {lead : List Char} {ps : List Phrase} {n : Nat} :
    heightItems (spaced lead ps) ≤ n ↔ ∀ p ∈ ps, p.height ≤ n := by
  have hmem := List.forall_mem_map (f := Item.content) (l := spaced lead ps) (P := fun p => p.height ≤ n)
  rw [map_content_spaced] at hmem
  rw [heightItems_le_iff, hmem]

/-- **What a plain value is written as decodes to the value.** -/
theorem decodes_of_strict {v : Value} (h : v.IsPlain) (hfits : v.Fits) (hstrict : v.Strict) {depth : Nat}
    (hdepth : (ofValue v).height ≤ depth) : Decodes (readValue depth) (ofValue v) := by
  induction h generalizing depth with
  | null => exact decodes_word (by decide) depth
  | bool b => exact decodes_word (by cases b <;> decide) depth
  | int n =>
    intro o s hs
    have hn := hfits n (List.mem_singleton_self n)
    rw [ofValue, render, Phrase.value, numberOf_intText hn, readValue_intText hn depth o hs]
  | float hcanonical =>
    have hregular := hstrict _ (List.mem_singleton_self _)
    rw [ofValue, ofFloat_of_regular hregular]
    exact (denotes_chars hcanonical hregular).decodes (shaped_chars hcanonical hregular) depth
  | str t =>
    intro o s _
    rw [ofValue, render, Phrase.value, textOf_escaped, Value.ofText_ofString, readValue_quote]
  | @list items h ih =>
    have hshaped := shaped_of_strict (.list h) hstrict
    rw [fits_list] at hfits
    rw [strict_list] at hstrict
    rw [ofValue, height] at hdepth
    obtain ⟨depth, rfl⟩ : ∃ d, depth = d + 1 := ⟨depth - 1, by omega⟩
    rw [ofItems_eq, Nat.succ_le_succ_iff, heightItems_spaced_le_iff, List.forall_mem_map] at hdepth
    rw [ofValue, ofItems_eq] at hshaped ⊢
    refine decodes_array hshaped spaces_nil (fun i hi => spaces_of_mem_spaced spaces_nil hi) fun i hi => ?_
    obtain ⟨v, hv, hcontent⟩ := List.mem_map.mp (content_mem_of_mem_spaced hi)
    exact hcontent ▸ ih v hv (hfits v hv) (hstrict v hv) (hdepth v hv)
  | @dict entries distinct h ih =>
    have hshaped := shaped_of_strict (.dict distinct h) hstrict
    rw [fits_dict, List.forall_mem_map] at hfits
    rw [strict_dict, List.forall_mem_map] at hstrict
    rw [ofValue, height] at hdepth
    obtain ⟨depth, rfl⟩ : ∃ d, depth = d + 1 := ⟨depth - 1, by omega⟩
    rw [ofEntries_eq, Nat.succ_le_succ_iff, heightItems_spaced_le_iff, List.forall_mem_map,
      List.forall_mem_map] at hdepth
    rw [ofValue, ofEntries_eq, List.map_map] at hshaped ⊢
    refine decodes_object hshaped spaces_nil (fun i hi => spaces_of_mem_spaced spaces_nil hi) fun i hi => ?_
    obtain ⟨e, he, hcontent⟩ := List.mem_map.mp (content_mem_of_mem_spaced hi)
    rw [← hcontent]
    refine ⟨fun start o s => ?_, spaces_nil, List.forall_mem_singleton.mpr rfl,
      shaped_of_strict (h e he) (hstrict e he), ih e he (hfits e he) (hstrict e he) (hdepth e he)⟩
    rw [keyOf, scanString_escaped, textOf_escaped]

/-- **What is written is decoded back.** -/
theorem decode_encode [Interpreter] {v : Value} (h : v.IsJson) {s : String} (hs : encode v = .ok s) :
    decode s = .ok v := by
  obtain ⟨⟨hfits, hdepth⟩, rfl⟩ := (encode_eq_ok h).mp hs
  have hread := decodes_of_strict (isPlain_of_isJson h) hfits (strict_of_isJson h)
    ((height_ofValue v).trans_le hdepth) 0 [] Grammar.stops_nil
  rw [List.append_nil, value_ofValue h hfits] at hread
  exact decode_of_readValue (shaped_ofValue h) hread

/-- The literals of what a plain value is written as decode. -/
theorem readable_of_strict [Interpreter] {v : Value} (h : v.IsPlain) (hfits : v.Fits) (hstrict : v.Strict) :
    (ofValue v).Readable := by
  have hstring (s : String) : ∃ w, decode (String.ofList ('"' :: escaped s)) = .ok w := by
    have hread := readValue_quote nestingLimit 0 s []
    rw [List.append_nil] at hread
    exact ⟨_, decode_of_readValue (p := .string (escaped s)) (.string (stringEnd?_escaped s)) hread⟩
  induction h with
  | null => exact fun s hs => nomatch hs
  | bool b => exact fun s hs => nomatch hs
  | int n =>
    have hread := readValue_intText (hfits n (List.mem_singleton_self n)) nestingLimit 0 Grammar.stops_nil
    rw [List.append_nil] at hread
    exact List.forall_mem_singleton.mpr ⟨_, decode_of_readValue (p := .number (intText n))
      (.number (intText_ne_nil n) (Grammar.numberLength_intText n)) hread⟩
  | float hcanonical =>
    have hregular := hstrict _ (List.mem_singleton_self _)
    rw [ofValue, ofFloat_of_regular hregular]
    exact List.forall_mem_singleton.mpr ⟨_, decode_chars hcanonical hregular⟩
  | str s => exact List.forall_mem_singleton.mpr (hstring s)
  | @list items h ih =>
    rw [fits_list] at hfits
    rw [strict_list] at hstrict
    rw [ofValue, ofItems_eq, readable_group]
    intro i hi
    obtain ⟨v, hv, hcontent⟩ := List.mem_map.mp (content_mem_of_mem_spaced hi)
    exact hcontent ▸ ih v hv (hfits v hv) (hstrict v hv)
  | @dict entries distinct h ih =>
    rw [fits_dict, List.forall_mem_map] at hfits
    rw [strict_dict, List.forall_mem_map] at hstrict
    rw [ofValue, ofEntries_eq, List.map_map, readable_group]
    intro i hi
    obtain ⟨e, he, hcontent⟩ := List.mem_map.mp (content_mem_of_mem_spaced hi)
    exact hcontent ▸ readable_member.mpr ⟨hstring e.1, ih e he (hfits e he) (hstrict e he)⟩

/-- The literals of a written value decode. -/
theorem readable_ofValue [Interpreter] {v : Value} (h : v.IsJson) (hfits : v.Fits) : (ofValue v).Readable :=
  readable_of_strict (isPlain_of_isJson h) hfits (strict_of_isJson h)

/-- A text that is nothing but a written value is sound. -/
theorem sound_ofValue [Interpreter] {v : Value} (hv : v.IsJson) (hfits : v.Fits)
    (hframes : (ofValue v).frames ≤ treeFrames) :
    Whole.Sound ⟨[], [], ofValue v, []⟩ :=
  ⟨⟨.inl rfl, fun _ hc => (nomatch hc), shaped_ofValue hv, isMember_ofValue _, fun _ hc => (nomatch hc)⟩,
    readable_ofValue hv hfits, hframes⟩

/-! ## Deep values -/

/-- A list in a list in a list, and so on. -/
def nested : Nat → Value
  | 0 => .null
  | n + 1 => .list [nested n]

theorem isJson_nested (n : Nat) : (nested n).IsJson := by
  induction n with
  | zero => exact .null
  | succ n ih => exact .list (List.forall_mem_singleton.mpr ih)

theorem fits_nested (n : Nat) : (nested n).Fits := by
  induction n with
  | zero => exact fun n hn => nomatch hn
  | succ n ih => exact fits_list.mpr (List.forall_mem_singleton.mpr ih)

theorem depth_nested (n : Nat) : (nested n).depth = n := by
  induction n with
  | zero => rfl
  | succ n ih => rw [nested, Value.depth, Value.depthOfItems, Value.depthOfItems, ih, Nat.max_zero]

theorem frames_nested (n : Nat) : (ofValue (nested n)).frames = 2 * n := by
  induction n with
  | zero => rfl
  | succ n ih =>
    rw [nested, ofValue, Phrase.frames, ofItems, ofItems, framesOfItems, framesOfItems, ih, Nat.max_zero]
    rfl

end Json

end SlotEdit
