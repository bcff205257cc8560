import SlotEdit.Proofs.Json.Encoding

/-!
# Proofs/Json/Decoded — what decoding gives

Decoding gives values whose floating-point numbers are in their form and whose mappings have texts as
keys, none of them twice, nested no deeper than the reader may go (`decoded_of_decode`).  When such a
value is written without half of a surrogate pair, no text in it has one (`isPlain_of_encode`).
-/

namespace SlotEdit

open Binary64

namespace Json

/-- **A value as decoding gives it**, with lists and mappings nested at most so deep. -/
inductive Decoded : Nat → Value → Prop
  | null {n : Nat} : Decoded n .null
  | bool {n : Nat} (b : Bool) : Decoded n (.bool b)
  | int {n : Nat} (i : Int) : Decoded n (.int i)
  | float {n : Nat} {x : Binary64} (h : x.Canonical) : Decoded n (.float x)
  | text {n : Nat} (t : LooseText) : Decoded n (.ofText t)
  | list {n : Nat} {items : List Value} (h : ∀ v ∈ items, Decoded n v) : Decoded (n + 1) (.list items)
  | dict {n : Nat} {entries : List (LooseText × Value)} (distinct : (entries.map Prod.fst).Nodup)
      (h : ∀ e ∈ entries, Decoded n e.2) : Decoded (n + 1) (.dict (entries.map fun e => (.ofText e.1, e.2)))

variable {reader : Reader Value} {n turns : Nat} {c c' : Cursor}

/-! ## Numbers -/

theorem canonical_of_readDecimal? {negative : Bool} {s : List Char} {x : Binary64}
    (h : readDecimal? negative s = some x) : x.Canonical := by
  have hread (whole fraction rest : List Char) (h : (if whole.isEmpty && fraction.isEmpty then none
      else (readExponent? rest).map fun e =>
        ofDecimal negative (digitsValue (whole ++ fraction)) (e - fraction.length)) = some x) : x.Canonical := by
    split at h
    · cases h
    · obtain ⟨e, -, rfl⟩ := Option.map_eq_some_iff.mp h
      exact canonical_ofDecimal _ _ _
  rw [readDecimal?] at h
  dsimp only at h
  split at h
  · exact hread _ _ _ h
  · exact hread _ _ _ h

theorem canonical_of_readFloat? {s : List Char} {x : Binary64} (h : readFloat? s = some x) : x.Canonical := by
  rw [readFloat?] at h
  dsimp only at h
  split at h
  · next word hword =>
    obtain rfl := Option.some.inj h
    rw [readWord?.eq_def] at hword
    split at hword
    · exact Option.some.inj hword ▸ trivial
    · exact Option.some.inj hword ▸ trivial
    · exact Option.some.inj hword ▸ trivial
    · cases hword
  · obtain ⟨digits, -, h⟩ := Option.bind_eq_some_iff.mp h
    exact canonical_of_readDecimal? h

theorem decoded_of_numberValue {whole tail : List Char} {v : Value} (h : numberValue whole tail = .ok v) :
    Decoded n v := by
  rw [numberValue] at h
  split at h
  · obtain ⟨m, -, rfl⟩ := map_eq_ok.mp h
    exact .int m
  · rw [← Except.ok.inj h]
    cases hread : readFloat? (whole ++ tail) with
    | none => exact .float trivial
    | some x => exact .float (canonical_of_readFloat? hread)

/-- What is read as a number or a word. -/
theorem decoded_of_readScalar {v : Value} (h : readScalar c = .ok (v, c')) : Decoded n v := by
  rw [readScalar] at h
  split at h
  · next found hword =>
    obtain ⟨word, hmem, hfound⟩ := List.exists_of_findSome?_eq_some hword
    obtain ⟨after, -, rfl⟩ := Option.map_eq_some_iff.mp hfound
    obtain ⟨rfl, -⟩ := Prod.mk.inj (Except.ok.inj h)
    have hwords : ∀ word ∈ words, Decoded n word.2 := by
      simp only [words, List.forall_mem_cons, List.not_mem_nil, false_imp_iff, implies_true, and_true]
      exact ⟨.null, .bool true, .bool false, .float trivial, .float trivial, .float trivial⟩
    exact hwords word hmem
  · split at h
    · split at h
      · next hnumber =>
        obtain ⟨rfl, -⟩ := Prod.mk.inj (Except.ok.inj h)
        exact decoded_of_numberValue hnumber
      · cases h
    · cases h

/-! ## Lists and mappings -/

theorem decoded_of_readItems (hreader : ∀ c v c', reader c = .ok (v, c') → Decoded n v) {vs : List Value}
    (h : readItems reader turns c = .ok (vs, c')) : ∀ v ∈ vs, Decoded n v := by
  induction turns generalizing c c' vs with
  | zero => cases h
  | succ turns ih =>
    obtain ⟨⟨v, after⟩, hv, h⟩ := bind_eq_ok.mp h
    dsimp only at h
    split at h
    · obtain ⟨rfl, -⟩ := Prod.mk.inj (pure_eq_ok.mp h)
      exact List.forall_mem_singleton.mpr (hreader _ _ _ hv)
    · obtain ⟨⟨rest, last⟩, hrest, h⟩ := bind_eq_ok.mp h
      obtain ⟨rfl, -⟩ := Prod.mk.inj (pure_eq_ok.mp h)
      exact List.forall_mem_cons.mpr ⟨hreader _ _ _ hv, ih hrest⟩
    · cases h

/-- The members of an object are entries with texts as keys. -/
theorem decoded_of_readMembers (hreader : ∀ c v c', reader c = .ok (v, c') → Decoded n v)
    {es : List (Value × Value)} (h : readMembers reader turns c = .ok (es, c')) :
    ∃ entries : List (LooseText × Value), es = entries.map (fun e => (.ofText e.1, e.2)) ∧
      ∀ e ∈ entries, Decoded n e.2 := by
  induction turns generalizing c c' es with
  | zero => cases h
  | succ turns ih =>
    rw [readMembers] at h
    split at h
    · obtain ⟨⟨key, after⟩, -, h⟩ := bind_eq_ok.mp h
      dsimp only at h
      split at h
      · obtain ⟨⟨v, after⟩, hv, h⟩ := bind_eq_ok.mp h
        dsimp only at h
        split at h
        · obtain ⟨rfl, -⟩ := Prod.mk.inj (pure_eq_ok.mp h)
          exact ⟨[(⟨key⟩, v)], rfl, List.forall_mem_singleton.mpr (hreader _ _ _ hv)⟩
        · obtain ⟨⟨rest, last⟩, hrest, h⟩ := bind_eq_ok.mp h
          obtain ⟨rfl, -⟩ := Prod.mk.inj (pure_eq_ok.mp h)
          obtain ⟨entries, rfl, hentries⟩ := ih hrest
          exact ⟨(⟨key⟩, v) :: entries, rfl, List.forall_mem_cons.mpr ⟨hreader _ _ _ hv, hentries⟩⟩
        · cases h
      · cases h
    · cases h

/-- Two texts are the same key just when they are equal. -/
theorem sameKey_ofText (s t : LooseText) : (Value.ofText s).sameKey (.ofText t) = decide (s = t) := by
  have hapart {a : String} {t : LooseText} (ht : t.toString? = none) : (a : LooseText) ≠ t := by
    rintro rfl
    rw [LooseText.toString?_ofString] at ht
    cases ht
  rw [Value.ofText, Value.ofText]
  cases hs : s.toString? with
  | some a =>
    obtain rfl := LooseText.toString?_eq_some.mp hs
    cases ht : t.toString? with
    | some b =>
      obtain rfl := LooseText.toString?_eq_some.mp ht
      exact (decide_eq_decide.mpr LooseText.ofString_inj).symm
    | none => exact (decide_eq_false (hapart ht)).symm
  | none =>
    cases ht : t.toString? with
    | some b =>
      obtain rfl := LooseText.toString?_eq_some.mp ht
      exact (decide_eq_false (hapart hs).symm).symm
    | none => rfl

/-- One more entry keeps the keys distinct. -/
theorem insertEntry_ofText {P : Value → Prop} {entries : List (LooseText × Value)} (k : LooseText) {v : Value}
    (hentries : ∀ e ∈ entries, P e.2) (hv : P v) :
    ∃ entries' : List (LooseText × Value), Value.insertEntry (entries.map fun e => (.ofText e.1, e.2)) (.ofText k) v =
      entries'.map (fun e => (.ofText e.1, e.2)) ∧ (∀ e ∈ entries', P e.2) ∧
      entries'.map Prod.fst = if k ∈ entries.map Prod.fst then entries.map Prod.fst else entries.map Prod.fst ++ [k] := by
  induction entries with
  | nil => exact ⟨[(k, v)], rfl, List.forall_mem_singleton.mpr hv, rfl⟩
  | cons e rest ih =>
    rw [List.forall_mem_cons] at hentries
    rw [List.map_cons, Value.insertEntry, sameKey_ofText, List.map_cons]
    by_cases hk : e.1 = k
    · rw [decide_eq_true hk, if_pos rfl, if_pos (List.mem_cons.mpr (.inl hk.symm))]
      exact ⟨(e.1, v) :: rest, rfl, List.forall_mem_cons.mpr ⟨hv, hentries.2⟩, rfl⟩
    · obtain ⟨entries', heq, hall, hkeys⟩ := ih hentries.2
      rw [decide_eq_false hk, if_neg Bool.false_ne_true, heq]
      refine ⟨e :: entries', rfl, List.forall_mem_cons.mpr ⟨hentries.1, hall⟩, ?_⟩
      rw [List.map_cons, hkeys]
      have hmem : k ∈ e.1 :: rest.map Prod.fst ↔ k ∈ rest.map Prod.fst := by
        rw [List.mem_cons, or_iff_right (Ne.symm hk)]
      by_cases hrest : k ∈ rest.map Prod.fst
      · rw [if_pos hrest, if_pos (hmem.mpr hrest)]
      · rw [if_neg hrest, if_neg (mt hmem.mp hrest), List.cons_append]

/-- **The mapping of entries with texts as keys** has none of them twice. -/
theorem exists_dictOfEntries {P : Value → Prop} {entries : List (LooseText × Value)} (h : ∀ e ∈ entries, P e.2) :
    ∃ entries' : List (LooseText × Value), Value.dictOfEntries (entries.map fun e => (.ofText e.1, e.2)) =
      .dict (entries'.map fun e => (.ofText e.1, e.2)) ∧ (entries'.map Prod.fst).Nodup ∧ ∀ e ∈ entries', P e.2 := by
  have hfold (d rest : List (LooseText × Value)) (hd : (d.map Prod.fst).Nodup ∧ ∀ e ∈ d, P e.2)
      (hrest : ∀ e ∈ rest, P e.2) : ∃ entries' : List (LooseText × Value),
        (rest.map fun e => (Value.ofText e.1, e.2)).foldl (fun d e => Value.insertEntry d e.1 e.2)
          (d.map fun e => (.ofText e.1, e.2)) = entries'.map (fun e => (.ofText e.1, e.2)) ∧
        (entries'.map Prod.fst).Nodup ∧ ∀ e ∈ entries', P e.2 := by
    induction rest generalizing d with
    | nil => exact ⟨d, rfl, hd⟩
    | cons e rest ih =>
      rw [List.forall_mem_cons] at hrest
      obtain ⟨d', heq, hall, hkeys⟩ := insertEntry_ofText e.1 hd.2 hrest.1
      rw [List.map_cons, List.foldl_cons, heq]
      refine ih d' ⟨?_, hall⟩ hrest.2
      rw [hkeys]
      split
      · exact hd.1
      · next hk => exact hd.1.append (List.nodup_singleton e.1) (List.disjoint_singleton.mpr hk)
  obtain ⟨entries', heq, hall⟩ := hfold [] entries ⟨List.nodup_nil, fun e he => nomatch he⟩ h
  exact ⟨entries', congrArg Value.dict heq, hall⟩

theorem decoded_of_readList (hreader : ∀ c v c', reader c = .ok (v, c') → Decoded n v) {v : Value}
    (h : readList reader c = .ok (v, c')) : Decoded (n + 1) v := by
  rw [readList] at h
  dsimp only at h
  split at h
  · obtain ⟨rfl, -⟩ := Prod.mk.inj (Except.ok.inj h)
    exact .list (by simp)
  · obtain ⟨⟨vs, after⟩, hvs, h⟩ := bind_eq_ok.mp h
    obtain ⟨rfl, -⟩ := Prod.mk.inj (pure_eq_ok.mp h)
    exact .list (decoded_of_readItems hreader hvs)

theorem decoded_of_readObject (hreader : ∀ c v c', reader c = .ok (v, c') → Decoded n v) {v : Value}
    (h : readObject reader c = .ok (v, c')) : Decoded (n + 1) v := by
  rw [readObject] at h
  dsimp only at h
  split at h
  · obtain ⟨rfl, -⟩ := Prod.mk.inj (Except.ok.inj h)
    have hnone : ([] : List (LooseText × Value)).map Prod.fst |>.Nodup := .nil
    exact .dict hnone (by simp)
  · obtain ⟨⟨es, after⟩, hes, h⟩ := bind_eq_ok.mp h
    obtain ⟨rfl, -⟩ := Prod.mk.inj (pure_eq_ok.mp h)
    obtain ⟨entries, rfl, hentries⟩ := decoded_of_readMembers hreader hes
    obtain ⟨entries', heq, hdistinct, hentries'⟩ := exists_dictOfEntries hentries
    exact heq ▸ .dict hdistinct hentries'

/-- **What is read** is a value as decoding gives it. -/
theorem decoded_of_readValue {limit : Nat} {v : Value} (h : readValue limit c = .ok (v, c')) : Decoded limit v := by
  induction limit generalizing c v c' with
  | zero =>
    rw [readValue.eq_def] at h
    split at h
    · obtain ⟨_, -, h⟩ := bind_eq_ok.mp h
      obtain ⟨rfl, -⟩ := Prod.mk.inj (pure_eq_ok.mp h)
      exact .text _
    · cases h
    · cases h
    · exact decoded_of_readScalar h
  | succ limit ih =>
    rw [readValue.eq_def] at h
    split at h
    · obtain ⟨_, -, h⟩ := bind_eq_ok.mp h
      obtain ⟨rfl, -⟩ := Prod.mk.inj (pure_eq_ok.mp h)
      exact .text _
    · exact decoded_of_readList (fun c v c' h => ih h) h
    · exact decoded_of_readObject (fun c v c' h => ih h) h
    · exact decoded_of_readScalar h

theorem decoded_of_decode [Interpreter] {text : String} {v : Value} (h : decode text = .ok v) :
    Decoded nestingLimit v := by
  rw [decode] at h
  split at h
  · cases h
  · obtain ⟨⟨v', after⟩, hv, h⟩ := bind_eq_ok.mp h
    dsimp only at h
    split at h
    · rw [← pure_eq_ok.mp h]
      exact decoded_of_readValue hv
    · cases h

/-! ## Writing what was decoded -/

/-- No half of a surrogate pair stands in a text. -/
def NoHalf (t : LooseText) : Prop := ∀ code, Letter.half code ∉ t.letters

theorem noHalf_ofString (s : String) : NoHalf s := fun code hmem => by
  obtain ⟨c, -, hc⟩ := List.mem_map.mp (LooseText.letters_ofString s ▸ hmem)
  cases hc

/-- A text without halves is a `String`. -/
theorem exists_of_noHalf {t : LooseText} (h : NoHalf t) : ∃ s : String, t = s := by
  have hletters {ls : List Letter} (h : ∀ code, Letter.half code ∉ ls) : ∃ cs : List Char, ls = cs.map .char := by
    induction ls with
    | nil => exact ⟨[], rfl⟩
    | cons l rest ih =>
      obtain ⟨cs, rfl⟩ := ih fun code hmem => h code (List.mem_cons_of_mem _ hmem)
      cases l with
      | char c => exact ⟨c :: cs, rfl⟩
      | half code => exact absurd List.mem_cons_self (h code)
  obtain ⟨cs, hcs⟩ := hletters h
  exact ⟨String.ofList cs, LooseText.ext_iff.mpr (by rw [hcs, LooseText.letters_ofString, String.toList_ofList])⟩

theorem noHalf_append {s t : LooseText} : NoHalf (s ++ t) ↔ NoHalf s ∧ NoHalf t := by
  simp only [NoHalf, LooseText.letters_append, List.mem_append, not_or, forall_and]

/-- No half stands in any of the texts of a joined one. -/
theorem noHalf_of_joined {separator : String} {parts : List LooseText} (h : NoHalf (.joined separator parts)) :
    ∀ t ∈ parts, NoHalf t := by
  have hmem {sep : List Letter} {ls : List Letter} {lss : List (List Letter)} (hls : ls ∈ lss) {l : Letter}
      (hl : l ∈ ls) : l ∈ sep.intercalate lss := by
    induction lss with
    | nil => cases hls
    | cons first rest ih =>
      cases rest with
      | nil =>
        obtain rfl := List.mem_singleton.mp hls
        rwa [List.intercalate_singleton]
      | cons second rest =>
        rw [List.intercalate_cons_cons, List.mem_append, List.mem_append]
        rcases List.mem_cons.mp hls with rfl | hls
        · exact .inl (.inl hl)
        · exact .inr (ih hls)
  exact fun t ht code hcode => h code (hmem (List.mem_map_of_mem ht) hcode)

/-- A half in a text stands in what it is written as. -/
theorem noHalf_of_encodeText {t : LooseText} (h : NoHalf (encodeText t)) : NoHalf t := fun code hmem =>
  h code (List.mem_append_left _ (List.mem_cons_of_mem _ (List.mem_flatMap.mpr ⟨_, hmem, List.mem_singleton_self _⟩)))

theorem exists_of_encodeItems {levels : Nat} {items : List Value} {parts : List LooseText}
    (h : encodeItems levels items = .ok parts) : ∀ v ∈ items, ∃ t ∈ parts, encodeWithin levels v = .ok t := by
  induction items generalizing parts with
  | nil => exact fun v hv => nomatch hv
  | cons v rest ih =>
    rw [encodeItems] at h
    obtain ⟨head, hhead, h⟩ := bind_eq_ok.mp h
    obtain ⟨tail, htail, h⟩ := bind_eq_ok.mp h
    obtain rfl := pure_eq_ok.mp h
    refine List.forall_mem_cons.mpr ⟨⟨head, List.mem_cons_self, hhead⟩, fun v hv => ?_⟩
    obtain ⟨t, ht, hencode⟩ := ih htail v hv
    exact ⟨t, List.mem_cons_of_mem _ ht, hencode⟩

theorem exists_of_encodeEntries {levels : Nat} {entries : List (Value × Value)} {parts : List LooseText}
    (h : encodeEntries levels entries = .ok parts) : ∀ e ∈ entries, ∃ key value, keyText e.1 = .ok key ∧
      encodeWithin levels e.2 = .ok value ∧ encodeText key ++ ": " ++ value ∈ parts := by
  induction entries generalizing parts with
  | nil => exact fun e he => nomatch he
  | cons e rest ih =>
    obtain ⟨k, v⟩ := e
    rw [encodeEntries] at h
    obtain ⟨key, hkey, h⟩ := bind_eq_ok.mp h
    obtain ⟨value, hvalue, h⟩ := bind_eq_ok.mp h
    obtain ⟨tail, htail, h⟩ := bind_eq_ok.mp h
    obtain rfl := pure_eq_ok.mp h
    refine List.forall_mem_cons.mpr ⟨⟨key, value, hkey, hvalue, List.mem_cons_self⟩, fun e he => ?_⟩
    obtain ⟨key, value, hkey, hvalue, hmem⟩ := ih htail e he
    exact ⟨key, value, hkey, hvalue, List.mem_cons_of_mem _ hmem⟩

theorem keyText_ofText (t : LooseText) : keyText (.ofText t) = .ok t := by
  rw [Value.ofText]
  split
  · next s hs => exact congrArg Except.ok (LooseText.toString?_eq_some.mp hs).symm
  · rfl

theorem encodeWithin_ofText (levels : Nat) (t : LooseText) :
    encodeWithin levels (.ofText t) = .ok (encodeText t) := by
  rw [Value.ofText]
  split
  · next s hs => rw [encodeWithin, ← encodeText_ofString, LooseText.toString?_eq_some.mp hs]
  · rw [encodeWithin]

/-- A list or mapping that is written leaves one level fewer to what is in it. -/
theorem exists_of_encodeWithin_list {levels : Nat} {items : List Value} {t : LooseText}
    (h : encodeWithin levels (.list items) = .ok t) :
    ∃ below parts, encodeItems below items = .ok parts ∧ "[" ++ LooseText.joined ", " parts ++ "]" = t := by
  cases levels with
  | zero => cases h
  | succ levels =>
    rw [encodeWithin] at h
    obtain ⟨parts, hparts, h⟩ := bind_eq_ok.mp h
    exact ⟨levels, parts, hparts, pure_eq_ok.mp h⟩

theorem exists_of_encodeWithin_dict {levels : Nat} {entries : List (Value × Value)} {t : LooseText}
    (h : encodeWithin levels (.dict entries) = .ok t) :
    ∃ below parts, encodeEntries below entries = .ok parts ∧
      "\x7b" ++ LooseText.joined ", " parts ++ "\x7d" = t := by
  cases levels with
  | zero => cases h
  | succ levels =>
    rw [encodeWithin] at h
    obtain ⟨parts, hparts, h⟩ := bind_eq_ok.mp h
    exact ⟨levels, parts, hparts, pure_eq_ok.mp h⟩

/-- Entries whose keys are without halves have strings as keys. -/
theorem exists_strings {entries : List (LooseText × Value)} (h : ∀ e ∈ entries, NoHalf e.1) :
    ∃ entries' : List (String × Value), entries = entries'.map fun e => ((e.1 : LooseText), e.2) := by
  induction entries with
  | nil => exact ⟨[], rfl⟩
  | cons e rest ih =>
    rw [List.forall_mem_cons] at h
    obtain ⟨entries', rfl⟩ := ih h.2
    obtain ⟨s, hs⟩ := exists_of_noHalf h.1
    exact ⟨(s, e.2) :: entries', by rw [List.map_cons, ← hs]⟩

/-- **A decoded value that is written without halves** of surrogate pairs is a plain one. -/
theorem isPlain_of_encodeWithin {v : Value} (h : Decoded n v) {levels : Nat} {t : LooseText}
    (hencode : encodeWithin levels v = .ok t) (hwhole : NoHalf t) : v.IsPlain := by
  induction h generalizing levels t with
  | null => exact .null
  | bool b => exact .bool b
  | int i => exact .int i
  | float hcanonical => exact .float hcanonical
  | text s =>
    rw [encodeWithin_ofText] at hencode
    obtain rfl := Except.ok.inj hencode
    obtain ⟨s, rfl⟩ := exists_of_noHalf (noHalf_of_encodeText hwhole)
    rw [Value.ofText_ofString]
    exact .str s
  | list _ ih =>
    obtain ⟨levels, parts, hparts, rfl⟩ := exists_of_encodeWithin_list hencode
    have hjoined := (noHalf_append.mp (noHalf_append.mp hwhole).1).2
    refine .list fun v hv => ?_
    obtain ⟨t, ht, hencode⟩ := exists_of_encodeItems hparts v hv
    exact ih v hv hencode (noHalf_of_joined hjoined t ht)
  | @dict n entries distinct _ ih =>
    obtain ⟨levels, parts, hparts, rfl⟩ := exists_of_encodeWithin_dict hencode
    have hjoined := (noHalf_append.mp (noHalf_append.mp hwhole).1).2
    have hall : ∀ e ∈ entries, NoHalf e.1 ∧ ∃ value, encodeWithin levels e.2 = .ok value ∧ NoHalf value := by
      intro e he
      obtain ⟨key, value, hkey, hvalue, hmem⟩ :=
        exists_of_encodeEntries hparts _ (List.mem_map_of_mem (f := fun e => (Value.ofText e.1, e.2)) he)
      rw [keyText_ofText] at hkey
      obtain rfl := Except.ok.inj hkey
      have hpart := noHalf_append.mp (noHalf_of_joined hjoined _ hmem)
      exact ⟨noHalf_of_encodeText (noHalf_append.mp hpart.1).1, value, hvalue, hpart.2⟩
    obtain ⟨entries, rfl⟩ := exists_strings fun e he => (hall e he).1
    rw [List.map_map] at distinct ⊢
    simp only [Function.comp_def, Value.ofText_ofString]
    refine .dict (List.Nodup.of_map (f := LooseText.ofString) (by rw [List.map_map]; exact distinct)) fun e he => ?_
    have hmem := List.mem_map_of_mem (f := fun e : String × Value => ((e.1 : LooseText), e.2)) he
    obtain ⟨-, value, hvalue, hnone⟩ := hall _ hmem
    exact ih _ hmem hvalue hnone

theorem isPlain_of_encode [Interpreter] {v : Value} (h : Decoded n v) {t : LooseText} (hencode : encode v = .ok t)
    (hwhole : NoHalf t) : v.IsPlain := isPlain_of_encodeWithin h hencode hwhole

end Json

end SlotEdit
