import SlotEdit.Template.Valuator
import SlotEdit.Proofs.Json.Decoded
import SlotEdit.Proofs.Math.Lexemes

/-!
# Proofs/Template/Valuators — values are read back as they were written

A text is always read back, an integer just when it has no more digits than can be written, and a JSON
value just when its integers can be written and it nests no deeper than can be read
(`roundTrips`).
-/

namespace SlotEdit

open Json Json.Phrase

/-! ## Integers as numbers -/

theorem splitSign_intText (n : Int) : splitSign (intText n) = (decide (n < 0), natText n.natAbs) := by
  cases n with
  | ofNat m => exact splitSign_natText m
  | negSucc m =>
    rw [decide_eq_true (Int.negSucc_lt_zero m)]
    rfl

theorem mem_intText {n : Int} {c : Char} (h : c ∈ intText n) : c = '-' ∨ isAsciiDigit c = true := by
  cases n with
  | ofNat m => exact .inr (isAsciiDigit_natText h)
  | negSucc m => exact (List.mem_cons.mp h).imp_right isAsciiDigit_natText

theorem trimBlanks_intText (n : Int) : trimBlanks (intText n) = intText n := by
  refine trimBlanks_eq fun c hc => ?_
  rcases mem_intText hc with rfl | hdigit
  · decide
  · exact isBlank_eq_false_of_isDecimalDigit (isDecimalDigit_of_isAsciiDigit hdigit)

theorem digits_natText (n : Nat) : (natText n).all isDecimalDigit = true ∧ (natText n).isEmpty = false := by
  obtain ⟨c, s, hc, -⟩ := exists_natText n
  exact ⟨List.all_eq_true.mpr fun c hc => isDecimalDigit_of_isAsciiDigit (isAsciiDigit_natText hc), by rw [hc]; rfl⟩

theorem dropUnderscores?_natText (n : Nat) : dropUnderscores? isDecimalDigit false (natText n) = some (natText n) := by
  refine dropUnderscores?_eq (fun c hc heq => ?_) _ _
  exact absurd (heq ▸ isAsciiDigit_natText hc) (by decide)

theorem integerOfDigits_natText {n : Int} (h : n.natAbs < 10 ^ digitLimit) :
    integerOfDigits (decide (n < 0)) (natText n.natAbs) = .ok n := by
  have hvalue := numberValue_intText h
  rw [numberValue, splitSign_intText] at hvalue
  obtain ⟨m, hm, heq⟩ := map_eq_ok.mp hvalue
  rw [hm, Value.int.inj heq]

/-- **An integer is read back** from its digits. -/
theorem readNumber_intText {n : Int} (h : n.natAbs < 10 ^ digitLimit) :
    readNumber (String.ofList (intText n)) = .ok (.int n) := by
  obtain ⟨hall, hne⟩ := digits_natText n.natAbs
  have hinteger : isInteger (intText n) = true := by
    rw [isInteger, splitSign_intText]
    simp only [hne, hall, Bool.not_false, Bool.and_self]
  have hread : readInt (String.ofList (intText n)) = .ok n := by
    rw [readInt, String.toList_ofList, trimBlanks_intText, splitSign_intText]
    dsimp only
    rw [dropUnderscores?_natText]
    simp only [hne, hall, Bool.not_true, Bool.or_self, Bool.false_eq_true, if_false, integerOfDigits_natText h]
  rw [readNumber, String.toList_ofList, trimBlanks_intText, hinteger, if_pos rfl, hread]
  rfl

theorem intDisplay_eq_ok {n : Int} {s : String} :
    Value.intDisplay n = .ok s ↔ n.natAbs < 10 ^ digitLimit ∧ s = String.ofList (intText n) := by
  unfold Value.intDisplay renderInt?
  generalize 10 ^ digitLimit = bound
  by_cases h : n.natAbs < bound
  · simp only [h, if_true, true_and, eq_comm (a := s)]
    exact ⟨Except.ok.inj, congrArg Except.ok⟩
  · rw [if_neg h]
    exact ⟨fun h' => (nomatch h'), fun h' => absurd h'.1 h⟩

/-! ## Round trips -/

namespace Valuator

/-- What a value is written as is a text, and is read as the value. -/
def RoundTrips [Interpreter] (v : Valuator) (value : Value) : Prop :=
  ∃ text, v.serialize value = .ok (.str text) ∧ v.deserialize text = .ok value

theorem roundTrips_text [Interpreter] (s : String) : text.RoundTrips (.str s) := ⟨s, rfl, rfl⟩

theorem serialize_number_eq_ok [Interpreter] {n : Int} {s : String} :
    number.serialize (.int n) = .ok (.str s) ↔ Value.intDisplay n = .ok s := by
  rw [serialize, mapError_eq_ok, map_eq_ok, Value.display]
  · constructor
    · rintro ⟨t, ht, heq⟩
      exact Value.str.inj heq ▸ ht
    · exact fun h => ⟨s, h, rfl⟩
  · exact fun b h => nomatch h

theorem serialize_json_eq_ok [Interpreter] {value : Value} {s : String} :
    json.serialize value = .ok (.str s) ↔ encode value = .ok s := by
  rw [serialize]
  cases encode value with
  | ok t => exact ⟨fun h => congrArg Except.ok (Value.ofText_eq_str.mp (Except.ok.inj h)),
      fun h => congrArg Except.ok (Value.ofText_eq_str.mpr (Except.ok.inj h))⟩
  | error fault => cases fault <;> exact ⟨fun h => (nomatch h), fun h => (nomatch h)⟩

theorem roundTrips_number [Interpreter] {n : Int} : number.RoundTrips (.int n) ↔ n.natAbs < 10 ^ digitLimit := by
  constructor
  · rintro ⟨s, hs, -⟩
    exact (intDisplay_eq_ok.mp (serialize_number_eq_ok.mp hs)).1
  · intro h
    refine ⟨_, serialize_number_eq_ok.mpr (intDisplay_eq_ok.mpr ⟨h, rfl⟩), ?_⟩
    exact mapError_eq_ok.mpr (readNumber_intText h)

theorem roundTrips_json [Interpreter] {value : Value} (h : value.IsJson) :
    json.RoundTrips value ↔ value.Fits ∧ value.depth ≤ nestingLimit := by
  constructor
  · rintro ⟨s, hs, hread⟩
    have hencode := serialize_json_eq_ok.mp hs
    exact ((encode_eq_ok h).mp hencode).1
  · intro hfits
    have hencode := (encode_eq_ok h).mpr ⟨hfits, rfl⟩
    exact ⟨_, serialize_json_eq_ok.mpr hencode, mapError_eq_ok.mpr (decode_encode h hencode)⟩

/-- **What valuators read back.**  A text is always read back as itself; an integer as an integer, just
when it has at most as many digits as can be written; a JSON value with its mappings in order, just when
each of its integers has and it nests no deeper than can be read. -/
theorem roundTrips [Interpreter] :
    (∀ s, text.RoundTrips (.str s)) ∧
    (∀ n, number.RoundTrips (.int n) ↔ n.natAbs < 10 ^ digitLimit) ∧
    (∀ value : Value, value.IsJson → (json.RoundTrips value ↔ value.Fits ∧ value.depth ≤ nestingLimit)) :=
  ⟨roundTrips_text, fun _ => roundTrips_number, fun _ => roundTrips_json⟩

/-- A mapping with a list, a quote and a line break in it is read back. -/
theorem roundTrips_mapping :
    json.RoundTrips (.dict [(.str "a\"\n", .list [.int (-7), .null]), (.str "b", .str "\u00e9")]) := by
  have hlist : (Value.list [.int (-7), .null]).IsJson :=
    .list (List.forall_mem_cons.mpr ⟨.int (-7), List.forall_mem_singleton.mpr .null⟩)
  have hjson := @Value.IsJson.dict [("a\"\n", .list [.int (-7), .null]), ("b", .str "\u00e9")] (by decide)
    (List.forall_mem_cons.mpr ⟨hlist, List.forall_mem_singleton.mpr (.str "\u00e9")⟩)
  have hfits : ∀ n ∈ [(-7 : Int)], n.natAbs < 10 ^ digitLimit :=
    List.forall_mem_singleton.mpr (Nat.lt_of_lt_of_le (by decide : 7 < 10 ^ 1) (Nat.pow_le_pow_right (by decide) (by decide)))
  exact (roundTrips.2.2 _ hjson).mpr ⟨hfits, by decide⟩

/-- **A list that nests too deep** is not written. -/
theorem not_roundTrips_nested :
    ¬ ∀ value : Value, value.IsJson → value.Fits → json.RoundTrips value := by
  intro h
  have hdepth := ((roundTrips_json (isJson_nested 1200)).mp (h _ (isJson_nested 1200) (fits_nested 1200))).2
  rw [depth_nested] at hdepth
  exact absurd hdepth (by decide)

end Valuator

end SlotEdit
