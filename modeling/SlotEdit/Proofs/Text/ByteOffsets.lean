import Mathlib.Data.List.Basic
import SlotEdit.Text.ByteOffsets

/-!
# Proofs/Text/ByteOffsets — offsets in bytes lead back to letters

The first byte of a letter tells how many there are, and no letter starts with a byte that goes on with another
(`Letter.encoded_cases`).  So the bytes of a text can be read in one way only, from wherever a letter starts.  The
search in the table of a text counts the letters that start before a byte (`charOffset_of_le`), which leads back from
bytes to letters whether there is a table or not (`charOffset_and_textOn`).
-/

namespace SlotEdit

/-! ## The bytes of a code point -/

/-- The bytes that encode a code point, be it that of a character or of half of a pair. -/
def codeBytes (code : Nat) : List UInt8 :=
  if code ≤ 0x7f then [UInt8.ofNat code]
  else if code ≤ 0x7ff then [UInt8.ofNat (code / 64 % 32 + 0xc0), UInt8.ofNat (code % 64 + 0x80)]
  else if code ≤ 0xffff then
    [UInt8.ofNat (code / 4096 % 16 + 0xe0), UInt8.ofNat (code / 64 % 64 + 0x80), UInt8.ofNat (code % 64 + 0x80)]
  else
    [UInt8.ofNat (code / 262144 % 8 + 0xf0), UInt8.ofNat (code / 4096 % 64 + 0x80),
      UInt8.ofNat (code / 64 % 64 + 0x80), UInt8.ofNat (code % 64 + 0x80)]

/-- The code point that some bytes encode. -/
def codeOf : List UInt8 → Nat
  | [a] => a.toNat
  | [a, b] => a.toNat % 32 * 64 + b.toNat % 64
  | [a, b, c] => a.toNat % 16 * 4096 + b.toNat % 64 * 64 + c.toNat % 64
  | [a, b, c, d] => a.toNat % 8 * 262144 + b.toNat % 64 * 4096 + c.toNat % 64 * 64 + d.toNat % 64
  | _ => 0

theorem codeOf_codeBytes {code : Nat} (h : code < 0x110000) : codeOf (codeBytes code) = code := by
  unfold codeBytes
  split
  · rw [codeOf, UInt8.toNat_ofNat']
    omega
  split
  · rw [codeOf, UInt8.toNat_ofNat', UInt8.toNat_ofNat']
    omega
  split
  · rw [codeOf, UInt8.toNat_ofNat', UInt8.toNat_ofNat', UInt8.toNat_ofNat']
    omega
  · rw [codeOf, UInt8.toNat_ofNat', UInt8.toNat_ofNat', UInt8.toNat_ofNat', UInt8.toNat_ofNat']
    omega

/-- **The widths by ranges of code points are those of the encoding.** -/
theorem length_codeBytes (code : Nat) : (codeBytes code).length = encodedLength code := by
  unfold codeBytes encodedLength
  grind

/-- How many bytes a letter has that starts with a byte; no letter starts with a byte that goes on with
one. -/
def lengthFromLead (b : UInt8) : Nat :=
  if b.toNat < 0x80 then 1
  else if b.toNat < 0xc0 then 0
  else if b.toNat < 0xe0 then 2
  else if b.toNat < 0xf0 then 3
  else 4

theorem lengthFromLead_tail (n : Nat) : lengthFromLead (UInt8.ofNat (n % 64 + 0x80)) = 0 := by
  rw [lengthFromLead, UInt8.toNat_ofNat', if_neg (by omega), if_pos (by omega)]

/-- **The first byte of a code point tells how many there are**, and no other byte can be a first one. -/
theorem codeBytes_cases (code : Nat) : ∃ lead tails, codeBytes code = lead :: tails ∧
    lengthFromLead lead = tails.length + 1 ∧ ∀ b ∈ tails, lengthFromLead b = 0 := by
  unfold codeBytes
  split
  · refine ⟨_, [], rfl, ?_, List.forall_mem_nil _⟩
    rw [lengthFromLead, UInt8.toNat_ofNat', if_pos (by omega), List.length_nil]
  split
  · refine ⟨_, _, rfl, ?_, List.forall_mem_singleton.mpr (lengthFromLead_tail _)⟩
    rw [lengthFromLead, UInt8.toNat_ofNat', if_neg (by omega), if_neg (by omega), if_pos (by omega),
      List.length_singleton]
  split
  · refine ⟨_, _, rfl, ?_, List.forall_mem_cons.mpr ⟨lengthFromLead_tail _,
      List.forall_mem_singleton.mpr (lengthFromLead_tail _)⟩⟩
    rw [lengthFromLead, UInt8.toNat_ofNat', if_neg (by omega), if_neg (by omega), if_neg (by omega),
      if_pos (by omega)]
    rfl
  · refine ⟨_, _, rfl, ?_, List.forall_mem_cons.mpr ⟨lengthFromLead_tail _, List.forall_mem_cons.mpr
      ⟨lengthFromLead_tail _, List.forall_mem_singleton.mpr (lengthFromLead_tail _)⟩⟩⟩
    rw [lengthFromLead, UInt8.toNat_ofNat', if_neg (by omega), if_neg (by omega), if_neg (by omega),
      if_neg (by omega)]
    rfl

theorem encodedLength_pos (code : Nat) : 0 < encodedLength code := by
  obtain ⟨lead, tails, hcode, -⟩ := codeBytes_cases code
  rw [← length_codeBytes, hcode, List.length_cons]
  exact Nat.succ_pos _

/-! ## The bytes of a letter -/

namespace Letter

variable {l m : Letter}

theorem encoded_eq (h : l.IsProper) : l.encoded = codeBytes l.codePoint := by
  cases l with
  | char c => rfl
  | half code =>
    obtain ⟨hlow, hhigh⟩ := h
    rw [codePoint, codeBytes, if_neg (by omega), if_neg (by omega), if_pos (by omega)]
    rfl

theorem length_encoded (h : l.IsProper) : l.encoded.length = encodedLength l.codePoint :=
  encoded_eq h ▸ length_codeBytes _

theorem encoded_cases (h : l.IsProper) : ∃ lead tails, l.encoded = lead :: tails ∧
    lengthFromLead lead = tails.length + 1 ∧ ∀ b ∈ tails, lengthFromLead b = 0 :=
  encoded_eq h ▸ codeBytes_cases _

/-- No character has a code point that is set aside for halves. -/
theorem codePoint_char (c : Char) : c.toNat < 0xd800 ∨ 0xdfff < c.toNat ∧ c.toNat < 0x110000 := c.valid

theorem codePoint_lt (h : l.IsProper) : l.codePoint < 0x110000 := by
  cases l with
  | char c =>
    have hc := codePoint_char c
    rw [codePoint]
    omega
  | half code => exact Nat.lt_trans h.2 (by decide)

theorem codePoint_inj (hl : l.IsProper) (hm : m.IsProper) (h : l.codePoint = m.codePoint) : l = m := by
  have apart {c : Char} {code : Nat} (hcode : (half code).IsProper) (h : c.toNat = code) : False := by
    obtain ⟨hlow, hhigh⟩ := hcode
    have hc := codePoint_char c
    omega
  cases l with
  | char c =>
    cases m with
    | char d => exact congrArg char (Char.toNat_inj.mp h)
    | half code => exact (apart hm h).elim
  | half code =>
    cases m with
    | char d => exact (apart hl h.symm).elim
    | half code' => exact congrArg half h

/-- **A letter is read off the bytes it starts**, whatever follows. -/
theorem eq_of_encoded_append (hl : l.IsProper) (hm : m.IsProper) {x y : List UInt8}
    (h : l.encoded ++ x = m.encoded ++ y) : l = m ∧ x = y := by
  obtain ⟨lead, tails, hcodes, hlead, -⟩ := encoded_cases hl
  obtain ⟨lead', tails', hcodes', hlead', -⟩ := encoded_cases hm
  have hsame : lead = lead' := by
    rw [hcodes, hcodes'] at h
    exact (List.cons.inj h).1
  have hlength : l.encoded.length = m.encoded.length := by
    rw [hcodes, hcodes', List.length_cons, List.length_cons, ← hlead, ← hlead', hsame]
  obtain ⟨hbytes, hrest⟩ := List.append_inj h hlength
  rw [encoded_eq hl, encoded_eq hm] at hbytes
  refine ⟨codePoint_inj hl hm ?_, hrest⟩
  rw [← codeOf_codeBytes (codePoint_lt hl), hbytes, codeOf_codeBytes (codePoint_lt hm)]

end Letter

/-! ## Letters that start before a byte -/

/-- How many of some letters start before a byte of theirs; the end of the letters counts as one more. -/
def lettersBefore : List Letter → Nat → Nat
  | _, 0 => 0
  | [], _ + 1 => 1
  | l :: rest, b + 1 => lettersBefore rest (b + 1 - encodedLength l.codePoint) + 1

@[simp] theorem lettersBefore_zero (ls : List Letter) : lettersBefore ls 0 = 0 := by
  rw [lettersBefore]

theorem lettersBefore_nil {b : Nat} (h : 0 < b) : lettersBefore [] b = 1 := by
  cases b with
  | zero => exact absurd h (Nat.lt_irrefl 0)
  | succ b => rfl

theorem lettersBefore_cons {b : Nat} (h : 0 < b) (l : Letter) (rest : List Letter) :
    lettersBefore (l :: rest) b = lettersBefore rest (b - encodedLength l.codePoint) + 1 := by
  cases b with
  | zero => exact absurd h (Nat.lt_irrefl 0)
  | succ b => rw [lettersBefore]

/-- **More letters start before a later byte.** -/
theorem lettersBefore_mono (ls : List Letter) {a b : Nat} (h : a ≤ b) : lettersBefore ls a ≤ lettersBefore ls b := by
  induction ls generalizing a b with
  | nil =>
    rcases Nat.eq_zero_or_pos a with rfl | ha
    · exact lettersBefore_zero [] ▸ Nat.zero_le _
    · exact Nat.le_of_eq ((lettersBefore_nil ha).trans (lettersBefore_nil (Nat.lt_of_lt_of_le ha h)).symm)
  | cons l rest ih =>
    rcases Nat.eq_zero_or_pos a with rfl | ha
    · exact lettersBefore_zero (l :: rest) ▸ Nat.zero_le _
    · rw [lettersBefore_cons ha, lettersBefore_cons (Nat.lt_of_lt_of_le ha h)]
      exact Nat.succ_le_succ (ih (Nat.sub_le_sub_right h _))

/-! ## The table -/

theorem le_of_mem_byteStarts {ls : List Letter} {first x : Nat} (h : x ∈ byteStarts first ls) : first ≤ x := by
  induction ls generalizing first with
  | nil => exact Nat.le_of_eq (List.mem_singleton.mp h).symm
  | cons l rest ih =>
    rcases List.mem_cons.mp h with rfl | h
    · exact Nat.le_refl _
    · exact Nat.le_trans (Nat.le_add_right _ _) (ih h)

theorem pairwise_byteStarts (ls : List Letter) (first : Nat) : (byteStarts first ls).Pairwise (· ≤ ·) := by
  induction ls generalizing first with
  | nil => exact List.pairwise_singleton _ _
  | cons l rest ih =>
    exact List.pairwise_cons.mpr ⟨fun x hx => Nat.le_trans (Nat.le_add_right _ _) (le_of_mem_byteStarts hx), ih _⟩

/-- **The entries of the table below a byte** count the letters that start before it. -/
theorem countP_byteStarts (ls : List Letter) (first b : Nat) :
    (byteStarts first ls).countP (· < first + b) = lettersBefore ls b := by
  have none_below {ls : List Letter} {first b : Nat} (h : b ≤ first) : (byteStarts first ls).countP (· < b) = 0 :=
    List.countP_eq_zero.mpr fun x hx => by
      have := le_of_mem_byteStarts hx
      simp only [decide_eq_true_eq]
      omega
  induction ls generalizing first b with
  | nil =>
    rcases Nat.eq_zero_or_pos b with rfl | hb
    · exact (none_below (Nat.le_refl _)).trans (lettersBefore_zero []).symm
    · rw [lettersBefore_nil hb, byteStarts, List.countP_singleton, if_pos (by simpa using hb)]
  | cons l rest ih =>
    rcases Nat.eq_zero_or_pos b with rfl | hb
    · exact (none_below (Nat.le_refl _)).trans (lettersBefore_zero _).symm
    · rw [lettersBefore_cons hb, byteStarts, List.countP_cons_of_pos (by simpa using hb)]
      refine congrArg (· + 1) ?_
      rcases Nat.le_total b (encodedLength l.codePoint) with hle | hle
      · rw [none_below (by omega), Nat.sub_eq_zero_of_le hle, lettersBefore_zero]
      · rw [← ih (first + encodedLength l.codePoint), Nat.add_assoc, Nat.add_sub_cancel' hle]

theorem getElem_le_getElem {starts : List Nat} (hsorted : starts.Pairwise (· ≤ ·)) {i j : Nat} (hij : i ≤ j)
    (hj : j < starts.length) : starts[i] ≤ starts[j] := by
  rcases Nat.lt_or_eq_of_le hij with hlt | rfl
  · exact List.pairwise_iff_getElem.mp hsorted i j _ hj hlt
  · exact Nat.le_refl _

/-- **The search in a sorted table** counts the entries below what is searched for.  What is left of the table from
`lo` to `hi` is undecided; all before it is below, all behind it is not. -/
theorem lowerBound_eq_countP {starts : List Nat} (hsorted : starts.Pairwise (· ≤ ·)) {x lo hi : Nat} (hle : lo ≤ hi)
    (hhi : hi ≤ starts.length) (hbelow : ∀ i (h : i < starts.length), i < lo → starts[i] < x)
    (habove : ∀ i (h : i < starts.length), hi ≤ i → x ≤ starts[i]) :
    lowerBound starts.toArray x lo hi = starts.countP (· < x) := by
  fun_induction lowerBound starts.toArray x lo hi with
  | case1 lo hi hlt mid hmid ih =>
    have hmid' : mid < starts.length := by omega
    have hget : starts.toArray.getD mid 0 = starts[mid] := by simp [Array.getD, hmid']
    rw [hget] at hmid
    exact ih (by omega) hhi (fun i h hi => Nat.lt_of_le_of_lt (getElem_le_getElem hsorted (by omega) hmid') hmid) habove
  | case2 lo hi hlt mid hmid ih =>
    have hmid' : mid < starts.length := by omega
    have hget : starts.toArray.getD mid 0 = starts[mid] := by simp [Array.getD, hmid']
    rw [hget] at hmid
    exact ih (by omega) (by omega) hbelow fun i h hi => Nat.le_trans (Nat.le_of_not_lt hmid) (getElem_le_getElem hsorted hi h)
  | case3 lo hi hnot =>
    have hfront : (starts.take lo).countP (· < x) = lo := by
      rw [List.countP_eq_length.mpr, List.length_take_of_le (by omega)]
      intro y hy
      obtain ⟨i, hi, rfl⟩ := List.mem_take_iff_getElem.mp hy
      exact decide_eq_true (hbelow i (by omega) (by omega))
    have hback : (starts.drop lo).countP (· < x) = 0 := by
      refine List.countP_eq_zero.mpr fun y hy => ?_
      obtain ⟨i, hi, rfl⟩ := List.mem_drop_iff_getElem.mp hy
      have := habove (lo + i) (by omega) (by omega)
      simp only [decide_eq_true_eq]
      omega
    rw [← List.take_append_drop lo starts, List.countP_append, hfront, hback, Nat.add_zero]

/-! ## Bytes counted letter by letter -/

section

variable {ls : List Letter} (hproper : ∀ l ∈ ls, l.IsProper)

theorem encodeLetters_cons (l : Letter) (rest : List Letter) :
    encodeLetters (l :: rest) = l.encoded ++ encodeLetters rest := rfl

theorem encodeLetters_append (front back : List Letter) :
    encodeLetters (front ++ back) = encodeLetters front ++ encodeLetters back := List.flatMap_append

theorem length_encodeLetters_take_le (ls : List Letter) (k : Nat) :
    (encodeLetters (ls.take k)).length ≤ (encodeLetters ls).length := by
  have hsplit := encodeLetters_append (ls.take k) (ls.drop k)
  rw [List.take_append_drop] at hsplit
  rw [hsplit, List.length_append]
  exact Nat.le_add_right _ _

theorem length_encodeLetters_cons {l : Letter} (hl : l.IsProper) (rest : List Letter) :
    (encodeLetters (l :: rest)).length = encodedLength l.codePoint + (encodeLetters rest).length := by
  rw [encodeLetters_cons, List.length_append, l.length_encoded hl]

include hproper

theorem length_le_length_encodeLetters : ls.length ≤ (encodeLetters ls).length := by
  induction ls with
  | nil => exact Nat.zero_le _
  | cons l rest ih =>
    obtain ⟨hl, hrest⟩ := List.forall_mem_cons.mp hproper
    have hpos := encodedLength_pos l.codePoint
    have hle := ih hrest
    rw [length_encodeLetters_cons hl, List.length_cons]
    omega

/-- **A byte of a letter, or the one behind it,** has that letter as the last one that starts before it. -/
theorem lettersBefore_eq {k b : Nat} (hk : k < ls.length) (hstart : (encodeLetters (ls.take k)).length < b)
    (hstop : b ≤ (encodeLetters (ls.take (k + 1))).length) : lettersBefore ls b = k + 1 := by
  induction ls generalizing k b with
  | nil => exact absurd hk (Nat.not_lt_zero k)
  | cons l rest ih =>
    obtain ⟨hl, hrest⟩ := List.forall_mem_cons.mp hproper
    rw [lettersBefore_cons (Nat.lt_of_le_of_lt (Nat.zero_le _) hstart)]
    refine congrArg (· + 1) ?_
    cases k with
    | zero =>
      rw [List.take_succ_cons, length_encodeLetters_cons hl, List.take_zero] at hstop
      exact Nat.sub_eq_zero_of_le hstop ▸ lettersBefore_zero rest
    | succ k =>
      rw [List.take_succ_cons, length_encodeLetters_cons hl] at hstart hstop
      exact ih hrest (Nat.lt_of_succ_lt_succ hk) (by omega) (by omega)

/-- **Where a letter starts in bytes**, as many letters start before as stand in front of it. -/
theorem lettersBefore_length_take {k : Nat} (hk : k ≤ ls.length) :
    lettersBefore ls (encodeLetters (ls.take k)).length = k := by
  cases k with
  | zero => exact lettersBefore_zero ls
  | succ k =>
    refine lettersBefore_eq hproper hk ?_ (Nat.le_refl _)
    have hlast : ls[k].IsProper := hproper _ (List.getElem_mem hk)
    have hpos := encodedLength_pos ls[k].codePoint
    rw [List.take_succ_eq_append_getElem hk, encodeLetters_append, List.length_append,
      length_encodeLetters_cons hlast]
    omega

/-- Letters that take one byte each start at their own offsets. -/
theorem lettersBefore_of_length_eq (hlength : (encodeLetters ls).length = ls.length) (b : Nat) :
    lettersBefore ls b = min b (ls.length + 1) := by
  induction ls generalizing b with
  | nil =>
    rcases Nat.eq_zero_or_pos b with rfl | hb
    · rw [lettersBefore_zero, Nat.zero_min]
    · rw [lettersBefore_nil hb, List.length_nil]
      omega
  | cons l rest ih =>
    obtain ⟨hl, hrest⟩ := List.forall_mem_cons.mp hproper
    rcases Nat.eq_zero_or_pos b with rfl | hb
    · rw [lettersBefore_zero, Nat.zero_min]
    · have hpos := encodedLength_pos l.codePoint
      have hle := length_le_length_encodeLetters hrest
      rw [length_encodeLetters_cons hl, List.length_cons] at hlength
      rw [lettersBefore_cons hb, ih hrest (by omega), List.length_cons]
      omega

omit hproper in
theorem eq_nil_of_encodeLetters {us : List Letter} (hus : ∀ l ∈ us, l.IsProper) (h : encodeLetters us = []) :
    us = [] := by
  have hle := length_le_length_encodeLetters hus
  rw [h, List.length_nil, Nat.le_zero_eq] at hle
  exact List.eq_nil_of_length_eq_zero hle

/-- Bytes that encode nothing hold no letter. -/
theorem of_of_encoded_nil (bytes : Span) (h : bytes.of (encodeLetters ls) = []) :
    (Span.mk (lettersBefore ls bytes.start) (lettersBefore ls bytes.stop)).of ls = [] := by
  obtain ⟨start, stop⟩ := bytes
  simp only [Span.of, List.take_eq_nil_iff, List.drop_eq_nil_iff] at h ⊢
  rcases h with hempty | hbehind
  · have hmono := lettersBefore_mono ls (Nat.le_of_sub_eq_zero hempty)
    exact .inl (Nat.sub_eq_zero_of_le hmono)
  · have hall := lettersBefore_length_take hproper (Nat.le_refl _)
    rw [List.take_length] at hall
    exact .inr (hall ▸ lettersBefore_mono ls hbehind)

/-- **Bytes at the start of a text that encode letters** are those of its first letters. -/
theorem take_of_encoded_eq {us : List Letter} (hus : ∀ l ∈ us, l.IsProper) {stop : Nat}
    (h : (encodeLetters ls).take stop = encodeLetters us) : ls.take (lettersBefore ls stop) = us := by
  induction ls generalizing us stop with
  | nil => exact (List.take_nil ..).trans (eq_nil_of_encodeLetters hus (h.symm.trans (List.take_nil ..))).symm
  | cons l rest ih =>
    obtain ⟨hl, hrest⟩ := List.forall_mem_cons.mp hproper
    rcases Nat.eq_zero_or_pos stop with rfl | hstop
    · rw [lettersBefore_zero, List.take_zero]
      exact (eq_nil_of_encodeLetters hus h.symm).symm
    cases us with
    | nil =>
      obtain ⟨lead, tails, hlead, -⟩ := l.encoded_cases hl
      rw [encodeLetters_cons, hlead, List.cons_append, List.take_cons hstop] at h
      exact nomatch h
    | cons u us =>
      obtain ⟨hu, hus'⟩ := List.forall_mem_cons.mp hus
      have hsplit := (List.take_append_drop stop (encodeLetters (l :: rest))).symm
      rw [h, encodeLetters_cons, encodeLetters_cons, List.append_assoc] at hsplit
      obtain ⟨rfl, -⟩ := Letter.eq_of_encoded_append hl hu hsplit
      have hlong : l.encoded.length ≤ stop := by
        have hle := List.length_take_le stop (encodeLetters (l :: rest))
        rw [h, encodeLetters_cons, List.length_append] at hle
        omega
      rw [encodeLetters_cons, encodeLetters_cons, List.take_append, List.take_of_length_le hlong,
        List.append_cancel_left_eq, l.length_encoded hl] at h
      rw [lettersBefore_cons hstop, List.take_succ_cons, ih hrest hus' h]

/-- **The letters on some bytes that encode letters are those letters.**  By induction on the text: a byte that a
letter starts with is none that goes on with another, so no letter is read from inside one. -/
theorem of_of_encoded_eq {us : List Letter} (hus : ∀ l ∈ us, l.IsProper) (bytes : Span)
    (h : bytes.of (encodeLetters ls) = encodeLetters us) :
    (Span.mk (lettersBefore ls bytes.start) (lettersBefore ls bytes.stop)).of ls = us := by
  cases us with
  | nil => exact of_of_encoded_nil hproper bytes h
  | cons u us =>
    obtain ⟨lead, tails, hlead, hlength, -⟩ := u.encoded_cases (hus u List.mem_cons_self)
    obtain ⟨start, stop⟩ := bytes
    simp only [Span.of] at h ⊢
    induction ls generalizing start stop with
    | nil =>
      rw [encodeLetters_cons, hlead, encodeLetters, List.flatMap_nil, List.drop_nil, List.take_nil] at h
      exact nomatch h
    | cons l rest ih =>
      obtain ⟨hl, hrest⟩ := List.forall_mem_cons.mp hproper
      rcases Nat.eq_zero_or_pos start with rfl | hstart
      · rw [lettersBefore_zero, List.drop_zero, Nat.sub_zero] at *
        exact take_of_encoded_eq hproper hus h
      rw [encodeLetters_cons, List.drop_append, l.length_encoded hl] at h
      rw [lettersBefore_cons hstart, List.drop_succ_cons]
      rcases Nat.lt_or_ge start (encodedLength l.codePoint) with hinside | hbehind
      · -- the byte at `start` goes on with the letter, so it cannot be the first one of another
        obtain ⟨lead', tails', hlead', -, htails'⟩ := l.encoded_cases hl
        obtain ⟨n, rfl⟩ := Nat.exists_eq_add_one.mpr hstart
        cases hfront : l.encoded.drop (n + 1) with
        | nil =>
          rw [List.drop_eq_nil_iff, l.length_encoded hl] at hfront
          exact absurd hinside (Nat.not_lt.mpr hfront)
        | cons t ts =>
          have ht : lengthFromLead t = 0 := by
            rw [hlead', List.drop_succ_cons] at hfront
            exact htails' t (List.mem_of_mem_drop (hfront ▸ List.mem_cons_self))
          rw [hfront, encodeLetters_cons, hlead] at h
          cases hcount : stop - (n + 1) with
          | zero =>
            rw [hcount, List.take_zero] at h
            exact nomatch h
          | succ m =>
            rw [hcount, List.cons_append, List.take_succ_cons] at h
            obtain ⟨rfl, -⟩ := List.cons.inj h
            exact nomatch ht.symm.trans hlength
      · rw [List.drop_eq_nil_of_le (l.length_encoded hl ▸ hbehind), List.nil_append] at h
        have hstop : lettersBefore (l :: rest) stop - (lettersBefore rest (start - encodedLength l.codePoint) + 1) =
            lettersBefore rest (stop - encodedLength l.codePoint) -
              lettersBefore rest (start - encodedLength l.codePoint) := by
          rcases Nat.eq_zero_or_pos stop with rfl | hstop
          · rw [lettersBefore_zero, Nat.zero_sub, Nat.zero_sub, lettersBefore_zero, Nat.zero_sub]
          · rw [lettersBefore_cons hstop, Nat.add_sub_add_right]
        rw [hstop]
        refine ih hrest _ _ ?_
        rwa [Nat.sub_sub_sub_cancel_right hbehind]

end

/-! ## Offsets of a text -/

/-- Offsets behind the end cut off what the end cuts off. -/
theorem Span.of_min {α : Type} {s : List α} {n : Nat} (hn : s.length ≤ n) (start stop : Nat) :
    (Span.mk (min start n) (min stop n)).of s = (Span.mk start stop).of s := by
  simp only [Span.of]
  rcases Nat.le_total n start with hstart | hstart
  · rw [Nat.min_eq_right hstart, List.drop_eq_nil_of_le hn, List.drop_eq_nil_of_le (Nat.le_trans hn hstart),
      List.take_nil, List.take_nil]
  · rw [Nat.min_eq_left hstart]
    rcases Nat.le_total n stop with hstop | hstop
    · have hdrop : (s.drop start).length ≤ n - start := List.length_drop ▸ Nat.sub_le_sub_right hn start
      rw [Nat.min_eq_right hstop, List.take_of_length_le hdrop,
        List.take_of_length_le (Nat.le_trans hdrop (Nat.sub_le_sub_right hstop start))]
    · rw [Nat.min_eq_left hstop]

namespace ByteOffsets

section

variable {text : LooseText} (hproper : ∀ l ∈ text.letters, l.IsProper)

theorem charOffset_of_length_eq (h : (encodeLetters text.letters).length = text.letters.length) (b : Nat) :
    (ofText text).charOffset b = b := by
  simp only [charOffset, ofText, if_pos h]

theorem charOffset_of_length_ne (h : (encodeLetters text.letters).length ≠ text.letters.length) (b : Nat) :
    (ofText text).charOffset b = lettersBefore text.letters b := by
  have hcount := countP_byteStarts text.letters 0 b
  rw [Nat.zero_add] at hcount
  simp only [charOffset, ofText, if_neg h, List.size_toArray]
  rw [lowerBound_eq_countP (pairwise_byteStarts _ _) (Nat.zero_le _) (Nat.le_refl _)
    (fun i _ hi => absurd hi (Nat.not_lt_zero i)) (fun i hi hle => absurd hi (Nat.not_lt.mpr hle)), hcount]

theorem charOffset_mono {a b : Nat} (h : a ≤ b) : (ofText text).charOffset a ≤ (ofText text).charOffset b := by
  by_cases hlength : (encodeLetters text.letters).length = text.letters.length
  · rwa [charOffset_of_length_eq hlength, charOffset_of_length_eq hlength]
  · rw [charOffset_of_length_ne hlength, charOffset_of_length_ne hlength]
    exact lettersBefore_mono _ h

include hproper

/-- **An offset inside the bytes** leads to as many letters as start before it. -/
theorem charOffset_of_le {b : Nat} (hb : b ≤ (encodeLetters text.letters).length) :
    (ofText text).charOffset b = lettersBefore text.letters b := by
  by_cases hlength : (encodeLetters text.letters).length = text.letters.length
  · rw [charOffset_of_length_eq hlength, lettersBefore_of_length_eq hproper hlength]
    omega
  · exact charOffset_of_length_ne hlength b

theorem letters_textOn (bytes : Span) : ((ofText text).textOn bytes).letters =
    (Span.mk (lettersBefore text.letters bytes.start) (lettersBefore text.letters bytes.stop)).of text.letters := by
  change (Span.mk ((ofText text).charOffset bytes.start) ((ofText text).charOffset bytes.stop)).of text.letters = _
  by_cases hlength : (encodeLetters text.letters).length = text.letters.length
  · -- offsets behind the end are kept as they are, and cut nothing more off than the end does
    rw [charOffset_of_length_eq hlength, charOffset_of_length_eq hlength, lettersBefore_of_length_eq hproper hlength,
      lettersBefore_of_length_eq hproper hlength]
    exact (Span.of_min (Nat.le_succ _) _ _).symm
  · rw [charOffset_of_length_ne hlength, charOffset_of_length_ne hlength]

end

/-- **Offsets in bytes lead back to letters.**  For a text of characters and halves of surrogate pairs, whether it needs
a table or not: the bytes in front of a letter lead to that letter, later bytes to no earlier letter, and a byte inside
a letter to the next one.  The text that stands on the bytes of a piece of the text, wherever these are found, is that
piece. -/
theorem charOffset_and_textOn (text : LooseText) (hproper : ∀ l ∈ text.letters, l.IsProper) :
    (∀ k ≤ text.letters.length, (ofText text).charOffset (encodeLetters (text.letters.take k)).length = k) ∧
    (∀ a b, a ≤ b → (ofText text).charOffset a ≤ (ofText text).charOffset b) ∧
    (∀ k < text.letters.length, ∀ b, (encodeLetters (text.letters.take k)).length < b →
      b < (encodeLetters (text.letters.take (k + 1))).length → (ofText text).charOffset b = k + 1) ∧
    (∀ bytes i j, bytes.of (ofText text).encoded = encodeLetters ((Span.mk i j).of text.letters) →
      (ofText text).textOn bytes = ⟨(Span.mk i j).of text.letters⟩) := by
  have hinside (k : Nat) := length_encodeLetters_take_le text.letters k
  refine ⟨fun k hk => ?_, fun a b => charOffset_mono, fun k hk b hstart hstop => ?_, fun bytes i j h => ?_⟩
  · rw [charOffset_of_le hproper (hinside k), lettersBefore_length_take hproper hk]
  · rw [charOffset_of_le hproper (Nat.le_trans (Nat.le_of_lt hstop) (hinside (k + 1))),
      lettersBefore_eq hproper hk hstart (Nat.le_of_lt hstop)]
  · have hpiece : ∀ l ∈ (Span.mk i j).of text.letters, l.IsProper := fun l hl =>
      hproper l (List.mem_of_mem_drop (List.mem_of_mem_take hl))
    exact LooseText.ext_iff.mpr ((letters_textOn hproper bytes).trans (of_of_encoded_eq hproper hpiece bytes h))

/-- Letters of one, two, three and four bytes, one of them half of a pair. -/
theorem charOffset_and_textOn_mixed :
    let text : LooseText := ⟨[.char 'a', .char 'é', .half 0xd800, .char '😀', .char 'b']⟩
    (∀ l ∈ text.letters, l.IsProper) ∧ (ofText text).charOffset 6 = 3 ∧
      (ofText text).charOffset 4 ≤ (ofText text).charOffset 5 ∧ (ofText text).charOffset 8 = 4 ∧
      (ofText text).textOn ⟨1, 6⟩ = ⟨[.char 'é', .half 0xd800]⟩ := by
  intro text
  have hproper : ∀ l ∈ text.letters, l.IsProper := by decide
  obtain ⟨hback, hmono, hinside, htext⟩ := charOffset_and_textOn text hproper
  exact ⟨hproper, hback 3 (by decide), hmono 4 5 (by decide), hinside 3 (by decide) 8 (by decide) (by decide),
    htext ⟨1, 6⟩ 1 3 (by decide)⟩

end ByteOffsets

end SlotEdit
