import Mathlib.Data.List.TakeWhile
import Mathlib.Tactic.ByContra
import SlotEdit.Text.Lines

/-!
# Proofs/Text/Offsets — offsets and positions of one text convert into each other

`positionAt` and `offsetAt` are inverse on the offsets of a text (`offsetAt_positionAt`) and
monotone everywhere (`positionAt_le_positionAt`, `offsetAt_le_offsetAt`), also where they clamp.
Both rest on one fact: the lines of a text start at strictly increasing offsets.
-/

namespace SlotEdit

/-! ## Slices -/

theorem sliceList_append_append {α : Type} (a b c : List α) :
    sliceList (a ++ b ++ c) a.length (a.length + b.length) = b := by
  simp [sliceList]

theorem take_append_sliceList {α : Type} (s : List α) {a b : Nat} (h : a ≤ b) :
    s.take a ++ sliceList s a b = s.take b := by
  rw [sliceList, ← List.take_add, Nat.add_sub_cancel' h]

theorem sliceList_append_drop {α : Type} (s : List α) {a b : Nat} (h : a ≤ b) :
    sliceList s a b ++ s.drop b = s.drop a := by
  have hb : s.drop b = (s.drop a).drop (b - a) := by rw [List.drop_drop, Nat.add_sub_cancel' h]
  rw [sliceList, hb, List.take_append_drop]

theorem sliceList_append_sliceList {α : Type} (s : List α) {a b c : Nat} (hab : a ≤ b) (hbc : b ≤ c) :
    sliceList s a b ++ sliceList s b c = sliceList s a c := by
  rw [sliceList, sliceList, sliceList, show c - a = (b - a) + (c - b) by omega, List.take_add, List.drop_drop,
    Nat.add_sub_cancel' hab]

theorem sliceList_self {α : Type} (s : List α) (a : Nat) : sliceList s a a = [] := by
  rw [sliceList, Nat.sub_self, List.take_zero]

theorem sliceList_length {α : Type} (s : List α) (a : Nat) : sliceList s a s.length = s.drop a := by
  rw [sliceList, List.take_of_length_le (List.length_drop.le)]

theorem length_sliceList {α : Type} (s : List α) {a b : Nat} (hb : b ≤ s.length) :
    (sliceList s a b).length = b - a := by
  rw [sliceList, List.length_take, List.length_drop]
  omega

/-! ## Line starts -/

theorem lt_of_mem_lineStartsFrom {s : List Char} {offset x : Nat}
    (h : x ∈ lineStartsFrom offset s) : offset < x ∧ x ≤ offset + s.length := by
  induction s generalizing offset with
  | nil => simp [lineStartsFrom] at h
  | cons c rest ih =>
    rw [lineStartsFrom] at h
    have later (h : x ∈ lineStartsFrom (offset + 1) rest) :
        offset < x ∧ x ≤ offset + (rest.length + 1) := by
      have := ih h
      omega
    split at h
    · rcases List.mem_cons.mp h with rfl | h
      · exact ⟨by omega, by simp⟩
      · exact later h
    · exact later h

theorem pairwise_lineStartsFrom (s : List Char) (offset : Nat) :
    (lineStartsFrom offset s).Pairwise (· < ·) := by
  induction s generalizing offset with
  | nil => exact List.Pairwise.nil
  | cons c rest ih =>
    rw [lineStartsFrom]
    split
    · exact List.pairwise_cons.mpr ⟨fun x hx => (lt_of_mem_lineStartsFrom hx).1, ih _⟩
    · exact ih _

/-! ## Lines as intervals of offsets -/

namespace LineTable

/-- A table that lines can be looked up in: the first line starts at 0, each one after the one
before it, and none behind the end. -/
structure Sound (t : LineTable) : Prop where
  first : t.starts[0]? = some 0
  sorted : t.starts.Pairwise (· < ·)
  bounded : ∀ x ∈ t.starts, x ≤ t.length

theorem sound_ofList (s : List Char) : (ofList s).Sound where
  first := rfl
  sorted := List.pairwise_cons.mpr
    ⟨fun _ hx => (lt_of_mem_lineStartsFrom hx).1, pairwise_lineStartsFrom s 0⟩
  bounded x hx := by
    rcases List.mem_cons.mp hx with rfl | hx
    · exact Nat.zero_le _
    · have := (lt_of_mem_lineStartsFrom hx).2
      rwa [Nat.zero_add] at this

variable {t : LineTable}

theorem Sound.start_lt_start (h : t.Sound) {i j a b : Nat} (hi : t.starts[i]? = some a)
    (hj : t.starts[j]? = some b) (hij : i < j) : a < b := by
  obtain ⟨hi', rfl⟩ := List.getElem?_eq_some_iff.mp hi
  obtain ⟨hj', rfl⟩ := List.getElem?_eq_some_iff.mp hj
  exact List.pairwise_iff_getElem.mp h.sorted i j hi' hj' hij

theorem Sound.start_le_lineEnd (h : t.Sound) {row start : Nat} (hr : t.starts[row]? = some start) :
    start ≤ t.lineEnd row := by
  rw [lineEnd]
  split
  · next next hn =>
    have := h.start_lt_start hr hn (Nat.lt_succ_self row)
    omega
  · exact h.bounded _ (List.mem_of_getElem? hr)

theorem Sound.lineEnd_le (h : t.Sound) (row : Nat) : t.lineEnd row ≤ t.length := by
  rw [lineEnd]
  split
  · next next hn =>
    have := h.bounded _ (List.mem_of_getElem? hn)
    omega
  · exact Nat.le_refl _

theorem Sound.lineEnd_lt_start (h : t.Sound) {row row' start : Nat} (hlt : row < row')
    (hr : t.starts[row']? = some start) : t.lineEnd row < start := by
  obtain ⟨hlen, -⟩ := List.getElem?_eq_some_iff.mp hr
  have hnext : t.starts[row + 1]? = some t.starts[row + 1] := List.getElem?_eq_getElem (by omega)
  obtain ⟨hrow, hr0⟩ : ∃ start₀, t.starts[row]? = some start₀ :=
    ⟨_, List.getElem?_eq_getElem (by omega)⟩
  have hpos := h.start_lt_start hr0 hnext (Nat.lt_succ_self row)
  rw [lineEnd, hnext]
  rcases Nat.lt_or_ge (row + 1) row' with hlt' | hge
  · have := h.start_lt_start hnext hr hlt'
    simp only
    omega
  · obtain rfl : row' = row + 1 := by omega
    rw [hnext] at hr
    injection hr with hr
    simp only
    omega

/-! ## From offsets to positions -/

/-- **The row of an offset**: the line that starts at or before it and ends at or behind it. -/
theorem Sound.rowAt_spec (h : t.Sound) (o : Nat) :
    ∃ start, t.starts[t.rowAt o]? = some start ∧ start ≤ o ∧ (o ≤ t.length → o ≤ t.lineEnd (t.rowAt o)) := by
  obtain ⟨starts, length⟩ := t
  obtain ⟨first, sorted, bounded⟩ := h
  simp only at first sorted bounded
  simp only [rowAt, lineEnd]
  obtain ⟨rest, rfl⟩ : ∃ rest, starts = 0 :: rest := by
    cases starts with
    | nil => simp at first
    | cons a rest => exact ⟨rest, by simpa using first⟩
  set front := (0 :: rest).takeWhile (· ≤ o) with hfront
  have hsplit : front ++ (0 :: rest).dropWhile (· ≤ o) = 0 :: rest := List.takeWhile_append_dropWhile
  have hpos : 0 < front.length := by simp [hfront]
  have hlast : front.length - 1 < front.length := by omega
  have hget : (0 :: rest)[front.length - 1]? = some front[front.length - 1] := by
    rw [← hsplit, List.getElem?_append_left hlast, List.getElem?_eq_getElem hlast]
  refine ⟨front[front.length - 1], hget, ?_, fun ho => ?_⟩
  · have hmem : front[front.length - 1] ∈ (0 :: rest).takeWhile (· ≤ o) := List.getElem_mem hlast
    simpa using List.mem_takeWhile_imp hmem
  · rw [Nat.sub_add_cancel hpos, ← hsplit, List.getElem?_append_right (Nat.le_refl _), Nat.sub_self]
    cases hd : (0 :: rest).dropWhile (· ≤ o) with
    | nil => simpa using ho
    | cons next more =>
      have hnot := List.head_dropWhile_not (p := fun x => decide (x ≤ o)) (l := 0 :: rest)
        (by rw [hd]; simp)
      simp only [hd, List.head_cons, decide_eq_false_iff_not, Nat.not_le] at hnot
      simp only [List.getElem?_cons_zero]
      omega

theorem Sound.rowAt_mono (h : t.Sound) {o o' : Nat} (hle : o ≤ o') (ho' : o' ≤ t.length) :
    t.rowAt o ≤ t.rowAt o' := by
  obtain ⟨start, hs, hso, -⟩ := h.rowAt_spec o
  obtain ⟨start', hs', -, hend⟩ := h.rowAt_spec o'
  by_contra hlt
  have hbefore := h.lineEnd_lt_start (Nat.lt_of_not_le hlt) hs
  have hbehind := hend ho'
  omega

theorem clamp_le (t : LineTable) (o : Int) : t.clamp o ≤ t.length := Nat.min_le_right _ _

theorem clamp_of_le {o : Nat} (h : o ≤ t.length) : t.clamp o = o := by
  rw [clamp, Int.toNat_natCast, Nat.min_eq_left h]

theorem clamp_mono {a b : Int} (h : a ≤ b) : t.clamp a ≤ t.clamp b := by
  simp only [clamp]
  omega

/-- The position of an offset names its row and how far behind the start of the line it lies. -/
theorem Sound.positionAt_spec (h : t.Sound) (o : Int) :
    ∃ start, t.starts[t.rowAt (t.clamp o)]? = some start ∧ start ≤ t.clamp o ∧
      t.clamp o ≤ t.lineEnd (t.rowAt (t.clamp o)) ∧
      t.positionAt o = ⟨t.rowAt (t.clamp o), (t.clamp o : Int) - start⟩ := by
  obtain ⟨start, hs, hle, hend⟩ := h.rowAt_spec (t.clamp o)
  refine ⟨start, hs, hle, hend (clamp_le t o), ?_⟩
  rw [positionAt, List.getD_eq_getElem?_getD, hs]
  rfl

/-- **Later offsets have later positions.** -/
theorem Sound.positionAt_le_positionAt (h : t.Sound) {a b : Int} (hab : a ≤ b) :
    t.positionAt a ≤ t.positionAt b := by
  obtain ⟨sa, hsa, -, -, ha⟩ := h.positionAt_spec a
  obtain ⟨sb, hsb, -, -, hb⟩ := h.positionAt_spec b
  have hclamp := clamp_mono (t := t) hab
  rw [ha, hb, Position.le_def]
  rcases Nat.lt_or_eq_of_le (h.rowAt_mono hclamp (clamp_le t b)) with hlt | heq
  · exact Or.inl (Int.ofNat_lt.mpr hlt)
  · rw [← heq, hsa] at hsb
    injection hsb with hsb
    exact Or.inr ⟨by rw [heq], by simp only; omega⟩

/-! ## From positions to offsets -/

theorem Sound.offsetAt_of_row (h : t.Sound) {p : Position} {start : Nat} (hp : 0 ≤ p.row)
    (hs : t.starts[p.row.toNat]? = some start) :
    start ≤ t.offsetAt p ∧ t.offsetAt p ≤ t.lineEnd p.row.toNat := by
  have hend := h.start_le_lineEnd hs
  rw [offsetAt, if_neg (by omega), hs]
  simp only
  omega

theorem Sound.offsetAt_le_length (h : t.Sound) (p : Position) : t.offsetAt p ≤ t.length := by
  rw [offsetAt]
  split
  · exact Nat.zero_le _
  · split
    · exact Nat.le_refl _
    · next start hs =>
      have := h.start_le_lineEnd hs
      have := h.lineEnd_le p.row.toNat
      omega

/-- **The position of an offset leads back to it.** -/
theorem Sound.offsetAt_positionAt (h : t.Sound) (o : Int) : t.offsetAt (t.positionAt o) = t.clamp o := by
  obtain ⟨start, hs, hle, hend, hpos⟩ := h.positionAt_spec o
  rw [hpos, offsetAt, if_neg (by simp only; omega)]
  simp only [Int.toNat_natCast, hs]
  omega

/-- **Later positions have later offsets**, also where they lie outside the text. -/
theorem Sound.offsetAt_le_offsetAt (h : t.Sound) {p q : Position} (hpq : p ≤ q) :
    t.offsetAt p ≤ t.offsetAt q := by
  rw [Position.le_def] at hpq
  by_cases hp : p.row < 0
  · rw [offsetAt, if_pos hp]
    exact Nat.zero_le _
  have hq : ¬ q.row < 0 := by omega
  cases hsq : t.starts[q.row.toNat]? with
  | none =>
    have hend : t.offsetAt q = t.length := by rw [offsetAt, if_neg hq, hsq]
    exact hend ▸ h.offsetAt_le_length p
  | some startq =>
    obtain ⟨hlen, -⟩ := List.getElem?_eq_some_iff.mp hsq
    obtain ⟨startp, hsp⟩ : ∃ startp, t.starts[p.row.toNat]? = some startp :=
      ⟨_, List.getElem?_eq_getElem (by omega)⟩
    rcases hpq with hlt | ⟨hrow, hcol⟩
    · have h₁ := (h.offsetAt_of_row (by omega) hsp).2
      have h₂ := h.lineEnd_lt_start (show p.row.toNat < q.row.toNat by omega) hsq
      have h₃ := (h.offsetAt_of_row (by omega) hsq).1
      omega
    · rw [hrow, hsq] at hsp
      injection hsp with hsp
      rw [offsetAt, offsetAt, if_neg hp, if_neg hq, hrow, hsq]
      simp only
      omega

/-- The position of an offset outside the text is that of the nearest one inside. -/
theorem positionAt_clamp (o : Int) : t.positionAt (t.clamp o) = t.positionAt o := by
  rw [positionAt, positionAt, clamp_of_le (clamp_le t o)]

/-- **Offsets have different positions** when they lie at different places of the text. -/
theorem Sound.positionAt_lt_positionAt (h : t.Sound) {a b : Int} :
    t.positionAt a < t.positionAt b ↔ t.clamp a < t.clamp b := by
  rw [← not_iff_not, Position.not_lt, Nat.not_lt, ← h.offsetAt_positionAt b, ← h.offsetAt_positionAt a]
  refine ⟨h.offsetAt_le_offsetAt, fun hle => ?_⟩
  rw [h.offsetAt_positionAt, h.offsetAt_positionAt] at hle
  rw [← positionAt_clamp a, ← positionAt_clamp b]
  exact h.positionAt_le_positionAt (Int.ofNat_le.mpr hle)

end LineTable

end SlotEdit
