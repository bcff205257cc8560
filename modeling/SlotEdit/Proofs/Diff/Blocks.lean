import SlotEdit.Diff.Blocks

/-!
# Proofs/Diff/Blocks — shared stretches are shared

Whatever the search takes for the longest stretch of a window, its lines are the same on either side
(`fits_longest`), and the stretches it finds stand one behind the other on both sides
(`shared_blocks`).  That it finds the longest one is of no use here: a comparison that found fewer
stretches would be as right, only longer.
-/

namespace SlotEdit.Diff

variable {α : Type} {old new : List α} {i j k l : Nat}

/-- **Lines that are the same** on either side: `k` of them, from two offsets on. -/
def Alike (old new : List α) (i j k : Nat) : Prop := ∀ d < k, ∃ a, old[i + d]? = some a ∧ new[j + d]? = some a

namespace Alike

theorem zero : Alike old new i j 0 := nofun

theorem one {a : α} (hold : old[i]? = some a) (hnew : new[j]? = some a) : Alike old new i j 1 := by
  intro d hd
  obtain rfl := Nat.lt_one_iff.mp hd
  exact ⟨a, hold, hnew⟩

theorem append (h : Alike old new i j k) (h' : Alike old new (i + k) (j + k) l) : Alike old new i j (k + l) := by
  intro d hd
  rcases Nat.lt_or_ge d k with hlt | hge
  · exact h d hlt
  · obtain ⟨a, hold, hnew⟩ := h' (d - k) (by omega)
    exact ⟨a, by rwa [Nat.add_assoc, Nat.add_sub_cancel' hge] at hold,
      by rwa [Nat.add_assoc, Nat.add_sub_cancel' hge] at hnew⟩

/-- A part of lines that are the same. -/
theorem part (h : Alike old new i j k) {d : Nat} (hd : d + l ≤ k) : Alike old new (i + d) (j + d) l := by
  intro e he
  rw [Nat.add_assoc, Nat.add_assoc]
  exact h (d + e) (by omega)

theorem le (h : Alike old new i j k) (hk : 0 < k) : i + k ≤ old.length ∧ j + k ≤ new.length := by
  obtain ⟨a, hold, hnew⟩ := h (k - 1) (by omega)
  have hold := (List.getElem?_eq_some_iff.mp hold).1
  have hnew := (List.getElem?_eq_some_iff.mp hnew).1
  omega

end Alike

/-- **A stretch that fits a window**: it is inside, and its lines are the same on either side. -/
structure Fits (old new : List α) (w : Window) (b : Block) : Prop where
  oldStart : w.oldStart ≤ b.old
  oldStop : b.old + b.length ≤ w.oldStop
  newStart : w.newStart ≤ b.new
  newStop : b.new + b.length ≤ w.newStop
  alike : Alike old new b.old b.new b.length

section

variable [BEq α] [LawfulBEq α] {w : Window}

namespace Sides

theorem sameAt_iff : (Sides.ofLists old new).sameAt i j = true ↔ ∃ a, old[i]? = some a ∧ new[j]? = some a := by
  simp only [sameAt, ofLists, List.getElem?_toArray]
  cases old[i]? with
  | none => exact ⟨nofun, nofun⟩
  | some a =>
    cases new[j]? with
    | none => exact ⟨nofun, nofun⟩
    | some b => exact ⟨fun h => ⟨a, rfl, congrArg some (eq_of_beq h).symm⟩, fun ⟨_, ha, hb⟩ =>
        beq_iff_eq.mpr ((Option.some.inj ha).trans (Option.some.inj hb).symm)⟩

/-- A line of the old side is the same as those at its places. -/
theorem sameAt_of_mem_places (h : j ∈ (Sides.ofLists old new).places.getD i []) :
    ∃ a, old[i]? = some a ∧ new[j]? = some a := by
  simp only [ofLists, Array.getD_eq_getD_getElem?, List.getElem?_toArray, List.getElem?_map] at h
  cases hold : old[i]? with
  | none =>
    rw [hold] at h
    cases h
  | some a =>
    rw [hold, Option.map_some, Option.getD_some, placesOf] at h
    split at h
    · cases h
    · have hnew := (List.mem_filter.mp h).2
      rw [List.getElem?_toArray, beq_iff_eq] at hnew
      exact ⟨a, rfl, hnew⟩

variable (old new) in
/-- The lines that stand right before two places are the same. -/
theorem alike_equalBefore (hi : w.oldStart ≤ i) (hj : w.newStart ≤ j) :
    let k := (Sides.ofLists old new).equalBefore w i j
    w.oldStart + k ≤ i ∧ w.newStart + k ≤ j ∧ Alike old new (i - k) (j - k) k := by
  fun_induction equalBefore (Sides.ofLists old new) w i j with
  | case1 i j hsame ih =>
    simp only [Bool.and_eq_true, decide_eq_true_eq] at hsame
    obtain ⟨⟨hi', hj'⟩, hsame⟩ := hsame
    obtain ⟨hik, hjk, halike⟩ := ih hi' hj'
    obtain ⟨a, hold, hnew⟩ := sameAt_iff.mp hsame
    refine ⟨by omega, by omega, ?_⟩
    change Alike old new (i + 1 - (_ + 1)) (j + 1 - (_ + 1)) _
    rw [Nat.add_sub_add_right, Nat.add_sub_add_right]
    refine halike.append (.one (a := a) ?_ ?_)
    · rw [Nat.sub_add_cancel (by omega), hold]
    · rw [Nat.sub_add_cancel (by omega), hnew]
  | case2 => exact ⟨hi, hj, .zero⟩
  | case3 => exact ⟨hi, hj, .zero⟩

variable (old new) in
/-- The lines that stand from two places on are the same. -/
theorem alike_equalFrom (turns : Nat) (hi : i ≤ w.oldStop) (hj : j ≤ w.newStop) :
    let k := (Sides.ofLists old new).equalFrom w turns i j
    i + k ≤ w.oldStop ∧ j + k ≤ w.newStop ∧ Alike old new i j k := by
  fun_induction equalFrom (Sides.ofLists old new) w turns i j with
  | case1 => exact ⟨hi, hj, .zero⟩
  | case2 i j turns hsame ih =>
    simp only [Bool.and_eq_true, decide_eq_true_eq] at hsame
    obtain ⟨⟨hi', hj'⟩, hsame⟩ := hsame
    obtain ⟨hik, hjk, halike⟩ := ih hi' hj'
    obtain ⟨a, hold, hnew⟩ := sameAt_iff.mp hsame
    refine ⟨by omega, by omega, ?_⟩
    rw [Nat.add_comm _ 1]
    exact (Alike.one hold hnew).append halike
  | case3 => exact ⟨hi, hj, .zero⟩

/-- **Lengths that are right**: a stretch of each length ends right before old line `i`, at its line of
the new side. -/
def Tells (old new : List α) (w : Window) (i : Nat) (lengths : List (Nat × Nat)) : Prop :=
  ∀ p ∈ lengths, p.2 ≤ i ∧ p.2 ≤ p.1 + 1 ∧ Fits old new w ⟨i - p.2, p.1 + 1 - p.2, p.2⟩

/-- A stretch is one line longer than the one that ends a line earlier on either side. -/
theorem tells_lengthsAt {before : List (Nat × Nat)} (hstart : w.oldStart ≤ i) (hstop : i < w.oldStop)
    (hbefore : Tells old new w i before) : Tells old new w (i + 1) ((Sides.ofLists old new).lengthsAt w i before) := by
  intro p hp
  obtain ⟨j, hj, rfl⟩ := List.mem_map.mp hp
  obtain ⟨hplace, hwindow⟩ := List.mem_filter.mp hj
  rw [Bool.and_eq_true, decide_eq_true_eq, decide_eq_true_eq] at hwindow
  obtain ⟨a, hold, hnew⟩ := sameAt_of_mem_places hplace
  obtain ⟨k, hk, hki, hkj, hfits⟩ : ∃ k, (if 0 < j then (before.lookup (j - 1)).getD 0 else 0) = k ∧ k ≤ i ∧ k ≤ j ∧
      w.oldStart ≤ i - k ∧ w.newStart ≤ j - k ∧ Alike old new (i - k) (j - k) k := by
    split
    · next hpos =>
      cases hlookup : before.lookup (j - 1) with
      | none => exact ⟨0, rfl, by omega, by omega, hstart, hwindow.1, .zero⟩
      | some k =>
        obtain ⟨front, back, rfl, -⟩ := List.lookup_eq_some_iff.mp hlookup
        obtain ⟨hki, hkj, hfits⟩ := hbefore (j - 1, k) (List.mem_append_right front List.mem_cons_self)
        dsimp only at hki hkj hfits
        rw [Nat.sub_add_cancel hpos] at hkj hfits
        exact ⟨k, rfl, hki, hkj, hfits.oldStart, hfits.newStart, hfits.alike⟩
    · exact ⟨0, rfl, by omega, by omega, hstart, hwindow.1, .zero⟩
  rw [hk]
  refine ⟨by omega, by omega, ?_⟩
  rw [Nat.add_sub_add_right, Nat.add_sub_add_right]
  refine ⟨hfits.1, by dsimp only; omega, hfits.2.1, by dsimp only; omega, hfits.2.2.append (.one (a := a) ?_ ?_)⟩
  · rw [Nat.sub_add_cancel hki, hold]
  · rw [Nat.sub_add_cancel hkj, hnew]

omit [BEq α] [LawfulBEq α] in
theorem fits_better {best : Block} {lengths : List (Nat × Nat)} (hbest : Fits old new w best)
    (hlengths : Tells old new w (i + 1) lengths) : Fits old new w (better i best lengths) := by
  induction lengths generalizing best with
  | nil => exact hbest
  | cons p lengths ih =>
    obtain ⟨hp, hlengths⟩ := List.forall_mem_cons.mp hlengths
    refine ih ?_ hlengths
    dsimp only
    split
    · exact hp.2.2
    · exact hbest

variable (old new) in
theorem fits_longestCore (hold : w.oldStart ≤ w.oldStop) (hnew : w.newStart ≤ w.newStop) :
    Fits old new w ((Sides.ofLists old new).longestCore w) := by
  have hturns (n : Nat) (hn : n ≤ w.oldStop - w.oldStart) :
      let found := (List.range n).foldl
        (fun found d =>
          let i := w.oldStart + d
          let lengths := (Sides.ofLists old new).lengthsAt w i found.2
          (better i found.1 lengths, lengths))
        ((⟨w.oldStart, w.newStart, 0⟩ : Block), [])
      Fits old new w found.1 ∧ Tells old new w (w.oldStart + n) found.2 := by
    induction n with
    | zero => exact ⟨⟨Nat.le_refl _, hold, Nat.le_refl _, hnew, .zero⟩, fun _ => (absurd · List.not_mem_nil)⟩
    | succ n ih =>
      obtain ⟨hbest, hbefore⟩ := ih (by omega)
      rw [List.range_succ, List.foldl_append]
      have hlengths := tells_lengthsAt (Nat.le_add_right _ _) (by omega) hbefore
      exact ⟨fits_better hbest hlengths, hlengths⟩
  exact (hturns _ (Nat.le_refl _)).1

variable (old new) in
/-- **The longest stretch of a window fits it.** -/
theorem fits_longest (hold : w.oldStart ≤ w.oldStop) (hnew : w.newStart ≤ w.newStop) :
    Fits old new w ((Sides.ofLists old new).longest w) := by
  have hcore := fits_longestCore old new hold hnew
  obtain ⟨holdStart, hnewStart, hbefore⟩ := alike_equalBefore old new hcore.oldStart hcore.newStart
  obtain ⟨holdStop, hnewStop, hbehind⟩ :=
    alike_equalFrom old new (w.oldStop - w.oldStart) hcore.oldStop hcore.newStop
  rw [longest]
  generalize (Sides.ofLists old new).longestCore w = core at *
  generalize (Sides.ofLists old new).equalBefore w core.old core.new = back at *
  generalize (Sides.ofLists old new).equalFrom w (w.oldStop - w.oldStart) (core.old + core.length)
    (core.new + core.length) = on at *
  have halike : Alike old new (core.old - back) (core.new - back) (back + core.length + on) := by
    refine (hbefore.append ?_).append ?_
    · rw [Nat.sub_add_cancel (by omega), Nat.sub_add_cancel (by omega)]
      exact hcore.alike
    · rw [← Nat.add_assoc, ← Nat.add_assoc, Nat.sub_add_cancel (by omega), Nat.sub_add_cancel (by omega)]
      exact hbehind
  rw [Nat.add_comm back] at halike
  exact ⟨by dsimp only; omega, by dsimp only; omega, by dsimp only; omega, by dsimp only; omega, halike⟩

end Sides

end

/-! ## Stretches one behind the other -/

/-- **Shared stretches in order**: each is behind the one before on both sides, is not empty, and has
the same lines on either side. -/
def Shared (old new : List α) (i j i' j' : Nat) : List Block → Prop
  | [] => i ≤ i' ∧ j ≤ j'
  | b :: rest => i ≤ b.old ∧ j ≤ b.new ∧ 0 < b.length ∧ Alike old new b.old b.new b.length ∧
      Shared old new (b.old + b.length) (b.new + b.length) i' j' rest

namespace Shared

variable {i' j' i'' j'' : Nat} {bs bs' : List Block}

theorem widen (h : Shared old new i j i' j' bs) {i₀ j₀ : Nat} (hi : i₀ ≤ i) (hj : j₀ ≤ j) :
    Shared old new i₀ j₀ i' j' bs := by
  cases bs with
  | nil => exact ⟨Nat.le_trans hi h.1, Nat.le_trans hj h.2⟩
  | cons b bs => exact ⟨Nat.le_trans hi h.1, Nat.le_trans hj h.2.1, h.2.2⟩

theorem append (h : Shared old new i j i' j' bs) (h' : Shared old new i' j' i'' j'' bs') :
    Shared old new i j i'' j'' (bs ++ bs') := by
  induction bs generalizing i j with
  | nil => exact h'.widen h.1 h.2
  | cons b bs ih => exact ⟨h.1, h.2.1, h.2.2.1, h.2.2.2.1, ih h.2.2.2.2⟩

/-- **Stretches that touch** are one. -/
theorem joinTouching (h : Shared old new i j i' j' bs) : Shared old new i j i' j' (joinTouching bs) := by
  fun_induction Diff.joinTouching bs generalizing i j with
  | case1 => exact h
  | case2 b rest hnone ih =>
    obtain ⟨hi, hj, hpos, halike, hrest⟩ := h
    exact ⟨hi, hj, hpos, halike, hnone ▸ ih hrest⟩
  | case3 b rest next more hmore htouch ih =>
    obtain ⟨hi, hj, hpos, halike, hrest⟩ := h
    have hrest := ih hrest
    rw [hmore] at hrest
    obtain ⟨-, -, -, halike', hmore'⟩ := hrest
    refine ⟨hi, hj, Nat.add_pos_left hpos _, halike.append ?_, ?_⟩
    · rw [htouch.1, htouch.2]
      exact halike'
    · dsimp only
      rw [← Nat.add_assoc, ← Nat.add_assoc, htouch.1, htouch.2]
      exact hmore'
  | case4 b rest next more hmore hapart ih =>
    obtain ⟨hi, hj, hpos, halike, hrest⟩ := h
    exact ⟨hi, hj, hpos, halike, hmore ▸ ih hrest⟩

end Shared

variable [BEq α] [LawfulBEq α]

theorem shared_blocksIn {w : Window} (turns : Nat) (hold : w.oldStart ≤ w.oldStop) (hnew : w.newStart ≤ w.newStop) :
    Shared old new w.oldStart w.newStart w.oldStop w.newStop ((Sides.ofLists old new).blocksIn turns w) := by
  induction turns generalizing w with
  | zero => exact ⟨hold, hnew⟩
  | succ turns ih =>
    have hfits := Sides.fits_longest old new hold hnew
    -- what is left on one side of the longest stretch is searched when neither text ends there
    have hpart (v : Window) (go : Bool) (hold : v.oldStart ≤ v.oldStop) (hnew : v.newStart ≤ v.newStop) :
        Shared old new v.oldStart v.newStart v.oldStop v.newStop
          (if go then (Sides.ofLists old new).blocksIn turns v else []) := by
      split
      · exact ih hold hnew
      · exact ⟨hold, hnew⟩
    rw [Sides.blocksIn]
    generalize (Sides.ofLists old new).longest w = b at *
    dsimp only
    split
    · exact ⟨hold, hnew⟩
    · next hlength =>
      obtain ⟨holdStart, holdStop, hnewStart, hnewStop, halike⟩ := hfits
      exact (hpart ⟨w.oldStart, b.old, w.newStart, b.new⟩ _ holdStart hnewStart).append
        ⟨Nat.le_refl _, Nat.le_refl _, Nat.pos_of_ne_zero hlength, halike,
          hpart ⟨b.old + b.length, w.oldStop, b.new + b.length, w.newStop⟩ _ holdStop hnewStop⟩

/-- **The stretches two lists share** are shared, and stand in order on both sides. -/
theorem shared_blocks (old new : List α) : Shared old new 0 0 old.length new.length (blocks old new) :=
  (shared_blocksIn (w := ⟨0, old.length, 0, new.length⟩) _ (Nat.zero_le _) (Nat.zero_le _)).joinTouching

end SlotEdit.Diff
