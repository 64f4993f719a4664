import ReversibleSynthesis.Proofs.Traversal

namespace ReversibleSynthesis.PhasePolynomial.Sweep

variable {α : Type} {s : Sweep α} {source : List (α × (State → Bool))}

theorem parityHas_cnot {c t : Nat} (v : Nat) {r : Nat} (hr : r < s.parities.size) :
    (s.cnot c t).parityHas v r =
      (s.parityHas v r ^^ (decide (r = t) && s.parityHas v c)) := by
  have hrow : (s.cnot c t).parities.getD r 0 =
      if r = t then s.parities.getD r 0 ^^^ s.parities.getD c 0 else s.parities.getD r 0 :=
    getD_parities_link hr
  unfold parityHas
  rw [hrow]
  by_cases h : r = t
  · rw [if_pos h, Nat.testBit_xor, decide_eq_true h, Bool.true_and]
  · simp [h]

def Cleared (s : Sweep α) (col : Nat) : Prop :=
  ∀ v < col, ∀ r < s.width, s.parityHas v r = decide (r = v)

theorem Tracks.eq_false_of_parities (h : Tracks source s) {x : State}
    (hx : ∀ q < s.width, dot s.width (s.parities.getD q 0) x = false)
    (hout : ∀ q, s.width ≤ q → x q = false) (q : Nat) : x q = false := by
  have hvalid : ∀ g ∈ s.gates.toList, g.target ∉ g.controls :=
    fun g hg => (h.elementary g hg).valid.target_notMem
  have houter : ∀ y : State, ∀ r, s.width ≤ r → after s.gates.toList y r = y r := by
    intro y r hr
    apply after_of_not_target
    intro g hg heq
    have := (h.elementary g hg).valid.target_lt
    omega
  have hsame : after s.gates.toList x = after s.gates.toList (fun _ => false) := by
    funext r
    by_cases hr : r < s.width
    · rw [h.parities r hr, h.parities r hr, hx r hr, dot_zero_state]
    · rw [houter x r (by omega), houter _ r (by omega), hout r (by omega)]
  exact congrFun (after_injective hvalid hsame) q

def columnState (s : Sweep α) (col : Nat) : State :=
  fun i => decide (i = col) || (decide (i < col) && s.parityHas col i)

theorem dot_columnState {col q : Nat} (hcol : col < s.width) (hq : q < s.width)
    (hcleared : s.Cleared col) :
    dot s.width (s.parities.getD q 0) (s.columnState col) =
      (s.parityHas col q ^^ (decide (q < col) && s.parityHas col q)) := by
  have hterm : ∀ i < s.width, ((s.parities.getD q 0).testBit i && s.columnState col i) =
      ((decide (i = col) && s.parityHas col q) ^^
        (decide (i = q) && (decide (q < col) && s.parityHas col q))) := by
    intro i _
    change (s.parityHas i q && _) = _
    unfold columnState
    rcases Nat.lt_trichotomy i col with hi | rfl | hi
    · rw [hcleared i hi q hq]
      by_cases hiq : i = q
      · subst hiq; simp [hi, Nat.ne_of_lt hi]
      · simp [hi, Nat.ne_of_lt hi, hiq, Ne.symm hiq]
    · by_cases hiq : i = q
      · subst hiq; simp
      · simp [hiq]
    · by_cases hiq : i = q
      · subst hiq; simp [Nat.ne_of_gt hi, Nat.lt_asymm hi]
      · simp [Nat.ne_of_gt hi, Nat.lt_asymm hi, hiq]
  rw [dot, xorSum_congr hterm, xorSum_xor, xorSum_single, xorSum_single]
  simp [hcol, hq]

theorem Tracks.exists_pivot (h : Tracks source s) {col : Nat} (hcol : col < s.width)
    (hcleared : s.Cleared col) : ∃ r, col ≤ r ∧ r < s.width ∧ s.parityHas col r = true := by
  by_contra hnone
  have hzero : s.columnState col col = false := by
    apply h.eq_false_of_parities
    · intro q hq
      rw [dot_columnState hcol hq hcleared]
      by_cases hlt : q < col
      · simp [hlt]
      · have hfalse : s.parityHas col q = false := by
          by_contra htrue
          exact hnone ⟨q, by omega, hq, by simpa using htrue⟩
        simp [hfalse]
    · intro q hq
      simp [columnState, show q ≠ col by omega, show ¬ q < col by omega]
  simp [columnState] at hzero

def pivoted (s : Sweep α) (col : Nat) : Sweep α :=
  if s.parityHas col col then s
  else
    match (List.range s.width).find? (fun r => decide (col < r) && s.parityHas col r) with
    | some r => s.cnot r col
    | none => s

def sweptOff (col : Nat) (rows : List Nat) (s : Sweep α) : Sweep α :=
  rows.foldl (fun s r => if r != col && s.parityHas col r then s.cnot col r else s) s

theorem eliminate_eq (s : Sweep α) (col : Nat) :
    s.eliminate col = sweptOff col (List.range (s.pivoted col).width) (s.pivoted col) := rfl

theorem pivoted_spec (h : Tracks source s) {col : Nat} (hcol : col < s.width)
    (hcleared : s.Cleared col) :
    Reaches s (s.pivoted col) ∧ (s.pivoted col).Cleared col ∧
      (s.pivoted col).parityHas col col = true := by
  unfold pivoted
  split
  · next hhas => exact ⟨.refl s, hcleared, hhas⟩
  · next hhas =>
    split
    · next r hr =>
      have hmem := List.mem_range.mp (List.mem_of_find?_eq_some hr)
      have hfound := List.find?_some hr
      simp only [Bool.and_eq_true, decide_eq_true_eq] at hfound
      have hsize := h.size_parities
      refine ⟨.cnot hmem hcol (by omega), ?_, ?_⟩
      · intro v hv q hq
        rw [width_cnot] at hq
        rw [parityHas_cnot v (hsize ▸ hq), hcleared v hv q hq, hcleared v hv r hmem]
        simp [show r ≠ v by omega]
      · rw [parityHas_cnot col (hsize ▸ hcol), hfound.2]
        simp [hhas]
    · next hnone =>
      obtain ⟨r, hle, hr, htrue⟩ := h.exists_pivot hcol hcleared
      have hne : r ≠ col := fun heq => hhas (heq ▸ htrue)
      have hnot := List.find?_eq_none.mp hnone r (List.mem_range.mpr hr)
      simp [htrue, show col < r by omega] at hnot

theorem size_parities_cnot (s : Sweep α) (c t : Nat) :
    (s.cnot c t).parities.size = s.parities.size :=
  Array.size_modify

theorem sweptOff_reaches {col : Nat} (hcol : col < s.width) {rows : List Nat}
    (hrows : ∀ r ∈ rows, r < s.width) : Reaches s (sweptOff col rows s) := by
  induction rows generalizing s with
  | nil => exact .refl s
  | cons r rows ih =>
    rw [sweptOff, List.foldl_cons]
    have hrest : ∀ q ∈ rows, q < s.width := fun q hq => hrows q (List.mem_cons_of_mem r hq)
    split
    · next h =>
      simp only [Bool.and_eq_true, bne_iff_ne] at h
      have hstep := Reaches.cnot hcol (hrows r List.mem_cons_self) (Ne.symm h.1)
      exact hstep.trans (ih (s := s.cnot col r) hcol hrest)
    · exact ih hcol hrest

theorem parityHas_sweptOff {col : Nat} (hcol : col < s.parities.size) {rows : List Nat}
    (hnodup : rows.Nodup) (v : Nat) {r : Nat} (hr : r < s.parities.size) :
    (sweptOff col rows s).parityHas v r =
      (s.parityHas v r ^^
        (decide (r ∈ rows ∧ r ≠ col) && (s.parityHas col r && s.parityHas v col))) := by
  induction rows generalizing s with
  | nil => simp [sweptOff]
  | cons q rows ih =>
    obtain ⟨hq, hnodup⟩ := List.nodup_cons.mp hnodup
    rw [sweptOff, List.foldl_cons]
    split
    · next h =>
      simp only [Bool.and_eq_true, bne_iff_ne] at h
      change (sweptOff col rows (s.cnot col q)).parityHas v r = _
      rw [ih (by rwa [size_parities_cnot]) hnodup (by rwa [size_parities_cnot]),
        parityHas_cnot v hr, parityHas_cnot col hr, parityHas_cnot v hcol]
      by_cases hrq : r = q
      · subst hrq
        simp [hq, h.1, h.2]
      · simp [hrq, Ne.symm h.1]
    · next h =>
      change (sweptOff col rows s).parityHas v r = _
      rw [ih hcol hnodup hr]
      by_cases hrq : r = q
      · subst hrq
        have hoff : ¬ r = col → s.parityHas col r = false := by simpa using h
        by_cases hrc : r = col
        · simp [hrc]
        · simp [hoff hrc]
      · simp [hrq]

theorem eliminate_spec (h : Tracks source s) {col : Nat} (hcol : col < s.width)
    (hcleared : s.Cleared col) :
    Reaches s (s.eliminate col) ∧ (s.eliminate col).Cleared (col + 1) := by
  obtain ⟨hpivot, hkept, hhas⟩ := pivoted_spec h hcol hcleared
  have htracks := hpivot.tracks h
  rw [eliminate_eq]
  generalize s.pivoted col = u at hpivot hkept hhas htracks
  have hcol' : col < u.width := hpivot.width ▸ hcol
  have hoff : Reaches u (sweptOff col (List.range u.width) u) :=
    sweptOff_reaches hcol' fun r hr => List.mem_range.mp hr
  refine ⟨hpivot.trans hoff, ?_⟩
  intro v hv r hr
  rw [hoff.width] at hr
  rw [parityHas_sweptOff (htracks.size_parities ▸ hcol') List.nodup_range v
    (htracks.size_parities ▸ hr)]
  rcases Nat.lt_or_eq_of_le (Nat.le_of_lt_succ hv) with hlt | rfl
  · rw [hkept v hlt r hr, hkept v hlt col hcol']
    simp [show col ≠ v by omega]
  · rw [hhas]
    by_cases hrv : r = v
    · subst hrv; simp [hhas]
    · simp [hrv, hr]

theorem foldl_eliminate_spec (h : Tracks source s) {n : Nat} (hn : n ≤ s.width) :
    Reaches s ((List.range n).foldl eliminate s) ∧
      ((List.range n).foldl eliminate s).Cleared n := by
  induction n with
  | zero => exact ⟨.refl s, nofun⟩
  | succ n ih =>
    obtain ⟨hreach, hcleared⟩ := ih (by omega)
    rw [List.range_succ, List.foldl_append, List.foldl_cons, List.foldl_nil]
    have hlt : n < ((List.range n).foldl eliminate s).width := hreach.width ▸ hn
    obtain ⟨hstep, hnext⟩ := eliminate_spec (hreach.tracks h) hlt hcleared
    exact ⟨hreach.trans hstep, hnext⟩

theorem finished_spec (h : Tracks source s) :
    Reaches s.folded s.finished ∧ s.finished.Cleared s.folded.width :=
  foldl_eliminate_spec (s.folded_reaches.tracks h.realize) (Nat.le_refl _)

theorem Tracks.finished (h : Tracks source s) : Tracks source s.finished :=
  (finished_spec h).1.tracks (s.folded_reaches.tracks h.realize)

theorem after_finished (h : Tracks source s) (x : State) : after s.finished.gates.toList x = x := by
  have htracks := h.finished
  obtain ⟨hreach, hcleared⟩ := finished_spec h
  have hwidth := hreach.width
  funext q
  by_cases hq : q < s.finished.width
  · have hrow : ∀ i < s.finished.width, ((s.finished.parities.getD q 0).testBit i && x i) =
        (decide (i = q) && x q) := by
      intro i hi
      change (s.finished.parityHas i q && x i) = _
      rw [hcleared i (hwidth ▸ hi) q hq]
      by_cases hiq : i = q
      · subst hiq; simp
      · simp [hiq, Ne.symm hiq]
    rw [htracks.parities q hq, dot, xorSum_congr hrow, xorSum_single]
    simp [hq]
  · apply after_of_not_target
    intro g hg heq
    have := (htracks.elementary g hg).valid.target_lt
    omega

theorem readings_finished (h : Tracks source s) : (readings s.finished.gates.toList).Perm source := by
  have hdone : s.finished.terms.toList.filter (·.done) = s.finished.terms.toList := by
    refine List.filter_eq_self.mpr fun p hp => done_of_isPending (fun i => ?_) hp
    exact (finished_spec h).1.isPending (isPending_folded h i)
  have hplaced := h.finished.placed
  rw [hdone, h.finished.terms] at hplaced
  exact hplaced

end ReversibleSynthesis.PhasePolynomial.Sweep
