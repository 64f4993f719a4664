import ReversibleSynthesis.Proofs.PhasePolynomial

namespace ReversibleSynthesis

variable {α : Type}

namespace PhasePolynomial

namespace Sweep

variable {source : List (α × (State → Bool))} {s : Sweep α} {ts rows : List Nat}
  {target? : Option Nat}

structure Waiting (s : Sweep α) (ts rows : List Nat) (target? : Option Nat) : Prop where
  agree : ∀ r, r ∉ rows → ∀ t ∈ ts, ∀ u ∈ ts, s.isPending t = true → s.isPending u = true →
    s.coeff r t = s.coeff r u
  target : ∀ i ∈ target?, ∀ t ∈ ts, s.isPending t = true → s.coeff i t = true
  closed : target? = none → ∀ r, r ∉ rows → ¬ s.Open ts r

theorem Waiting.run {allowed : Nat → Nat → Prop} {s' : Sweep α} {i : Nat}
    (h : Waiting s ts rows (some i)) (hrun : Via allowed s s')
    (hallowed : (∀ c t, allowed c t → t = i) ∨ i ∉ rows ∧ ∀ c t, allowed c t → c ∈ rows) :
    Waiting s' ts rows (some i) := by
  have hpend : ∀ {t : Nat}, s'.isPending t = true → s.isPending t = true :=
    fun ht => hrun.reaches.isPending_of_isPending ht
  have htarget : ∀ t ∈ ts, s.isPending t = true → s.coeff i t = true := h.target i rfl
  rcases hallowed with hsame | ⟨hi, hrows⟩
  · refine ⟨fun r hr t ht u hu hpt hpu => ?_, ?_, nofun⟩
    · have htu : s.coeff i t = s.coeff i u := by
        rw [htarget t ht (hpend hpt), htarget u hu (hpend hpu)]
      exact hrun.coeff_congr hsame htu (h.agree r hr t ht u hu (hpend hpt) (hpend hpu))
    · rintro _ ⟨⟩ t ht hpt
      rw [hrun.coeff_target hsame]
      exact htarget t ht (hpend hpt)
  · have hkeep : ∀ r, r ∉ rows → ∀ t, s'.coeff r t = s.coeff r t :=
      fun r hr => hrun.coeff_eq fun c t hct hcr => hr (hcr ▸ hrows c t hct)
    refine ⟨fun r hr t ht u hu hpt hpu => ?_, ?_, nofun⟩
    · rw [hkeep r hr, hkeep r hr]
      exact h.agree r hr t ht u hu (hpend hpt) (hpend hpu)
    · rintro _ ⟨⟩ t ht hpt
      rw [hkeep i hi]
      exact htarget t ht (hpend hpt)

section Split

variable {row : Nat}

theorem notMem_filter_ne {r : Nat} (h : r ∉ rows.filter (· != row)) : r ∉ rows ∨ r = row := by
  by_contra hcon
  obtain ⟨hmem, hne⟩ := not_or.mp hcon
  exact h (List.mem_filter.mpr ⟨not_not.mp hmem, by simpa using hne⟩)

theorem Waiting.agree_part (h : Waiting s ts rows target?) (value : Bool) {r : Nat}
    (hr : r ∉ rows.filter (· != row)) :
    ∀ t ∈ s.part ts row value, ∀ u ∈ s.part ts row value, s.coeff r t = s.coeff r u := by
  intro t ht u hu
  obtain ⟨ht, hpt, hrt⟩ := mem_part.mp ht
  obtain ⟨hu, hpu, hru⟩ := mem_part.mp hu
  rcases notMem_filter_ne hr with hr | rfl
  · exact h.agree r hr t ht u hu hpt hpu
  · rw [hrt, hru]

theorem Waiting.zeros (h : Waiting s ts rows target?) :
    Waiting s (s.part ts row false) (rows.filter (· != row)) target? := by
  refine ⟨fun r hr t ht u hu _ _ => h.agree_part false hr t ht u hu,
    fun i hi t ht => h.target i hi t (mem_part.mp ht).1, fun hnone r hr hopen => ?_⟩
  rcases notMem_filter_ne hr with hr | rfl
  · exact h.closed hnone r hr (hopen.mono fun t ht => (mem_part.mp ht).1)
  · obtain ⟨t, ht, _, hone⟩ := hopen
    rw [(mem_part.mp ht).2.2] at hone
    cases hone

theorem Waiting.ones (h : Waiting s ts rows target?) :
    Waiting s (s.part ts row true) (rows.filter (· != row)) (target?.or (some row)) := by
  refine ⟨fun r hr t ht u hu _ _ => h.agree_part true hr t ht u hu, fun i hi t ht hpt => ?_, ?_⟩
  · cases target? with
    | none => cases hi; exact (mem_part.mp ht).2.2
    | some target => exact h.target i hi t (mem_part.mp ht).1 hpt
  · cases target? <;> exact nofun

end Split

theorem exists_other_row (htracks : Tracks source s) (hsettled : s.Settled) {t : Nat}
    (hpend : s.isPending t = true) (i : Nat) : ∃ j < s.width, j ≠ i ∧ s.coeff j t = true := by
  obtain ⟨p, hp, hdone⟩ := exists_term_of_isPending hpend
  have htwo := two_le_length_setBits htracks hsettled hp hdone
  have hcoeff : ∀ j ∈ setBits s.width p.coeffs, j < s.width ∧ s.coeff j t = true := by
    intro j hj
    rw [← filter_coeff_eq_setBits hp, List.mem_filter] at hj
    exact ⟨List.mem_range.mp hj.1, hj.2⟩
  have hnodup := nodup_setBits s.width p.coeffs
  rcases hbits : setBits s.width p.coeffs with _ | ⟨a, _ | ⟨b, rest⟩⟩
  · simp [hbits] at htwo
  · simp [hbits] at htwo
  · rw [hbits] at hcoeff hnodup
    have hab : a ≠ b := by
      simp only [List.nodup_cons, List.mem_cons, not_or] at hnodup
      exact hnodup.1.1
    by_cases ha : a = i
    · have hb := hcoeff b (by simp)
      exact ⟨b, hb.1, fun hbi => hab (ha.trans hbi.symm), hb.2⟩
    · have ha' := hcoeff a (by simp)
      exact ⟨a, ha'.1, ha, ha'.2⟩

theorem Waiting.isPending_gatherInto (h : Waiting s ts [] target?) (htracks : Tracks source s)
    (hsettled : s.Settled) (htarget : ∀ i ∈ target?, i < s.width) {t : Nat} (ht : t ∈ ts) :
    (gatherInto ts target? s).isPending t = false := by
  by_contra hnot
  have hpend : (gatherInto ts target? s).isPending t = true := Bool.not_eq_false _ ▸ hnot
  cases target? with
  | none =>
    obtain ⟨j, _, _, hone⟩ := exists_other_row htracks hsettled hpend 0
    exact h.closed rfl j (by simp) ⟨t, ht, hpend, hone⟩
  | some i =>
    have hrun : Via (fun _ t => ¬ False ∧ t = i) s (gather ts i s.width s) :=
      gather_via s.width (htarget i rfl) nofun
    have hgathered := gathered_gather ts i s
    have hwaiting := h.run hrun (.inl fun _ _ h => h.2)
    change (gather ts i s.width s).isPending t = true at hpend
    generalize gather ts i s.width s = u at hpend hrun hgathered hwaiting
    obtain ⟨j, hj, hne, hone⟩ := exists_other_row (hrun.reaches.tracks htracks)
      (hrun.reaches.settled hsettled) hpend i
    have hi : u.allOnes ts i = true := allOnes_iff.mpr ⟨⟨t, ht, hpend⟩, hwaiting.target i rfl⟩
    have hj' : u.allOnes ts j = true := by
      refine allOnes_iff.mpr ⟨⟨t, ht, hpend⟩, fun v hv hpv => ?_⟩
      rw [hwaiting.agree j (by simp) v hv t ht hpv hpend, hone]
    rw [hgathered hi j hj hne] at hj'
    cases hj'

theorem Waiting.isPending_visit (depth : Nat) (h : Waiting s ts rows target?)
    (htracks : Tracks source s) (hsettled : s.Settled) (hrows : ∀ r ∈ rows, r < s.width)
    (htarget : ∀ i ∈ target?, i < s.width) (hdepth : rows.length ≤ depth) {t : Nat} (ht : t ∈ ts) :
    (visit depth ts rows target? s).isPending t = false := by
  induction depth generalizing s ts rows target? t with
  | zero =>
    obtain rfl := List.length_eq_zero_iff.mp (Nat.le_zero.mp hdepth)
    rw [visit_zero]
    exact h.isPending_gatherInto htracks hsettled htarget ht
  | succ depth ih =>
    have hfirst : Via (fun _ t => ¬ False ∧ ∀ i ∈ target?, t = i) s (gatherInto ts target? s) :=
      gatherInto_via htarget nofun
    have hwaiting : Waiting (gatherInto ts target? s) ts rows target? := by
      cases target? with
      | none => exact h
      | some i => exact h.run hfirst (.inl fun _ _ h => h.2 i rfl)
    rcases visit_succ_cases depth ts rows target? s rfl with ⟨heq, hend⟩ | ⟨row, hrow, heq⟩
    · rw [heq]
      rcases hend with rfl | hnone
      · exact h.isPending_gatherInto htracks hsettled htarget ht
      · exact hnone t ht
    · rw [heq]
      generalize gatherInto ts target? s = u at hfirst hwaiting
      have hu := hfirst.reaches
      have hrest : ∀ r ∈ rows.filter (· != row), r < s.width :=
        fun r hr => hrows r (List.mem_filter.mp hr).1
      have hlen : (rows.filter (· != row)).length < rows.length :=
        List.length_filter_lt_length_iff_exists.mpr ⟨row, hrow, by simp⟩
      have hzeros : Via (fun c t => ¬ ¬ u.Open (u.part ts row false) c ∧ ∀ i ∈ target?, t = i) u
          (visit depth (u.part ts row false) (rows.filter (· != row)) target? u) :=
        visit_via depth (hu.width ▸ hrest) (hu.width ▸ htarget) fun _ hr => hr
      have hzerosDone : ∀ t ∈ u.part ts row false,
          (visit depth (u.part ts row false) (rows.filter (· != row)) target? u).isPending t = false :=
        fun t ht => ih hwaiting.zeros (hu.tracks htracks) (hu.settled hsettled) (hu.width ▸ hrest)
          (hu.width ▸ htarget) (by omega) ht
      generalize visit depth (u.part ts row false) (rows.filter (· != row)) target? u = v
        at hzeros hzerosDone
      have hones : Waiting v (u.part ts row true) (rows.filter (· != row)) (target?.or (some row)) := by
        cases target? with
        | none =>
          -- Until the first target, the rows split so far are closed in the zeros.
          refine hwaiting.ones.run hzeros (.inr ⟨by simp, fun c t hct => ?_⟩)
          by_contra hc
          exact hct.1 (hwaiting.zeros.closed rfl c hc)
        | some i => exact hwaiting.ones.run hzeros (.inl fun c t hct => hct.2 i rfl)
      have hv := hu.trans hzeros.reaches
      have hrestv : ∀ r ∈ rows.filter (· != row), r < v.width := hv.width ▸ hrest
      have htargetv : ∀ i ∈ target?.or (some row), i < v.width :=
        hv.width ▸ or_some_lt (hrows row hrow) htarget
      have hlast : Reaches v (visit depth (u.part ts row true) (rows.filter (· != row))
          (target?.or (some row)) v) := visit_reaches depth hrestv htargetv
      cases hpend : u.isPending t with
      | false => exact hlast.isPending (hzeros.reaches.isPending hpend)
      | true =>
        cases hcoeff : u.coeff row t with
        | false => exact hlast.isPending (hzerosDone t (mem_part.mpr ⟨ht, hpend, hcoeff⟩))
        | true =>
          exact ih hones (hv.tracks htracks) (hv.settled hsettled) hrestv htargetv (by omega)
            (mem_part.mpr ⟨ht, hpend, hcoeff⟩)

theorem waiting_range (htracks : Tracks source s) (ts : List Nat) :
    Waiting s ts (List.range s.width) none := by
  have hzero : ∀ r, r ∉ List.range s.width → ∀ t, s.coeff r t = false := by
    intro r hr t
    unfold coeff
    cases hp : s.terms[t]? with
    | none => rfl
    | some p =>
      have hlt := (htracks.coeffs p (Array.mem_toList_iff.mpr (Array.mem_of_getElem? hp))).2
      have hle : s.width ≤ r := by simpa using hr
      exact Nat.testBit_lt_two_pow (Nat.lt_of_lt_of_le hlt (Nat.pow_le_pow_right (by omega) hle))
  refine ⟨fun r hr t _ u _ _ _ => ?_, nofun, fun _ r hr hopen => ?_⟩
  · rw [hzero r hr, hzero r hr]
  · obtain ⟨t, _, _, hone⟩ := hopen
    rw [hzero r hr] at hone
    cases hone

theorem isPending_treated (htracks : Tracks source s) (i : Nat) : s.treated.isPending i = false := by
  have hstart := htracks.realize
  by_cases hi : i < s.terms.size
  · exact (waiting_range hstart _).isPending_visit s.width hstart s.settled_realize
      (fun _ hr => List.mem_range.mp hr) nofun (by simp) (List.mem_range.mpr hi)
  · have hsize : s.treated.terms.size = s.terms.size := by
      rw [s.treated_reaches.size_terms, terms_realize, Array.size_map]
    simp [isPending, Array.getElem?_eq_none (by omega : s.treated.terms.size ≤ i)]

theorem settle_of_isPending {i : Nat} (h : s.isPending i = false) (rounds : Nat) :
    settle i rounds s = s := by
  cases rounds with
  | zero => rfl
  | succ rounds => simp [settle, h]

theorem folded_eq_treated (htracks : Tracks source s) : s.folded = s.treated := by
  unfold folded
  induction List.range s.terms.size with
  | nil => rfl
  | cons i is ih =>
    rw [List.foldl_cons, settle_of_isPending (isPending_treated htracks i)]
    exact ih

def restored (s : Sweep α) : Sweep α := (List.range s.width).foldl eliminate s

theorem finished_eq_restored (htracks : Tracks source s) : s.finished = s.treated.restored := by
  change s.folded.restored = s.treated.restored
  rw [folded_eq_treated htracks]

end Sweep

end PhasePolynomial

open PhasePolynomial

theorem ParityTerms.appendTo_without_folding [Angle α] {terms : ParityTerms α} {n : Netlist α}
    {qubits : List Nat} (hlen : qubits.length ≤ 64) (hnodup : qubits.Nodup)
    (halloc : ∀ q ∈ qubits, q < n.numQubits)
    (hmask : ∀ t ∈ terms.terms, t.mask < 2 ^ qubits.length) {s : Sweep α}
    (hs : Sweep.start qubits.length terms.terms = s) :
    (∀ t ∈ s.treated.terms.toList, t.done = true) ∧
    s.folded = s.treated ∧
    (terms.numVars ≤ qubits.length →
      terms.appendTo n qubits =
        ({ n with gates := n.gates ++
            s.treated.restored.gates.toList.map (Gate.relabel fun w => qubits.toArray.getD w 0) },
          none)) := by
  subst hs
  have htracks := tracks_start qubits.length hmask
  refine ⟨fun t ht => Sweep.done_of_isPending (Sweep.isPending_treated htracks) ht,
    Sweep.folded_eq_treated htracks, fun hvars => ?_⟩
  rw [appendTo, if_neg (by simpa [maxVars] using hlen), if_neg (by omega),
    ← Sweep.finished_eq_restored htracks]
  exact Netlist.place_eq_of_valid hnodup halloc fun g hg => (circuit_elementary hmask g hg).valid

def wovenTerms : ParityTerms Float :=
  ⟨some 4, [⟨3, 0.5⟩, ⟨5, 0.25⟩, ⟨6, 0.125⟩, ⟨7, 2⟩, ⟨13, 3⟩, ⟨15, 1⟩],
    [(15, 5), (13, 4), (7, 3), (6, 2), (5, 1), (3, 0)]⟩

theorem ParityTerms.appendTo_without_folding_woven :
    (wovenTerms.terms.map ParityTerm.mask).Nodup ∧ (∀ t ∈ wovenTerms.terms, t.mask < 2 ^ 4) ∧
    (∀ t ∈ (Sweep.start 4 wovenTerms.terms).treated.terms.toList, t.done = true) ∧
    (Sweep.start 4 wovenTerms.terms).folded = (Sweep.start 4 wovenTerms.terms).treated ∧
    (wovenTerms.appendTo (.withQubits "register" 6) [5, 1, 4, 2]).2 = none := by
  have hmask : ∀ t ∈ wovenTerms.terms, t.mask < 2 ^ 4 := by decide
  have halloc : ∀ q ∈ [5, 1, 4, 2], q < (Netlist.withQubits "register" 6 : Netlist Float).numQubits := by
    decide
  obtain ⟨hdone, hfolded, happend⟩ := appendTo_without_folding (by decide) (by decide) halloc hmask
    (rfl : Sweep.start [5, 1, 4, 2].length wovenTerms.terms = _)
  exact ⟨by decide, hmask, hdone, hfolded, by rw [happend (by decide)]⟩

end ReversibleSynthesis
