import ReversibleSynthesis.Proofs.Sweep

namespace ReversibleSynthesis.PhasePolynomial.Sweep

variable {α : Type} {s : Sweep α}

theorem allOnes_iff {ts : List Nat} {row : Nat} :
    s.allOnes ts row = true ↔
      (∃ t ∈ ts, s.isPending t = true) ∧ ∀ t ∈ ts, s.isPending t = true → s.coeff row t = true := by
  simp only [allOnes, Bool.and_eq_true, Bool.not_eq_true', List.isEmpty_eq_false_iff_exists_mem,
    List.mem_filter, List.all_eq_true, and_imp]

def Open (s : Sweep α) (ts : List Nat) (row : Nat) : Prop :=
  ∃ t ∈ ts, s.isPending t = true ∧ s.coeff row t = true

theorem open_of_allOnes {ts : List Nat} {row : Nat} (h : s.allOnes ts row = true) :
    s.Open ts row := by
  obtain ⟨⟨t, hts, hpend⟩, hcoeff⟩ := allOnes_iff.mp h
  exact ⟨t, hts, hpend, hcoeff t hts hpend⟩

theorem open_cnot {ts : List Nat} {target j k : Nat} (hj : s.allOnes ts j = true)
    (ht : s.allOnes ts target = true) (h : (s.cnot j target).Open ts k) :
    s.Open ts k ∧ k ≠ j := by
  obtain ⟨t, hts, hpend', hcoeff'⟩ := h
  have hpend : s.isPending t = true := by
    by_contra hfalse
    rw [isPending_cnot (Bool.not_eq_true _ ▸ hfalse)] at hpend'
    cases hpend'
  have htarget := (allOnes_iff.mp ht).2 t hts hpend
  rw [coeff_cnot, htarget, Bool.and_true] at hcoeff'
  by_cases hk : k = j
  · rw [hk, (allOnes_iff.mp hj).2 t hts hpend] at hcoeff'
    simp at hcoeff'
  · exact ⟨⟨t, hts, hpend, by simpa [hk] using hcoeff'⟩, hk⟩

def Gathered (s : Sweep α) (ts : List Nat) (target : Nat) : Prop :=
  s.allOnes ts target = true → ∀ j < s.width, j ≠ target → s.allOnes ts j = false

theorem gather_cases (ts : List Nat) (target : Nat) (s : Sweep α) :
    ((∀ rounds, gather ts target rounds s = s) ∧ s.Gathered ts target) ∨
    ∃ j < s.width, j ≠ target ∧ s.allOnes ts target = true ∧ s.allOnes ts j = true ∧
      ∀ rounds, gather ts target (rounds + 1) s = gather ts target rounds (s.cnot j target) := by
  cases htarget : s.allOnes ts target with
  | false =>
    refine .inl ⟨fun rounds => ?_, fun hones => absurd hones (by simp [htarget])⟩
    cases rounds with
    | zero => rfl
    | succ rounds => simp [gather, htarget]
  | true =>
    cases hfind : (List.range s.width).find? (fun j => j != target && s.allOnes ts j) with
    | none =>
      refine .inl ⟨fun rounds => ?_, fun _ j hj hne => ?_⟩
      · cases rounds with
        | zero => rfl
        | succ rounds => simp [gather, htarget, hfind]
      · simpa [hne] using List.find?_eq_none.mp hfind j (List.mem_range.mpr hj)
    | some j =>
      have hones := List.find?_some hfind
      simp only [Bool.and_eq_true, bne_iff_ne] at hones
      refine .inr ⟨j, List.mem_range.mp (List.mem_of_find?_eq_some hfind), hones.1, rfl, hones.2, ?_⟩
      intro rounds
      simp [gather, htarget, hfind]

theorem gather_via {ts : List Nat} {target : Nat} {closed : Nat → Prop} (rounds : Nat)
    (ht : target < s.width) (hclosed : ∀ r, closed r → ¬ s.Open ts r) :
    Via (fun c t => ¬ closed c ∧ t = target) s (gather ts target rounds s) := by
  induction rounds generalizing s with
  | zero => exact .refl s
  | succ rounds ih =>
    rcases gather_cases ts target s with ⟨heq, _⟩ | ⟨j, hj, hne, hones, hjones, heq⟩
    · rw [heq]
      exact .refl s
    · rw [heq]
      have hfree : ¬ closed j := fun hcj => hclosed j hcj (open_of_allOnes hjones)
      have hstep : Via (fun c t => ¬ closed c ∧ t = target) s (s.cnot j target) :=
        .cnot hj ht hne ⟨hfree, rfl⟩
      exact hstep.trans (ih ht fun r hr hopen => hclosed r hr (open_cnot hjones hones hopen).1)

theorem gathered_of_open {ts : List Nat} {target rounds : Nat} (rows : List Nat)
    (hrows : ∀ j < s.width, s.Open ts j → j ∈ rows) (h : rows.length ≤ rounds) :
    (gather ts target rounds s).Gathered ts target := by
  induction rounds generalizing rows s with
  | zero =>
    intro _ j hj _
    by_contra hones
    have hmem := hrows j hj (open_of_allOnes (Bool.not_eq_false _ ▸ hones))
    rw [List.length_eq_zero_iff.mp (Nat.le_zero.mp h)] at hmem
    cases hmem
  | succ rounds ih =>
    rcases gather_cases ts target s with ⟨heq, hgathered⟩ | ⟨j, hj, _, hones, hjones, heq⟩
    · rw [heq]
      exact hgathered
    · rw [heq]
      have hin := hrows j hj (open_of_allOnes hjones)
      have hlen := List.length_erase_of_mem hin
      refine ih (rows.erase j) (fun k hk hopen => ?_) (by omega)
      obtain ⟨hold, hkj⟩ := open_cnot hjones hones hopen
      exact (List.mem_erase_of_ne hkj).mpr (hrows k hk hold)

theorem gathered_gather (ts : List Nat) (target : Nat) (s : Sweep α) :
    (gather ts target s.width s).Gathered ts target :=
  gathered_of_open (List.range s.width) (fun _ hj _ => List.mem_range.mpr hj) (by simp)

theorem better_cases (ts : List Nat) (best : Option (Nat × Nat)) (row : Nat) :
    s.better ts best row = some (row, s.imbalance ts row) ∨
      (s.better ts best row = best ∧ best.isSome) := by
  cases best with
  | none => exact .inl rfl
  | some b =>
    unfold better
    dsimp only
    split
    · exact .inl rfl
    · exact .inr ⟨rfl, rfl⟩

theorem foldl_better_isSome {ts rows : List Nat} {best : Option (Nat × Nat)} (h : best.isSome) :
    (rows.foldl (s.better ts) best).isSome := by
  induction rows generalizing best with
  | nil => exact h
  | cons row rows ih =>
    apply ih
    rcases s.better_cases ts best row with heq | ⟨heq, _⟩ <;> rw [heq]
    · rfl
    · exact h

theorem bestRow?_eq_none_iff {ts rows : List Nat} : s.bestRow? ts rows = none ↔ rows = [] := by
  unfold bestRow?
  constructor
  · intro h
    cases rows with
    | nil => rfl
    | cons row rows =>
      have hsome : (rows.foldl (s.better ts) (s.better ts none row)).isSome :=
        foldl_better_isSome rfl
      rw [List.foldl_cons] at h
      rw [h] at hsome
      cases hsome
  · rintro rfl
    rfl

theorem bestRow?_mem {ts rows : List Nat} {best : Nat × Nat} (h : s.bestRow? ts rows = some best) :
    best.1 ∈ rows := by
  have hfold : ∀ (rest : List Nat) (start : Option (Nat × Nat)),
      (∀ p ∈ start, p.1 ∈ rows) → (∀ r ∈ rest, r ∈ rows) →
        ∀ p ∈ rest.foldl (s.better ts) start, p.1 ∈ rows := by
    intro rest
    induction rest with
    | nil => intro start hstart _; exact hstart
    | cons r rest ih =>
      intro start hstart hrest
      apply ih _ _ fun r' hr' => hrest r' (List.mem_cons_of_mem r hr')
      intro p hp
      rcases s.better_cases ts start r with heq | ⟨heq, _⟩
      · rw [heq] at hp
        cases hp
        exact hrest r List.mem_cons_self
      · exact hstart p (heq ▸ hp)
  exact hfold rows none nofun (fun r hr => hr) best h

theorem Open.mono {ts part : List Nat} {row : Nat} (hsub : ∀ t ∈ part, t ∈ ts)
    (h : s.Open part row) : s.Open ts row := by
  obtain ⟨t, ht, hpend, hcoeff⟩ := h
  exact ⟨t, hsub t ht, hpend, hcoeff⟩

theorem Via.open_of_open {allowed : Nat → Nat → Prop} {s' : Sweep α} {ts : List Nat} {row : Nat}
    (hrow : ∀ c t, allowed c t → c ≠ row) (h : Via allowed s s') (hopen : s'.Open ts row) :
    s.Open ts row := by
  obtain ⟨t, ht, hpend, hcoeff⟩ := hopen
  exact ⟨t, ht, h.reaches.isPending_of_isPending hpend, h.coeff_eq hrow t ▸ hcoeff⟩

theorem gatherInto_via {ts : List Nat} {target? : Option Nat} {closed : Nat → Prop}
    (htarget : ∀ t ∈ target?, t < s.width) (hclosed : ∀ r, closed r → ¬ s.Open ts r) :
    Via (fun c t => ¬ closed c ∧ ∀ i ∈ target?, t = i) s (gatherInto ts target? s) := by
  cases target? with
  | none => exact .refl s
  | some target =>
    refine (gather_via s.width (htarget target rfl) hclosed).mono fun c t h => ⟨h.1, ?_⟩
    rintro i ⟨⟩
    exact h.2

theorem visit_zero (ts rows : List Nat) (target? : Option Nat) (s : Sweep α) :
    visit 0 ts rows target? s = gatherInto ts target? s := by
  unfold visit
  rfl

theorem visit_succ (depth : Nat) (ts rows : List Nat) (target? : Option Nat) (s : Sweep α) :
    visit (depth + 1) ts rows target? s =
      match ts.filter (gatherInto ts target? s).isPending with
      | [] => gatherInto ts target? s
      | t :: live =>
        match (gatherInto ts target? s).bestRow? (t :: live) rows with
        | none => gatherInto ts target? s
        | some (row, _) =>
          visit depth ((t :: live).filter ((gatherInto ts target? s).coeff row))
            (rows.filter (· != row)) (target?.or (some row))
            (visit depth ((t :: live).filter (not ∘ (gatherInto ts target? s).coeff row))
              (rows.filter (· != row)) target? (gatherInto ts target? s)) := by
  rw [visit.eq_def]
  dsimp only
  cases ts.filter (gatherInto ts target? s).isPending with
  | nil => rfl
  | cons t live =>
    dsimp only
    cases (gatherInto ts target? s).bestRow? (t :: live) rows with
    | none => rfl
    | some best => simp only [List.partition_eq_filter_filter]

theorem visit_nil (depth : Nat) (ts : List Nat) (target? : Option Nat) (s : Sweep α) :
    visit depth ts [] target? s = gatherInto ts target? s := by
  cases depth with
  | zero => exact visit_zero ts [] target? s
  | succ depth =>
    rw [visit_succ]
    cases ts.filter (gatherInto ts target? s).isPending <;> rfl

theorem visit_depth {depth depth' : Nat} {ts rows : List Nat} {target? : Option Nat}
    (h : rows.length ≤ depth) (h' : rows.length ≤ depth') :
    visit depth ts rows target? s = visit depth' ts rows target? s := by
  induction depth generalizing depth' ts rows target? s with
  | zero =>
    rw [List.length_eq_zero_iff.mp (Nat.le_zero.mp h), visit_nil, visit_nil]
  | succ depth ih =>
    cases depth' with
    | zero => rw [List.length_eq_zero_iff.mp (Nat.le_zero.mp h'), visit_nil, visit_nil]
    | succ depth' =>
      rw [visit_succ, visit_succ]
      cases hlive : ts.filter (gatherInto ts target? s).isPending with
      | nil => rfl
      | cons t live =>
        dsimp only
        cases hrow : (gatherInto ts target? s).bestRow? (t :: live) rows with
        | none => rfl
        | some best =>
          have hlt : (rows.filter (· != best.1)).length < rows.length :=
            List.length_filter_lt_length_iff_exists.mpr ⟨best.1, bestRow?_mem hrow, by simp⟩
          have hvisit : ∀ (part : List Nat) (into? : Option Nat) (u : Sweep α),
              visit depth part (rows.filter (· != best.1)) into? u =
                visit depth' part (rows.filter (· != best.1)) into? u :=
            fun part into? u => ih (by omega) (by omega)
          simp only [hvisit]

def part (s : Sweep α) (ts : List Nat) (row : Nat) (value : Bool) : List Nat :=
  (ts.filter s.isPending).filter fun t => s.coeff row t == value

theorem mem_part {ts : List Nat} {row t : Nat} {value : Bool} :
    t ∈ s.part ts row value ↔ t ∈ ts ∧ s.isPending t = true ∧ s.coeff row t = value := by
  simp only [part, List.mem_filter, beq_iff_eq, and_assoc]

theorem visit_succ_cases (depth : Nat) (ts rows : List Nat) (target? : Option Nat) (s : Sweep α)
    {u : Sweep α} (hu : gatherInto ts target? s = u) :
    (visit (depth + 1) ts rows target? s = u ∧ (rows = [] ∨ ∀ t ∈ ts, u.isPending t = false)) ∨
    ∃ row ∈ rows,
      visit (depth + 1) ts rows target? s =
        visit depth (u.part ts row true) (rows.filter (· != row)) (target?.or (some row))
          (visit depth (u.part ts row false) (rows.filter (· != row)) target? u) := by
  rw [visit_succ, hu]
  cases hlive : ts.filter u.isPending with
  | nil => exact .inl ⟨rfl, .inr (by simpa using hlive)⟩
  | cons t live =>
    dsimp only
    cases hrow : u.bestRow? (t :: live) rows with
    | none => exact .inl ⟨rfl, .inl (bestRow?_eq_none_iff.mp hrow)⟩
    | some best =>
      refine .inr ⟨best.1, bestRow?_mem hrow, ?_⟩
      simp only [part, hlive, beq_true, beq_false]
      rfl

theorem or_some_lt {row width : Nat} {target? : Option Nat} (hrow : row < width)
    (htarget : ∀ t ∈ target?, t < width) : ∀ t ∈ target?.or (some row), t < width := by
  cases target? with
  | none => rintro _ ⟨⟩; exact hrow
  | some target => exact htarget

theorem visit_via (depth : Nat) {ts rows : List Nat} {target? : Option Nat} {closed : Nat → Prop}
    (hrows : ∀ r ∈ rows, r < s.width) (htarget : ∀ t ∈ target?, t < s.width)
    (hclosed : ∀ r, closed r → ¬ s.Open ts r) :
    Via (fun c t => ¬ closed c ∧ ∀ i ∈ target?, t = i) s (visit depth ts rows target? s) := by
  induction depth generalizing s ts rows target? with
  | zero =>
    rw [visit_zero]
    exact gatherInto_via htarget hclosed
  | succ depth ih =>
    have hfirst := gatherInto_via htarget hclosed
    rcases visit_succ_cases depth ts rows target? s rfl with ⟨heq, _⟩ | ⟨row, hrow, heq⟩
    · rw [heq]; exact hfirst
    · rw [heq]
      generalize gatherInto ts target? s = u at hfirst
      -- Rows closed at first stay closed, in the parts as well as in the whole.
      have hkeep : ∀ {v : Sweep α}, Via (fun c t => ¬ closed c ∧ ∀ i ∈ target?, t = i) s v →
          ∀ (value : Bool) (r : Nat), closed r → ¬ v.Open (u.part ts row value) r := by
        intro v hv value r hr hopen
        refine hclosed r hr (hv.open_of_open (fun c t h hcr => h.1 (hcr ▸ hr)) ?_)
        exact hopen.mono fun t ht => (mem_part.mp ht).1
      have hrest : ∀ r ∈ rows.filter (· != row), r < s.width :=
        fun r hr => hrows r (List.mem_filter.mp hr).1
      have hu := hfirst.reaches.width
      have hzeros := ih (hu ▸ hrest) (hu ▸ htarget) (hkeep hfirst false)
      generalize visit depth (u.part ts row false) (rows.filter (· != row)) target? u = v at hzeros
      have hboth := hfirst.trans hzeros
      have hv := hboth.reaches.width
      have hones := ih (hv ▸ hrest) (hv ▸ or_some_lt (hrows row hrow) htarget) (hkeep hboth true)
      refine hboth.trans (hones.mono fun c t h => ⟨h.1, ?_⟩)
      cases target? with
      | none => exact nofun
      | some target => exact h.2

theorem visit_reaches (depth : Nat) {ts rows : List Nat} {target? : Option Nat}
    (hrows : ∀ r ∈ rows, r < s.width) (htarget : ∀ t ∈ target?, t < s.width) :
    Reaches s (visit depth ts rows target? s) := by
  have h : Via (fun _ t => ¬ False ∧ ∀ i ∈ target?, t = i) s (visit depth ts rows target? s) :=
    visit_via depth hrows htarget nofun
  exact h.reaches

theorem exists_term_of_isPending {i : Nat} (h : s.isPending i = true) :
    ∃ p, s.terms[i]? = some p ∧ p.done = false := by
  unfold isPending at h
  cases hp : s.terms[i]? with
  | none => simp [hp] at h
  | some p => exact ⟨p, rfl, by simpa [hp] using h⟩

theorem filter_coeff_eq_setBits {i : Nat} {p : Pending α} (hp : s.terms[i]? = some p) :
    (List.range s.width).filter (fun row => s.coeff row i) = setBits s.width p.coeffs := by
  unfold coeff setBits
  rw [hp]

theorem two_le_length_setBits {source : List (α × (State → Bool))} (htracks : Tracks source s)
    (hsettled : s.Settled) {i : Nat} {p : Pending α} (hp : s.terms[i]? = some p)
    (hdone : p.done = false) : 2 ≤ (setBits s.width p.coeffs).length := by
  have hmem : p ∈ s.terms.toList := Array.mem_toList_iff.mpr (Array.mem_of_getElem? hp)
  obtain ⟨hne, hlt⟩ := htracks.coeffs p hmem
  rcases hbits : setBits s.width p.coeffs with _ | ⟨q, _ | ⟨r, rest⟩⟩
  · exact absurd (eq_zero_of_setBits hlt hbits) hne
  · have hwire := Pending.wire?_eq_some_iff.mpr ⟨hdone, eq_two_pow_of_setBits hlt hbits⟩
    rw [hsettled p hmem] at hwire
    cases hwire
  · simp

theorem settle_reaches (i rounds : Nat) (s : Sweep α) : Reaches s (settle i rounds s) := by
  induction rounds generalizing s with
  | zero => exact .refl s
  | succ rounds ih =>
    rw [settle]
    split
    · split
      · next target control rest hrows =>
        have hsub : List.Sublist [target, control] (List.range s.width) := by
          have hpre : List.Sublist [target, control] (target :: control :: rest) := by simp
          exact (hrows ▸ hpre).trans List.filter_sublist
        have hc := List.mem_range.mp (hsub.subset (by simp : control ∈ [target, control]))
        have ht := List.mem_range.mp (hsub.subset (by simp : target ∈ [target, control]))
        have hne : control ≠ target := by
          have hnodup := List.nodup_range.sublist hsub
          simp only [List.nodup_cons, List.mem_singleton] at hnodup
          exact Ne.symm hnodup.1
        exact (Reaches.cnot hc ht hne).trans (ih _)
      · exact .refl s
    · exact .refl s

theorem settle_done {source : List (α × (State → Bool))} (htracks : Tracks source s)
    (hsettled : s.Settled) {i rounds : Nat}
    (hrounds : ∀ p, s.terms[i]? = some p → (setBits s.width p.coeffs).length ≤ rounds + 1) :
    (settle i rounds s).isPending i = false := by
  induction rounds generalizing s with
  | zero =>
    rw [settle]
    by_contra hpend
    obtain ⟨p, hp, hdone⟩ := exists_term_of_isPending (Bool.not_eq_false _ ▸ hpend)
    have := two_le_length_setBits htracks hsettled hp hdone
    have := hrounds p hp
    omega
  | succ rounds ih =>
    cases hpend : s.isPending i with
    | false =>
      rw [settle, hpend]
      exact hpend
    | true =>
      obtain ⟨p, hp, hdone⟩ := exists_term_of_isPending hpend
      have htwo := two_le_length_setBits htracks hsettled hp hdone
      have hlen := hrounds p hp
      have hrows := filter_coeff_eq_setBits hp
      rw [settle, hpend, hrows]
      rcases hbits : setBits s.width p.coeffs with _ | ⟨target, _ | ⟨control, rest⟩⟩
      · simp [hbits] at htwo
      · simp [hbits] at htwo
      · have ht := mem_setBits.mp (hbits ▸ (by simp : target ∈ target :: control :: rest))
        have hc := mem_setBits.mp (hbits ▸ (by simp : control ∈ target :: control :: rest))
        have hne : control ≠ target := by
          have hnodup := hbits ▸ nodup_setBits s.width p.coeffs
          simp only [List.nodup_cons, List.mem_cons, not_or] at hnodup
          exact Ne.symm hnodup.1.1
        have hstep := Reaches.cnot hc.1 ht.1 hne
        apply ih (hstep.tracks htracks) (hstep.settled hsettled)
        intro p' hp'
        rw [terms_cnot, Array.getElem?_map, hp, Option.map_some] at hp'
        obtain rfl := Option.some.inj hp'
        rw [Pending.coeffs_mark, Pending.coeffs_toggle, if_pos ht.2, width_cnot]
        have := length_setBits_xor hc.1 hc.2
        omega

theorem foldl_settle_reaches (is : List Nat) (s : Sweep α) :
    Reaches s (is.foldl (fun s i => settle i s.width s) s) := by
  induction is generalizing s with
  | nil => exact .refl s
  | cons i is ih => exact (settle_reaches i s.width s).trans (ih _)

theorem foldl_settle_done {source : List (α × (State → Bool))} (is : List Nat)
    (htracks : Tracks source s) (hsettled : s.Settled) {i : Nat} (hi : i ∈ is) :
    (is.foldl (fun s i => settle i s.width s) s).isPending i = false := by
  induction is generalizing s with
  | nil => cases hi
  | cons j is ih =>
    have hfirst := settle_reaches j s.width s
    rw [List.foldl_cons]
    rcases List.mem_cons.mp hi with rfl | hi
    · apply (foldl_settle_reaches is _).isPending
      apply settle_done htracks hsettled
      intro p _
      have hle : (setBits s.width p.coeffs).length ≤ (List.range s.width).length :=
        List.length_filter_le _ _
      rw [List.length_range] at hle
      omega
    · exact ih (hfirst.tracks htracks) (hfirst.settled hsettled) hi

def folded (s : Sweep α) : Sweep α :=
  (List.range s.terms.size).foldl (fun s t => settle t s.width s) s.treated

theorem treated_reaches (s : Sweep α) : Reaches s.realize s.treated :=
  visit_reaches s.width (fun _ hr => List.mem_range.mp hr) nofun

theorem folded_reaches (s : Sweep α) : Reaches s.realize s.folded :=
  s.treated_reaches.trans (foldl_settle_reaches _ _)

theorem isPending_folded {source : List (α × (State → Bool))} (htracks : Tracks source s) (i : Nat) :
    s.folded.isPending i = false := by
  by_cases hi : i < s.terms.size
  · exact foldl_settle_done _ (s.treated_reaches.tracks htracks.realize)
      (s.treated_reaches.settled s.settled_realize) (List.mem_range.mpr hi)
  · have hsize : s.folded.terms.size = s.terms.size := by
      rw [s.folded_reaches.size_terms, terms_realize, Array.size_map]
    simp [isPending, Array.getElem?_eq_none (by omega : s.folded.terms.size ≤ i)]

theorem done_of_isPending (h : ∀ i, s.isPending i = false) {p : Pending α}
    (hp : p ∈ s.terms.toList) : p.done = true := by
  obtain ⟨i, hi, rfl⟩ := List.getElem_of_mem hp
  rw [Array.length_toList] at hi
  simpa [isPending, Array.getElem?_eq_getElem hi] using h i

end ReversibleSynthesis.PhasePolynomial.Sweep
