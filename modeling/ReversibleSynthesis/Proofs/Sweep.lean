import Mathlib.Data.List.Perm.Basic
import Mathlib.Logic.Relation
import ReversibleSynthesis.Proofs.Bits
import ReversibleSynthesis.Proofs.Placement
import ReversibleSynthesis.Synthesis.PhasePolynomial

namespace ReversibleSynthesis.PhasePolynomial

variable {α : Type}

theorem dot_toggle {w t : Nat} (ht : t < w) (mask : Nat) (s : State) (b : Bool) :
    dot w mask (s.toggle t b) = (dot w mask s ^^ (mask.testBit t && b)) := by
  have hsum : dot w mask (s.toggle t b) =
      (dot w mask s ^^ xorSum (fun i => decide (i = t) && (mask.testBit t && b)) w) := by
    rw [dot, dot, ← xorSum_xor]
    apply xorSum_congr
    intro i _
    rw [State.toggle_apply]
    by_cases h : i = t
    · subst h; cases mask.testBit i <;> simp
    · simp [h]
  rw [hsum, xorSum_single]
  simp [ht]

namespace Pending

def mark (t : Pending α) : Pending α := if t.wire?.isSome then { t with done := true } else t

theorem wire?_eq_some_iff {t : Pending α} {q : Nat} :
    t.wire? = some q ↔ t.done = false ∧ t.coeffs = 2 ^ q := by
  unfold wire?
  cases t.done with
  | true => simp
  | false => simp [powerOfTwoLog?_eq_some_iff]

theorem coeffs_mark (t : Pending α) : t.mark.coeffs = t.coeffs := by
  unfold mark; split <;> rfl

theorem angle_mark (t : Pending α) : t.mark.angle = t.angle := by
  unfold mark; split <;> rfl

theorem done_mark (t : Pending α) : t.mark.done = (t.done || t.wire?.isSome) := by
  unfold mark
  split
  · next h => simp [h]
  · next h => simp [Option.not_isSome_iff_eq_none.mp h]

theorem wire?_mark (t : Pending α) : t.mark.wire? = none := by
  unfold mark
  split
  · simp [wire?]
  · next h => exact Option.not_isSome_iff_eq_none.mp h

theorem done_toggle (c t : Nat) (p : Pending α) : (p.toggle c t).done = p.done := by
  unfold toggle; split <;> rfl

theorem angle_toggle (c t : Nat) (p : Pending α) : (p.toggle c t).angle = p.angle := by
  unfold toggle; split <;> rfl

theorem coeffs_toggle (c t : Nat) (p : Pending α) :
    (p.toggle c t).coeffs = if p.coeffs.testBit t then p.coeffs ^^^ 2 ^ c else p.coeffs := by
  unfold toggle
  split <;> simp [Nat.one_shiftLeft]

theorem coeffs_toggle_ne_zero {c t : Nat} (h : c ≠ t) {p : Pending α} (hp : p.coeffs ≠ 0) :
    (p.toggle c t).coeffs ≠ 0 := by
  rw [coeffs_toggle]
  split
  · next ht =>
    intro hz
    have hbit : (p.coeffs ^^^ 2 ^ c).testBit t = true := by
      rw [Nat.testBit_xor, ht, Nat.testBit_two_pow_of_ne h]; rfl
    rw [hz, Nat.zero_testBit] at hbit
    cases hbit
  · exact hp

theorem coeffs_toggle_lt {c t w : Nat} (hc : c < w) {p : Pending α} (hp : p.coeffs < 2 ^ w) :
    (p.toggle c t).coeffs < 2 ^ w := by
  rw [coeffs_toggle]
  split
  · exact xor_two_pow_lt hp hc
  · exact hp

theorem dot_coeffs_toggle {c t w : Nat} (hc : c < w) (ht : t < w) (h : c ≠ t) (p : Pending α)
    (s : State) : dot w (p.toggle c t).coeffs (s.toggle t (s c)) = dot w p.coeffs s := by
  rw [dot_toggle ht, coeffs_toggle]
  split
  · next hbit =>
    rw [Nat.testBit_xor, hbit, Nat.testBit_two_pow_of_ne h, dot_xor, dot_two_pow hc]
    cases dot w p.coeffs s <;> cases s c <;> rfl
  · next hbit => simp [hbit]

end Pending

def Elementary (w : Nat) (g : Gate α) : Prop :=
  (∃ angle, ∃ q < w, g = Gate.phase angle q) ∨
    ∃ c < w, ∃ t < w, c ≠ t ∧ g = Gate.cnot c t

theorem Elementary.valid {w : Nat} {g : Gate α} (h : Elementary w g) : g.Valid w := by
  rcases h with ⟨angle, q, hq, rfl⟩ | ⟨c, hc, t, ht, hct, rfl⟩
  · exact Gate.valid_phase angle hq
  · exact Gate.valid_cnot hc ht hct

namespace Sweep

def meaning (s : Sweep α) (t : Pending α) : α × (State → Bool) :=
  (t.angle, fun x => dot s.width t.coeffs (after s.gates.toList x))

def ready (s : Sweep α) : List (Gate α) :=
  s.terms.toList.filterMap fun t => t.wire?.map (Gate.phase t.angle)

def link (s : Sweep α) (control target : Nat) : Sweep α :=
  { s with
    gates := s.gates.push (Gate.cnot control target)
    parities := s.parities.modify target (· ^^^ s.parities.getD control 0)
    terms := s.terms.map (Pending.toggle control target) }

@[simp] theorem width_link (s : Sweep α) (c t : Nat) : (s.link c t).width = s.width := rfl

@[simp] theorem width_realize (s : Sweep α) : s.realize.width = s.width := rfl

@[simp] theorem width_cnot (s : Sweep α) (c t : Nat) : (s.cnot c t).width = s.width := rfl

theorem cnot_eq_realize (s : Sweep α) (c t : Nat) : s.cnot c t = (s.link c t).realize := rfl

theorem toList_gates_realize (s : Sweep α) :
    s.realize.gates.toList = s.gates.toList ++ s.ready := by
  rw [realize, ready, ← Array.foldl_toList]
  dsimp only
  generalize s.gates = gates
  induction s.terms.toList generalizing gates with
  | nil => simp
  | cons t ts ih =>
    rw [List.foldl_cons, ih]
    cases h : t.wire? with
    | none => simp [h]
    | some q => simp [h]

theorem terms_realize (s : Sweep α) : s.realize.terms = s.terms.map Pending.mark := rfl

structure Tracks (source : List (α × (State → Bool))) (s : Sweep α) : Prop where
  elementary : ∀ g ∈ s.gates.toList, Elementary s.width g
  size_parities : s.parities.size = s.width
  parities : ∀ q < s.width, ∀ x, after s.gates.toList x q = dot s.width (s.parities.getD q 0) x
  coeffs : ∀ t ∈ s.terms.toList, t.coeffs ≠ 0 ∧ t.coeffs < 2 ^ s.width
  terms : s.terms.toList.map s.meaning = source
  placed : (readings s.gates.toList).Perm ((s.terms.toList.filter (·.done)).map s.meaning)

variable {source : List (α × (State → Bool))} {s : Sweep α}

theorem getD_parities_link {c t q : Nat} (hq : q < s.parities.size) :
    (s.link c t).parities.getD q 0 =
      if q = t then s.parities.getD q 0 ^^^ s.parities.getD c 0 else s.parities.getD q 0 := by
  simp only [Sweep.link, Array.getD, Array.size_modify, hq, dif_pos, Array.getInternal_eq_getElem,
    Array.getElem_modify, eq_comm]

theorem Tracks.link (h : Tracks source s) {c t : Nat} (hc : c < s.width) (ht : t < s.width)
    (hct : c ≠ t) : Tracks source (s.link c t) := by
  have hgates : (s.link c t).gates.toList = s.gates.toList ++ [Gate.cnot c t] := by
    simp [Sweep.link]
  have hterms : (s.link c t).terms.toList = s.terms.toList.map (Pending.toggle c t) := by
    simp [Sweep.link]
  have hafter : ∀ x, after (s.link c t).gates.toList x =
      (after s.gates.toList x).toggle t (after s.gates.toList x c) := by
    intro x
    rw [hgates, after_append, after_cons, after_nil, Gate.act_cnot]
  have hmeaning : ∀ p : Pending α, (s.link c t).meaning (p.toggle c t) = s.meaning p := by
    intro p
    simp only [meaning, hafter, Pending.angle_toggle]
    exact congrArg _ (funext fun x => Pending.dot_coeffs_toggle hc ht hct p _)
  constructor
  · intro g hg
    rw [hgates, List.mem_append, List.mem_singleton] at hg
    rcases hg with hg | rfl
    · exact h.elementary g hg
    · exact .inr ⟨c, hc, t, ht, hct, rfl⟩
  · simp [Sweep.link, h.size_parities]
  · intro q hq x
    rw [hafter, State.toggle_apply, h.parities q hq, h.parities c hc,
      getD_parities_link (h.size_parities.symm ▸ hq)]
    by_cases hqt : q = t
    · rw [if_pos hqt, dot_xor, hqt]
      simp
    · rw [if_neg hqt]
      simp [hqt]
  · intro p hp
    rw [hterms] at hp
    obtain ⟨p, hmem, rfl⟩ := List.mem_map.mp hp
    exact ⟨Pending.coeffs_toggle_ne_zero hct (h.coeffs p hmem).1,
      Pending.coeffs_toggle_lt hc (h.coeffs p hmem).2⟩
  · rw [hterms, List.map_map, ← h.terms]
    exact List.map_congr_left fun p _ => hmeaning p
  · have hdone : (s.link c t).terms.toList.filter (·.done) =
        (s.terms.toList.filter (·.done)).map (Pending.toggle c t) := by
      rw [hterms, List.filter_map]
      congr 1
      exact List.filter_congr fun p _ => Pending.done_toggle c t p
    rw [hdone, List.map_map, hgates, readings_append]
    have hread : readings ([Gate.cnot c t] : List (Gate α)) = [] := by simp [readings]
    rw [hread, List.map_nil, List.append_nil]
    exact h.placed.trans (List.Perm.of_eq (List.map_congr_left fun p _ => (hmeaning p).symm))

theorem after_ready (s : Sweep α) (x : State) : after s.ready x = x := by
  unfold ready
  induction s.terms.toList with
  | nil => rfl
  | cons t ts ih =>
    cases h : t.wire? with
    | none => simpa [List.filterMap_cons, h] using ih
    | some q => simpa [List.filterMap_cons, h] using ih

theorem readings_ready (hcoeffs : ∀ t ∈ s.terms.toList, t.coeffs < 2 ^ s.width) :
    ((readings s.ready).map fun r => (r.1, fun x => r.2 (after s.gates.toList x))) =
      (s.terms.toList.filter (·.wire?.isSome)).map s.meaning := by
  unfold ready
  generalize s.terms.toList = ts at hcoeffs
  induction ts with
  | nil => rfl
  | cons t ts ih =>
    have ih := ih fun p hp => hcoeffs p (List.mem_cons_of_mem t hp)
    cases h : t.wire? with
    | none => simpa [List.filterMap_cons, List.filter_cons, h] using ih
    | some q =>
      obtain ⟨_, hq⟩ := Pending.wire?_eq_some_iff.mp h
      have hlt : q < s.width :=
        (Nat.pow_lt_pow_iff_right (by omega)).mp (hq ▸ hcoeffs t List.mem_cons_self)
      have hmeaning : s.meaning t = (t.angle, fun x => after s.gates.toList x q) := by
        simp only [meaning, hq, dot_two_pow hlt]
      simp only [List.filterMap_cons, h, Option.map_some, readings, Gate.reading?_phase,
        Gate.act_phase, Option.toList_some, List.map_cons, List.map_id_fun', id_eq,
        List.filter_cons, Option.isSome_some, if_true, hmeaning, ih, List.singleton_append]

theorem filter_done_append_wire (ts : List (Pending α)) :
    (ts.filter (·.done) ++ ts.filter (·.wire?.isSome)).Perm
      (ts.filter fun t => t.done || t.wire?.isSome) := by
  have hsplit := List.filter_append_perm (·.done) (ts.filter fun t => t.done || t.wire?.isSome)
  rw [List.filter_filter, List.filter_filter] at hsplit
  have hdone : ts.filter (fun t => t.done && (t.done || t.wire?.isSome)) = ts.filter (·.done) :=
    List.filter_congr fun t _ => by cases t.done <;> simp
  have hwire : ts.filter (fun t => !t.done && (t.done || t.wire?.isSome)) =
      ts.filter (·.wire?.isSome) := by
    refine List.filter_congr fun t _ => ?_
    unfold Pending.wire?
    cases t.done <;> simp
  rwa [hdone, hwire] at hsplit

theorem Tracks.realize (h : Tracks source s) : Tracks source s.realize := by
  have hterms : s.realize.terms.toList = s.terms.toList.map Pending.mark := by
    simp [terms_realize]
  have hafter : ∀ x, after s.realize.gates.toList x = after s.gates.toList x := by
    intro x
    rw [toList_gates_realize, after_append, after_ready]
  have hmeaning : ∀ p : Pending α, s.realize.meaning p.mark = s.meaning p := by
    intro p
    simp only [meaning, hafter, Pending.angle_mark, Pending.coeffs_mark, width_realize]
  constructor
  · intro g hg
    rw [toList_gates_realize, List.mem_append] at hg
    rcases hg with hg | hg
    · exact h.elementary g hg
    · obtain ⟨t, ht, hg⟩ := List.mem_filterMap.mp hg
      obtain ⟨q, hq, rfl⟩ := Option.map_eq_some_iff.mp hg
      have hlt := (Pending.wire?_eq_some_iff.mp hq).2 ▸ (h.coeffs t ht).2
      exact .inl ⟨t.angle, q, (Nat.pow_lt_pow_iff_right (by omega)).mp hlt, rfl⟩
  · exact h.size_parities
  · intro q hq x
    rw [hafter]
    exact h.parities q hq x
  · intro p hp
    rw [hterms] at hp
    obtain ⟨p, hmem, rfl⟩ := List.mem_map.mp hp
    rw [Pending.coeffs_mark]
    exact h.coeffs p hmem
  · rw [hterms, List.map_map, ← h.terms]
    exact List.map_congr_left fun p _ => hmeaning p
  · have hdone : s.realize.terms.toList.filter (·.done) =
        (s.terms.toList.filter fun p => p.done || p.wire?.isSome).map Pending.mark := by
      rw [hterms, List.filter_map]
      congr 1
      exact List.filter_congr fun p _ => Pending.done_mark p
    rw [hdone, List.map_map, toList_gates_realize, readings_append,
      readings_ready fun t ht => (h.coeffs t ht).2]
    have hmap : (s.terms.toList.filter fun p => p.done || p.wire?.isSome).map
        (s.realize.meaning ∘ Pending.mark) =
          (s.terms.toList.filter fun p => p.done || p.wire?.isSome).map s.meaning :=
      List.map_congr_left fun p _ => hmeaning p
    rw [hmap]
    refine (h.placed.append_right _).trans ?_
    rw [← List.map_append]
    exact (filter_done_append_wire s.terms.toList).map s.meaning

theorem terms_cnot (s : Sweep α) (c t : Nat) :
    (s.cnot c t).terms = s.terms.map fun p => (p.toggle c t).mark := by
  rw [cnot_eq_realize, terms_realize]
  simp [link, Function.comp_def]

theorem coeff_cnot (s : Sweep α) (c t row i : Nat) :
    (s.cnot c t).coeff row i = (s.coeff row i ^^ (decide (row = c) && s.coeff t i)) := by
  unfold coeff
  rw [terms_cnot, Array.getElem?_map]
  cases s.terms[i]? with
  | none => simp
  | some p =>
    simp only [Option.map_some, Pending.coeffs_mark, Pending.coeffs_toggle]
    cases p.coeffs.testBit t with
    | false => simp
    | true => simp [Nat.testBit_two_pow, eq_comm]

theorem isPending_cnot {c t i : Nat} (h : s.isPending i = false) :
    (s.cnot c t).isPending i = false := by
  unfold isPending at h ⊢
  rw [terms_cnot, Array.getElem?_map]
  cases hp : s.terms[i]? with
  | none => rfl
  | some p =>
    simp only [hp, Bool.not_eq_false'] at h
    simp [Pending.done_mark, Pending.done_toggle, h]

def Settled (s : Sweep α) : Prop := ∀ t ∈ s.terms.toList, t.wire? = none

theorem settled_realize (s : Sweep α) : s.realize.Settled := by
  intro t ht
  rw [terms_realize, Array.toList_map] at ht
  obtain ⟨p, _, rfl⟩ := List.mem_map.mp ht
  exact p.wire?_mark

def Step (s s' : Sweep α) : Prop := ∃ c < s.width, ∃ t < s.width, c ≠ t ∧ s' = s.cnot c t

def Reaches : Sweep α → Sweep α → Prop := Relation.ReflTransGen Step

namespace Reaches

variable {s' : Sweep α}

theorem refl (s : Sweep α) : Reaches s s := Relation.ReflTransGen.refl

theorem trans {s'' : Sweep α} (h : Reaches s s') (h' : Reaches s' s'') : Reaches s s'' :=
  Relation.ReflTransGen.trans h h'

theorem cnot {c t : Nat} (hc : c < s.width) (ht : t < s.width) (hct : c ≠ t) :
    Reaches s (s.cnot c t) :=
  Relation.ReflTransGen.single ⟨c, hc, t, ht, hct, rfl⟩

theorem preserves {P : Sweep α → Prop}
    (hstep : ∀ r c t, c < r.width → t < r.width → c ≠ t → P r → P (r.cnot c t))
    (h : Reaches s s') (hs : P s) : P s' := by
  induction h with
  | refl => exact hs
  | tail _ hlast ih =>
    obtain ⟨c, hc, t, ht, hct, rfl⟩ := hlast
    exact hstep _ c t hc ht hct ih

theorem width (h : Reaches s s') : s'.width = s.width :=
  h.preserves (P := fun r => r.width = s.width) (fun _ _ _ _ _ _ hr => hr) rfl

theorem size_terms (h : Reaches s s') : s'.terms.size = s.terms.size := by
  refine h.preserves (P := fun r => r.terms.size = s.terms.size) (fun r c t _ _ _ hr => ?_) rfl
  rw [terms_cnot, Array.size_map, hr]

theorem tracks (h : Reaches s s') (hs : Tracks source s) : Tracks source s' :=
  h.preserves (fun _ _ _ hc ht hct hr => (hr.link hc ht hct).realize) hs

theorem settled (h : Reaches s s') (hs : s.Settled) : s'.Settled :=
  h.preserves (fun _ _ _ _ _ _ _ => settled_realize _) hs

theorem isPending (h : Reaches s s') {i : Nat} (hi : s.isPending i = false) :
    s'.isPending i = false :=
  h.preserves (P := fun r => r.isPending i = false) (fun _ _ _ _ _ _ hr => isPending_cnot hr) hi

theorem isPending_of_isPending (h : Reaches s s') {i : Nat} (hi : s'.isPending i = true) :
    s.isPending i = true := by
  by_contra hfalse
  rw [h.isPending (Bool.not_eq_true _ ▸ hfalse)] at hi
  cases hi

end Reaches

def Via (allowed : Nat → Nat → Prop) : Sweep α → Sweep α → Prop :=
  Relation.ReflTransGen fun s s' =>
    ∃ c < s.width, ∃ t < s.width, c ≠ t ∧ allowed c t ∧ s' = s.cnot c t

namespace Via

variable {allowed : Nat → Nat → Prop} {s' : Sweep α}

theorem refl (s : Sweep α) : Via allowed s s := Relation.ReflTransGen.refl

theorem trans {s'' : Sweep α} (h : Via allowed s s') (h' : Via allowed s' s'') :
    Via allowed s s'' :=
  Relation.ReflTransGen.trans h h'

theorem cnot {c t : Nat} (hc : c < s.width) (ht : t < s.width) (hct : c ≠ t) (hp : allowed c t) :
    Via allowed s (s.cnot c t) :=
  Relation.ReflTransGen.single ⟨c, hc, t, ht, hct, hp, rfl⟩

theorem mono {allowed' : Nat → Nat → Prop} (hp : ∀ c t, allowed c t → allowed' c t)
    (h : Via allowed s s') : Via allowed' s s' := by
  refine Relation.ReflTransGen.mono ?_ _ _ h
  rintro _ _ ⟨c, hc, t, ht, hct, hallowed, rfl⟩
  exact ⟨c, hc, t, ht, hct, hp c t hallowed, rfl⟩

theorem reaches (h : Via allowed s s') : Reaches s s' := by
  refine Relation.ReflTransGen.mono ?_ _ _ h
  rintro _ _ ⟨c, hc, t, ht, hct, _, rfl⟩
  exact ⟨c, hc, t, ht, hct, rfl⟩

theorem preserves {P : Sweep α → Prop}
    (hstep : ∀ r c t, c ≠ t → allowed c t → P r → P (r.cnot c t))
    (h : Via allowed s s') (hs : P s) : P s' := by
  induction h with
  | refl => exact hs
  | tail _ hlast ih =>
    obtain ⟨c, _, t, _, hct, hp, rfl⟩ := hlast
    exact hstep _ c t hct hp ih

theorem coeff_eq {row : Nat} (hrow : ∀ c t, allowed c t → c ≠ row) (h : Via allowed s s') (i : Nat) :
    s'.coeff row i = s.coeff row i := by
  refine h.preserves (P := fun r => r.coeff row i = s.coeff row i) (fun r c t _ hp hr => ?_) rfl
  have hne : row ≠ c := Ne.symm (hrow c t hp)
  rw [coeff_cnot, hr]
  simp [hne]

section OneTarget

variable {target : Nat} (htarget : ∀ c t, allowed c t → t = target) (h : Via allowed s s')
include htarget h

theorem coeff_target (i : Nat) : s'.coeff target i = s.coeff target i := by
  refine h.preserves (P := fun r => r.coeff target i = s.coeff target i)
    (fun r c t hct hp hr => ?_) rfl
  obtain rfl := htarget c t hp
  have hne : t ≠ c := Ne.symm hct
  rw [coeff_cnot, hr]
  simp [hne]

theorem coeff_congr {i j row : Nat} (hij : s.coeff target i = s.coeff target j)
    (hrow : s.coeff row i = s.coeff row j) : s'.coeff row i = s'.coeff row j := by
  have hboth := h.preserves (P := fun r => r.coeff target i = r.coeff target j ∧
    r.coeff row i = r.coeff row j) (fun r c t _ hp hr => ?_) ⟨hij, hrow⟩
  · exact hboth.2
  · obtain rfl := htarget c t hp
    simp only [coeff_cnot, hr.1, hr.2, and_self]

end OneTarget

end Via

end Sweep

end ReversibleSynthesis.PhasePolynomial
