import Mathlib.Algebra.Ring.Parity
import Mathlib.Data.Finset.Card
import Mathlib.Order.Bounds.Basic
import ReversibleSynthesis.Proofs.SingleTarget

namespace ReversibleSynthesis

namespace Cube

variable {n : Nat}

theorem eq_of_sum_eq {f g : Cube Bool n} (h : ∀ s, f.sum s = g.sum s) : f = g := by
  induction f with
  | point a =>
    cases g with
    | point b => rw [show a = b from h fun _ => false]
  | @join n lo hi ihlo ihhi =>
    cases g with
    | join lo' hi' =>
      have hupdate : ∀ (c : Cube Bool n) (s : State) (b : Bool),
          c.sum (Function.update s n b) = c.sum s :=
        fun c s b => c.sum_congr fun i hi => Function.update_of_ne (Nat.ne_of_lt hi) b s
      -- without the last variable only the lower half is summed
      have hlo : lo = lo' := ihlo fun s => by
        simpa [sum, hupdate] using h (Function.update s n false)
      have hhi : hi = hi' := ihhi fun s => by
        simpa [sum, hupdate, hlo] using h (Function.update s n true)
      rw [hlo, hhi]

theorem nodup_support (c : Cube Bool n) : c.support.Nodup := by
  rw [support_eq]
  exact List.nodup_range.filter _

theorem lt_of_mem_support {c : Cube Bool n} {m : Nat} (h : m ∈ c.support) : m < 2 ^ n := by
  rw [support_eq] at h
  exact List.mem_range.mp (List.mem_filter.mp h).1

theorem exists_support_eq {masks : Finset Nat} (h : ∀ m ∈ masks, m < 2 ^ n) :
    ∃ c : Cube Bool n, c.support.toFinset = masks := by
  refine ⟨tabulate n fun m => decide (m ∈ masks), ?_⟩
  ext m
  rw [List.mem_toFinset, support_eq, List.mem_filter, List.mem_range]
  constructor
  · rintro ⟨hm, hget⟩
    rw [get_tabulate _ hm] at hget
    exact of_decide_eq_true hget
  · intro hm
    rw [get_tabulate _ (h m hm)]
    exact ⟨h m hm, decide_eq_true hm⟩

theorem parityOf_eq_odd (q : Nat → Bool) (masks : List Nat) :
    parityOf q masks = decide (Odd (masks.countP q)) := by
  induction masks with
  | nil => rfl
  | cons m masks ih =>
    rw [parityOf, ih, List.countP_cons]
    cases q m with
    | false => simp
    | true => rw [if_pos rfl, Bool.true_xor, ← decide_not, decide_eq_decide, Nat.odd_add_one]

theorem sum_eq_odd_card (c : Cube Bool n) (x : Nat) :
    c.sum x.testBit = decide (Odd (c.support.toFinset.filter fun m => m &&& x = m).card) := by
  have hcontained : ∀ m ∈ c.support,
      (setBits n m).all x.testBit = true ↔ decide (m &&& x = m) = true := by
    intro m hm
    rw [all_setBits_iff (lt_of_mem_support hm), Nat.and_comm, decide_eq_true_iff]
  have hcard : (c.support.toFinset.filter fun m => m &&& x = m).card =
      c.support.countP fun m => decide (m &&& x = m) := by
    rw [List.countP_eq_length_filter,
      ← List.toFinset_card_of_nodup (c.nodup_support.filter _), List.toFinset_filter]
    simp only [decide_eq_true_eq]
  rw [← parityOf_support, parityOf_eq_odd, hcard, List.countP_congr hcontained]

theorem eq_expansion_iff {f : Nat → Bool} {p : Nat} (hp : p < 2 ^ n) (c : Cube Bool n) :
    c = (tabulate n f).expansion p ↔ ∀ x < 2 ^ n, f x = c.sum (x ^^^ p).testBit := by
  have hvalue : ∀ x < 2 ^ n, ((tabulate n f).expansion p).sum (x ^^^ p).testBit = f x := by
    intro x hx
    rw [show (x ^^^ p).testBit = fun i => x.testBit i ^^ p.testBit i from
      funext fun i => Nat.testBit_xor .., sum_expansion, ← get_eq_valueAt, get_tabulate f hx]
  constructor
  · rintro rfl x hx
    exact (hvalue x hx).symm
  · intro h
    refine eq_of_sum_eq fun s => ?_
    -- every state is that of a number, and with `p` added it is that of another
    have hs : ∀ d : Cube Bool n, d.sum s = d.sum (packBits s n ^^^ p ^^^ p).testBit := by
      intro d
      refine d.sum_congr fun i hi => ?_
      rw [Nat.xor_assoc, Nat.xor_self, Nat.xor_zero, testBit_packBits, decide_eq_true hi,
        Bool.true_and]
    have hx : packBits s n ^^^ p < 2 ^ n := Nat.xor_lt_two_pow (packBits_lt s n) hp
    rw [hs, hs, ← h _ hx, hvalue _ hx]

end Cube

namespace TruthTable

def Expands (f : TruthTable) (p : Nat) (S : Finset Nat) : Prop :=
  (∀ m ∈ S, m < 2 ^ f.numVars) ∧
  ∀ x < 2 ^ f.numVars, f.bit? x = some (decide (Odd (S.filter fun m => m &&& (x ^^^ p) = m).card))

theorem Sized.expands_iff {f : TruthTable} (hf : f.Sized) {p : Nat} (hp : p < 2 ^ f.numVars)
    (S : Finset Nat) :
    f.Expands p S ↔ S = ((SingleTarget.cube f).expansion p).support.toFinset := by
  constructor
  · rintro ⟨hbound, hsum⟩
    obtain ⟨c, rfl⟩ := Cube.exists_support_eq hbound
    have hc : c = (SingleTarget.cube f).expansion p := by
      refine (Cube.eq_expansion_iff hp c).mpr fun x hx => ?_
      have hvalue := hsum x hx
      rw [hf.bit?_eq hx, ← Cube.sum_eq_odd_card] at hvalue
      exact Option.some.inj hvalue
    rw [hc]
  · rintro rfl
    refine ⟨fun m hm => Cube.lt_of_mem_support (List.mem_toFinset.mp hm), fun x hx => ?_⟩
    rw [hf.bit?_eq hx, ← Cube.sum_eq_odd_card]
    exact congrArg some ((Cube.eq_expansion_iff hp _).mp rfl x hx)

theorem length_support_expansion (f : TruthTable) {p : Nat} (hp : p < 2 ^ f.numVars) :
    ((SingleTarget.cube f).expansion p).support.length = ReedMuller.count (f.expansion p) := by
  rw [ReedMuller.count_eq_length, f.monomials_expansion hp]
  rfl

theorem Sized.exists_expands_card_iff {f : TruthTable} (hf : f.Sized) {p : Nat}
    (hp : p < 2 ^ f.numVars) (k : Nat) :
    (∃ S, f.Expands p S ∧ S.card = k) ↔ ReedMuller.count (f.expansion p) = k := by
  simp only [hf.expands_iff hp, exists_eq_left, List.toFinset_card_of_nodup (Cube.nodup_support _),
    f.length_support_expansion hp]

theorem Sized.isLeast_card {f : TruthTable} (hf : f.Sized) :
    IsLeast {k | ∃ q < 2 ^ f.numVars, ∃ S, f.Expands q S ∧ S.card = k} f.bestExpansion.count := by
  have hbest := f.firstLeast_bestExpansion
  refine ⟨⟨_, hbest.polarity_lt,
    (hf.exists_expands_card_iff hbest.polarity_lt _).mpr hbest.count_eq.symm⟩, ?_⟩
  rintro k ⟨q, hq, hk⟩
  exact (hf.exists_expands_card_iff hq k).mp hk ▸ hbest.count_le q hq

theorem Sized.isLeast_polarity {f : TruthTable} (hf : f.Sized) :
    IsLeast {q | q < 2 ^ f.numVars ∧ ∃ S, f.Expands q S ∧ S.card = f.bestExpansion.count}
      f.bestExpansion.polarity := by
  have hbest := f.firstLeast_bestExpansion
  refine ⟨⟨hbest.polarity_lt,
    (hf.exists_expands_card_iff hbest.polarity_lt _).mpr hbest.count_eq.symm⟩, ?_⟩
  rintro q ⟨hq, hk⟩
  have hsame := (hf.exists_expands_card_iff hq _).mp hk
  exact Nat.le_of_not_lt fun hbefore => Nat.ne_of_gt (hbest.count_lt q hbefore) hsame

end TruthTable

namespace SingleTarget

variable {α : Type} {f : TruthTable} {controls : List Nat} {target : Nat}

theorem place_bestPolarity (n : Netlist α) (hlen : controls.length = f.numVars)
    (hnodup : (controls ++ [target]).Nodup)
    (halloc : ∀ q ∈ controls ++ [target], q < n.numQubits) :
    ∃ flips middle : List (Gate α),
      n.place (controls ++ [target]) (bestPolarity f) =
        ({ n with gates := n.gates ++ (flips ++ middle ++ flips) }, none) ∧
      flips = (setBits f.numVars f.bestExpansion.polarity).map
        (fun i => Gate.not (controls.getD i 0)) ∧
      middle.length = f.bestExpansion.count ∧
      ∀ g ∈ middle, g.operation = .x ∧ g.target = target := by
  have hvalid : ∀ g ∈ (bestPolarity f : List (Gate α)), g.Valid (controls ++ [target]).length := by
    rw [List.length_append, hlen]
    exact fun g hg => (fits_bestPolarity f g hg).2
  obtain ⟨wire, -, hwire, hplace⟩ := Netlist.place_of_valid hnodup halloc hvalid
  obtain ⟨hcontrols, htarget⟩ := wire_of_getElem hwire
  refine ⟨_, (products f.numVars f.bestExpansion.coefficients).map (Gate.relabel wire), ?_, rfl,
    ?_, ?_⟩
  · rw [hplace, bestPolarity, List.map_append, List.map_append, List.map_map]
    have hflip : ∀ i ∈ setBits f.numVars f.bestExpansion.polarity,
        (Gate.relabel wire ∘ Gate.not) i = (Gate.not (controls.getD i 0) : Gate α) := by
      intro i hi
      rw [← hcontrols i (hlen ▸ (mem_setBits.mp hi).1)]
      rfl
    rw [List.map_congr_left hflip]
  · have hbest := f.firstLeast_bestExpansion
    rw [List.length_map, products, List.length_map, ← ReedMuller.count_eq_length,
      hbest.coefficients_eq, hbest.count_eq]
  · intro g hg
    obtain ⟨g, hmem, rfl⟩ := List.mem_map.mp hg
    obtain ⟨m, -, rfl⟩ := List.mem_map.mp hmem
    exact ⟨rfl, hlen ▸ htarget⟩

theorem getD_ne_target (hnodup : (controls ++ [target]).Nodup) {i : Nat}
    (hi : i < controls.length) : controls.getD i 0 ≠ target := by
  have hmem : controls.getD i 0 ∈ controls := by
    rw [List.getD_eq_getElem _ _ hi]
    exact List.getElem_mem hi
  exact (List.nodup_append.mp hnodup).2.2 _ hmem target (List.mem_singleton_self target)

theorem countP_target {flips middle : List (Gate α)} (hflips : ∀ g ∈ flips, g.target ≠ target)
    (hmiddle : ∀ g ∈ middle, g.target = target) :
    (flips ++ middle ++ flips).countP (·.target = target) = middle.length := by
  have hnone : flips.countP (·.target = target) = 0 :=
    List.countP_eq_zero.mpr fun g hg h => hflips g hg (of_decide_eq_true h)
  have hall : middle.countP (·.target = target) = middle.length :=
    List.countP_eq_length.mpr fun g hg => decide_eq_true (hmiddle g hg)
  rw [List.countP_append, List.countP_append, hnone, hall, Nat.zero_add, Nat.add_zero]

theorem embed_fewest_products [Angle α] (hf : f.Built) (hvars : f.numVars ≤ 12) (n : Netlist α)
    (hlen : controls.length = f.numVars) (hnodup : (controls ++ [target]).Nodup)
    (halloc : ∀ q ∈ controls ++ [target], q < n.numQubits) :
    ∃ (p : Nat) (flips middle gates : List (Gate α)),
      embed .pprm f n (controls ++ [target]) = ({ n with gates := n.gates ++ gates }, none) ∧
      IsLeast {k | ∃ q < 2 ^ f.numVars, ∃ S, f.Expands q S ∧ S.card = k}
        (gates.countP (·.target = target)) ∧
      IsLeast {q | q < 2 ^ f.numVars ∧
        ∃ S, f.Expands q S ∧ S.card = gates.countP (·.target = target)} p ∧
      gates = flips ++ middle ++ flips ∧
      flips = (setBits f.numVars p).map (fun i => Gate.not (controls.getD i 0)) ∧
      ∀ g ∈ middle, g.operation = .x ∧ g.target = target := by
  obtain ⟨flips, middle, hplace, hflips, hlength, hmiddle⟩ :=
    place_bestPolarity (f := f) n hlen hnodup halloc
  have hkept : ∀ g ∈ flips, g.target ≠ target := by
    rw [hflips]
    intro g hg
    obtain ⟨i, hi, rfl⟩ := List.mem_map.mp hg
    exact getD_ne_target hnodup (hlen ▸ (mem_setBits.mp hi).1)
  have hcount : (flips ++ middle ++ flips).countP (·.target = target) =
      f.bestExpansion.count := by
    rw [← hlength]
    exact countP_target hkept fun g hg => (hmiddle g hg).2
  have hok : circuit f .pprm = .ok (bestPolarity f : List (Gate α)) :=
    if_neg (Nat.not_lt.mpr hvars)
  refine ⟨f.bestExpansion.polarity, flips, middle, _, ?_, ?_, ?_, rfl, hflips, hmiddle⟩
  · rw [embed, if_neg (not_not_intro (by simp [hlen])), hok]
    exact hplace
  · rw [hcount]
    exact hf.sized.isLeast_card
  · rw [hcount]
    exact hf.sized.isLeast_polarity

theorem embed_fewest_products_neither :
    neither.Built ∧ neither.numVars ≤ 12 ∧ [4, 0].length = neither.numVars ∧
    ([4, 0] ++ [2]).Nodup ∧
    ∃ (p : Nat) (flips middle gates : List (Gate Float)),
      embed .pprm neither (.withQubits "register" 5) ([4, 0] ++ [2]) =
        (⟨"register", (Netlist.withQubits "register" 5 : Netlist Float).qubits, gates⟩, none) ∧
      IsLeast {k | ∃ q < 2 ^ 2, ∃ S, neither.Expands q S ∧ S.card = k}
        (gates.countP (·.target = 2)) ∧
      IsLeast {q | q < 2 ^ 2 ∧ ∃ S, neither.Expands q S ∧ S.card = gates.countP (·.target = 2)} p ∧
      gates = flips ++ middle ++ flips ∧
      flips = (setBits 2 p).map (fun i => Gate.not ([4, 0].getD i 0)) ∧
      ∀ g ∈ middle, g.operation = .x ∧ g.target = 2 :=
  ⟨neither_built, by decide, rfl, by decide,
    embed_fewest_products neither_built (by decide) (.withQubits "register" 5) rfl (by decide)
      (by decide)⟩

end SingleTarget

end ReversibleSynthesis
