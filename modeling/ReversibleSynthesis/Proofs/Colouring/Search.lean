import ReversibleSynthesis.Proofs.Colouring

namespace ReversibleSynthesis.Decomposition

open Permutation

variable {n var : Nat} {perm : Array Nat}

namespace Colouring

def Sized (n : Nat) (c : Colouring) : Prop := c.right.size = 2 ^ n ∧ c.left.size = 2 ^ n

theorem getElem?_beq_none_iff {side : Array (Option Bool)} {key : Nat} (hkey : key < side.size) :
    (side[key]? == some none) = true ↔ side.getD key none = none := by
  rw [beq_iff_eq, Array.getD_eq_getD_getElem?, Array.getElem?_eq_getElem hkey, Option.getD_some,
    Option.some.injEq]

theorem Sized.isFree_iff {c : Colouring} (hc : c.Sized n) {v : Vertex} (hv : v.key < 2 ^ n) :
    c.isFree v = true ↔ c.colour? v = none := by
  cases v with
  | right key => exact getElem?_beq_none_iff (hc.1.symm ▸ hv)
  | left key => exact getElem?_beq_none_iff (hc.2.symm ▸ hv)

theorem Sized.paint {c : Colouring} (hc : c.Sized n) (b : Bool) (v : Vertex) :
    (c.paint b v).Sized n := by
  cases v with
  | right key => exact ⟨Array.size_setIfInBounds.trans hc.1, hc.2⟩
  | left key => exact ⟨hc.1, Array.size_setIfInBounds.trans hc.2⟩

theorem Sized.colour?_paint {c : Colouring} (hc : c.Sized n) {v : Vertex} (hv : v.key < 2 ^ n)
    (b : Bool) (w : Vertex) :
    (c.paint b v).colour? w = if w = v then some b else c.colour? w := by
  cases v with
  | right key =>
    cases w with
    | right key' =>
      simp only [Colouring.paint, colour?, Vertex.right.injEq]
      exact getD_setIfInBounds _ _ _ _ _ (hc.1.symm ▸ hv)
    | left key' => rfl
  | left key =>
    cases w with
    | right key' => rfl
    | left key' =>
      simp only [Colouring.paint, colour?, Vertex.left.injEq]
      exact getD_setIfInBounds _ _ _ _ _ (hc.2.symm ▸ hv)

def Keeps (c c' : Colouring) : Prop := ∀ v, c.colour? v ≠ none → c'.colour? v ≠ none

theorem Keeps.refl (c : Colouring) : c.Keeps c := fun _ hv => hv

theorem Keeps.trans {c c' c'' : Colouring} (h : c.Keeps c') (h' : c'.Keeps c'') : c.Keeps c'' :=
  fun v hv => h' v (h v hv)

theorem Sized.keeps_paint {c : Colouring} (hc : c.Sized n) {v : Vertex} (hv : v.key < 2 ^ n)
    (b : Bool) : c.Keeps (c.paint b v) := by
  intro w hw
  rw [hc.colour?_paint hv]
  split
  · exact Option.some_ne_none b
  · exact hw

end Colouring

-- The colours that were given are those of one solution, and a vertex whose neighbours are not all
-- coloured is on the stack or in `front`.
structure Progress (n : Nat) (perm : Array Nat) (var : Nat) (sol : Vertex → Bool)
    (front : List Vertex) (s : Search) : Prop where
  sized : s.colouring.Sized n
  agrees : ∀ v b, s.colouring.colour? v = some b → b = sol v
  stacked : ∀ v ∈ s.stack, v.Valid n var ∧ s.colouring.colour? v ≠ none
  closed : ∀ u v w, Joined n perm var u v w → s.colouring.colour? v ≠ none →
    s.colouring.colour? w ≠ none ∨ v ∈ front ∨ v ∈ s.stack

namespace Progress

variable {sol : Vertex → Bool} {front : List Vertex} {s : Search} {c : Colouring}

theorem colour?_eq (hs : Progress n perm var sol front s) {v : Vertex}
    (hv : s.colouring.colour? v ≠ none) : s.colouring.colour? v = some (sol v) := by
  obtain ⟨b, hb⟩ := Option.ne_none_iff_exists'.mp hv
  rw [hb, hs.agrees v b hb]

theorem push (hs : Progress n perm var sol front s) {w : Vertex} (hw : w.Valid n var) :
    Progress n perm var sol front ⟨s.colouring.paint (sol w) w, w :: s.stack⟩ where
  sized := hs.sized.paint _ _
  agrees := by
    intro v b hb
    rw [hs.sized.colour?_paint hw.1] at hb
    split at hb
    · next heq => rw [heq, ← Option.some.inj hb]
    · exact hs.agrees v b hb
  stacked := by
    intro v hv
    rcases List.mem_cons.mp hv with rfl | hv
    · refine ⟨hw, ?_⟩
      rw [hs.sized.colour?_paint hw.1, if_pos rfl]
      exact Option.some_ne_none _
    · exact ⟨(hs.stacked v hv).1, hs.sized.keeps_paint hw.1 _ v (hs.stacked v hv).2⟩
  closed := by
    intro u v x huvx hv
    rw [hs.sized.colour?_paint hw.1] at hv
    split at hv
    · next heq => exact .inr (.inr (heq ▸ List.mem_cons_self))
    · rcases hs.closed u v x huvx hv with hx | hfront | hstack
      · exact .inl (hs.sized.keeps_paint hw.1 _ x hx)
      · exact .inr (.inl hfront)
      · exact .inr (.inr (List.mem_cons_of_mem w hstack))

theorem follow (h : Table (2 ^ n) perm) (hsol : Solves n perm var sol)
    (hs : Progress n perm var sol front s) {u : Nat} {v w : Vertex}
    (huvw : Joined n perm var u v w) :
    Progress n perm var sol front (follow perm var (sol v) s (u, w)) ∧
      s.colouring.Keeps (Decomposition.follow perm var (sol v) s (u, w)).colouring ∧
      (Decomposition.follow perm var (sol v) s (u, w)).colouring.colour? w ≠ none := by
  have hw : w.Valid n var := huvw.valid h
  rw [Decomposition.follow]
  split
  · rw [← hsol.eq_of_joined huvw]
    refine ⟨hs.push hw, hs.sized.keeps_paint hw.1 _, ?_⟩
    rw [hs.sized.colour?_paint hw.1, if_pos rfl]
    exact Option.some_ne_none _
  · next hcoloured =>
    exact ⟨hs, .refl _, fun hnone => hcoloured ((hs.sized.isFree_iff hw.1).mpr hnone)⟩

theorem foldl_follow (h : Table (2 ^ n) perm) (hsol : Solves n perm var sol) {v : Vertex}
    {es : List (Nat × Vertex)} (hes : ∀ e ∈ es, Joined n perm var e.1 v e.2)
    (hs : Progress n perm var sol front s) :
    Progress n perm var sol front (es.foldl (Decomposition.follow perm var (sol v)) s) ∧
      s.colouring.Keeps (es.foldl (Decomposition.follow perm var (sol v)) s).colouring ∧
      ∀ e ∈ es,
        (es.foldl (Decomposition.follow perm var (sol v)) s).colouring.colour? e.2 ≠ none := by
  induction es generalizing s with
  | nil => exact ⟨hs, .refl _, fun e he => absurd he List.not_mem_nil⟩
  | cons e es ih =>
    obtain ⟨he, hes⟩ := List.forall_mem_cons.mp hes
    obtain ⟨hs', hkeeps, hcoloured⟩ := hs.follow h hsol he
    obtain ⟨hs'', hkeeps', hrest⟩ := ih hes hs'
    exact ⟨hs'', hkeeps.trans hkeeps', List.forall_mem_cons.mpr ⟨hkeeps' _ hcoloured, hrest⟩⟩

theorem visit (h : Table (2 ^ n) perm) (hvar : var < n) (hsol : Solves n perm var sol) {v : Vertex}
    {stack : List Vertex} (hs : Progress n perm var sol [] ⟨c, v :: stack⟩) :
    Progress n perm var sol [] (visit perm (invert perm) var v ⟨c, stack⟩) ∧
      c.Keeps (Decomposition.visit perm (invert perm) var v ⟨c, stack⟩).colouring := by
  obtain ⟨hvalid, hcoloured⟩ := hs.stacked v List.mem_cons_self
  have hpopped : Progress n perm var sol [v] ⟨c, stack⟩ := {
    sized := hs.sized
    agrees := hs.agrees
    stacked := fun w hw => hs.stacked w (List.mem_cons_of_mem v hw)
    closed := fun u w x huwx hw => by
      rcases hs.closed u w x huwx hw with hx | hnil | hmem
      · exact .inl hx
      · exact absurd hnil List.not_mem_nil
      · rcases List.mem_cons.mp hmem with rfl | hmem
        · exact .inr (.inl (List.mem_singleton_self w))
        · exact .inr (.inr hmem) }
  have hcolour : (c.colour? v).getD false = sol v := by
    rw [hs.colour?_eq hcoloured]
    rfl
  obtain ⟨hafter, hkeeps, hends⟩ :=
    hpopped.foldl_follow h hsol fun e he => (mem_edges_iff h hvar hvalid).mp he
  rw [Decomposition.visit, hcolour]
  refine ⟨⟨hafter.sized, hafter.agrees, hafter.stacked, fun u w x huwx hw => ?_⟩, hkeeps⟩
  rcases hafter.closed u w x huwx hw with hx | hfront | hmem
  · exact .inl hx
  · obtain rfl := List.mem_singleton.mp hfront
    exact .inl (hends (u, x) ((mem_edges_iff h hvar hvalid).mpr huwx))
  · exact .inr (.inr hmem)

theorem search (h : Table (2 ^ n) perm) (hvar : var < n) (hsol : Solves n perm var sol)
    (hs : Progress n perm var sol [] s) :
    Progress n perm var sol [] ⟨search perm (invert perm) var s, []⟩ ∧
      s.colouring.Keeps (Decomposition.search perm (invert perm) var s) := by
  fun_induction Decomposition.search perm (invert perm) var s with
  | case1 c => exact ⟨hs, .refl _⟩
  | case2 c v stack ih =>
    obtain ⟨hvisited, hkeeps⟩ := hs.visit h hvar hsol
    obtain ⟨hdone, hkeeps'⟩ := ih hvisited
    exact ⟨hdone, hkeeps.trans hkeeps'⟩

theorem colourFrom (h : Table (2 ^ n) perm) (hvar : var < n) (hsol : Solves n perm var sol)
    (hc : Progress n perm var sol [] ⟨c, []⟩) {start : Nat}
    (hstart : (Vertex.right start).Valid n var)
    (hfalse : c.colour? (.right start) = none → sol (.right start) = false) :
    Progress n perm var sol [] ⟨colourFrom perm (invert perm) var c start, []⟩ ∧
      c.Keeps (Decomposition.colourFrom perm (invert perm) var c start) ∧
      (Decomposition.colourFrom perm (invert perm) var c start).colour? (.right start) ≠ none := by
  rw [Decomposition.colourFrom]
  split
  · next hfree =>
    rw [← hfalse ((hc.sized.isFree_iff hstart.1).mp hfree)]
    have hpushed := hc.push hstart
    obtain ⟨hdone, hkeeps⟩ := hpushed.search h hvar hsol
    exact ⟨hdone, (hc.sized.keeps_paint hstart.1 _).trans hkeeps,
      hkeeps _ (hpushed.stacked _ List.mem_cons_self).2⟩
  · next hcoloured =>
    exact ⟨hc, .refl _, fun hnone => hcoloured ((hc.sized.isFree_iff hstart.1).mpr hnone)⟩

-- Where no vertex waits, an edge has both ends coloured or none, so the solution can be turned over
-- on the vertices without a colour.
theorem exists_false (hsol : Solves n perm var sol) (hc : Progress n perm var sol [] ⟨c, []⟩)
    {v : Vertex} (hv : c.colour? v = none) :
    ∃ sol', Solves n perm var sol' ∧ Progress n perm var sol' [] ⟨c, []⟩ ∧ sol' v = false := by
  let sol' (w : Vertex) : Bool := if c.colour? w = none then sol w ^^ sol v else sol w
  have hclosed : ∀ {u : Nat} {w x : Vertex}, Joined n perm var u w x →
      c.colour? w ≠ none → c.colour? x ≠ none := by
    intro u w x huwx hw
    simpa using hc.closed u w x huwx hw
  refine ⟨sol', fun u hu => ?_, ⟨hc.sized, fun w b hb => ?_, hc.stacked, hc.closed⟩, ?_⟩
  · have hboth : c.colour? (rightEnd var u) = none ↔ c.colour? (leftEnd perm var u) = none :=
      not_iff_not.mp ⟨hclosed (.toLeft hu), hclosed (.toRight hu)⟩
    rw [← hsol u hu]
    by_cases hnone : c.colour? (leftEnd perm var u) = none
    · simp only [sol', hboth.mpr hnone, hnone, if_true]
      cases sol (rightEnd var u) <;> cases sol (leftEnd perm var u) <;> cases sol v <;> rfl
    · simp only [sol', mt hboth.mp hnone, hnone, if_false]
  · have hcolour : c.colour? w = some b := hb
    simp only [sol', hcolour, reduceCtorEq, if_false]
    exact hc.agrees w b hb
  · simp only [sol', hv, if_true, Bool.xor_self]

end Progress

theorem progress_blank (n : Nat) (perm : Array Nat) (var : Nat) (sol : Vertex → Bool) :
    Progress n perm var sol [] ⟨.blank (2 ^ n), []⟩ := by
  have hblank : ∀ v, (Colouring.blank (2 ^ n)).colour? v = none := by
    intro v
    cases v <;> simp [Colouring.blank, Colouring.colour?, Array.getD]
  exact {
    sized := ⟨Array.size_replicate, Array.size_replicate⟩
    agrees := fun v b hb => by rw [hblank] at hb; cases hb
    stacked := fun v hv => absurd hv List.not_mem_nil
    closed := fun u v w _ hv => absurd (hblank v) hv }

theorem foldl_colourFrom_spec (h : Table (2 ^ n) perm) (hvar : var < n) {starts : List Nat}
    (hstarts : ∀ k ∈ starts, (Vertex.right k).Valid n var) {c : Colouring} {sol : Vertex → Bool}
    (hsol : Solves n perm var sol) (hc : Progress n perm var sol [] ⟨c, []⟩) :
    ∃ sol', Solves n perm var sol' ∧
      Progress n perm var sol' [] ⟨starts.foldl (colourFrom perm (invert perm) var) c, []⟩ ∧
      c.Keeps (starts.foldl (colourFrom perm (invert perm) var) c) ∧
      ∀ k ∈ starts, (starts.foldl (colourFrom perm (invert perm) var) c).colour? (.right k) ≠ none := by
  induction starts generalizing c sol with
  | nil => exact ⟨sol, hsol, hc, .refl _, fun k hk => absurd hk List.not_mem_nil⟩
  | cons start starts ih =>
    obtain ⟨hstart, hstarts⟩ := List.forall_mem_cons.mp hstarts
    obtain ⟨sol₁, hsol₁, hc₁, hfalse⟩ : ∃ sol₁, Solves n perm var sol₁ ∧
        Progress n perm var sol₁ [] ⟨c, []⟩ ∧
        (c.colour? (.right start) = none → sol₁ (.right start) = false) := by
      by_cases hfree : c.colour? (.right start) = none
      · obtain ⟨sol₁, hsol₁, hc₁, hfalse⟩ := hc.exists_false hsol hfree
        exact ⟨sol₁, hsol₁, hc₁, fun _ => hfalse⟩
      · exact ⟨sol, hsol, hc, fun hnone => absurd hnone hfree⟩
    obtain ⟨hnext, hkeeps, hcoloured⟩ := hc₁.colourFrom h hvar hsol₁ hstart hfalse
    obtain ⟨sol', hsol', hdone, hkeeps', hrest⟩ := ih hstarts hsol₁ hnext
    exact ⟨sol', hsol', hdone, hkeeps.trans hkeeps',
      List.forall_mem_cons.mpr ⟨hkeeps' _ hcoloured, hrest⟩⟩

theorem mem_starts_iff {size k : Nat} :
    k ∈ (List.range size).filter (fun key => !key.testBit var) ↔
      k < size ∧ k.testBit var = false := by
  simp

theorem colour_progress (h : Table (2 ^ n) perm) (hvar : var < n) :
    ∃ sol, Solves n perm var sol ∧ Progress n perm var sol [] ⟨colour perm var, []⟩ ∧
      ∀ k < 2 ^ n, k.testBit var = false → (colour perm var).colour? (.right k) ≠ none := by
  obtain ⟨sol, hsol⟩ := exists_solves h hvar
  rw [colour, h.size_eq]
  obtain ⟨sol', hsol', hdone, -, hstarts⟩ := foldl_colourFrom_spec h hvar
    (fun k hk => mem_starts_iff.mp hk) hsol (progress_blank n perm var sol)
  exact ⟨sol', hsol', hdone, fun k hk hbit => hstarts k (mem_starts_iff.mpr ⟨hk, hbit⟩)⟩

theorem colour_spec (h : Table (2 ^ n) perm) (hvar : var < n) {u : Nat} (hu : u < 2 ^ n) :
    ∃ r l, (colour perm var).colour? (rightEnd var u) = some r ∧
      (colour perm var).colour? (leftEnd perm var u) = some l ∧
      (r ^^ l) = (u.testBit var ^^ (perm.getD u 0).testBit var) := by
  obtain ⟨sol, hsol, hdone, hstarts⟩ := colour_progress h hvar
  have hright : (colour perm var).colour? (rightEnd var u) ≠ none :=
    hstarts _ (valid_clearBit hu).1 (valid_clearBit hu).2
  have hleft : (colour perm var).colour? (leftEnd perm var u) ≠ none := by
    simpa using hdone.closed u _ _ (.toLeft hu) hright
  refine ⟨_, _, hdone.colour?_eq hright, hdone.colour?_eq hleft, ?_⟩
  exact hsol u hu

theorem getD_values (side : Array (Option Bool)) (k : Nat) :
    (values side).getD k false = (side.getD k none).getD false := by
  simp only [values, Array.getD_eq_getD_getElem?, Array.getElem?_map]
  cases side[k]? <;> rfl

theorem decompose_spec (h : Table (2 ^ n) perm) (hvar : var < n) {u : Nat} (hu : u < 2 ^ n) :
    ((decompose perm var).1.getD (clearBit u var) false ^^
        (decompose perm var).2.getD (clearBit (perm.getD u 0) var) false) =
      (u.testBit var ^^ (perm.getD u 0).testBit var) := by
  obtain ⟨r, l, hr, hl, hsum⟩ := colour_spec h hvar hu
  have hright : (colour perm var).right.getD (clearBit u var) none = some r := hr
  have hleft : (colour perm var).left.getD (clearBit (perm.getD u 0) var) none = some l := hl
  rw [decompose, getD_values, getD_values, hright, hleft]
  exact hsum

theorem size_decompose (h : Table (2 ^ n) perm) (hvar : var < n) :
    (decompose perm var).1.size = 2 ^ n ∧ (decompose perm var).2.size = 2 ^ n := by
  obtain ⟨sol, -, hdone, -⟩ := colour_progress h hvar
  rw [decompose, values, values, Array.size_map, Array.size_map]
  exact hdone.sized

def pop (perm inverse : Array Nat) (var : Nat) : Search → Search
  | ⟨c, []⟩ => ⟨c, []⟩
  | ⟨c, v :: stack⟩ => visit perm inverse var v ⟨c, stack⟩

theorem exists_iterate_pop (perm inverse : Array Nat) (var : Nat) (s : Search) :
    ∃ k ≤ s.work, (pop perm inverse var)^[k] s = ⟨search perm inverse var s, []⟩ := by
  fun_induction search perm inverse var s with
  | case1 c => exact ⟨0, Nat.zero_le _, rfl⟩
  | case2 c v stack ih =>
    obtain ⟨k, hk, hpops⟩ := ih
    have hle := work_visit_le perm inverse var v ⟨c, stack⟩
    refine ⟨k + 1, ?_, hpops⟩
    simp only [Search.work, List.length_cons] at hle hk ⊢
    omega

theorem decompose_meets_constraints (hperm : perm.toList.Perm (List.range (2 ^ n)))
    (hvar : var < n) :
    (∀ s : Search, ∃ k ≤ s.work,
      (pop perm (invert perm) var)^[k] s = ⟨search perm (invert perm) var s, []⟩) ∧
    ∃ r l, decompose perm var = (r, l) ∧ ∀ u < 2 ^ n, ∃ v a b, perm[u]? = some v ∧
      r[clearBit u var]? = some a ∧ l[clearBit v var]? = some b ∧
      (a ^^ b) = (u.testBit var ^^ v.testBit var) := by
  have h : Table (2 ^ n) perm := table_of_perm hperm
  obtain ⟨hright, hleft⟩ := size_decompose h hvar
  refine ⟨exists_iterate_pop perm (invert perm) var, _, _, rfl, fun u hu => ?_⟩
  have hget {β : Type} (side : Array β) (d : β) {k : Nat} (hk : k < side.size) :
      side[k]? = some (side.getD k d) := by
    rw [Array.getD_eq_getD_getElem?, Array.getElem?_eq_getElem hk, Option.getD_some]
  exact ⟨perm.getD u 0, _, _, hget _ _ (h.size_eq.symm ▸ hu),
    hget _ false (hright.symm ▸ clearBit_lt hu), hget _ false (hleft.symm ▸ clearBit_lt (h.lt u hu)),
    decompose_spec h hvar hu⟩

def crossed : Array Nat := #[7, 0, 1, 2, 6, 5, 4, 3]

theorem decompose_meets_constraints_crossed :
    crossed.toList.Perm (List.range (2 ^ 3)) ∧
      decompose crossed 1 = (#[false, false, false, false, false, true, false, false],
        #[false, true, false, false, true, true, false, false]) ∧
      (∀ s : Search, ∃ k ≤ s.work,
        (pop crossed (invert crossed) 1)^[k] s = ⟨search crossed (invert crossed) 1 s, []⟩) ∧
      ∃ r l, decompose crossed 1 = (r, l) ∧ ∀ u < 2 ^ 3, ∃ v a b, crossed[u]? = some v ∧
        r[clearBit u 1]? = some a ∧ l[clearBit v 1]? = some b ∧
        (a ^^ b) = (u.testBit 1 ^^ v.testBit 1) := by
  have hperm : crossed.toList.Perm (List.range (2 ^ 3)) := by decide
  exact ⟨hperm, by decide +kernel, decompose_meets_constraints hperm (by decide)⟩

end ReversibleSynthesis.Decomposition
