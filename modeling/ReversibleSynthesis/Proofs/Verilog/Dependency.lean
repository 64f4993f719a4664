import Mathlib.Data.List.Nodup
import Mathlib.Data.List.Perm.Subperm
import Mathlib.Logic.Relation
import ReversibleSynthesis.Verilog.Dependency

namespace ReversibleSynthesis.Verilog.DependencyGraph

def Edge (g : DependencyGraph) (u v : Nat) : Prop := (u, v) ∈ g.edges

def Reaches (g : DependencyGraph) : Nat → Nat → Prop := Relation.ReflTransGen g.Edge

def Bounded (g : DependencyGraph) : Prop := ∀ u v, g.Edge u v → u < g.size ∧ v < g.size

variable {g : DependencyGraph}

theorem mem_successors {u v : Nat} : v ∈ g.successors u ↔ g.Edge u v := by
  simp [successors, Edge]

theorem mem_predecessors {u v : Nat} : u ∈ g.predecessors v ↔ g.Edge u v := by
  simp [predecessors, Edge]

structure Sound (g : DependencyGraph) (path : List Nat) (s : Search) : Prop where
  bound : ∀ v ∈ s.discovered, v < g.size
  loopless : ∀ v ∈ s.discovered, ¬ g.Edge v v
  discovered : ∀ v, v ∈ s.discovered ↔ v ∈ path ∨ v ∈ s.finished
  nodup : (path ++ s.finished).Nodup
  successors : ∀ v ∈ s.finished, ∀ w, g.Edge v w → w ∈ s.discovered
  back : ∀ v ∈ s.finished, ∀ w ∈ path, g.Edge v w → g.Reaches w v
  ordered : s.finished.Pairwise fun w v => g.Edge v w → g.Reaches w v

theorem Sound.start : Sound g [] ⟨[], []⟩ := by
  constructor <;> simp

section Steps

variable {path : List Nat} {s : Search} {u : Nat}

theorem Sound.meet (h : Sound g path s) (hlt : u < g.size) (hnew : u ∉ s.discovered)
    (hloop : ¬ g.Edge u u) : Sound g (u :: path) { s with discovered := u :: s.discovered } where
  bound := List.forall_mem_cons.mpr ⟨hlt, h.bound⟩
  loopless := List.forall_mem_cons.mpr ⟨hloop, h.loopless⟩
  discovered v := by simp only [List.mem_cons, h.discovered v, or_assoc]
  nodup := by
    refine List.nodup_cons.mpr ⟨fun hmem => hnew ?_, h.nodup⟩
    exact (h.discovered u).mpr (List.mem_append.mp hmem)
  successors v hv w hw := List.mem_cons_of_mem _ (h.successors v hv w hw)
  back v hv w hw hedge := by
    rcases List.mem_cons.mp hw with rfl | hw
    · exact absurd (h.successors v hv w hedge) hnew
    · exact h.back v hv w hw hedge
  ordered := h.ordered

theorem Sound.finish (h : Sound g (u :: path) s) (hpath : ∀ w ∈ path, g.Reaches w u)
    (hall : ∀ v ∈ g.successors u, v ∈ s.discovered) :
    Sound g path { s with finished := u :: s.finished } where
  bound := h.bound
  loopless := h.loopless
  discovered v := by
    rw [h.discovered v, List.mem_cons, List.mem_cons, or_assoc]
    exact or_left_comm
  nodup := (List.perm_middle.nodup_iff).mpr h.nodup
  successors := List.forall_mem_cons.mpr ⟨fun w hw => hall w (mem_successors.mpr hw), h.successors⟩
  back := List.forall_mem_cons.mpr ⟨fun w hw _ => hpath w hw,
    fun v hv w hw => h.back v hv w (List.mem_cons_of_mem _ hw)⟩
  ordered := List.pairwise_cons.mpr ⟨fun v hv => h.back v hv u List.mem_cons_self, h.ordered⟩

end Steps

def Searched (g : DependencyGraph) (path : List Nat) (s : Search) (us : List Nat) :
    Except Nat Search → Prop
  | .ok s' => Sound g path s' ∧ s.finished.length ≤ s'.finished.length ∧
      s.discovered ⊆ s'.discovered ∧ ∀ u ∈ us, u ∈ s'.discovered
  | .error v => g.Edge v v

theorem mem_of_size_le {l : List Nat} {size u : Nat} (hnodup : l.Nodup) (hlt : ∀ v ∈ l, v < size)
    (hsize : size ≤ l.length) (hu : u < size) : u ∈ l := by
  have hsub : l.Subperm (List.range size) :=
    hnodup.subperm fun v hv => List.mem_range.mpr (hlt v hv)
  have hperm := hsub.perm_of_length_le (by rwa [List.length_range])
  exact hperm.mem_iff.mpr (List.mem_range.mpr hu)

theorem Sound.mem_discovered {path : List Nat} {s : Search} {u : Nat} (h : Sound g path s)
    (hsize : g.size ≤ (path ++ s.finished).length) (hu : u < g.size) : u ∈ s.discovered := by
  have hlt : ∀ v ∈ path ++ s.finished, v < g.size := fun v hv =>
    h.bound v ((h.discovered v).mpr (List.mem_append.mp hv))
  exact (h.discovered u).mpr (List.mem_append.mp (mem_of_size_le h.nodup hlt hsize hu))

section Search

variable {path : List Nat} {depth : Nat}

theorem foldlM_searched
    (hvisit : ∀ s u, Sound g path s → u < g.size → (∀ w ∈ path, g.Reaches w u) →
      g.size ≤ depth + (path ++ s.finished).length → Searched g path s [u] (g.visit depth s u))
    {us : List Nat} (hus : ∀ u ∈ us, u < g.size ∧ ∀ w ∈ path, g.Reaches w u) {s : Search}
    (h : Sound g path s) (hdepth : g.size ≤ depth + (path ++ s.finished).length) :
    Searched g path s us (us.foldlM (g.visit depth) s) := by
  induction us generalizing s with
  | nil => exact ⟨h, Nat.le_refl _, List.Subset.refl _, nofun⟩
  | cons u us ih =>
    obtain ⟨hhead, htail⟩ := List.forall_mem_cons.mp hus
    have hfirst := hvisit s u h hhead.1 hhead.2 hdepth
    rw [List.foldlM_cons]
    cases hrun : g.visit depth s u with
    | error v =>
      rw [hrun] at hfirst
      exact hfirst
    | ok s₁ =>
      rw [hrun] at hfirst
      obtain ⟨hs₁, hlen₁, hsub₁, hmem₁⟩ := hfirst
      have hdepth₁ : g.size ≤ depth + (path ++ s₁.finished).length := by
        simp only [List.length_append] at hdepth ⊢
        omega
      have hrest := ih htail hs₁ hdepth₁
      change Searched g path s (u :: us) (us.foldlM (g.visit depth) s₁)
      cases hrun₂ : us.foldlM (g.visit depth) s₁ with
      | error v =>
        rw [hrun₂] at hrest
        exact hrest
      | ok s₂ =>
        rw [hrun₂] at hrest
        obtain ⟨hs₂, hlen₂, hsub₂, hmem₂⟩ := hrest
        exact ⟨hs₂, Nat.le_trans hlen₁ hlen₂, List.Subset.trans hsub₁ hsub₂,
          List.forall_mem_cons.mpr ⟨hsub₂ (hmem₁ u List.mem_cons_self), hmem₂⟩⟩

theorem visit_searched (hg : g.Bounded) {s : Search} {u : Nat} (h : Sound g path s)
    (hu : u < g.size) (hpath : ∀ w ∈ path, g.Reaches w u)
    (hdepth : g.size ≤ depth + (path ++ s.finished).length) :
    Searched g path s [u] (g.visit depth s u) := by
  induction depth generalizing path s u with
  | zero =>
    rw [Nat.zero_add] at hdepth
    exact ⟨h, Nat.le_refl _, List.Subset.refl _, by simpa using h.mem_discovered hdepth hu⟩
  | succ depth ih =>
    unfold visit
    split
    · next hmem => exact ⟨h, Nat.le_refl _, List.Subset.refl _, by simpa using hmem⟩
    · next hnew =>
      split
      · next hloop => exact mem_successors.mp hloop
      · next hloop =>
        have hmeet := h.meet hu hnew (mt mem_successors.mpr hloop)
        have hnext : ∀ v ∈ g.successors u, v < g.size ∧ ∀ w ∈ u :: path, g.Reaches w v := by
          intro v hv
          have hedge := mem_successors.mp hv
          exact ⟨(hg u v hedge).2, List.forall_mem_cons.mpr
            ⟨.single hedge, fun w hw => (hpath w hw).tail hedge⟩⟩
        have hdepth' : g.size ≤ depth + (u :: path ++ s.finished).length := by
          simp only [List.cons_append, List.length_cons, List.length_append] at hdepth ⊢
          omega
        have hall := foldlM_searched (fun _ _ => ih) hnext hmeet hdepth'
        cases hrun : (g.successors u).foldlM (g.visit depth)
            { s with discovered := u :: s.discovered } with
        | error v =>
          rw [hrun] at hall
          exact hall
        | ok s' =>
          rw [hrun] at hall
          obtain ⟨hs', hlen, hsub, hmem⟩ := hall
          exact ⟨hs'.finish hpath hmem, Nat.le_succ_of_le hlen,
            fun v hv => hsub (List.mem_cons_of_mem _ hv),
            by simpa using hsub List.mem_cons_self⟩

theorem reversePostorder_searched (hg : g.Bounded) :
    Searched g [] ⟨[], []⟩ (List.range g.size)
      ((List.range g.size).foldlM (g.visit g.size) ⟨[], []⟩) :=
  foldlM_searched (fun _ _ => visit_searched hg) (fun u hu => ⟨List.mem_range.mp hu, by simp⟩) .start
    (Nat.le_add_right _ _)

end Search

def InOrder (g : DependencyGraph) (seen : List Nat) : List Nat → Prop
  | [] => True
  | u :: rest => (∀ v, g.Edge v u → v ∈ seen) ∧ g.InOrder (u :: seen) rest

theorem inOrder_of_firstLate? {seen vs : List Nat} (h : g.firstLate? seen vs = none)
    (hloop : ∀ u ∈ vs, ¬ g.Edge u u) : g.InOrder seen vs := by
  induction vs generalizing seen with
  | nil => trivial
  | cons u vs ih =>
    obtain ⟨hu, hvs⟩ := List.forall_mem_cons.mp hloop
    unfold firstLate? at h
    split at h
    · cases h
    · next hnone =>
      refine ⟨fun v hedge => ?_, ih h hvs⟩
      have hseen := List.find?_eq_none.mp hnone v (mem_predecessors.mpr hedge)
      rw [Bool.not_eq_true, Bool.not_eq_false', List.contains_iff_mem, List.mem_cons] at hseen
      exact hseen.resolve_left fun heq => hu (heq ▸ hedge)

theorem firstLate?_eq_some {seen vs : List Nat} {v : Nat} (h : g.firstLate? seen vs = some v) :
    ∃ before u after, vs = before ++ u :: after ∧ g.Edge v u ∧ v ≠ u ∧ v ∉ seen ++ before := by
  induction vs generalizing seen with
  | nil => cases h
  | cons w ws ih =>
    unfold firstLate? at h
    split at h
    · next v' hsome =>
      cases h
      have hedge := mem_predecessors.mp (List.mem_of_find?_eq_some hsome)
      have hlate := List.find?_some hsome
      rw [Bool.not_eq_true', ← Bool.not_eq_true, List.contains_iff_mem, List.mem_cons, not_or] at hlate
      exact ⟨[], w, ws, rfl, hedge, hlate.1, by rw [List.append_nil]; exact hlate.2⟩
    · obtain ⟨before, u, after, rfl, hedge, hne, hmem⟩ := ih h
      exact ⟨w :: before, u, after, rfl, hedge, hne, fun hin =>
        hmem ((List.perm_middle.mem_iff).mp hin)⟩

theorem order_eq_ok (hg : g.Bounded) {vs : List Nat} (h : g.order = .ok vs) :
    vs.Perm (List.range g.size) ∧ g.InOrder [] vs := by
  have hsearch := reversePostorder_searched hg
  unfold order reversePostorder at h
  cases hrun : (List.range g.size).foldlM (g.visit g.size) ⟨[], []⟩ with
  | error v => rw [hrun] at h; cases h
  | ok s =>
    rw [hrun] at h hsearch
    obtain ⟨hs, _, _, hall⟩ := hsearch
    simp only [bind, Except.bind, pure, Except.pure] at h
    split at h
    · cases h
    · next hlate =>
      cases h
      have hfinished : ∀ v, v ∈ s.discovered ↔ v ∈ s.finished := fun v => by
        simpa using hs.discovered v
      refine ⟨(List.perm_ext_iff_of_nodup hs.nodup List.nodup_range).mpr fun v => ?_, ?_⟩
      · rw [List.nil_append, ← hfinished]
        exact ⟨fun hv => List.mem_range.mpr (hs.bound v hv), hall v⟩
      · exact inOrder_of_firstLate? hlate fun u hu => hs.loopless u ((hfinished u).mpr hu)

theorem order_eq_error (hg : g.Bounded) {v : Nat} (h : g.order = .error v) :
    Relation.TransGen g.Edge v v := by
  have hsearch := reversePostorder_searched hg
  unfold order reversePostorder at h
  cases hrun : (List.range g.size).foldlM (g.visit g.size) ⟨[], []⟩ with
  | error w =>
    rw [hrun] at h hsearch
    cases h
    exact .single hsearch
  | ok s =>
    rw [hrun] at h hsearch
    obtain ⟨hs, _, _, hall⟩ := hsearch
    simp only [bind, Except.bind, pure, Except.pure] at h
    split at h
    · next w hlate =>
      cases h
      obtain ⟨before, u, after, hsplit, hedge, hne, hmem⟩ := firstLate?_eq_some hlate
      have hv : v ∈ s.finished := by
        simpa using (hs.discovered v).mp (hall v (List.mem_range.mpr (hg v u hedge).1))
      have hlater : v ∈ after := by
        rw [hsplit, List.mem_append, List.mem_cons] at hv
        exact (hv.resolve_left hmem).resolve_left hne
      have hordered := hs.ordered
      rw [hsplit, List.pairwise_append, List.pairwise_cons] at hordered
      exact .head' hedge (hordered.2.1.1 v hlater hedge)
    · cases h

end ReversibleSynthesis.Verilog.DependencyGraph
