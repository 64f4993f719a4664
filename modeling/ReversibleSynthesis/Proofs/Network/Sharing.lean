import ReversibleSynthesis.Proofs.Network.Construction

namespace ReversibleSynthesis

namespace Signal

def rank (s : Signal) : Nat := 2 * s.node + s.complemented.toNat

theorem rank_injective : Function.Injective rank := by
  rintro ⟨i, p⟩ ⟨j, q⟩ h
  cases p <;> cases q <;> simp_all [rank] <;> omega

theorem le_iff_rank_le (a b : Signal) : a.le b = true ↔ a.rank ≤ b.rank := by
  obtain ⟨i, p⟩ := a
  obtain ⟨j, q⟩ := b
  cases p <;> cases q <;> simp [le, rank] <;> omega

section Order

variable (a b c : Signal)

theorem rank_ordered : (ordered a b).1.rank = min a.rank b.rank ∧
    (ordered a b).2.rank = max a.rank b.rank := by
  rw [ordered]
  split
  · next h =>
    rw [le_iff_rank_le] at h
    exact ⟨(Nat.min_eq_left h).symm, (Nat.max_eq_right h).symm⟩
  · next h =>
    rw [le_iff_rank_le, Nat.not_le] at h
    exact ⟨(Nat.min_eq_right (Nat.le_of_lt h)).symm, (Nat.max_eq_left (Nat.le_of_lt h)).symm⟩

theorem ordered_comm : ordered a b = ordered b a := by
  have hab := rank_ordered a b
  have hba := rank_ordered b a
  refine Prod.ext (rank_injective ?_) (rank_injective ?_)
  · rw [hab.1, hba.1, Nat.min_comm]
  · rw [hab.2, hba.2, Nat.max_comm]

theorem rank_ordered3 : (ordered3 a b c).1.rank ≤ (ordered3 a b c).2.1.rank ∧
    (ordered3 a b c).2.1.rank ≤ (ordered3 a b c).2.2.rank := by
  have h₁ := rank_ordered a b
  have h₂ := rank_ordered (ordered a b).2 c
  have h₃ := rank_ordered (ordered a b).1 (ordered (ordered a b).2 c).1
  simp only [ordered3]
  omega

theorem perm_ordered3 :
    [(ordered3 a b c).1, (ordered3 a b c).2.1, (ordered3 a b c).2.2].Perm [a, b, c] := by
  have hcases := ordered3_cases a b c
  simp only [List.mem_cons, List.not_mem_nil, or_false] at hcases
  rcases hcases with h | h | h | h | h | h <;> rw [h] <;> refine List.perm_iff_count.mpr fun s => ?_
  all_goals
    simp only [List.count_cons, List.count_nil]
    omega

theorem ordered3_eq_of_perm {a b c a' b' c' : Signal} (h : [a', b', c'].Perm [a, b, c]) :
    ordered3 a' b' c' = ordered3 a b c := by
  have hsorted : ∀ x y z : Signal,
      [(ordered3 x y z).1, (ordered3 x y z).2.1, (ordered3 x y z).2.2].Pairwise
        (fun s t => s.rank ≤ t.rank) := by
    intro x y z
    obtain ⟨hlow, hhigh⟩ := rank_ordered3 x y z
    simp [hlow, hhigh, Nat.le_trans hlow hhigh]
  have hlist := List.Perm.eq_of_pairwise
    (fun s t _ _ hst hts => rank_injective (Nat.le_antisymm hst hts))
    (hsorted a' b' c') (hsorted a b c)
    ((perm_ordered3 a' b' c').trans (h.trans (perm_ordered3 a b c).symm))
  simp only [List.cons.injEq, and_true] at hlist
  exact Prod.ext hlist.1 (Prod.ext hlist.2.1 hlist.2.2)

end Order

theorem node_lt_of_rank_le {a b : Signal} (h : a.rank ≤ b.rank) (hne : a.node ≠ b.node) :
    a.node < b.node := by
  have ha := Bool.toNat_le a.complemented
  have hb := Bool.toNat_le b.complemented
  simp only [rank] at h
  omega

theorem node_ne_of_ne {a b : Signal} (hne : a ≠ b) (hcomplement : a ≠ b.complement) :
    a.node ≠ b.node := by
  intro heq
  rcases eq_or_eq_complement heq with h | h
  · exact hne h
  · exact hcomplement h

theorem complementIf_complementIf (s : Signal) (p q : Bool) :
    (s.complementIf p).complementIf q = s.complementIf (p ^^ q) := by
  cases p <;> cases q <;> simp [complementIf, complement_complement]

end Signal

def Node.Normal : Node → Prop
  | .constant => True
  | .input _ => True
  | .and a b => 0 < a.node ∧ a.node < b.node
  | .xor a b => a.complemented = false ∧ b.complemented = false ∧ 0 < a.node ∧ a.node < b.node
  | .maj a b c => a.node < b.node ∧ b.node < c.node

namespace Network

def Indexed (n : Network) : Prop :=
  ∀ (node : Node) (i : Nat), n.table.lookup node = some i ↔
    n.nodes[i]? = some node ∧ node.isGate = true

theorem Indexed.distinct {n : Network} (h : n.Indexed) (i j : Nat) (node : Node)
    (hi : n.nodes[i]? = some node) (hj : n.nodes[j]? = some node) (hgate : node.isGate = true) :
    i = j :=
  Option.some.inj (((h node i).mpr ⟨hi, hgate⟩).symm.trans ((h node j).mpr ⟨hj, hgate⟩))

structure Canonical (n : Network) : Prop where
  table : n.Indexed
  distinct : ∀ (i j : Nat) (node : Node), n.nodes[i]? = some node → n.nodes[j]? = some node →
    node.isGate = true → i = j
  normal : ∀ (i : Nat) (node : Node), n.nodes[i]? = some node → node.Normal

def Retains (n n' : Network) : Prop :=
  ∀ (i : Nat) (node : Node), n.nodes[i]? = some node → n'.nodes[i]? = some node

theorem Retains.refl (n : Network) : n.Retains n := fun _ _ h => h

theorem Retains.trans {n n' n'' : Network} (h : n.Retains n') (h' : n'.Retains n'') :
    n.Retains n'' :=
  fun i node hi => h' i node (h i node hi)

theorem Retains.size_le {n n' : Network} (h : n.Retains n') : n.size ≤ n'.size := by
  rcases Nat.eq_zero_or_pos n.size with hzero | hpos
  · omega
  · have hlast : n.size - 1 < n.nodes.size := Nat.sub_lt hpos Nat.one_pos
    have := lt_size_of_getElem? (h _ _ (Array.getElem?_eq_getElem hlast))
    omega

theorem retains_push (n : Network) (node : Node) : n.Retains (n.push node) :=
  fun _ _ hi => getElem?_push_of_eq_some node hi

section Share

variable {n : Network} {node : Node}

theorem Indexed.push (h : n.Indexed) (hgate : node.isGate = false) : (n.push node).Indexed := by
  intro node' i
  rw [getElem?_push]
  split
  · next hi =>
    constructor
    · intro hlookup
      exact absurd (lt_size_of_getElem? ((h node' i).mp hlookup).1) (by omega)
    · rintro ⟨heq, hgate'⟩
      rw [← Option.some.inj heq, hgate] at hgate'
      cases hgate'
  · exact h node' i

theorem Indexed.pushGate (h : n.Indexed) (hgate : node.isGate = true)
    (hnew : n.table.lookup node = none) : (n.pushGate node).Indexed := by
  intro node' i
  change _ ↔ (n.push node).nodes[i]? = _ ∧ _
  rw [lookup_pushGate, getElem?_push]
  by_cases hnode : node' = node
  · subst hnode
    rw [if_pos rfl]
    by_cases hi : i = n.size
    · simp [hi, hgate]
    · have hold : n.nodes[i]? ≠ some node' := by
        intro hi
        rw [(h node' i).mpr ⟨hi, hgate⟩] at hnew
        cases hnew
      simp [hi, hold, Ne.symm hi]
  · rw [if_neg hnode, h node' i]
    by_cases hi : i = n.size
    · have hnone : n.nodes[i]? = none := Array.getElem?_eq_none (Nat.le_of_eq hi.symm)
      simp [hi ▸ hnone, hi, Ne.symm hnode]
    · rw [if_neg hi]

theorem normal_push (h : ∀ (i : Nat) (old : Node), n.nodes[i]? = some old → old.Normal)
    (hnormal : node.Normal) (i : Nat) (old : Node) (hi : (n.push node).nodes[i]? = some old) :
    old.Normal := by
  rw [getElem?_push] at hi
  split at hi
  · cases hi
    exact hnormal
  · exact h i old hi

theorem Canonical.share_of_getElem? (hn : n.Canonical) (hgate : node.isGate = true) {i : Nat}
    (hi : n.nodes[i]? = some node) : n.share node = (⟨i, false⟩, n) := by
  rw [share, (hn.table node i).mpr ⟨hi, hgate⟩]

theorem Canonical.exists_share (hn : n.Canonical) (hgate : node.isGate = true)
    (hnormal : node.Normal) :
    ∃ i n', n.share node = (⟨i, false⟩, n') ∧ n'.Canonical ∧ n.Retains n' ∧
      n'.nodes[i]? = some node := by
  cases hlookup : n.table.lookup node with
  | none =>
    have hindexed : (n.pushGate node).Indexed := hn.table.pushGate hgate hlookup
    refine ⟨n.size, n.pushGate node, by rw [share, hlookup], ?_, n.retains_push node, ?_⟩
    · exact ⟨hindexed, hindexed.distinct, normal_push hn.normal hnormal⟩
    · exact (n.getElem?_push node n.size).trans (if_pos rfl)
  | some i =>
    exact ⟨i, n, by rw [share, hlookup], hn, .refl n, ((hn.table node i).mp hlookup).1⟩

end Share

inductive Settles (f : Network → Signal × Network) : Prop
  | known (s : Signal) (h : ∀ n, f n = (s, n))
  | shared (node : Node) (flip : Bool) (hgate : node.isGate = true) (hnormal : node.Normal)
      (h : ∀ n, f n = ((n.share node).1.complementIf flip, (n.share node).2))

theorem Settles.complementIf {f : Network → Signal × Network} (hf : Settles f) (flip : Bool) :
    Settles fun n => ((f n).1.complementIf flip, (f n).2) := by
  cases hf with
  | known s h => exact .known (s.complementIf flip) fun n => by rw [h]
  | shared node flip' hgate hnormal h =>
    exact .shared node (flip' ^^ flip) hgate hnormal fun n => by
      rw [h, Signal.complementIf_complementIf]

section Settling

variable {a b c : Signal}

theorem settles_andOrdered (hab : a.rank ≤ b.rank) : Settles fun n => n.andOrdered a b := by
  rcases eq_or_ne a b with heq | hne
  · exact .known a fun n => if_pos heq
  rcases eq_or_ne a.node b.node with hnode | hnode
  · exact .known (.const false) fun n => by rw [andOrdered, if_neg hne, if_pos hnode]
  rcases Nat.eq_zero_or_pos a.node with hzero | hpos
  · exact .known (if a.complemented then b else a) fun n => by
      rw [andOrdered, if_neg hne, if_neg hnode, if_pos hzero]
  · refine .shared (.and a b) false rfl ⟨hpos, Signal.node_lt_of_rank_le hab hnode⟩ fun n => ?_
    rw [andOrdered, if_neg hne, if_neg hnode, if_neg (Nat.ne_of_gt hpos)]
    rfl

theorem settles_xorOrdered (ha : a.complemented = false) (hb : b.complemented = false)
    (hab : a.rank ≤ b.rank) : Settles fun n => n.xorOrdered a b := by
  rcases eq_or_ne a b with heq | hne
  · exact .known (.const false) fun n => if_pos heq
  rcases Nat.eq_zero_or_pos a.node with hzero | hpos
  · exact .known b fun n => by rw [xorOrdered, if_neg hne, if_pos hzero]
  · have hnode : a.node ≠ b.node :=
      Signal.node_ne_of_ne hne fun heq => by simp [heq, Signal.complement, hb] at ha
    refine .shared (.xor a b) false rfl
      ⟨ha, hb, hpos, Signal.node_lt_of_rank_le hab hnode⟩ fun n => ?_
    rw [xorOrdered, if_neg hne, if_neg (Nat.ne_of_gt hpos)]
    rfl

-- Of sorted operands the first and the last have one node only when all three have it, so the test
-- for that is never reached.
theorem majOrdered_of_rank_le (n : Network) (hab : a.rank ≤ b.rank) (hbc : b.rank ≤ c.rank) :
    n.majOrdered a b c =
      if a = b then (a, n)
      else if a = b.complement then (c, n)
      else if b = c then (b, n)
      else if b = c.complement then (a, n)
      else n.share (.maj a b c) := by
  rw [majOrdered]
  split
  · rfl
  · next h₁ =>
    split
    · rfl
    · next h₂ =>
      split
      · rfl
      · next h₃ =>
        split
        · rfl
        · next h₄ =>
          have hlow := Signal.node_lt_of_rank_le hab (Signal.node_ne_of_ne h₁ h₂)
          have hhigh := Signal.node_lt_of_rank_le hbc (Signal.node_ne_of_ne h₃ h₄)
          rw [if_neg (Nat.ne_of_lt (Nat.lt_trans hlow hhigh))]

theorem settles_majOrdered (hab : a.rank ≤ b.rank) (hbc : b.rank ≤ c.rank) :
    Settles fun n => n.majOrdered a b c := by
  rcases eq_or_ne a b with h₁ | h₁
  · exact .known a fun n => if_pos h₁
  rcases eq_or_ne a b.complement with h₂ | h₂
  · exact .known c fun n => by rw [majOrdered, if_neg h₁, if_pos h₂]
  rcases eq_or_ne b c with h₃ | h₃
  · exact .known b fun n => by rw [majOrdered, if_neg h₁, if_neg h₂, if_pos h₃]
  rcases eq_or_ne b c.complement with h₄ | h₄
  · exact .known a fun n => by rw [majOrdered, if_neg h₁, if_neg h₂, if_neg h₃, if_pos h₄]
  · have hlow := Signal.node_lt_of_rank_le hab (Signal.node_ne_of_ne h₁ h₂)
    have hhigh := Signal.node_lt_of_rank_le hbc (Signal.node_ne_of_ne h₃ h₄)
    refine .shared (.maj a b c) false rfl ⟨hlow, hhigh⟩ fun n => ?_
    rw [majOrdered_of_rank_le n hab hbc, if_neg h₁, if_neg h₂, if_neg h₃, if_neg h₄]
    rfl

end Settling

section Settled

open Signal

def GateCall.settled : GateCall → Network → Signal × Network
  | .and a b, n => n.andOrdered (ordered a b).1 (ordered a b).2
  | .or a b, n =>
    let operands := ordered a.complement b.complement
    let r := n.andOrdered operands.1 operands.2
    (r.1.complementIf true, r.2)
  | .xor a b, n =>
    let operands := ordered a.regular b.regular
    let r := n.xorOrdered operands.1 operands.2
    (r.1.complementIf (a.complemented != b.complemented), r.2)
  | .maj a b c, n => n.majOrdered (ordered3 a b c).1 (ordered3 a b c).2.1 (ordered3 a b c).2.2

theorem create_eq_settled {n : Network} {call : GateCall}
    (h : ∀ s ∈ call.operands, s.node < n.size) : n.create call = .ok (call.settled n) := by
  cases call with
  | and a b =>
    rw [create, createAnd, check_of_lt (h a (by simp)), check_of_lt (h b (by simp))]
    rfl
  | or a b =>
    have ha : a.complement.node < n.size := h a (by simp)
    have hb : b.complement.node < n.size := h b (by simp)
    rw [create, createOr, createAnd, check_of_lt ha, check_of_lt hb]
    rfl
  | xor a b =>
    rw [create, createXor, check_of_lt (h a (by simp)), check_of_lt (h b (by simp))]
    rfl
  | maj a b c =>
    rw [create, createMaj, check_of_lt (h a (by simp)), check_of_lt (h b (by simp)),
      check_of_lt (h c (by simp))]
    rfl

theorem rank_ordered_le (a b : Signal) : (ordered a b).1.rank ≤ (ordered a b).2.rank := by
  have h := rank_ordered a b
  omega

theorem settles_settled (call : GateCall) : Settles call.settled := by
  cases call with
  | and a b => exact settles_andOrdered (rank_ordered_le a b)
  | or a b =>
    exact (settles_andOrdered (rank_ordered_le a.complement b.complement)).complementIf true
  | xor a b =>
    have hdirect : (ordered a.regular b.regular).1.complemented = false ∧
        (ordered a.regular b.regular).2.complemented = false := by
      rcases ordered_cases a.regular b.regular with h | h <;> rw [h] <;> exact ⟨rfl, rfl⟩
    exact (settles_xorOrdered hdirect.1 hdirect.2
      (rank_ordered_le a.regular b.regular)).complementIf _
  | maj a b c => exact settles_majOrdered (rank_ordered3 a b c).1 (rank_ordered3 a b c).2

inductive GateCall.Reorders : GateCall → GateCall → Prop
  | same (call : GateCall) : Reorders call call
  | and (a b : Signal) : Reorders (.and b a) (.and a b)
  | or (a b : Signal) : Reorders (.or b a) (.or a b)
  | xor (a b : Signal) : Reorders (.xor b a) (.xor a b)
  | maj {a b c a' b' c' : Signal} (h : [a', b', c'].Perm [a, b, c]) :
      Reorders (.maj a' b' c') (.maj a b c)

theorem GateCall.Reorders.operands_perm {call call' : GateCall} (h : call'.Reorders call) :
    call'.operands.Perm call.operands := by
  cases h with
  | same => exact .refl _
  | and a b => exact .swap a b []
  | or a b => exact .swap a b []
  | xor a b => exact .swap a b []
  | maj h => exact h

theorem GateCall.Reorders.settled_eq {call call' : GateCall} (h : call'.Reorders call) :
    call'.settled = call.settled := by
  funext n
  cases h with
  | same => rfl
  | and a b => rw [settled, settled, ordered_comm]
  | or a b => rw [settled, settled, ordered_comm]
  | xor a b => rw [settled, settled, ordered_comm, bne_comm]
  | maj h => rw [settled, settled, ordered3_eq_of_perm h]

theorem settled_xor_complementIf (a b : Signal) (p q : Bool) (n : Network) :
    (GateCall.xor (a.complementIf p) (b.complementIf q)).settled n =
      ((((GateCall.xor a b).settled n).1.complementIf p).complementIf q,
        ((GateCall.xor a b).settled n).2) := by
  have hregular : ∀ (s : Signal) (r : Bool), (s.complementIf r).regular = s.regular := by
    intro s r
    cases r <;> rfl
  have hflip : ((a.complementIf p).complemented != (b.complementIf q).complemented) =
      ((a.complemented != b.complemented) ^^ p ^^ q) := by
    obtain ⟨i, x⟩ := a
    obtain ⟨j, y⟩ := b
    cases p <;> cases q <;> cases x <;> cases y <;> rfl
  simp only [GateCall.settled, hregular, hflip, complementIf_complementIf, Bool.xor_assoc]

end Settled

theorem Canonical.settled {n : Network} (hn : n.Canonical) {f : Network → Signal × Network}
    (hf : Settles f) : (f n).2.Canonical ∧ n.Retains (f n).2 := by
  cases hf with
  | known s h =>
    rw [h]
    exact ⟨hn, .refl n⟩
  | shared node flip hgate hnormal h =>
    obtain ⟨i, n', hshare, hn', hretains, _⟩ := hn.exists_share hgate hnormal
    rw [h, hshare]
    exact ⟨hn', hretains⟩

theorem Settles.again {f : Network → Signal × Network} (hf : Settles f) {n m : Network}
    (hn : n.Canonical) (hm : m.Canonical) (hretains : (f n).2.Retains m) : f m = ((f n).1, m) := by
  cases hf with
  | known s h => rw [h, h]
  | shared node flip hgate hnormal h =>
    obtain ⟨i, n', hshare, _, _, hi⟩ := hn.exists_share hgate hnormal
    rw [h, hshare] at hretains
    rw [h, h, hshare, hm.share_of_getElem? hgate (hretains i node hi)]

theorem canonical_empty : empty.Canonical := by
  have hnode : ∀ (i : Nat) (node : Node), empty.nodes[i]? = some node → node = .constant := by
    intro i node h
    simpa [empty] using Array.mem_of_getElem? h
  have hindexed : empty.Indexed := by
    intro node i
    constructor
    · intro hlookup
      cases hlookup
    · rintro ⟨hi, hgate⟩
      rw [hnode i node hi] at hgate
      cases hgate
  refine ⟨hindexed, hindexed.distinct, fun i node hi => ?_⟩
  rw [hnode i node hi]
  trivial

theorem Canonical.step {n : Network} (hn : n.Canonical) {call : Call} (hcall : call ≠ .reload) :
    (n.step call).Canonical ∧ n.Retains (n.step call) := by
  cases call with
  | input name =>
    have hindexed : (n.push (.input n.numInputs)).Indexed := hn.table.push rfl
    have hnormal : (Node.input n.numInputs).Normal := trivial
    exact ⟨⟨hindexed, hindexed.distinct, normal_push hn.normal hnormal⟩, n.retains_push _⟩
  | output s name =>
    cases hout : n.createOutput s name with
    | error e =>
      rw [Network.step, hout]
      exact ⟨hn, .refl n⟩
    | ok n' =>
      obtain ⟨_, h⟩ := check_bind_eq_ok hout
      cases h
      rw [Network.step, hout]
      exact ⟨⟨hn.table, hn.distinct, hn.normal⟩, .refl n⟩
  | gate call =>
    rcases Classical.em (∀ s ∈ call.operands, s.node < n.size) with hall | hmissing
    · rw [step_gate_of_ok (create_eq_settled hall)]
      exact hn.settled (settles_settled call)
    · simp only [not_forall, Nat.not_lt, exists_prop] at hmissing
      obtain ⟨s, _, _, herror⟩ := n.create_refused hmissing
      rw [step_gate_of_error herror]
      exact ⟨hn, .refl n⟩
  | reload => exact absurd rfl hcall

theorem Canonical.foldl_step {n : Network} (hn : n.Canonical) {calls : List Call}
    (hcalls : Call.reload ∉ calls) :
    (calls.foldl Network.step n).Canonical ∧ n.Retains (calls.foldl Network.step n) := by
  induction calls generalizing n with
  | nil => exact ⟨hn, .refl n⟩
  | cons call calls ih =>
    rw [List.mem_cons, not_or] at hcalls
    obtain ⟨hstep, hretains⟩ := hn.step (Ne.symm hcalls.1)
    obtain ⟨hlast, hretains'⟩ := ih hstep hcalls.2
    exact ⟨hlast, hretains.trans hretains'⟩

theorem Built.canonical {n : Network} (h : n.Built) : n.Canonical := by
  obtain ⟨calls, hcalls, rfl⟩ := built_iff.mp h
  exact (canonical_empty.foldl_step hcalls).1

section Later

variable {n m : Network} (hn : n.Canonical) (hm : m.Canonical)

include hn hm

theorem Canonical.create_later {call call' : GateCall}
    (hoperands : ∀ s ∈ call.operands, s.node < n.size) (hretains : (call.settled n).2.Retains m)
    (hreorders : call'.Reorders call) : m.create call' = .ok ((call.settled n).1, m) := by
  have hsize := ((hn.settled (settles_settled call)).2.trans hretains).size_le
  have hexist : ∀ s ∈ call'.operands, s.node < m.size := fun s hs =>
    Nat.lt_of_lt_of_le (hoperands s (hreorders.operands_perm.mem_iff.mp hs)) hsize
  rw [create_eq_settled hexist, hreorders.settled_eq, (settles_settled call).again hn hm hretains]

theorem Canonical.createXor_later {a b : Signal} (p q : Bool) {call : GateCall}
    (ha : a.node < n.size) (hb : b.node < n.size)
    (hretains : ((GateCall.xor a b).settled n).2.Retains m)
    (hreorders : call.Reorders (.xor (a.complementIf p) (b.complementIf q))) :
    m.create call =
      .ok ((((GateCall.xor a b).settled n).1.complementIf p).complementIf q, m) := by
  have hsize := ((hn.settled (settles_settled (.xor a b))).2.trans hretains).size_le
  have hnode : ∀ (s : Signal) (r : Bool), (s.complementIf r).node = s.node := by
    intro s r
    cases r <;> rfl
  have hexist : ∀ s ∈ call.operands, s.node < m.size := by
    intro s hs
    have hmem := hreorders.operands_perm.mem_iff.mp hs
    simp only [GateCall.operands, List.mem_cons, List.not_mem_nil, or_false] at hmem
    rcases hmem with rfl | rfl <;> rw [hnode] <;> omega
  rw [create_eq_settled hexist, hreorders.settled_eq, settled_xor_complementIf,
    (settles_settled (.xor a b)).again hn hm hretains]

end Later

theorem create_again {calls : List Call} (hcalls : Call.reload ∉ calls) :
    (ofCalls calls).Canonical ∧
    (∀ i : Nat, (ofCalls calls).nodes[i]? = some .constant ↔ i = 0) ∧
    ∀ call : GateCall, (∀ s ∈ call.operands, s.node < (ofCalls calls).size) →
      ∃ s, (ofCalls calls).create call = .ok (s, ofCalls (calls ++ [.gate call])) ∧
        ∀ later : List Call, Call.reload ∉ later →
          ∀ m, ofCalls (calls ++ .gate call :: later) = m →
            (∀ call' : GateCall, call'.Reorders call → m.create call' = .ok (s, m)) ∧
            ∀ (a b : Signal) (p q : Bool), call = .xor a b → ∀ call' : GateCall,
              call'.Reorders (.xor (a.complementIf p) (b.complementIf q)) →
                m.create call' = .ok ((s.complementIf p).complementIf q, m) := by
  have hn : (ofCalls calls).Canonical := (canonical_empty.foldl_step hcalls).1
  refine ⟨hn, (wellFormed_ofCalls calls).constant, fun call hoperands => ?_⟩
  have hcreate := create_eq_settled hoperands
  have hfirst : ofCalls (calls ++ [.gate call]) = (call.settled (ofCalls calls)).2 :=
    (List.foldl_concat ..).trans (step_gate_of_ok hcreate)
  refine ⟨(call.settled (ofCalls calls)).1, by rw [hfirst, hcreate], ?_⟩
  intro later hlater m hlast
  have hm : m.Canonical ∧ (call.settled (ofCalls calls)).2.Retains m := by
    rw [List.append_cons, ofCalls, List.foldl_append] at hlast
    rw [← hlast, ← hfirst]
    exact (hfirst ▸ (hn.settled (settles_settled call)).1).foldl_step hlater
  constructor
  · intro call' hreorders
    exact hn.create_later hm.1 hoperands hm.2 hreorders
  · rintro a b p q rfl call' hreorders
    exact hn.createXor_later hm.1 p q (hoperands a (by simp)) (hoperands b (by simp)) hm.2 hreorders

def sharedCalls : List Call :=
  [.input "a", .input "b", .gate (.maj ⟨2, true⟩ ⟨0, true⟩ ⟨1, false⟩), .output ⟨3, true⟩ "f"]

def laterCalls : List Call :=
  [.input "c", .gate (.and ⟨4, true⟩ ⟨5, false⟩), .gate (.and ⟨9, false⟩ ⟨1, false⟩)]

theorem create_again_interrupted :
    (ofCalls sharedCalls).Canonical ∧
    ∃ s, (ofCalls sharedCalls).create (.xor ⟨3, true⟩ ⟨1, false⟩) =
        .ok (s, ofCalls (sharedCalls ++ [.gate (.xor ⟨3, true⟩ ⟨1, false⟩)])) ∧
      ∀ m, ofCalls (sharedCalls ++ .gate (.xor ⟨3, true⟩ ⟨1, false⟩) :: laterCalls) = m →
        m.create (.xor ⟨1, false⟩ ⟨3, true⟩) = .ok (s, m) ∧
        m.create (.xor ⟨1, true⟩ ⟨3, true⟩) = .ok (s.complement, m) := by
  have hcalls : Call.reload ∉ sharedCalls := by decide
  obtain ⟨hcanonical, -, hcreate⟩ := create_again hcalls
  obtain ⟨s, hfirst, hlater⟩ := hcreate (.xor ⟨3, true⟩ ⟨1, false⟩) (by decide)
  refine ⟨hcanonical, s, hfirst, fun m hm => ?_⟩
  obtain ⟨hreordered, hcomplemented⟩ := hlater laterCalls (by decide) m hm
  exact ⟨hreordered _ (.xor _ _), hcomplemented _ _ false true rfl _ (.xor _ _)⟩

end Network

end ReversibleSynthesis
