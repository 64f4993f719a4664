import ReversibleSynthesis.Proofs.Network.Record
import ReversibleSynthesis.Proofs.Network.Value

namespace ReversibleSynthesis

theorem Signal.complement_complement (s : Signal) : s.complement.complement = s := by
  simp [complement]

namespace Network

inductive GateCall where
  | and (a b : Signal)
  | or (a b : Signal)
  | xor (a b : Signal)
  | maj (a b c : Signal)
  deriving DecidableEq, Repr

@[simp] def GateCall.operands : GateCall → List Signal
  | .and a b => [a, b]
  | .or a b => [a, b]
  | .xor a b => [a, b]
  | .maj a b c => [a, b, c]

def GateCall.value (read : Signal → Bool) : GateCall → Bool
  | .and a b => read a && read b
  | .or a b => read a || read b
  | .xor a b => read a ^^ read b
  | .maj a b c => (read a && read b) || (read a && read c) || (read b && read c)

def create (n : Network) : GateCall → Except InputError (Signal × Network)
  | .and a b => n.createAnd a b
  | .or a b => n.createOr a b
  | .xor a b => n.createXor a b
  | .maj a b c => n.createMaj a b c

inductive Call where
  | input (name : String)
  | output (s : Signal) (name : String)
  | gate (call : GateCall)
  | reload
  deriving DecidableEq, Repr

def step (n : Network) : Call → Network
  | .input name => (n.createInput name).2
  | .output s name => (n.createOutput s name).toOption.getD n
  | .gate call => ((n.create call).map Prod.snd).toOption.getD n
  | .reload => n.forgetSharing

def ofCalls (calls : List Call) : Network := calls.foldl step empty

structure Keeps (n n' : Network) : Prop where
  nodes : n.nodes.toList <+: n'.nodes.toList
  inputs : n'.inputs = n.inputs
  inputNames : n'.inputNames = n.inputNames
  outputs : n'.outputs = n.outputs
  values : ∀ (x : Nat → Bool) (s : Signal), s.node < n.size → n'.eval x s = n.eval x s

theorem Extends.keeps {n n' : Network} (h : Extends n n') : n.Keeps n' := by
  obtain ⟨hinputs, hnames, houtputs⟩ := h.interface_eq
  refine ⟨?_, hinputs, hnames, houtputs, fun x s hs => h.eval_eq x hs⟩
  obtain rfl | ⟨node, _, _, rfl⟩ := h
  · exact List.prefix_rfl
  · rw [pushGate, push, Array.toList_push]
    exact List.prefix_append _ _

theorem create_yields {n : Network} (h : n.WellFormed) {call : GateCall}
    (hoperands : ∀ s ∈ call.operands, s.node < n.size) :
    ∃ r, n.create call = .ok r ∧ Yields n r (fun x => call.value (n.eval x)) := by
  cases call with
  | and a b =>
    obtain ⟨ha, hb⟩ : a.node < n.size ∧ b.node < n.size := by simpa using hoperands
    exact createAnd_yields h ha hb
  | or a b =>
    obtain ⟨ha, hb⟩ : a.node < n.size ∧ b.node < n.size := by simpa using hoperands
    exact createOr_yields h ha hb
  | xor a b =>
    obtain ⟨ha, hb⟩ : a.node < n.size ∧ b.node < n.size := by simpa using hoperands
    exact createXor_yields h ha hb
  | maj a b c =>
    obtain ⟨ha, hb, hc⟩ : a.node < n.size ∧ b.node < n.size ∧ c.node < n.size := by
      simpa using hoperands
    exact createMaj_yields h ha hb hc

section Refusal

variable (n : Network)

theorem check_of_le {s : Signal} (hs : n.size ≤ s.node) :
    n.check s = .error (.invalidSignal s.node n.size) :=
  if_neg (Nat.not_lt.mpr hs)

theorem exists_refused {β : Type} {signals : List Signal} (rest : Except InputError β)
    (h : ∃ s ∈ signals, n.size ≤ s.node) :
    ∃ s ∈ signals, n.size ≤ s.node ∧
      signals.foldr (fun s r => n.check s >>= fun _ => r) rest =
        .error (.invalidSignal s.node n.size) := by
  induction signals with
  | nil => simp at h
  | cons s signals ih =>
    rw [List.foldr_cons]
    rcases Nat.lt_or_ge s.node n.size with hs | hs
    · rw [check_of_lt hs]
      obtain ⟨t, ht, hmissing⟩ := h
      have htail : t ∈ signals := by
        rcases List.mem_cons.mp ht with rfl | ht
        · omega
        · exact ht
      obtain ⟨u, hu, hle, herror⟩ := ih ⟨t, htail, hmissing⟩
      exact ⟨u, List.mem_cons_of_mem s hu, hle, herror⟩
    · exact ⟨s, List.mem_cons_self, hs, by rw [n.check_of_le hs]; rfl⟩

theorem create_refused {call : GateCall} (h : ∃ s ∈ call.operands, n.size ≤ s.node) :
    ∃ s ∈ call.operands, n.size ≤ s.node ∧
      n.create call = .error (.invalidSignal s.node n.size) := by
  cases call with
  | and a b => exact n.exists_refused _ h
  | or a b =>
    have hcomplement : ∃ s ∈ [a.complement, b.complement], n.size ≤ s.node := by
      simpa [Signal.complement] using h
    obtain ⟨s, hs, hle, herror⟩ := n.exists_refused
      (.ok (n.andOrdered (Signal.ordered a.complement b.complement).1
        (Signal.ordered a.complement b.complement).2)) hcomplement
    have hand : n.createAnd a.complement b.complement = .error (.invalidSignal s.node n.size) := herror
    refine ⟨s.complement, ?_, hle, ?_⟩
    · simp only [List.mem_cons, List.not_mem_nil, or_false] at hs
      rcases hs with rfl | rfl <;> simp [Signal.complement_complement]
    · rw [create, createOr, hand]
      rfl
  | xor a b => exact n.exists_refused _ h
  | maj a b c => exact n.exists_refused _ h

end Refusal

theorem step_gate_of_ok {n : Network} {call : GateCall} {r : Signal × Network}
    (h : n.create call = .ok r) : n.step (.gate call) = r.2 := by
  rw [step, h]
  rfl

theorem step_gate_of_error {n : Network} {call : GateCall} {e : InputError}
    (h : n.create call = .error e) : n.step (.gate call) = n := by
  rw [step, h]
  rfl

theorem WellFormed.forgetSharing {n : Network} (h : n.WellFormed) : n.forgetSharing.WellFormed :=
  ⟨h.constant, h.inputs, h.fanins, h.outputs, nofun⟩

theorem WellFormed.step {n : Network} (h : n.WellFormed) (call : Call) : (n.step call).WellFormed := by
  cases call with
  | input name => exact h.createInput name
  | output s name =>
    cases hout : n.createOutput s name with
    | ok n' =>
      rw [Network.step, hout]
      exact h.createOutput hout
    | error e =>
      rw [Network.step, hout]
      exact h
  | gate call =>
    rcases Classical.em (∀ s ∈ call.operands, s.node < n.size) with hall | hmissing
    · obtain ⟨r, hr, hyields⟩ := create_yields h hall
      rw [step_gate_of_ok hr]
      exact h.extend hyields.grows
    · simp only [not_forall, Nat.not_lt, exists_prop] at hmissing
      obtain ⟨s, _, _, herror⟩ := n.create_refused hmissing
      rw [step_gate_of_error herror]
      exact h
  | reload => exact h.forgetSharing

theorem ofCalls_concat (calls : List Call) (call : Call) :
    ofCalls (calls ++ [call]) = (ofCalls calls).step call := List.foldl_concat ..

theorem wellFormed_ofCalls (calls : List Call) : (ofCalls calls).WellFormed := by
  induction calls using List.reverseRecOn with
  | nil => exact .empty
  | append_singleton calls call ih =>
    rw [ofCalls_concat]
    exact ih.step call

theorem Built.step {n : Network} (h : n.Built) {call : Call} (hcall : call ≠ .reload) :
    (n.step call).Built := by
  cases call with
  | input name => exact h.createInput name
  | output s name =>
    cases hout : n.createOutput s name with
    | ok n' =>
      rw [Network.step, hout]
      exact h.createOutput hout
    | error e =>
      rw [Network.step, hout]
      exact h
  | gate call =>
    cases hcreate : n.create call with
    | ok r =>
      rw [step_gate_of_ok hcreate]
      cases call with
      | and a b => exact h.createAnd hcreate
      | or a b => exact h.createOr hcreate
      | xor a b => exact h.createXor hcreate
      | maj a b c => exact h.createMaj hcreate
    | error e =>
      rw [step_gate_of_error hcreate]
      exact h
  | reload => exact absurd rfl hcall

theorem built_iff {n : Network} :
    n.Built ↔ ∃ calls, Call.reload ∉ calls ∧ ofCalls calls = n := by
  constructor
  · intro h
    have hnext {n n' : Network} (call : Call) (hcall : call ≠ .reload) (hstep : n.step call = n')
        (hprev : ∃ calls, Call.reload ∉ calls ∧ ofCalls calls = n) :
        ∃ calls, Call.reload ∉ calls ∧ ofCalls calls = n' := by
      obtain ⟨calls, hcalls, rfl⟩ := hprev
      exact ⟨calls ++ [call], by simp [hcalls, Ne.symm hcall],
        (ofCalls_concat calls call).trans hstep⟩
    have hgate {n n' : Network} {s : Signal} (call : GateCall)
        (hcreate : n.create call = .ok (s, n')) :=
      hnext (.gate call) nofun (step_gate_of_ok hcreate)
    induction h with
    | empty => exact ⟨[], List.not_mem_nil, rfl⟩
    | createInput _ name ih => exact hnext (.input name) nofun rfl ih
    | createAnd _ h ih => exact hgate (.and _ _) h ih
    | createOr _ h ih => exact hgate (.or _ _) h ih
    | createXor _ h ih => exact hgate (.xor _ _) h ih
    | createMaj _ h ih => exact hgate (.maj _ _ _) h ih
    | createOutput _ h ih => exact hnext (.output _ _) nofun (by rw [Network.step, h]; rfl) ih
  · rintro ⟨calls, hcalls, rfl⟩
    induction calls using List.reverseRecOn with
    | nil => exact .empty
    | append_singleton calls call ih =>
      rw [List.mem_append, List.mem_singleton, not_or] at hcalls
      rw [ofCalls_concat]
      exact (ih hcalls.1).step (Ne.symm hcalls.2)

theorem create_sound_append_only {calls : List Call} {n : Network} (hn : ofCalls calls = n)
    (hsize : n.size < 2 ^ 32) :
    (∀ call : GateCall, (∀ s ∈ call.operands, s.node < n.size) →
      ∃ s n', n.create call = .ok (s, n') ∧ s.node < n'.size ∧
        (∀ x, n'.eval x s = call.value (n.eval x)) ∧ n.Keeps n' ∧
        ofCalls (calls ++ [.gate call]) = n') ∧
    (∀ call : GateCall, (∃ s ∈ call.operands, n.size ≤ s.node) →
      (∃ s ∈ call.operands, n.size ≤ s.node ∧
        n.create call = .error (.invalidSignal s.node n.size)) ∧
      ofCalls (calls ++ [.gate call]) = n) ∧
    (∀ (i : Nat) (node : Node), n.nodes[i]? = some node → ∀ s ∈ node.fanins, s.node < i) ∧
    (∀ k i : Nat, n.inputs[k]? = some i ↔ n.nodes[i]? = some (.input k)) ∧
    (∀ (node : Node) (i : Nat), n.table.lookup node = some i → n.nodes[i]? = some node) ∧
    ofJson? n.toJson = some (ofCalls (calls ++ [.reload])) := by
  subst hn
  have h := wellFormed_ofCalls calls
  refine ⟨fun call hall => ?_, fun call hmissing => ?_, h.fanins, h.inputs, h.table, ?_⟩
  · obtain ⟨⟨s, n'⟩, hr, hyields⟩ := create_yields h hall
    exact ⟨s, n', hr, hyields.exists_node, hyields.eval_eq, hyields.grows.keeps,
      (ofCalls_concat calls _).trans (step_gate_of_ok hr)⟩
  · obtain ⟨s, hs, hle, herror⟩ := (ofCalls calls).create_refused hmissing
    exact ⟨⟨s, hs, hle, herror⟩, (ofCalls_concat calls _).trans (step_gate_of_error herror)⟩
  · rw [ofCalls_concat]
    exact h.ofJson?_toJson (Nat.le_of_lt hsize)

def reloadedCalls : List Call :=
  [.input "a", .input "b", .gate (.and ⟨1, false⟩ ⟨2, true⟩), .gate (.xor ⟨1, false⟩ ⟨9, false⟩),
    .output ⟨3, true⟩ "f", .reload, .gate (.and ⟨2, true⟩ ⟨1, false⟩)]

theorem create_sound_append_only_reloaded :
    (ofCalls reloadedCalls).size = 5 ∧
    (∃ s n', (ofCalls reloadedCalls).create (.maj ⟨3, true⟩ ⟨1, false⟩ ⟨0, true⟩) = .ok (s, n') ∧
      (∀ x, n'.eval x s = (GateCall.maj ⟨3, true⟩ ⟨1, false⟩ ⟨0, true⟩).value
        ((ofCalls reloadedCalls).eval x)) ∧
      (ofCalls reloadedCalls).Keeps n') ∧
    ofCalls (reloadedCalls ++ [.gate (.or ⟨1, false⟩ ⟨7, false⟩)]) = ofCalls reloadedCalls := by
  have hsize : (ofCalls reloadedCalls).size = 5 := by decide
  obtain ⟨hmade, hrefused, _⟩ :=
    create_sound_append_only (rfl : ofCalls reloadedCalls = _) (by rw [hsize]; decide)
  obtain ⟨s, n', hcreate, _, hvalue, hkeeps, _⟩ :=
    hmade (.maj ⟨3, true⟩ ⟨1, false⟩ ⟨0, true⟩) (by rw [hsize]; decide)
  have hmissing := hrefused (.or ⟨1, false⟩ ⟨7, false⟩) (by rw [hsize]; decide)
  exact ⟨hsize, ⟨s, n', hcreate, hvalue, hkeeps⟩, hmissing.2⟩

end Network

end ReversibleSynthesis
