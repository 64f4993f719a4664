import Mathlib.Algebra.Group.Nat.Defs
import Mathlib.Data.List.Nodup
import Mathlib.Data.List.Perm.Subperm
import ReversibleSynthesis.Network.Json
import ReversibleSynthesis.Proofs.Network

namespace ReversibleSynthesis

namespace Json

theorem asNat?_nat {bound k : Nat} (hk : k < bound) : asNat? bound (.nat k) = some k := by
  have hdigits : (toString k).toList = Nat.toDigits 10 k := by
    rw [Nat.toString_eq_ofList_toDigits, String.toList_ofList]
  have hall : (Nat.toDigits 10 k).all Char.isDigit = true :=
    List.all_eq_true.mpr fun c hc => Nat.isDigit_of_mem_toDigits (by decide) (by decide) hc
  simp only [asNat?, nat, hdigits, Decimal.digitsValue_toDigits, hall, hk, decide_true, Bool.and_self,
    if_true]

theorem asList?_list {β : Type} {encode : β → Json} {decode : Json → Option β} {items : List β}
    (h : ∀ b ∈ items, decode (encode b) = some b) :
    asList? decode (.list encode items) = some items := by
  change (items.map encode).mapM decode = some items
  induction items with
  | nil => rfl
  | cons b items ih =>
    rw [List.map_cons, List.mapM_cons, h b List.mem_cons_self,
      ih fun b' hb' => h b' (List.mem_cons_of_mem b hb')]
    rfl

end Json

theorem Signal.ofJson?_toJson {s : Signal} (hs : s.node < 2 ^ 32) : ofJson? s.toJson = some s := by
  have hnode : Json.asNode? (.nat s.node) = some s.node := Json.asNat?_nat hs
  have hfields : s.toJson.fields? ["node", "complemented"] =
      some [some (.nat s.node), some (.bool s.complemented)] := rfl
  simp [ofJson?, hfields, hnode, Json.asBool?]

theorem Output.ofJson?_toJson {o : Output} (ho : o.signal.node < 2 ^ 32) :
    ofJson? o.toJson = some o := by
  have hfields : o.toJson.fields? ["name", "signal"] =
      some [some (.string o.name), some o.signal.toJson] := rfl
  simp [ofJson?, hfields, Json.asString?, Signal.ofJson?_toJson ho]

namespace Node

def Below (bound : Nat) (node : Node) : Prop :=
  (∀ s ∈ node.fanins, s.node < bound) ∧ ∀ k, node = .input k → k < bound

theorem Below.mono {bound bound' : Nat} {node : Node} (h : node.Below bound)
    (hle : bound ≤ bound') : node.Below bound' :=
  ⟨fun s hs => Nat.lt_of_lt_of_le (h.1 s hs) hle, fun k hk => Nat.lt_of_lt_of_le (h.2 k hk) hle⟩

theorem asList?_fanins {signals : List Signal} (h : ∀ s ∈ signals, s.node < 2 ^ 32) :
    Json.asList? Signal.ofJson? (.list Signal.toJson signals) = some signals :=
  Json.asList?_list fun s hs => Signal.ofJson?_toJson (h s hs)

theorem ofJson?_toJson {node : Node} (h : node.Below (2 ^ 32)) : ofJson? node.toJson = some node := by
  have hfanins := asList?_fanins h.1
  cases node with
  | constant => rfl
  | input k =>
    have hk : Json.asNode? (.nat k) = some k := Json.asNat?_nat (h.2 k rfl)
    have hfields : (Json.object [("index", .nat k)]).fields? ["index"] = some [some (.nat k)] := rfl
    simp [ofJson?, toJson, Json.variant?, hfields, hk]
  | and a b =>
    simp only [fanins] at hfanins
    simp [ofJson?, toJson, Json.variant?, hfanins]
  | xor a b =>
    simp only [fanins] at hfanins
    simp [ofJson?, toJson, Json.variant?, hfanins]
  | maj a b c =>
    simp only [fanins] at hfanins
    simp [ofJson?, toJson, Json.variant?, hfanins]

end Node

namespace Network

theorem WellFormed.numInputs_le {n : Network} (h : n.WellFormed) : n.numInputs ≤ n.size := by
  have hnodup : n.inputs.Nodup := by
    rw [List.nodup_iff_getElem?_ne_getElem?]
    intro j k hjk hk heq
    have hj := (h.inputs j _).mp (heq ▸ List.getElem?_eq_getElem hk)
    have hk := (h.inputs k _).mp (List.getElem?_eq_getElem hk)
    rw [hj] at hk
    cases hk
    exact Nat.lt_irrefl _ hjk
  have hsub : n.inputs ⊆ List.range n.size := by
    intro i hi
    obtain ⟨k, hk⟩ := List.mem_iff_getElem?.mp hi
    exact List.mem_range.mpr (lt_size_of_getElem? ((h.inputs k i).mp hk))
  have hle := (hnodup.subperm hsub).length_le
  rwa [List.length_range] at hle

theorem WellFormed.below_size {n : Network} (h : n.WellFormed) {node : Node}
    (hnode : node ∈ n.nodes.toList) : node.Below n.size := by
  obtain ⟨i, hi⟩ := List.mem_iff_getElem?.mp hnode
  rw [Array.getElem?_toList] at hi
  have hlt := lt_size_of_getElem? hi
  constructor
  · intro s hs
    have := h.fanins i node hi s hs
    omega
  · rintro k rfl
    have hk := h.lt_numInputs hi
    have := h.numInputs_le
    omega

theorem WellFormed.ofJson?_toJson {n : Network} (h : n.WellFormed) (hsize : n.size ≤ 2 ^ 32) :
    ofJson? n.toJson = some n.forgetSharing := by
  have hnodes : Json.asList? Node.ofJson? (.list Node.toJson n.nodes.toList) = some n.nodes.toList :=
    Json.asList?_list fun node hnode => Node.ofJson?_toJson ((h.below_size hnode).mono hsize)
  have hinputs : Json.asList? Json.asNode? (.list .nat n.inputs) = some n.inputs := by
    refine Json.asList?_list fun i hi => Json.asNat?_nat ?_
    obtain ⟨k, hk⟩ := List.mem_iff_getElem?.mp hi
    have := lt_size_of_getElem? ((h.inputs k i).mp hk)
    exact Nat.lt_of_lt_of_le this hsize
  have hnames : Json.asList? Json.asString? (.list .string n.inputNames) = some n.inputNames :=
    Json.asList?_list fun _ _ => rfl
  have houtputs : Json.asList? Output.ofJson? (.list Output.toJson n.outputs) = some n.outputs :=
    Json.asList?_list fun o ho =>
      Output.ofJson?_toJson (Nat.lt_of_lt_of_le (h.outputs o ho) hsize)
  have hfields : n.toJson.fields? ["nodes", "inputs", "input_names", "outputs"] =
      some [some (.list Node.toJson n.nodes.toList), some (.list .nat n.inputs),
        some (.list .string n.inputNames), some (.list Output.toJson n.outputs)] := rfl
  simp [ofJson?, hfields, hnodes, hinputs, hnames, houtputs, forgetSharing]

end Network

end ReversibleSynthesis
