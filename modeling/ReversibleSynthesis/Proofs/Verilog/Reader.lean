import ReversibleSynthesis.Proofs.Verilog.Grammar
import ReversibleSynthesis.Proofs.Verilog.Token

namespace ReversibleSynthesis.Verilog

def Reads (ts : List (Located Token)) (s s' : ReaderState) : Prop :=
  ts.foldlM ReaderState.step s = .ok s'

section Reads

variable {ts us : List (Located Token)} {t : Located Token} {s s' s₁ : ReaderState}

theorem Reads.refl (s : ReaderState) : Reads [] s s := rfl

theorem Reads.cons (hstep : s.step t = .ok s₁) (h : Reads ts s₁ s') : Reads (t :: ts) s s' := by
  rw [Reads, List.foldlM_cons, hstep]
  exact h

theorem reads_append : Reads (ts ++ us) s s' ↔ ∃ s₁, Reads ts s s₁ ∧ Reads us s₁ s' := by
  rw [Reads, List.foldlM_append]
  exact bind_eq_ok_iff

theorem Reads.append (h : Reads ts s s₁) (h' : Reads us s₁ s') : Reads (ts ++ us) s s' :=
  reads_append.mpr ⟨s₁, h, h'⟩

theorem Reads.concat (h : Reads ts s s₁) (hstep : s₁.step t = .ok s') : Reads (ts ++ [t]) s s' :=
  h.append (.cons hstep (.refl s'))

end Reads

theorem BinaryOperator.precedence_pos (op : BinaryOperator) : 0 < op.precedence := by
  cases op <;> decide

theorem BinaryOperator.precedence_lt (op : BinaryOperator) : op.precedence < 4 := by
  cases op <;> decide

theorem operatorOf?_token (op : BinaryOperator) : operatorOf? op.token = some op := by
  cases op <;> rfl

namespace Waiting

def Fits (level : Nat) : List Waiting → Prop
  | .not :: _ => False
  | .binary _ op :: _ => op.precedence < level
  | _ => True

variable {level level' : Nat} {stack : List Waiting}

theorem Fits.mono (h : Fits level stack) (hle : level ≤ level') : Fits level' stack := by
  unfold Fits at h ⊢
  split at h
  · exact h.elim
  · exact Nat.lt_of_lt_of_le h hle
  · trivial

theorem reduce_of_fits (h : Fits level stack) (e : Expression) :
    reduce level stack e = (stack, e) := by
  unfold reduce
  split
  · exact if_neg (Nat.not_le_of_lt h)
  · rfl

theorem negate_of_fits (h : Fits level stack) (e : Expression) : negate stack e = (stack, e) := by
  unfold negate
  split
  · exact h.elim
  · rfl

theorem fits_negate (stack : List Waiting) (e : Expression) : Fits 4 (negate stack e).1 := by
  fun_induction negate stack e with
  | case1 rest e ih => exact ih
  | case2 stack e hstack =>
    rcases stack with _ | ⟨_ | ⟨left, op⟩ | _, rest⟩
    · trivial
    · exact hstack rest rfl
    · exact op.precedence_lt
    · trivial

theorem reduce_reduce (hle : level ≤ level') (stack : List Waiting) (e : Expression) :
    reduce level (reduce level' stack e).1 (reduce level' stack e).2 = reduce level stack e := by
  fun_induction reduce level' stack e with
  | case1 left op rest e hop ih =>
    rw [ih]
    conv => rhs; rw [reduce, if_pos (Nat.le_trans hle hop)]
  | case2 => rfl
  | case3 => rfl

theorem reduce_zero (stack : List Waiting) (e : Expression) :
    reduce 0 stack e = reduce BinaryOperator.or.precedence stack e := by
  fun_induction reduce BinaryOperator.or.precedence stack e with
  | case1 left op rest e hop ih => rw [reduce, if_pos (Nat.zero_le _), ih]
  | case2 left op rest e hop => exact absurd op.precedence_pos hop
  | case3 stack e hstack =>
    unfold reduce
    split
    · exact absurd rfl (hstack _ _ _)
    · rfl

end Waiting

open Waiting (Fits)

def Category.Read : Category → List (Located Token) → Expression → Prop
  | .chain op, ts, e => ∀ m line target stack, Fits op.precedence stack → ∃ stack' e',
      Reads ts ⟨m, .operand line target stack⟩ ⟨m, .operator line target stack' e'⟩ ∧
        Waiting.reduce op.precedence stack' e' = (stack, e)
  | _, ts, e => ∀ m line target stack,
      Reads ts ⟨m, .operand line target stack⟩ ⟨m, .afterOperand line target stack e⟩

section Completeness

variable {ts us : List (Located Token)} {e : Expression}

theorem afterOperand_of_fits {level : Nat} {stack : List Waiting} (h : Fits level stack)
    (line : Nat) (target : String) (e : Expression) :
    Place.afterOperand line target stack e = .operator line target stack e := by
  rw [Place.afterOperand, Waiting.negate_of_fits h]

theorem Category.Read.operand {op : BinaryOperator} (h : op.operand.Read ts e) (m : Module)
    (line : Nat) (target : String) {stack : List Waiting} (hfits : Fits (op.precedence + 1) stack) :
    ∃ stack' e', Reads ts ⟨m, .operand line target stack⟩ ⟨m, .operator line target stack' e'⟩ ∧
      Waiting.reduce (op.precedence + 1) stack' e' = (stack, e) := by
  cases op with
  | or => exact h m line target stack hfits
  | xor => exact h m line target stack hfits
  | and =>
    refine ⟨stack, e, ?_, Waiting.reduce_of_fits hfits e⟩
    exact afterOperand_of_fits hfits line target e ▸ h m line target stack

theorem sizedConstant?_of_mem {text : String} {value : Bool} (h : text ∈ bitTexts value) :
    sizedConstant? text = some value := by
  cases value with
  | false =>
    simp only [bitTexts, List.mem_cons, List.not_mem_nil, or_false] at h
    rcases h with rfl | rfl <;> rfl
  | true =>
    simp only [bitTexts, List.mem_cons, List.not_mem_nil, or_false] at h
    rcases h with rfl | rfl <;> rfl

theorem Derives.read {c : Category} (h : Derives c ts e) : c.Read ts e := by
  induction h with
  | @operand op ts e _ ih =>
    intro m line target stack hfits
    obtain ⟨stack', e', hreads, hreduce⟩ :=
      ih.operand m line target (hfits.mono (Nat.le_succ op.precedence))
    refine ⟨stack', e', hreads, ?_⟩
    rw [← Waiting.reduce_reduce (Nat.le_succ _), hreduce, Waiting.reduce_of_fits hfits]
  | @binary op ts us left right _ opLine _ ihl ihr =>
    intro m line target stack hfits
    obtain ⟨stackl, el, hreadsl, hreducel⟩ := ihl m line target stack hfits
    have hstep : ReaderState.step ⟨m, .operator line target stackl el⟩ ⟨opLine, op.token⟩ =
        .ok ⟨m, .operand line target (.binary left op :: stack)⟩ := by
      simp only [ReaderState.step, readOperator, operatorOf?_token, hreducel]
    have hnext : Fits (op.precedence + 1) (.binary left op :: stack) := Nat.lt_succ_self _
    obtain ⟨stack', e', hreadsr, hreducer⟩ := ihr.operand m line target hnext
    refine ⟨stack', e', hreadsl.append (.cons hstep hreadsr), ?_⟩
    rw [← Waiting.reduce_reduce (Nat.le_succ _), hreducer, Waiting.reduce,
      if_pos (Nat.le_refl _), Waiting.reduce_of_fits hfits]
  | primary _ ih => exact ih
  | not notLine _ ih => exact fun m line target stack => .cons rfl (ih m line target (.not :: stack))
  | identifier => exact fun m line target stack => .cons rfl (.refl _)
  | integer _ value =>
    intro m line target stack
    cases value with
    | false => exact .cons rfl (.refl _)
    | true => exact .cons rfl (.refl _)
  | @sized _ text value htext =>
    intro m line target stack
    refine .cons ?_ (.refl _)
    simp only [ReaderState.step, readOperand, sizedConstant?_of_mem htext]
    rfl
  | paren _ _ _ ih =>
    intro m line target stack
    obtain ⟨stack', e', hreads, hreduce⟩ := ih m line target (.paren :: stack) trivial
    refine .cons rfl (hreads.concat ?_)
    simp only [ReaderState.step, readOperator, operatorOf?, Waiting.reduce_zero, hreduce]

theorem NamesText.reads_declaration {names : List String} (h : NamesText ts names) (m : Module)
    (kind : DeclarationKind) :
    Reads ts ⟨m, .declaration kind []⟩ ⟨m, .afterDeclaration kind names⟩ := by
  induction h with
  | one line name => exact .cons rfl (.refl _)
  | more _ line line' name ih => exact ih.append (.cons rfl (.cons rfl (.refl _)))

theorem NamesText.reads_ports {names : List String} (h : NamesText ts names) (name : String) :
    Reads ts ⟨.ofItems name [] [], .firstPort⟩ ⟨.ofItems name names [], .afterPort⟩ := by
  induction h with
  | one line port => exact .cons rfl (.refl _)
  | more _ line line' port ih => exact ih.append (.cons rfl (.cons rfl (.refl _)))

theorem PortsText.reads {ports : List String} (h : PortsText ts ports) (line : Nat) (name : String) :
    Reads (ts ++ [⟨line, .punctuation .semicolon⟩]) ⟨.ofItems name [] [], .header⟩
      ⟨.ofItems name ports [], .item⟩ := by
  cases h with
  | absent => exact .cons rfl (.refl _)
  | none => exact .cons rfl (.cons rfl (.cons rfl (.refl _)))
  | listed _ _ hnames =>
    exact .concat (.cons rfl (.concat (hnames.reads_ports name) rfl)) rfl

theorem ItemText.reads {item : Item} (h : ItemText ts item) (name : String) (ports : List String)
    (items : List Item) :
    Reads ts ⟨.ofItems name ports items, .item⟩ ⟨.ofItems name ports (items ++ [item]), .item⟩ := by
  cases h with
  | declaration line line' kind hnames =>
    have hkeyword : ReaderState.step ⟨.ofItems name ports items, .item⟩
        ⟨line, .keyword kind.keyword⟩ = .ok ⟨.ofItems name ports items, .declaration kind []⟩ := by
      cases kind <;> rfl
    refine .cons hkeyword ((hnames.reads_declaration _ kind).concat ?_)
    rw [← Module.ofItems_declaration]
    rfl
  | assignment line line₁ line₂ line₃ target hexpr =>
    obtain ⟨stack, e, hreads, hreduce⟩ :=
      hexpr.read (.ofItems name ports items) line target [] trivial
    refine .cons rfl (.cons rfl (.cons rfl (hreads.concat ?_)))
    rw [← Module.ofItems_assignment]
    simp only [ReaderState.step, readOperator, operatorOf?, Waiting.reduce_zero, hreduce]

theorem ItemsText.reads {items : List Item} (h : ItemsText ts items) (name : String)
    (ports : List String) :
    Reads ts ⟨.ofItems name ports [], .item⟩ ⟨.ofItems name ports items, .item⟩ := by
  induction h with
  | nil => exact .refl _
  | concat _ hitem ih => exact ih.append (hitem.reads name ports _)

theorem BodyText.reads {m : Module} (h : BodyText ts m) : Reads ts .initial ⟨m, .item⟩ := by
  cases h with
  | @intro _ _ _ name _ _ hhead hports line hitems =>
    cases hhead with
    | intro =>
      rw [List.append_cons]
      exact .append (.cons rfl (.cons rfl (hports.reads line name))) (hitems.reads name _)

theorem ModuleText.reads {m : Module} (h : ModuleText ts m) :
    Reads ts .initial ⟨m, .finished⟩ := by
  cases h with
  | intro hbody line => exact hbody.reads.concat rfl

theorem reads_finished (m : Module) (ts : List (Located Token)) :
    Reads ts ⟨m, .finished⟩ ⟨m, .finished⟩ := by
  induction ts with
  | nil => exact .refl _
  | cons t ts ih => exact .cons rfl ih

end Completeness

theorem readModule_eq_ok_iff {ts : List (Located Token)} {m : Module} :
    readModule ts = .ok m ↔ Reads ts .initial ⟨m, .finished⟩ := by
  rw [readModule, bind_eq_ok_iff]
  constructor
  · rintro ⟨⟨m', place⟩, hreads, hplace⟩
    cases place <;> cases hplace
    exact hreads
  · exact fun h => ⟨_, h, rfl⟩

section Levels

variable {ts : List (Located Token)} {e : Expression}

def Category.ofLevel : Nat → Category
  | 1 => .chain .or
  | 2 => .chain .xor
  | 3 => .chain .and
  | _ => .unary

theorem Category.ofLevel_precedence (op : BinaryOperator) : ofLevel op.precedence = .chain op := by
  cases op <;> rfl

theorem Category.ofLevel_succ (op : BinaryOperator) : ofLevel (op.precedence + 1) = op.operand := by
  cases op <;> rfl

theorem Derives.ofLevel_of_succ {level : Nat} (hpos : 0 < level)
    (h : Derives (.ofLevel (level + 1)) ts e) : Derives (.ofLevel level) ts e := by
  rcases level with _ | _ | _ | _ | level
  · exact absurd hpos (Nat.lt_irrefl 0)
  · exact .operand h
  · exact .operand h
  · exact .operand h
  · exact h

theorem Derives.ofLevel_mono {level level' : Nat} (hpos : 0 < level) (hle : level ≤ level')
    (h : Derives (.ofLevel level') ts e) : Derives (.ofLevel level) ts e := by
  induction hle with
  | refl => exact h
  | step hle ih => exact ih (h.ofLevel_of_succ (Nat.lt_of_lt_of_le hpos hle))

end Levels

inductive Opened : List Waiting → List (Located Token) → Prop
  | nil : Opened [] []
  | not {stack : List Waiting} {ts : List (Located Token)} (h : Opened stack ts) (line : Nat) :
      Opened (.not :: stack) (ts ++ [⟨line, .punctuation .tilde⟩])
  | paren {stack : List Waiting} {ts : List (Located Token)} (h : Opened stack ts) (line : Nat) :
      Opened (.paren :: stack) (ts ++ [⟨line, .punctuation .leftParen⟩])
  | binary {stack : List Waiting} {ts us : List (Located Token)} {left : Expression}
      {op : BinaryOperator} (h : Opened stack ts) (hfits : Fits op.precedence stack)
      (hleft : Derives (.chain op) us left) (line : Nat) :
      Opened (.binary left op :: stack) (ts ++ us ++ [⟨line, op.token⟩])

def OpenedBefore (c : Category) (stack : List Waiting) (e : Expression)
    (ts : List (Located Token)) : Prop :=
  ∃ before operand, ts = before ++ operand ∧ Opened stack before ∧ Derives c operand e

section Soundness

variable {ts : List (Located Token)} {stack : List Waiting} {e : Expression}

theorem OpenedBefore.negate (h : OpenedBefore .unary stack e ts) :
    OpenedBefore .unary (Waiting.negate stack e).1 (Waiting.negate stack e).2 ts := by
  fun_induction Waiting.negate stack e with
  | case1 rest e ih =>
    obtain ⟨before, operand, rfl, hopened, hoperand⟩ := h
    cases hopened with
    | not hopened line =>
      exact ih ⟨_, ⟨line, .punctuation .tilde⟩ :: operand, by simp, hopened, .not line hoperand⟩
  | case2 => exact h

theorem OpenedBefore.reduce {op : BinaryOperator} {level : Nat}
    (h : OpenedBefore (.ofLevel level) stack e ts) (hfits : Fits level stack)
    (hle : op.precedence ≤ level) :
    OpenedBefore (.chain op) (Waiting.reduce op.precedence stack e).1
        (Waiting.reduce op.precedence stack e).2 ts ∧
      Fits op.precedence (Waiting.reduce op.precedence stack e).1 := by
  fun_induction Waiting.reduce op.precedence stack e generalizing level with
  | case1 left op' rest e hop ih =>
    obtain ⟨before, operand, rfl, hopened, hoperand⟩ := h
    cases hopened with
    | @binary _ ts us _ _ hopened hrest hleft line =>
      have hright : Derives op'.operand operand e :=
        Category.ofLevel_succ op' ▸ hoperand.ofLevel_mono (Nat.succ_pos _) hfits
      have hnext : Derives (.ofLevel op'.precedence) (us ++ ⟨line, op'.token⟩ :: operand)
          (.binary left op' e) :=
        Category.ofLevel_precedence op' ▸ .binary hleft line hright
      exact ih ⟨ts, _, by simp, hopened, hnext⟩ hrest hop
  | case2 left op' rest e hop =>
    obtain ⟨before, operand, rfl, hopened, hoperand⟩ := h
    have hchain := Category.ofLevel_precedence op ▸ hoperand.ofLevel_mono op.precedence_pos hle
    exact ⟨⟨before, operand, rfl, hopened, hchain⟩, Nat.lt_of_not_le hop⟩
  | case3 stack e hstack =>
    obtain ⟨before, operand, rfl, hopened, hoperand⟩ := h
    have hchain := Category.ofLevel_precedence op ▸ hoperand.ofLevel_mono op.precedence_pos hle
    refine ⟨⟨before, operand, rfl, hopened, hchain⟩, ?_⟩
    rcases stack with _ | ⟨_ | ⟨left, op'⟩ | _, rest⟩
    · trivial
    · exact hfits
    · exact (hstack left op' rest rfl).elim
    · trivial

theorem mem_bitTexts_of_sized {text : String} {width digits : List Char} {base : Char}
    (hsized : IsSized text.toList width digits base) {value : Bool}
    (h : sizedConstant? text = some value) : text ∈ bitTexts value := by
  unfold sizedConstant? at h
  split at h
  · next mark heq =>
    cases h
    have hmark := (heq ▸ hsized).mark_eq
    rcases hmark with rfl | rfl
    · have htext : text = "1'b0" := String.toList_inj.mp heq
      simp [htext, bitTexts]
    · have htext : text = "1'B0" := String.toList_inj.mp heq
      simp [htext, bitTexts]
  · next mark heq =>
    cases h
    have hmark := (heq ▸ hsized).mark_eq
    rcases hmark with rfl | rfl
    · have htext : text = "1'b1" := String.toList_inj.mp heq
      simp [htext, bitTexts]
    · have htext : text = "1'B1" := String.toList_inj.mp heq
      simp [htext, bitTexts]
  · cases h

theorem operatorOf?_eq_some {t : Token} {op : BinaryOperator} (h : operatorOf? t = some op) :
    t = op.token := by
  unfold operatorOf? at h
  split at h <;> cases h <;> rfl

theorem readOperand_eq_ok {line : Nat} {target : String} {t : Located Token} {place : Place}
    (hlexical : t.value.Lexical) (h : readOperand line target stack t = .ok place) :
    (t.value = .punctuation .tilde ∧ place = .operand line target (.not :: stack)) ∨
      (t.value = .punctuation .leftParen ∧ place = .operand line target (.paren :: stack)) ∨
      ∃ e, Derives .primary [t] e ∧ place = .afterOperand line target stack e := by
  obtain ⟨tokenLine, value⟩ := t
  unfold readOperand at h
  dsimp only at h hlexical
  split at h
  · exact .inl ⟨rfl, (Except.ok.inj h).symm⟩
  · exact .inr (.inl ⟨rfl, (Except.ok.inj h).symm⟩)
  · next name => exact .inr (.inr ⟨_, .identifier tokenLine name, (Except.ok.inj h).symm⟩)
  · exact .inr (.inr ⟨_, .integer tokenLine false, (Except.ok.inj h).symm⟩)
  · exact .inr (.inr ⟨_, .integer tokenLine true, (Except.ok.inj h).symm⟩)
  · cases h
  · next text =>
    obtain ⟨width, digits, base, hsized⟩ := hlexical
    split at h
    · next bit hbit =>
      exact .inr (.inr ⟨_, .sized tokenLine (mem_bitTexts_of_sized hsized hbit),
        (Except.ok.inj h).symm⟩)
    · cases h
  · cases h

theorem readOperator_eq_ok {m : Module} {line : Nat} {target : String} {t : Located Token}
    {s : ReaderState} (h : readOperator m line target stack e t = .ok s) :
    (∃ op : BinaryOperator, t.value = op.token ∧
      s = ⟨m, .operand line target (.binary (Waiting.reduce op.precedence stack e).2 op ::
        (Waiting.reduce op.precedence stack e).1)⟩) ∨
    (∃ rest inner, t.value = .punctuation .rightParen ∧
      Waiting.reduce BinaryOperator.or.precedence stack e = (.paren :: rest, inner) ∧
      s = ⟨m, .afterOperand line target rest inner⟩) ∨
    ∃ expr, t.value = .punctuation .semicolon ∧
      Waiting.reduce BinaryOperator.or.precedence stack e = ([], expr) ∧
      s = ⟨{ m with assigns := m.assigns ++ [⟨target, expr, line⟩] }, .item⟩ := by
  unfold readOperator at h
  split at h
  · next op hop => exact .inl ⟨op, operatorOf?_eq_some hop, (Except.ok.inj h).symm⟩
  · rw [Waiting.reduce_zero] at h
    split at h
    · next rest inner hreduce hvalue =>
      exact .inr (.inl ⟨rest, inner, hvalue, hreduce, (Except.ok.inj h).symm⟩)
    · next expr hreduce hvalue =>
      exact .inr (.inr ⟨expr, hvalue, hreduce, (Except.ok.inj h).symm⟩)
    · cases h

end Soundness

inductive Consumed : ReaderState → List (Located Token) → Prop
  | start : Consumed .initial []
  | name (line : Nat) : Consumed ⟨.ofItems "" [] [], .name⟩ [⟨line, .keyword .startModule⟩]
  | header {ts : List (Located Token)} {name : String} (h : HeadText ts name) :
      Consumed ⟨.ofItems name [] [], .header⟩ ts
  | firstPort {ts : List (Located Token)} {name : String} (h : HeadText ts name) (line : Nat) :
      Consumed ⟨.ofItems name [] [], .firstPort⟩ (ts ++ [⟨line, .punctuation .leftParen⟩])
  | nextPort {ts us : List (Located Token)} {name : String} {ports : List String}
      (h : HeadText ts name) (line : Nat) (hports : NamesText us ports) (line' : Nat) :
      Consumed ⟨.ofItems name ports [], .nextPort⟩
        (ts ++ ⟨line, .punctuation .leftParen⟩ :: us ++ [⟨line', .punctuation .comma⟩])
  | afterPort {ts us : List (Located Token)} {name : String} {ports : List String}
      (h : HeadText ts name) (line : Nat) (hports : NamesText us ports) :
      Consumed ⟨.ofItems name ports [], .afterPort⟩ (ts ++ ⟨line, .punctuation .leftParen⟩ :: us)
  | afterPorts {ts us : List (Located Token)} {name : String} {ports : List String}
      (h : HeadText ts name) (hports : PortsText us ports) :
      Consumed ⟨.ofItems name ports [], .afterPorts⟩ (ts ++ us)
  | item {ts : List (Located Token)} {m : Module} (h : BodyText ts m) : Consumed ⟨m, .item⟩ ts
  | declaration {ts : List (Located Token)} {m : Module} (h : BodyText ts m) (line : Nat)
      (kind : DeclarationKind) :
      Consumed ⟨m, .declaration kind []⟩ (ts ++ [⟨line, .keyword kind.keyword⟩])
  | nextDeclaration {ts us : List (Located Token)} {m : Module} {names : List String}
      (h : BodyText ts m) (line : Nat) (kind : DeclarationKind) (hnames : NamesText us names)
      (line' : Nat) :
      Consumed ⟨m, .declaration kind names⟩
        (ts ++ ⟨line, .keyword kind.keyword⟩ :: us ++ [⟨line', .punctuation .comma⟩])
  | afterDeclaration {ts us : List (Located Token)} {m : Module} {names : List String}
      (h : BodyText ts m) (line : Nat) (kind : DeclarationKind) (hnames : NamesText us names) :
      Consumed ⟨m, .afterDeclaration kind names⟩ (ts ++ ⟨line, .keyword kind.keyword⟩ :: us)
  | target {ts : List (Located Token)} {m : Module} (h : BodyText ts m) (line : Nat) :
      Consumed ⟨m, .target line⟩ (ts ++ [⟨line, .keyword .assign⟩])
  | equals {ts : List (Located Token)} {m : Module} (h : BodyText ts m) (line line₁ : Nat)
      (target : String) :
      Consumed ⟨m, .equals line target⟩
        (ts ++ [⟨line, .keyword .assign⟩, ⟨line₁, .identifier target⟩])
  | operand {ts us : List (Located Token)} {m : Module} (h : BodyText ts m) (line line₁ line₂ : Nat)
      (target : String) {stack : List Waiting} (hopened : Opened stack us) :
      Consumed ⟨m, .operand line target stack⟩ (ts ++ ⟨line, .keyword .assign⟩ ::
        ⟨line₁, .identifier target⟩ :: ⟨line₂, .punctuation .equals⟩ :: us)
  | operator {ts us : List (Located Token)} {m : Module} (h : BodyText ts m)
      (line line₁ line₂ : Nat) (target : String) {stack : List Waiting} {e : Expression}
      (hopened : OpenedBefore .unary stack e us) (hfits : Fits 4 stack) :
      Consumed ⟨m, .operator line target stack e⟩ (ts ++ ⟨line, .keyword .assign⟩ ::
        ⟨line₁, .identifier target⟩ :: ⟨line₂, .punctuation .equals⟩ :: us)
  | finished {ts : List (Located Token)} {m : Module} (h : ModuleText ts m)
      (rest : List (Located Token)) : Consumed ⟨m, .finished⟩ (ts ++ rest)

section Steps

variable {ts us : List (Located Token)} {m : Module} {stack : List Waiting} {e : Expression}

theorem Consumed.afterOperand (h : BodyText ts m) (line line₁ line₂ : Nat) (target : String)
    (hopened : OpenedBefore .unary stack e us) :
    Consumed ⟨m, .afterOperand line target stack e⟩ (ts ++ ⟨line, .keyword .assign⟩ ::
      ⟨line₁, .identifier target⟩ :: ⟨line₂, .punctuation .equals⟩ :: us) := by
  exact .operator h line line₁ line₂ target hopened.negate (Waiting.fits_negate stack e)

theorem Consumed.readOperand {line : Nat} {target : String} {t : Located Token} {place : Place}
    (h : Consumed ⟨m, .operand line target stack⟩ ts) (hlexical : t.value.Lexical)
    (hread : Verilog.readOperand line target stack t = .ok place) :
    Consumed ⟨m, place⟩ (ts ++ [t]) := by
  obtain ⟨tokenLine, value⟩ := t
  cases h with
  | @operand _ us _ hbody _ line₁ line₂ _ _ hopened =>
    rw [List.append_assoc]
    rcases readOperand_eq_ok hlexical hread with ⟨rfl, rfl⟩ | ⟨rfl, rfl⟩ | ⟨e, hprimary, rfl⟩
    · exact .operand hbody line line₁ line₂ target (hopened.not tokenLine)
    · exact .operand hbody line line₁ line₂ target (hopened.paren tokenLine)
    · exact .afterOperand hbody line line₁ line₂ target
        ⟨us, [_], rfl, hopened, .primary hprimary⟩

theorem Consumed.readOperator {line : Nat} {target : String} {t : Located Token} {s : ReaderState}
    (h : Consumed ⟨m, .operator line target stack e⟩ ts)
    (hread : Verilog.readOperator m line target stack e t = .ok s) : Consumed s (ts ++ [t]) := by
  obtain ⟨tokenLine, value⟩ := t
  cases h with
  | operator hbody _ line₁ line₂ _ hopened hfits =>
    have hunary : OpenedBefore (.ofLevel 4) stack e _ := hopened
    have hreduce (op : BinaryOperator) := hunary.reduce hfits op.precedence_lt.le
    rw [List.append_assoc]
    rcases readOperator_eq_ok hread with ⟨op, rfl, rfl⟩ | ⟨rest, inner, rfl, hparen, rfl⟩ |
      ⟨expr, rfl, hall, rfl⟩
    · obtain ⟨⟨before, left, rfl, hbefore, hleft⟩, hrest⟩ := hreduce op
      exact .operand hbody line line₁ line₂ target (hbefore.binary hrest hleft tokenLine)
    · obtain ⟨⟨before, operand, rfl, hbefore, hinner⟩, -⟩ := hreduce .or
      rw [hparen] at hbefore hinner
      cases hbefore with
      | @paren _ before hrest parenLine =>
        refine .afterOperand hbody line line₁ line₂ target
          ⟨before, ⟨parenLine, .punctuation .leftParen⟩ :: operand ++
            [⟨tokenLine, .punctuation .rightParen⟩], by simp, hrest, .primary (.paren _ _ hinner)⟩
    · obtain ⟨⟨before, operand, rfl, hbefore, hexpr⟩, -⟩ := hreduce .or
      rw [hall] at hbefore hexpr
      cases hbefore with
      | nil => exact .item (hbody.assignment (.assignment line line₁ line₂ tokenLine target hexpr))

theorem Consumed.step {s s' : ReaderState} {t : Located Token} (h : Consumed s ts)
    (hlexical : t.value.Lexical) (hstep : s.step t = .ok s') : Consumed s' (ts ++ [t]) := by
  obtain ⟨m, place⟩ := s
  obtain ⟨line, value⟩ := t
  unfold ReaderState.step at hstep
  dsimp only at hstep
  split at hstep
  · cases hstep
    cases h with
    | finished h rest =>
      rw [List.append_assoc]
      exact .finished h _
  · cases hstep
    cases h
    exact .name line
  · cases hstep
    cases h with
    | name line' => exact .header (.intro line' line _)
  · cases hstep
    cases h with
    | header h => exact .firstPort h line
  · cases hstep
    cases h with
    | header h => exact .item (List.append_nil ts ▸ .intro h .absent line .nil)
  · cases hstep
    cases h with
    | firstPort h line' =>
      rw [List.append_assoc]
      exact .afterPorts h (.none line' line)
  · cases hstep
    cases h with
    | firstPort h line' =>
      rw [List.append_assoc]
      exact .afterPort h line' (.one line _)
  · cases hstep
    cases h with
    | nextPort h line₁ hports line₂ =>
      rw [List.append_assoc, List.append_assoc]
      exact .afterPort h line₁ (hports.more line₂ line _)
  · cases hstep
    cases h with
    | afterPort h line' hports => exact .nextPort h line' hports line
  · cases hstep
    cases h with
    | afterPort h line' hports =>
      rw [List.append_assoc]
      exact .afterPorts h (.listed line' line hports)
  · cases hstep
    cases h with
    | afterPorts h hports => exact .item (.intro h hports line .nil)
  · cases hstep
    cases h with
    | item h => exact List.append_nil (ts ++ _) ▸ .finished (.intro h line) []
  · cases hstep
    cases h with
    | item h => exact .declaration h line .input
  · cases hstep
    cases h with
    | item h => exact .declaration h line .output
  · cases hstep
    cases h with
    | item h => exact .declaration h line .wire
  · cases hstep
    cases h with
    | item h => exact .target h line
  · cases hstep
    cases h with
    | declaration h line' =>
      rw [List.append_assoc]
      exact .afterDeclaration h line' _ (.one line _)
    | nextDeclaration h line₁ _ hnames line₂ =>
      rw [List.append_assoc, List.append_assoc]
      exact .afterDeclaration h line₁ _ (hnames.more line₂ line _)
  · cases hstep
    cases h with
    | afterDeclaration h line' _ hnames => exact .nextDeclaration h line' _ hnames line
  · cases hstep
    cases h with
    | afterDeclaration h line' _ hnames =>
      rw [List.append_assoc]
      exact .item (h.declaration (.declaration line' line _ hnames))
  · cases hstep
    cases h with
    | target h =>
      rw [List.append_assoc]
      exact .equals h _ line _
  · cases hstep
    cases h with
    | equals h _ line₁ =>
      rw [List.append_assoc]
      exact .operand h _ line₁ line _ .nil
  · obtain ⟨place, hread, rfl⟩ := map_eq_ok_iff.mp hstep
    exact h.readOperand hlexical hread
  · exact h.readOperator hstep
  · cases hstep

theorem Consumed.reads {s s' : ReaderState} (h : Consumed s ts)
    (hlexical : ∀ t ∈ us, t.value.Lexical) (hreads : Reads us s s') : Consumed s' (ts ++ us) := by
  induction us generalizing ts s with
  | nil =>
    cases hreads
    rwa [List.append_nil]
  | cons t us ih =>
    obtain ⟨s₁, hstep, hrest⟩ := bind_eq_ok_iff.mp hreads
    obtain ⟨ht, hus⟩ := List.forall_mem_cons.mp hlexical
    rw [List.append_cons]
    exact ih (h.step ht hstep) hus hrest

end Steps

theorem readModule_eq_ok_iff_moduleText :
    (∀ source ts, tokens source = .ok ts → ∀ t ∈ ts, t.value.Lexical) ∧
      ∀ ts m, (∀ t ∈ ts, t.value.Lexical) →
        (readModule ts = .ok m ↔ ∃ text rest, ts = text ++ rest ∧ ModuleText text m) := by
  refine ⟨fun source ts => tokens_lexical, fun ts m hlexical => ?_⟩
  rw [readModule_eq_ok_iff]
  constructor
  · intro hreads
    have hconsumed := Consumed.start.reads hlexical hreads
    rw [List.nil_append] at hconsumed
    cases hconsumed with
    | finished htext rest => exact ⟨_, rest, rfl, htext⟩
  · rintro ⟨text, rest, rfl, htext⟩
    exact htext.reads.append (reads_finished m rest)

def mixedSource : String :=
  "module m(a, y);\ninput a; output y;\nassign y = ~a | 1'B1 & a ^ (0 | a);\nendmodule a"

def mixedModule : Module where
  name := "m"
  ports := ["a", "y"]
  inputs := ["a"]
  outputs := ["y"]
  wires := []
  assigns :=
    [⟨"y", .binary (.not (.identifier "a")) .or
      (.binary (.binary (.constant true) .and (.identifier "a")) .xor
        (.binary (.constant false) .or (.identifier "a"))), 3⟩]

theorem readModule_eq_ok_iff_moduleText_mixed :
    ∃ ts, tokens mixedSource = .ok ts ∧ (∀ t ∈ ts, t.value.Lexical) ∧
      readModule ts = .ok mixedModule ∧
      ∃ text rest, ts = text ++ rest ∧ ModuleText text mixedModule := by
  have hparse : parseModule mixedSource = .ok mixedModule := by decide +kernel
  obtain ⟨ts, htokens, hread⟩ := bind_eq_ok_iff.mp hparse
  have hlexical := readModule_eq_ok_iff_moduleText.1 mixedSource ts htokens
  exact ⟨ts, htokens, hlexical, hread,
    (readModule_eq_ok_iff_moduleText.2 ts mixedModule hlexical).mp hread⟩

end ReversibleSynthesis.Verilog
