import ReversibleSynthesis.Proofs.Verilog.Reader

namespace ReversibleSynthesis.Verilog

namespace Waiting

variable {stack : List Waiting}

-- A negation is completed together with its operand, so no operator waits right above one.
def Closable : List Waiting → Prop
  | [] => True
  | .binary _ _ :: rest => Fits 4 rest ∧ Closable rest
  | _ :: rest => Closable rest

def parens (stack : List Waiting) : Nat := stack.count .paren

theorem Closable.negate (h : Closable stack) (e : Expression) :
    Closable (negate stack e).1 ∧ parens (negate stack e).1 = parens stack := by
  fun_induction Waiting.negate stack e with
  | case1 rest e ih => simpa [parens] using ih h
  | case2 stack e => exact ⟨h, rfl⟩

theorem Closable.reduce (h : Closable stack) (hfits : Fits 4 stack) (level : Nat) (e : Expression) :
    Closable (reduce level stack e).1 ∧ Fits 4 (reduce level stack e).1 ∧
      parens (reduce level stack e).1 = parens stack := by
  fun_induction Waiting.reduce level stack e with
  | case1 left op rest e hop ih => simpa [parens] using ih h.2 h.1
  | case2 => exact ⟨h, hfits, rfl⟩
  | case3 => exact ⟨h, hfits, rfl⟩

theorem Closable.reduce_zero_cases (h : Closable stack) (hfits : Fits 4 stack) (e : Expression) :
    (∃ expr, Waiting.reduce 0 stack e = ([], expr)) ∨
      ∃ rest inner, Waiting.reduce 0 stack e = (.paren :: rest, inner) := by
  fun_induction Waiting.reduce 0 stack e with
  | case1 left op rest e hop ih => exact ih h.2 h.1
  | case2 left op rest e hop => exact absurd (Nat.zero_le _) hop
  | case3 stack e hstack =>
    rcases stack with _ | ⟨_ | ⟨left, op⟩ | _, rest⟩
    · exact .inl ⟨e, rfl⟩
    · exact hfits.elim
    · exact (hstack left op rest rfl).elim
    · exact .inr ⟨rest, e, rfl⟩

end Waiting

open Waiting (Closable Fits parens)

def Place.Ready : Place → Prop
  | .operand _ _ stack => Closable stack
  | .operator _ _ stack _ => Closable stack ∧ Fits 4 stack
  | _ => True

section Ready

variable {m : Module} {line : Nat} {target : String} {stack : List Waiting} {e : Expression}
  {t : Located Token}

theorem ready_afterOperand (h : Closable stack) (line : Nat) (target : String) (e : Expression) :
    (Place.afterOperand line target stack e).Ready :=
  ⟨(h.negate e).1, Waiting.fits_negate stack e⟩

theorem ready_readOperand (h : Closable stack) {place : Place}
    (hread : readOperand line target stack t = .ok place) : place.Ready := by
  rw [readOperand] at hread
  split at hread
  · cases hread
    exact h
  · cases hread
    exact h
  · cases hread
    exact ready_afterOperand h line target _
  · cases hread
    exact ready_afterOperand h line target _
  · cases hread
    exact ready_afterOperand h line target _
  · cases hread
  · split at hread
    · cases hread
      exact ready_afterOperand h line target _
    · cases hread
  · cases hread

theorem ready_readOperator (h : Closable stack) (hfits : Fits 4 stack) {s : ReaderState}
    (hread : readOperator m line target stack e t = .ok s) : s.place.Ready := by
  rcases readOperator_eq_ok hread with ⟨op, -, rfl⟩ | ⟨rest, inner, -, hparen, rfl⟩ |
    ⟨expr, -, -, rfl⟩
  · obtain ⟨hclosable, hrest, -⟩ := h.reduce hfits op.precedence e
    exact ⟨hrest, hclosable⟩
  · obtain ⟨hclosable, -, -⟩ := h.reduce hfits BinaryOperator.or.precedence e
    rw [hparen] at hclosable
    have hrest : Closable rest := hclosable
    exact ready_afterOperand hrest line target inner
  · trivial

theorem ready_step {s s' : ReaderState} (h : s.place.Ready) (hstep : s.step t = .ok s') :
    s'.place.Ready := by
  obtain ⟨m, place⟩ := s
  rw [ReaderState.step] at hstep
  dsimp only at hstep
  split at hstep
  case h_22 =>
    obtain ⟨place, hread, rfl⟩ := map_eq_ok_iff.mp hstep
    exact ready_readOperand h hread
  case h_23 => exact ready_readOperator h.1 h.2 hstep
  case h_24 => cases hstep
  all_goals
    cases hstep
    trivial

theorem ready_reads {ts : List (Located Token)} {s s' : ReaderState} (h : s.place.Ready)
    (hreads : Reads ts s s') : s'.place.Ready := by
  induction ts generalizing s with
  | nil =>
    cases hreads
    exact h
  | cons t ts ih =>
    obtain ⟨s₁, hstep, hrest⟩ := bind_eq_ok_iff.mp hreads
    exact ih (ready_step h hstep) hrest

end Ready

def closing : Nat → List Token
  | 0 => [.punctuation .semicolon, .keyword .endModule]
  | count + 1 => .punctuation .rightParen :: closing count

def Place.completion : Place → List Token
  | .start => [.keyword .startModule, .identifier "m", .punctuation .semicolon, .keyword .endModule]
  | .name => [.identifier "m", .punctuation .semicolon, .keyword .endModule]
  | .header => closing 0
  | .firstPort => closing 1
  | .nextPort => .identifier "m" :: closing 1
  | .afterPort => closing 1
  | .afterPorts => closing 0
  | .item => [.keyword .endModule]
  | .declaration _ _ => .identifier "m" :: closing 0
  | .afterDeclaration _ _ => closing 0
  | .target _ => .identifier "m" :: .punctuation .equals :: .integer 0 :: closing 0
  | .equals _ _ => .punctuation .equals :: .integer 0 :: closing 0
  | .operand _ _ stack => .integer 0 :: closing (parens stack)
  | .operator _ _ stack _ => closing (parens stack)
  | .finished => []

theorem lexical_closing (count : Nat) : ∀ t ∈ closing count, t.Lexical := by
  induction count with
  | zero => simp [closing, Token.Lexical]
  | succ count ih => exact List.forall_mem_cons.mpr ⟨trivial, ih⟩

theorem lexical_completion (place : Place) : ∀ t ∈ place.completion, t.Lexical := by
  have hname : (Token.identifier "m").Lexical := ⟨rfl, 'm', [], rfl, rfl, by simp⟩
  have hzero : (Token.integer 0).Lexical := Nat.two_pow_pos 64
  have hkeyword : ∀ k, (Token.keyword k).Lexical := fun _ => trivial
  have hmark : ∀ p, (Token.punctuation p).Lexical := fun _ => trivial
  cases place <;> grind [Place.completion, lexical_closing]

section Completion

variable {m : Module} {line : Nat} {target : String}

theorem exists_reads_closing {stack : List Waiting} (h : Closable stack) (hfits : Fits 4 stack)
    (e : Expression) (row : Nat) :
    ∃ m', Reads ((closing (parens stack)).map (Located.mk row))
      ⟨m, .operator line target stack e⟩ ⟨m', .finished⟩ := by
  generalize hcount : parens stack = count
  induction count generalizing stack e with
  | zero =>
    obtain ⟨-, -, hparens⟩ := h.reduce hfits 0 e
    rcases h.reduce_zero_cases hfits e with ⟨expr, hall⟩ | ⟨rest, inner, hparen⟩
    · have hstep : ReaderState.step ⟨m, .operator line target stack e⟩
          ⟨row, .punctuation .semicolon⟩ =
            .ok ⟨{ m with assigns := m.assigns ++ [⟨target, expr, line⟩] }, .item⟩ := by
        simp only [ReaderState.step, readOperator, operatorOf?, hall]
      exact ⟨_, .cons hstep (.cons rfl (.refl _))⟩
    · rw [hparen, hcount] at hparens
      simp [parens] at hparens
  | succ count ih =>
    obtain ⟨hclosable, -, hparens⟩ := h.reduce hfits 0 e
    rcases h.reduce_zero_cases hfits e with ⟨expr, hall⟩ | ⟨rest, inner, hparen⟩
    · rw [hall, hcount] at hparens
      simp [parens] at hparens
    · rw [hparen] at hclosable hparens
      have hinner : Closable rest := hclosable
      obtain ⟨hnegated, hsame⟩ := hinner.negate inner
      have hrest : parens (Waiting.negate rest inner).1 = count := by
        rw [hcount, parens, List.count_cons_self] at hparens
        exact hsame.trans (Nat.succ.inj hparens)
      obtain ⟨m', hreads⟩ := ih hnegated (Waiting.fits_negate rest inner) _ hrest
      have hstep : ReaderState.step ⟨m, .operator line target stack e⟩
          ⟨row, .punctuation .rightParen⟩ = .ok ⟨m, .afterOperand line target rest inner⟩ := by
        simp only [ReaderState.step, readOperator, operatorOf?, hparen]
      exact ⟨m', .cons hstep hreads⟩

theorem exists_reads_completion {s : ReaderState} (h : s.place.Ready) (row : Nat) :
    ∃ m', Reads (s.place.completion.map (Located.mk row)) s ⟨m', .finished⟩ := by
  obtain ⟨m, place⟩ := s
  cases place with
  | start => exact ⟨_, rfl⟩
  | name => exact ⟨_, rfl⟩
  | header => exact ⟨_, rfl⟩
  | firstPort => exact ⟨_, rfl⟩
  | nextPort => exact ⟨_, rfl⟩
  | afterPort => exact ⟨_, rfl⟩
  | afterPorts => exact ⟨_, rfl⟩
  | item => exact ⟨_, rfl⟩
  | declaration kind names => exact ⟨_, rfl⟩
  | afterDeclaration kind names => exact ⟨_, rfl⟩
  | target line => exact ⟨_, rfl⟩
  | equals line target => exact ⟨_, rfl⟩
  | operand line target stack =>
    obtain ⟨m', hreads⟩ := exists_reads_closing (h.negate (.constant false)).1
      (Waiting.fits_negate stack (.constant false)) _ row
    rw [(h.negate _).2] at hreads
    exact ⟨m', .cons rfl hreads⟩
  | operator line target stack e => exact exists_reads_closing h.1 h.2 e _
  | finished => exact ⟨_, rfl⟩

end Completion

section Errors

variable {s : ReaderState} {t : Located Token} {ts : List (Located Token)} {error : Error}

theorem readOperand_eq_error {line : Nat} {target : String} {stack : List Waiting}
    (h : readOperand line target stack t = .error error) :
    error = .unexpectedToken t.line "expression" t.value.text ∨
      error = .unsupportedConstant t.value.text := by
  obtain ⟨row, value⟩ := t
  rw [readOperand] at h
  dsimp only at h ⊢
  split at h
  · cases h
  · cases h
  · cases h
  · cases h
  · cases h
  · exact .inr (Except.error.inj h).symm
  · split at h
    · cases h
    · exact .inr (Except.error.inj h).symm
  · exact .inl (Except.error.inj h).symm

theorem readOperator_eq_error {m : Module} {line : Nat} {target : String} {stack : List Waiting}
    {e : Expression} (h : readOperator m line target stack e t = .error error) :
    error = .unexpectedToken t.line (Place.operator line target stack e).expected t.value.text := by
  rw [readOperator] at h
  split at h
  · cases h
  · split at h
    · cases h
    · cases h
    · exact (Except.error.inj h).symm

theorem step_eq_error (h : s.step t = .error error) :
    error = .unexpectedToken t.line s.place.expected t.value.text ∨
      error = .unsupportedConstant t.value.text := by
  obtain ⟨m, place⟩ := s
  rw [ReaderState.step] at h
  dsimp only at h ⊢
  split at h
  case h_22 => exact readOperand_eq_error (map_eq_error_iff.mp h)
  case h_23 => exact .inl (readOperator_eq_error h)
  case h_24 => exact .inl (Except.error.inj h).symm
  all_goals cases h

theorem readModule_eq_error (h : readModule ts = .error error) :
    (∃ before t after s, ts = before ++ t :: after ∧ Reads before .initial s ∧
      s.step t = .error error) ∨
    ∃ s, Reads ts .initial s ∧ error = .unexpectedEnd s.place.missing := by
  rcases bind_eq_error_iff.mp h with hstep | ⟨s, hreads, hend⟩
  · exact .inl (foldlM_eq_error_iff.mp hstep)
  · refine .inr ⟨s, hreads, ?_⟩
    split at hend
    · cases hend
    · exact (Except.error.inj hend).symm

theorem Reads.exists_completion (h : Reads ts .initial s) : ∃ rest : List Token,
    (∀ u ∈ rest, u.Lexical) ∧ ∀ row, ∃ m, readModule (ts ++ rest.map (Located.mk row)) = .ok m := by
  refine ⟨s.place.completion, lexical_completion _, fun row => ?_⟩
  obtain ⟨m, hrest⟩ := exists_reads_completion (ready_reads (s := .initial) trivial h) row
  exact ⟨m, readModule_eq_ok_iff.mpr (h.append hrest)⟩

theorem Reads.not_accepted (h : Reads ts .initial s) (hstep : s.step t = .error error)
    (rest : List (Located Token)) (m : Module) : readModule (ts ++ t :: rest) ≠ .ok m := by
  intro hread
  obtain ⟨s₁, hts, hrest⟩ := reads_append.mp (readModule_eq_ok_iff.mp hread)
  obtain ⟨s₂, ht, -⟩ := bind_eq_ok_iff.mp hrest
  cases hts.symm.trans h
  cases hstep.symm.trans ht

end Errors

theorem readModule_fails_at_earliest (ts : List (Located Token)) :
    (∀ line expected found, readModule ts = .error (.unexpectedToken line expected found) →
      ∃ p t, ts[p]? = some t ∧ line = t.line ∧ found = t.value.text ∧
        (∀ rest m, readModule (ts.take (p + 1) ++ rest) ≠ .ok m) ∧
        ∃ rest : List Token, (∀ u ∈ rest, u.Lexical) ∧
          ∀ row, ∃ m, readModule (ts.take p ++ rest.map (Located.mk row)) = .ok m) ∧
    (∀ missing, readModule ts = .error (.unexpectedEnd missing) →
      ∃ rest : List Token, (∀ u ∈ rest, u.Lexical) ∧
        ∀ row, ∃ m, readModule (ts ++ rest.map (Located.mk row)) = .ok m) ∧
    ∀ rest m, readModule (ts ++ rest) = .ok m →
      (∃ m', readModule ts = .ok m') ∨ ∃ missing, readModule ts = .error (.unexpectedEnd missing) := by
  refine ⟨fun line expected found h => ?_, fun missing h => ?_, fun rest m h => ?_⟩
  · rcases readModule_eq_error h with ⟨before, t, after, s, rfl, hreads, hstep⟩ | ⟨s, -, hend⟩
    · have hbefore : (before ++ t :: after).take before.length = before := List.take_left
      have hthrough : (before ++ t :: after).take (before.length + 1) = before ++ [t] := by
        rw [List.take_append, List.take_of_length_le (Nat.le_succ _), Nat.add_sub_cancel_left]
        rfl
      obtain ⟨hline, hfound⟩ : line = t.line ∧ found = t.value.text := by
        rcases step_eq_error hstep with herror | herror
        · cases herror
          exact ⟨rfl, rfl⟩
        · cases herror
      refine ⟨before.length, t, by simp, hline, hfound, fun rest m => ?_, ?_⟩
      · rw [hthrough, List.append_assoc]
        exact hreads.not_accepted hstep rest m
      · rw [hbefore]
        exact hreads.exists_completion
    · cases hend
  · rcases readModule_eq_error h with ⟨before, t, after, s, rfl, hreads, hstep⟩ | ⟨s, hreads, -⟩
    · rcases step_eq_error hstep with herror | herror
      · cases herror
      · cases herror
    · exact hreads.exists_completion
  · obtain ⟨s, hreads, -⟩ := reads_append.mp (readModule_eq_ok_iff.mp h)
    cases hread : readModule ts with
    | ok m' => exact .inl ⟨m', rfl⟩
    | error error =>
      rcases readModule_eq_error hread with hfault | ⟨s', -, rfl⟩
      · cases hreads.symm.trans (foldlM_eq_error_iff.mpr hfault)
      · exact .inr ⟨_, rfl⟩

def unclosed : List (Located Token) :=
  [⟨1, .keyword .startModule⟩, ⟨1, .identifier "m"⟩, ⟨1, .punctuation .semicolon⟩,
    ⟨2, .keyword .assign⟩, ⟨2, .identifier "y"⟩, ⟨2, .punctuation .equals⟩,
    ⟨2, .punctuation .tilde⟩, ⟨2, .punctuation .leftParen⟩, ⟨2, .identifier "a"⟩,
    ⟨3, .punctuation .ampersand⟩, ⟨3, .punctuation .leftParen⟩, ⟨3, .identifier "b"⟩,
    ⟨4, .punctuation .semicolon⟩, ⟨4, .keyword .endModule⟩]

theorem readModule_fails_at_earliest_unclosed :
    (readModule unclosed = .error (.unexpectedToken 4 ")" ";") ∧
      ∃ p t, unclosed[p]? = some t ∧ 4 = t.line ∧ ";" = t.value.text ∧
        (∀ rest m, readModule (unclosed.take (p + 1) ++ rest) ≠ .ok m) ∧
        ∃ rest : List Token, (∀ u ∈ rest, u.Lexical) ∧
          ∀ row, ∃ m, readModule (unclosed.take p ++ rest.map (Located.mk row)) = .ok m) ∧
    readModule (unclosed.take 10) = .error (.unexpectedEnd "expression") ∧
      ∃ rest : List Token, (∀ u ∈ rest, u.Lexical) ∧
        ∀ row, ∃ m, readModule (unclosed.take 10 ++ rest.map (Located.mk row)) = .ok m := by
  have hfault : readModule unclosed = .error (.unexpectedToken 4 ")" ";") := rfl
  have hend : readModule (unclosed.take 10) = .error (.unexpectedEnd "expression") := rfl
  exact ⟨⟨hfault, (readModule_fails_at_earliest unclosed).1 4 ")" ";" hfault⟩,
    hend, (readModule_fails_at_earliest (unclosed.take 10)).2.1 "expression" hend⟩

end ReversibleSynthesis.Verilog
