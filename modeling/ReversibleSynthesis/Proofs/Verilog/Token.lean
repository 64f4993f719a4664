import Mathlib.Data.List.TakeWhile
import ReversibleSynthesis.Proofs.Verilog.Module

namespace ReversibleSynthesis.Verilog

structure IsSized (cs width digits : List Char) (base : Char) : Prop where
  eq : cs = width ++ '\x27' :: base :: digits
  width_ne : width ≠ []
  width_digits : ∀ c ∈ width, c.isDigit = true
  base_eq : base = 'b' ∨ base = 'B'
  digits_ne : digits ≠ []
  digits_binary : ∀ c ∈ digits, isBinaryDigit c = true

theorem IsSized.mark_eq {c mark base : Char} {rest width digits : List Char}
    (h : IsSized (c :: '\x27' :: mark :: rest) width digits base) : mark = 'b' ∨ mark = 'B' := by
  obtain ⟨heq, hne, hwidth, hbase, -, -⟩ := h
  rcases width with _ | ⟨w, _ | ⟨second, width⟩⟩
  · exact absurd rfl hne
  · cases heq
    exact hbase
  · obtain ⟨rfl, -⟩ := List.cons.inj (List.cons.inj heq).2
    exact absurd (hwidth '\x27' (by simp)) (by decide)

def Token.Lexical : Token → Prop
  | .keyword _ => True
  | .punctuation _ => True
  | .identifier name => Keyword.ofText? name = none ∧
      ∃ c cs, name.toList = c :: cs ∧ isNameStart c = true ∧ ∀ c ∈ cs, isNameChar c = true
  | .integer value => value < Nat.pow 2 64
  | .sized text => ∃ width digits base, IsSized text.toList width digits base

theorem sizedTail?_eq_some {cs tail : List Char} (h : sizedTail? cs = some tail)
    {width : List Char} (hne : width ≠ []) (hwidth : ∀ c ∈ width, c.isDigit = true) :
    ∃ digits base, IsSized (width ++ tail) width digits base := by
  unfold sizedTail? at h
  split at h
  · next base cs =>
    simp only [Bool.and_eq_true, Bool.or_eq_true, beq_iff_eq, Bool.not_eq_true',
      List.isEmpty_eq_false_iff] at h
    split at h
    · next hbase =>
      cases h
      exact ⟨_, base, rfl, hne, hwidth, hbase.1, hbase.2, fun c => List.mem_takeWhile_imp⟩
    · cases h
  · cases h

theorem numberLexeme_lexical {c : Char} {cs : List Char} (hc : c.isDigit = true) {t : Token}
    (h : (numberLexeme c cs).1 = .token t) : t.Lexical := by
  unfold numberLexeme at h
  dsimp only at h
  split at h
  · next tail htail =>
    cases h
    have hdigits : ∀ d ∈ c :: cs.takeWhile Char.isDigit, d.isDigit = true :=
      List.forall_mem_cons.mpr ⟨hc, fun d => List.mem_takeWhile_imp⟩
    obtain ⟨digits, base, hsized⟩ := sizedTail?_eq_some htail (List.cons_ne_nil _ _) hdigits
    exact ⟨_, digits, base, by rwa [String.toList_ofList]⟩
  · unfold integerLexeme at h
    dsimp only at h
    split at h
    · next hlt =>
      cases h
      exact hlt
    · cases h

theorem wordLexeme_lexical {c : Char} {cs : List Char} (hc : isNameStart c = true)
    (hcs : ∀ d ∈ cs, isNameChar d = true) {t : Token}
    (h : wordLexeme (String.ofList (c :: cs)) = .token t) : t.Lexical := by
  unfold wordLexeme at h
  split at h
  · cases h
    trivial
  · next hword =>
    cases h
    exact ⟨hword, c, cs, String.toList_ofList, hc, hcs⟩

theorem slashLexeme_ne_token (cs : List Char) (t : Token) : (slashLexeme cs).1 ≠ .token t := by
  unfold slashLexeme
  split
  · exact nofun
  · split
    · exact nofun
    · exact nofun
  · exact nofun

theorem firstLexeme_lexical {c : Char} {cs : List Char} {t : Token}
    (h : (firstLexeme c cs).1 = .token t) : t.Lexical := by
  unfold firstLexeme at h
  split at h
  · cases h
  split at h
  · exact absurd h (slashLexeme_ne_token cs t)
  split at h
  · next hdigit => exact numberLexeme_lexical hdigit h
  split at h
  · next hstart => exact wordLexeme_lexical hstart (fun d => List.mem_takeWhile_imp) h
  split at h
  · cases h
    trivial
  · cases h

theorem lexemesFrom_lexical (line : Nat) (cs : List Char) {l : Located Lexeme}
    (hl : l ∈ lexemesFrom line cs) {t : Token} (ht : l.value = .token t) : t.Lexical := by
  fun_induction lexemesFrom line cs with
  | case1 => cases hl
  | case2 line c cs lexeme k hfirst line' ih =>
    rcases List.mem_cons.mp hl with rfl | hl
    · exact firstLexeme_lexical ((congrArg Prod.fst hfirst).trans ht)
    · exact ih hl

theorem scanned?_eq_some_ok {lexeme : Lexeme} {t : Token} (h : lexeme.scanned? = some (.ok t)) :
    lexeme = .token t := by
  cases lexeme with
  | blank => cases h
  | token t => cases h; rfl
  | invalid text => cases h

theorem tokens_lexical {source : String} {ts : List (Located Token)}
    (h : tokens source = .ok ts) : ∀ t ∈ ts, t.value.Lexical := by
  intro t ht
  obtain ⟨l, hl, hok⟩ := (mem_of_mapM_eq_ok h).mp ht
  obtain ⟨k, hk, hscanned⟩ := List.mem_filterMap.mp hl
  obtain ⟨scanned, hvalue, rfl⟩ := Option.map_eq_some_iff.mp hscanned
  cases scanned with
  | error text => cases hok
  | ok value =>
    cases hok
    exact lexemesFrom_lexical 1 source.toList hk (scanned?_eq_some_ok hvalue)

end ReversibleSynthesis.Verilog
