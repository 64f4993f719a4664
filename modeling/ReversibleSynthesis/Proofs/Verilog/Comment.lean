import Mathlib.Computability.Language
import ReversibleSynthesis.Verilog.Token

namespace ReversibleSynthesis.Verilog

open scoped Computability

def oneOf (p : Char → Prop) : Language Char := {w | ∃ c, p c ∧ w = [c]}

def stars : Language Char := oneOf (· = '*') * (oneOf (· = '*'))∗

def commentChunk : Language Char :=
  oneOf (fun c => c ≠ '/' ∧ c ≠ '*') * (oneOf (· ≠ '*'))∗ * stars

def commentBody : Language Char :=
  (oneOf (· ≠ '*'))∗ * stars * commentChunk∗ * oneOf (· = '/')

def blockComment : Language Char := oneOf (· = '/') * (oneOf (· = '*') * commentBody)

def afterStar : Language Char := (oneOf (· = '*'))∗ * (commentChunk∗ * oneOf (· = '/'))

section OneOf

variable {p : Char → Prop} {L : Language Char}

theorem nil_notMem_oneOf_mul : [] ∉ oneOf p * L := by
  rintro ⟨v, ⟨c, -, rfl⟩, w, -, h⟩
  cases h

theorem cons_mem_oneOf_mul {c : Char} {cs : List Char} : c :: cs ∈ oneOf p * L ↔ p c ∧ cs ∈ L := by
  rw [Language.mem_mul]
  constructor
  · rintro ⟨v, ⟨d, hd, rfl⟩, w, hw, h⟩
    obtain ⟨rfl, rfl⟩ := List.cons.inj h
    exact ⟨hd, hw⟩
  · rintro ⟨hc, hcs⟩
    exact ⟨[c], ⟨c, hc, rfl⟩, cs, hcs, rfl⟩

theorem cons_mem_oneOf {c : Char} {cs : List Char} : c :: cs ∈ oneOf p ↔ p c ∧ cs = [] := by
  constructor
  · rintro ⟨d, hd, h⟩
    obtain ⟨rfl, rfl⟩ := List.cons.inj h
    exact ⟨hd, rfl⟩
  · rintro ⟨hc, rfl⟩
    exact ⟨c, hc, rfl⟩

end OneOf

-- The two states of the pattern: inside the body, and after a star that may begin the end mark.
theorem commentBody_eq :
    commentBody = oneOf (· = '*') * afterStar + oneOf (· ≠ '*') * commentBody := by
  have hunfold : (oneOf (· ≠ '*'))∗ = 1 + oneOf (· ≠ '*') * (oneOf (· ≠ '*'))∗ :=
    (Language.one_add_self_mul_kstar_eq_kstar _).symm
  calc
    commentBody = (1 + oneOf (· ≠ '*') * (oneOf (· ≠ '*'))∗) * stars * commentChunk∗ *
        oneOf (· = '/') := by rw [← hunfold, commentBody]
    _ = oneOf (· = '*') * afterStar + oneOf (· ≠ '*') * commentBody := by
      simp only [add_mul, one_mul, mul_assoc, stars, afterStar, commentBody]

theorem afterStar_eq :
    afterStar = oneOf (· = '/') + oneOf (fun c => c ≠ '/' ∧ c ≠ '*') * commentBody +
      oneOf (· = '*') * afterStar := by
  have hstars : (oneOf (· = '*'))∗ = 1 + oneOf (· = '*') * (oneOf (· = '*'))∗ :=
    (Language.one_add_self_mul_kstar_eq_kstar _).symm
  have hchunks : commentChunk∗ * oneOf (· = '/') =
      oneOf (· = '/') + oneOf (fun c => c ≠ '/' ∧ c ≠ '*') * commentBody := by
    calc
      commentChunk∗ * oneOf (· = '/') = (1 + commentChunk * commentChunk∗) * oneOf (· = '/') := by
        rw [Language.one_add_self_mul_kstar_eq_kstar]
      _ = _ := by simp only [add_mul, one_mul, mul_assoc, commentChunk, commentBody]
  calc
    afterStar = (1 + oneOf (· = '*') * (oneOf (· = '*'))∗) *
        (commentChunk∗ * oneOf (· = '/')) := by rw [← hstars, afterStar]
    _ = commentChunk∗ * oneOf (· = '/') + oneOf (· = '*') * afterStar := by
      rw [add_mul, one_mul, mul_assoc, afterStar]
    _ = _ := by rw [hchunks]

section Cons

variable {c : Char} {cs : List Char}

theorem cons_mem_commentBody :
    c :: cs ∈ commentBody ↔ c = '*' ∧ cs ∈ afterStar ∨ c ≠ '*' ∧ cs ∈ commentBody := by
  rw [commentBody_eq, Language.mem_add, cons_mem_oneOf_mul, cons_mem_oneOf_mul, ← commentBody_eq]

theorem cons_mem_afterStar :
    c :: cs ∈ afterStar ↔ c = '/' ∧ cs = [] ∨ (c ≠ '/' ∧ c ≠ '*') ∧ cs ∈ commentBody ∨
      c = '*' ∧ cs ∈ afterStar := by
  rw [afterStar_eq, Language.mem_add, Language.mem_add, cons_mem_oneOf, cons_mem_oneOf_mul,
    cons_mem_oneOf_mul, ← afterStar_eq, or_assoc]

theorem nil_notMem_commentBody : [] ∉ commentBody := by
  rw [commentBody_eq, Language.mem_add, not_or]
  exact ⟨nil_notMem_oneOf_mul, nil_notMem_oneOf_mul⟩

theorem nil_notMem_afterStar : [] ∉ afterStar := by
  have hslash : [] ∉ oneOf (· = '/') := by
    rintro ⟨c, -, h⟩
    cases h
  rw [afterStar_eq, Language.mem_add, Language.mem_add, not_or, not_or]
  exact ⟨⟨hslash, nil_notMem_oneOf_mul⟩, nil_notMem_oneOf_mul⟩

end Cons

theorem commentLength?_cons {c : Char} (hc : c ≠ '*') (cs : List Char) :
    commentLength? (c :: cs) = (commentLength? cs).map (· + 1) := by
  rw [commentLength?]
  intro cs' hstar
  exact absurd hstar hc

theorem commentLength?_star_cons {c : Char} (hc : c ≠ '/') (cs : List Char) :
    commentLength? ('*' :: c :: cs) = (commentLength? (c :: cs)).map (· + 1) := by
  rw [commentLength?]
  intro cs' _ hslash
  exact hc (List.cons.inj hslash).1

theorem mem_commentBody_iff (w : List Char) :
    (w ∈ commentBody ↔ commentLength? w = some w.length) ∧
      (w ∈ afterStar ↔ commentLength? ('*' :: w) = some (w.length + 1)) := by
  induction w with
  | nil => exact ⟨by simp [nil_notMem_commentBody, commentLength?], by
      simp [nil_notMem_afterStar, commentLength?]⟩
  | cons c w ih =>
    obtain ⟨hbody, hstar⟩ := ih
    rw [cons_mem_commentBody, cons_mem_afterStar]
    by_cases h : c = '*'
    · subst h
      rw [commentLength?_star_cons (by decide)]
      simp [hstar]
    · by_cases h' : c = '/'
      · subst h'
        have hend : commentLength? ('*' :: '/' :: w) = some 2 := by rw [commentLength?]
        rw [commentLength?_cons h, hend]
        simp [hbody, eq_comm]
      · rw [commentLength?_star_cons h', commentLength?_cons h]
        simp [h, h', hbody, Function.comp_def]

theorem commentLength?_append {body : List Char} (hbody : ¬ ['*', '/'] <:+: body)
    (rest : List Char) : commentLength? (body ++ '*' :: '/' :: rest) = some (body.length + 2) := by
  induction body with
  | nil => rfl
  | cons c body ih =>
    have htail : ¬ ['*', '/'] <:+: body := fun h => hbody (h.trans (List.suffix_cons c body).isInfix)
    have hopen : ∀ cs, c = '*' → body ++ '*' :: '/' :: rest = '/' :: cs → False := by
      rintro cs rfl hcs
      cases body with
      | nil => simp at hcs
      | cons d body =>
        obtain ⟨rfl, _⟩ := List.cons.inj hcs
        exact hbody ⟨[], body, rfl⟩
    rw [List.cons_append, commentLength?.eq_3 c _ hopen, ih htail]
    simp

theorem commentLength?_eq_some_iff {cs : List Char} {k : Nat} :
    commentLength? cs = some k ↔ ∃ body rest, cs = body ++ '*' :: '/' :: rest ∧
      ¬ ['*', '/'] <:+: body ∧ k = body.length + 2 := by
  constructor
  · intro h
    fun_induction commentLength? cs generalizing k with
    | case1 => cases h
    | case2 rest =>
      cases h
      exact ⟨[], rest, rfl, by simp, rfl⟩
    | case3 c cs hopen ih =>
      obtain ⟨j, hj, rfl⟩ := Option.map_eq_some_iff.mp h
      obtain ⟨body, rest, rfl, hbody, rfl⟩ := ih hj
      refine ⟨c :: body, rest, rfl, ?_, rfl⟩
      rw [List.infix_cons_iff, not_or]
      refine ⟨?_, hbody⟩
      rintro ⟨tail, htail⟩
      obtain ⟨rfl, rfl⟩ := List.cons.inj htail
      exact hopen _ rfl rfl
  · rintro ⟨body, rest, rfl, hbody, rfl⟩
    exact commentLength?_append hbody rest

theorem mem_blockComment_iff {w : List Char} :
    w ∈ blockComment ↔
      ∃ body, w = '/' :: '*' :: (body ++ ['*', '/']) ∧ ¬ ['*', '/'] <:+: body := by
  constructor
  · rintro ⟨-, ⟨-, rfl, rfl⟩, -, ⟨-, ⟨-, rfl, rfl⟩, w, hw, rfl⟩, rfl⟩
    obtain ⟨body, rest, rfl, hbody, hlength⟩ :=
      commentLength?_eq_some_iff.mp ((mem_commentBody_iff w).1.mp hw)
    obtain rfl : rest = [] := by
      rw [← List.length_eq_zero_iff]
      simp only [List.length_append, List.length_cons] at hlength
      omega
    exact ⟨body, rfl, hbody⟩
  · rintro ⟨body, rfl, hbody⟩
    rw [blockComment, cons_mem_oneOf_mul, cons_mem_oneOf_mul, (mem_commentBody_iff _).1]
    exact ⟨rfl, rfl, (commentLength?_append hbody []).trans (by simp)⟩

theorem slashLexeme_eq_blank_iff {cs : List Char} {k : Nat} :
    slashLexeme ('*' :: cs) = (.blank, 1 + k) ↔
      k ≤ cs.length ∧ '/' :: '*' :: cs.take k ∈ blockComment := by
  have hlexeme : slashLexeme ('*' :: cs) = (.blank, 1 + k) ↔ commentLength? cs = some k := by
    rw [slashLexeme]
    cases commentLength? cs with
    | none => simp
    | some j => simp
  rw [hlexeme, commentLength?_eq_some_iff, mem_blockComment_iff]
  constructor
  · rintro ⟨body, rest, rfl, hbody, rfl⟩
    refine ⟨by simp, body, ?_, hbody⟩
    rw [List.append_cons, List.append_cons, List.append_assoc body, List.take_left' (by simp)]
    rfl
  · rintro ⟨hle, body, htake, hbody⟩
    obtain htake : cs.take k = body ++ ['*', '/'] := (List.cons.inj (List.cons.inj htake).2).2
    refine ⟨body, cs.drop k, ?_, hbody, ?_⟩
    · conv_lhs => rw [← List.take_append_drop k cs, htake]
      simp
    · have hlength := congrArg List.length htake
      rw [List.length_take_of_le hle] at hlength
      simpa using hlength

end ReversibleSynthesis.Verilog
