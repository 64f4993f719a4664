import Mathlib.Data.List.DropRight
import ReversibleSynthesis.Angle.Notation
import ReversibleSynthesis.Proofs.Double
import ReversibleSynthesis.Proofs.Except

namespace ReversibleSynthesis

namespace Decimal

def isLiteralChar (c : Char) : Bool :=
  c.isDigit || ['.', '+', '-', 'e', 'E'].contains c ||
    ['a', 'f', 'i', 'n', 't', 'y'].contains c.toLower

theorem isLiteralChar_of_isDigit {c : Char} (h : c.isDigit = true) : isLiteralChar c = true := by
  rw [isLiteralChar, h]
  rfl

theorem isLiteralChar_of_splitSign {cs : List Char}
    (h : ∀ c ∈ (splitSign cs).2, isLiteralChar c = true) : ∀ c ∈ cs, isLiteralChar c = true := by
  fun_cases splitSign cs with
  | case1 cs => exact List.forall_mem_cons.mpr ⟨rfl, h⟩
  | case2 cs => exact List.forall_mem_cons.mpr ⟨rfl, h⟩
  | case3 cs h₁ h₂ =>
    rwa [splitSign] at h
    · exact h₁
    · exact h₂

theorem isLiteralChar_of_all {cs : List Char} (h : cs.all Char.isDigit = true) :
    ∀ c ∈ cs, isLiteralChar c = true :=
  fun c hc => isLiteralChar_of_isDigit (List.all_eq_true.mp h c hc)

theorem isLiteralChar_of_exponent? {cs : List Char} {power : Int} (h : exponent? cs = some power) :
    ∀ c ∈ cs, isLiteralChar c = true := by
  cases cs with
  | nil => exact fun c hc => absurd hc List.not_mem_nil
  | cons mark cs =>
    simp only [exponent?] at h
    split at h
    case isTrue hmark =>
      split at h
      case isTrue => cases h
      case isFalse hdigits =>
        have hall : (splitSign cs).2.all Char.isDigit = true := by simp_all
        have hletter : mark = 'e' ∨ mark = 'E' := by simpa using hmark
        refine List.forall_mem_cons.mpr ⟨?_, isLiteralChar_of_splitSign (isLiteralChar_of_all hall)⟩
        rcases hletter with rfl | rfl <;> rfl
    case isFalse => cases h

theorem isLiteralChar_of_number? {cs : List Char} {x : Float} (h : number? cs = some x) :
    ∀ c ∈ cs, isLiteralChar c = true := by
  have hdigits (cs : List Char) : ∀ c ∈ cs.takeWhile Char.isDigit, isLiteralChar c = true :=
    isLiteralChar_of_all List.all_takeWhile
  rw [← cs.takeWhile_append_dropWhile (p := Char.isDigit)]
  simp only [number?] at h
  split at h
  all_goals
    rename_i hrest
    split at h
    case isTrue => cases h
    obtain ⟨power, hpower, -⟩ := Option.bind_eq_some_iff.mp h
    have hexponent := isLiteralChar_of_exponent? hpower
  · rename_i more _
    rw [hrest, ← more.takeWhile_append_dropWhile (p := Char.isDigit)]
    exact List.forall_mem_append.mpr ⟨hdigits cs, List.forall_mem_cons.mpr
      ⟨rfl, List.forall_mem_append.mpr ⟨hdigits more, hexponent⟩⟩⟩
  · exact List.forall_mem_append.mpr ⟨hdigits cs, hexponent⟩

theorem isLiteralChar_of_named? {cs : List Char} {x : Float} (h : named? cs = some x) :
    ∀ c ∈ cs, isLiteralChar c = true := by
  have hname : cs.map Char.toLower = ['i', 'n', 'f'] ∨
      cs.map Char.toLower = ['i', 'n', 'f', 'i', 'n', 'i', 't', 'y'] ∨
      cs.map Char.toLower = ['n', 'a', 'n'] := by
    simp only [named?] at h
    split at h
    case isTrue hinf =>
      simp only [Bool.or_eq_true, beq_iff_eq] at hinf
      rcases hinf with hinf | hinf
      · exact .inl (String.ofList_injective hinf)
      · exact .inr (.inl (String.ofList_injective hinf))
    case isFalse =>
      split at h
      case isTrue hnan => exact .inr (.inr (String.ofList_injective (beq_iff_eq.mp hnan)))
      case isFalse => cases h
  intro c hc
  have hletters : cs.map Char.toLower ⊆ ['a', 'f', 'i', 'n', 't', 'y'] := by
    rcases hname with hname | hname | hname <;> rw [hname] <;> simp
  have hlower := hletters (List.mem_map_of_mem hc)
  rw [isLiteralChar, List.contains_iff_mem.mpr hlower, Bool.or_true]

theorem isLiteralChar_of_parse {text : String} {x : Float} (h : parse text = .ok x) :
    ∀ c ∈ text.toList, isLiteralChar c = true := by
  unfold parse at h
  split at h
  case h_1 => cases h
  case h_2 cs _ =>
    simp only at h
    split at h
    case h_2 => cases h
    case h_1 value hvalue =>
      apply isLiteralChar_of_splitSign
      rcases Option.or_eq_some_iff.mp hvalue with hnumber | ⟨-, hnamed⟩
      · exact isLiteralChar_of_number? hnumber
      · exact isLiteralChar_of_named? hnamed

theorem notMem_of_parse {digits : List Char} {x : Float} {c : Char}
    (h : parse (String.ofList digits) = .ok x) (hc : isLiteralChar c = false) : c ∉ digits := by
  intro hmem
  have hliteral := isLiteralChar_of_parse h c (String.toList_ofList ▸ hmem)
  rw [hc] at hliteral
  cases hliteral

end Decimal

namespace AngleNotation

theorem splitPi?_eq_some {cs before after : List Char} (h : splitPi? cs = some (before, after)) :
    cs = before ++ 'p' :: 'i' :: after := by
  fun_induction splitPi? cs generalizing before with
  | case1 => cases h
  | case2 rest =>
    cases h
    rfl
  | case3 c rest _ ih =>
    obtain ⟨⟨before, after⟩, hrest, hpair⟩ := Option.map_eq_some_iff.mp h
    cases hpair
    rw [ih hrest]
    rfl

theorem splitPi?_append {before after : List Char} (h : 'p' ∉ before) :
    splitPi? (before ++ 'p' :: 'i' :: after) = some (before, after) := by
  induction before with
  | nil => rfl
  | cons c before ih =>
    obtain ⟨hc, hbefore⟩ := not_or.mp (List.mem_cons.not.mp h)
    rw [List.cons_append, splitPi?, ih hbefore]
    · rfl
    · rintro rest rfl
      exact absurd rfl hc

inductive Times : List Char → Float → Prop
  | one (stars : Nat) : Times (List.replicate stars '*') 1.0
  | number {digits : List Char} {x : Float} (h : Decimal.parse (String.ofList digits) = .ok x)
      (stars : Nat) : Times (digits ++ List.replicate stars '*') x

inductive Over : List Char → Float → Prop
  | one : Over [] 1.0
  | number {digits : List Char} {x : Float} (h : Decimal.parse (String.ofList digits) = .ok x) :
      Over ('/' :: digits) x

inductive Product : List Char → Float → Float → Prop
  | mk {before after : List Char} {factor divisor : Float} (hfactor : Times before factor)
      (hdivisor : Over after divisor) : Product (before ++ 'p' :: 'i' :: after) factor divisor

inductive Multiple : List Char → Bool → Float → Float → Prop
  | plain {body : List Char} {factor divisor : Float} (hbody : Product body factor divisor)
      (hsign : body.head? ≠ some '-') : Multiple body false factor divisor
  | minus {body : List Char} {factor divisor : Float} (hbody : Product body factor divisor) :
      Multiple ('-' :: body) true factor divisor

theorem Times.notMem {before : List Char} {x : Float} (h : Times before x) : 'p' ∉ before := by
  cases h with
  | one stars => exact fun hp => absurd (List.eq_of_mem_replicate hp) (by decide)
  | number h stars =>
    intro hmem
    rcases List.mem_append.mp hmem with hp | hp
    · exact Decimal.notMem_of_parse h (by decide) hp
    · exact absurd (List.eq_of_mem_replicate hp) (by decide)

theorem rdropWhile_append_replicate {digits : List Char} (h : '*' ∉ digits) (stars : Nat) :
    (digits ++ List.replicate stars '*').rdropWhile (· == '*') = digits := by
  induction stars with
  | zero =>
    rw [List.replicate_zero, List.append_nil, List.rdropWhile_eq_self_iff]
    intro hne hlast
    exact h (beq_iff_eq.mp hlast ▸ List.getLast_mem hne)
  | succ stars ih =>
    rw [List.replicate_succ', ← List.append_assoc, List.rdropWhile_concat_pos _ _ _ rfl, ih]

theorem exists_stars (before : List Char) :
    ∃ stars, before = before.rdropWhile (· == '*') ++ List.replicate stars '*' := by
  refine ⟨(before.rtakeWhile (· == '*')).length, ?_⟩
  have hstars : ∀ c ∈ before.rtakeWhile (· == '*'), c = '*' :=
    fun c hc => beq_iff_eq.mp (List.mem_rtakeWhile_imp (p := (· == '*')) hc)
  rw [← List.eq_replicate_of_mem hstars]
  exact List.rdropWhile_append_rtakeWhile.symm

theorem multiplier_eq_ok_iff {text : String} {before : List Char} {x : Float} :
    multiplier text before = .ok x ↔ Times before x := by
  constructor
  · intro h
    obtain ⟨stars, hstars⟩ := exists_stars before
    unfold multiplier at h
    split at h
    case h_1 hnone =>
      cases h
      rw [hstars, show before.rdropWhile (· == '*') = [] from hnone]
      exact .one stars
    case h_2 =>
      rw [hstars]
      exact .number (mapError_eq_ok_iff.mp h) stars
  · intro h
    cases h with
    | one stars =>
      have hnone := rdropWhile_append_replicate List.not_mem_nil stars
      unfold multiplier
      rw [show ((List.replicate stars '*').reverse.dropWhile (· == '*')).reverse = [] from hnone]
    | @number digits _ h stars =>
      have hdigits := rdropWhile_append_replicate (Decimal.notMem_of_parse h (by decide)) stars
      unfold multiplier
      rw [show ((digits ++ List.replicate stars '*').reverse.dropWhile (· == '*')).reverse = digits
        from hdigits]
      cases digits with
      | nil => cases h
      | cons c digits => exact mapError_eq_ok_iff.mpr h

theorem divisor_eq_ok_iff {text : String} {after : List Char} {x : Float} :
    divisor text after = .ok x ↔ Over after x := by
  constructor
  · intro h
    fun_cases divisor text after with
    | case1 =>
      cases h
      exact .one
    | case2 digits => exact .number (mapError_eq_ok_iff.mp h)
    | case3 after hnil hslash => simp_all [divisor]
  · intro h
    cases h with
    | one => rfl
    | number h => exact mapError_eq_ok_iff.mpr h

def turn (negative : Bool) (factor divisor : Float) : Float :=
  if negative then -(factor * doublePi / divisor) else factor * doublePi / divisor

theorem multipleOfPi_eq_ok_iff {text : String} {body : List Char} {v : Float} :
    multipleOfPi text body = .ok v ↔ ∃ factor divisor, Product body factor divisor ∧
      (divisor == 0.0) = false ∧ v = factor * doublePi / divisor := by
  constructor
  · intro h
    unfold multipleOfPi at h
    split at h
    case h_1 => cases h
    case h_2 before after hsplit =>
      obtain ⟨factor, hfactor, h⟩ := bind_eq_ok_iff.mp h
      obtain ⟨divisor, hdivisor, h⟩ := bind_eq_ok_iff.mp h
      rw [splitPi?_eq_some hsplit]
      refine ⟨factor, divisor, ⟨multiplier_eq_ok_iff.mp hfactor, divisor_eq_ok_iff.mp hdivisor⟩, ?_⟩
      split at h
      case isTrue => cases h
      case isFalse hzero =>
        cases h
        exact ⟨Bool.not_eq_true _ ▸ hzero, rfl⟩
  · rintro ⟨factor, divisor, ⟨hfactor, hdivisor⟩, hzero, rfl⟩
    unfold multipleOfPi
    rw [splitPi?_append hfactor.notMem]
    refine bind_eq_ok_iff.mpr ⟨factor, multiplier_eq_ok_iff.mpr hfactor,
      bind_eq_ok_iff.mpr ⟨divisor, divisor_eq_ok_iff.mpr hdivisor, ?_⟩⟩
    rw [hzero]
    rfl

def lowered (text : String) : List Char := (Text.trim text).toList.flatMap lower

theorem parse_eq_ok_iff {text : String} {v : Float} :
    parse text = .ok v ↔
      Decimal.parse (Text.trim text) = .ok v ∧ v.isFinite = true ∨
      (∀ x, Decimal.parse (Text.trim text) ≠ .ok x) ∧ ∃ negative factor divisor,
        Multiple (lowered text) negative factor divisor ∧ (divisor == 0.0) = false ∧
        v = turn negative factor divisor := by
  constructor
  · intro h
    simp only [parse] at h
    split at h
    case h_1 value hvalue =>
      split at h
      case isTrue hfinite =>
        cases h
        exact .inl ⟨hvalue, hfinite⟩
      case isFalse => cases h
    case h_2 e hnumber =>
      refine .inr ⟨fun x hx => ?_, ?_⟩
      · cases hnumber.symm.trans hx
      rw [lowered]
      split at h
      case h_1 body hbody =>
        obtain ⟨w, hw, rfl⟩ := map_eq_ok_iff.mp h
        obtain ⟨factor, divisor, hproduct, hzero, rfl⟩ := multipleOfPi_eq_ok_iff.mp hw
        rw [hbody]
        exact ⟨true, factor, divisor, .minus hproduct, hzero, rfl⟩
      case h_2 hplain =>
        obtain ⟨factor, divisor, hproduct, hzero, rfl⟩ := multipleOfPi_eq_ok_iff.mp h
        refine ⟨false, factor, divisor, .plain hproduct fun hminus => ?_, hzero, rfl⟩
        obtain ⟨body, hbody⟩ := List.head?_eq_some_iff.mp hminus
        exact hplain body hbody
  · rintro (⟨hvalue, hfinite⟩ | ⟨hnumber, negative, factor, divisor, hmultiple, hzero, rfl⟩)
    · simp only [parse, hvalue, hfinite]
      rfl
    · simp only [parse]
      split
      case h_1 value hvalue => exact absurd hvalue (hnumber value)
      case h_2 =>
        rw [lowered] at hmultiple
        generalize (Text.trim text).toList.flatMap lower = cs at hmultiple ⊢
        cases hmultiple with
        | minus hproduct =>
          exact map_eq_ok_iff.mpr
            ⟨_, multipleOfPi_eq_ok_iff.mpr ⟨factor, divisor, hproduct, hzero, rfl⟩, rfl⟩
        | plain hproduct hsign =>
          split
          case h_1 body => exact absurd rfl hsign
          case h_2 =>
            exact multipleOfPi_eq_ok_iff.mpr ⟨factor, divisor, hproduct, hzero, rfl⟩

def InRange (factor divisor : Float) : Prop :=
  factor.isFinite = true ∧
    Double.magnitude factor * Double.magnitude doublePi < Double.overflow ∧
    (divisor.isInf = true ∨ divisor.isFinite = true ∧
      Double.magnitude (factor * doublePi) / Double.magnitude divisor < Double.overflow)

theorem isFinite_turn_iff {negative : Bool} {factor divisor : Float}
    (hzero : (divisor == 0.0) = false) :
    (turn negative factor divisor).isFinite = true ↔ InRange factor divisor := by
  have hpi : doublePi.isFinite = true := rfl
  have hne (hfinite : divisor.isFinite = true) : Double.magnitude divisor ≠ 0 := by
    intro hmagnitude
    rw [(Double.beq_zero_iff divisor).mpr ⟨hfinite, hmagnitude⟩] at hzero
    cases hzero
  have hquotient : (factor * doublePi / divisor).isFinite = true ↔ InRange factor divisor := by
    rw [Double.isFinite_div, Double.isFinite_mul, InRange]
    constructor
    · rintro ⟨⟨hfactor, -, hproduct⟩, hdivisor⟩
      exact ⟨hfactor, hproduct, hdivisor.imp_right fun h => ⟨h.1, h.2.2⟩⟩
    · rintro ⟨hfactor, hproduct, hdivisor⟩
      exact ⟨⟨hfactor, hpi, hproduct⟩, hdivisor.imp_right fun h => ⟨h.1, hne h.1, h.2⟩⟩
  cases negative with
  | false => exact hquotient
  | true => exact (Double.isFinite_neg _).trans hquotient

theorem accepted_angle_finite_iff (text : String) (v : Float) :
    parse text = .ok v ↔
      Decimal.parse (Text.trim text) = .ok v ∧ v.isFinite = true ∨
      (∀ x, Decimal.parse (Text.trim text) ≠ .ok x) ∧ ∃ negative factor divisor,
        Multiple (lowered text) negative factor divisor ∧ (divisor == 0.0) = false ∧
        v = turn negative factor divisor ∧ (v.isFinite = true ↔ InRange factor divisor) := by
  rw [parse_eq_ok_iff]
  constructor
  · rintro (hnumber | ⟨hnone, negative, factor, divisor, hmultiple, hzero, rfl⟩)
    · exact .inl hnumber
    · exact .inr ⟨hnone, negative, factor, divisor, hmultiple, hzero, rfl, isFinite_turn_iff hzero⟩
  · rintro (hnumber | ⟨hnone, negative, factor, divisor, hmultiple, hzero, rfl, -⟩)
    · exact .inl hnumber
    · exact .inr ⟨hnone, negative, factor, divisor, hmultiple, hzero, rfl⟩

theorem infinite_angles_accepted :
    parse "infpi" = .ok (1.0 / 0.0) ∧ parse "1e308pi/10" = .ok (1.0 / 0.0) ∧
      (1.0 / 0.0 : Float).isFinite = false := by
  decide +kernel

end AngleNotation

end ReversibleSynthesis
