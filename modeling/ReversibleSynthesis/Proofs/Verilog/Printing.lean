import ReversibleSynthesis.Proofs.Verilog.Comment
import ReversibleSynthesis.Proofs.Verilog.Token

namespace ReversibleSynthesis.Verilog

def blanks : List Char := [' ', '\t', '\r', '\n', '\x0c']

inductive Separator : List Char → Prop
  | nil : Separator []
  | blank {c : Char} {cs : List Char} (hc : c ∈ blanks) (h : Separator cs) : Separator (c :: cs)
  | lineComment {body cs : List Char} (hbody : '\n' ∉ body) (h : Separator cs) :
      Separator ('/' :: '/' :: body ++ ['\n'] ++ cs)
  | blockComment {body cs : List Char} (hbody : ¬ ['*', '/'] <:+: body) (h : Separator cs) :
      Separator ('/' :: '*' :: body ++ ['*', '/'] ++ cs)

def printed (lead : String) (pieces : List (Token × String)) : String :=
  lead ++ String.join (pieces.map fun p => p.1.text ++ p.2)

def Lexes (text : List Char) (lexeme : Lexeme) (rest : List Char) : Prop :=
  ∃ c cs, text = c :: cs ∧ firstLexeme c (cs ++ rest) = (lexeme, cs.length)

def scanFrom (line : Nat) (cs : List Char) : List (Located Scanned) :=
  (lexemesFrom line cs).filterMap fun l => l.value.scanned?.map (⟨l.line, ·⟩)

section Lexes

variable {text rest : List Char} {lexeme : Lexeme}

theorem Lexes.lexemesFrom_append (h : Lexes text lexeme rest) (line : Nat) :
    lexemesFrom line (text ++ rest) =
      ⟨line, lexeme⟩ :: lexemesFrom (line + text.count '\n') rest := by
  obtain ⟨c, cs, rfl, hfirst⟩ := h
  rw [List.cons_append, lexemesFrom]
  simp only [hfirst, List.take_left, List.drop_left]

theorem Lexes.scanFrom_blank (h : Lexes text .blank rest) (line : Nat) :
    scanFrom line (text ++ rest) = scanFrom (line + text.count '\n') rest := by
  rw [scanFrom, h.lexemesFrom_append]
  rfl

theorem Lexes.scanFrom_token {t : Token} (h : Lexes text (.token t) rest) (line : Nat) :
    scanFrom line (text ++ rest) = ⟨line, .ok t⟩ :: scanFrom (line + text.count '\n') rest := by
  rw [scanFrom, h.lexemesFrom_append]
  rfl

end Lexes

section Separators

variable {rest : List Char}

theorem lexes_blank {c : Char} (hc : c ∈ blanks) : Lexes [c] .blank rest := by
  have hblank : blanks.all isBlank = true := by decide
  exact ⟨c, [], rfl, by simp [firstLexeme, List.all_eq_true.mp hblank c hc]⟩

theorem lexes_lineComment {body : List Char} (hbody : '\n' ∉ body) :
    Lexes ('/' :: '/' :: body) .blank ('\n' :: rest) := by
  refine ⟨'/', '/' :: body, rfl, ?_⟩
  have hline : (body ++ '\n' :: rest).takeWhile (· != '\n') = body := by
    rw [List.takeWhile_append_of_pos fun c hc => by simpa using ne_of_mem_of_not_mem hc hbody]
    simp
  change (Lexeme.blank, 1 + ((body ++ '\n' :: rest).takeWhile (· != '\n')).length) = _
  rw [hline, List.length_cons, Nat.add_comm]

theorem lexes_blockComment {body : List Char} (hbody : ¬ ['*', '/'] <:+: body) :
    Lexes ('/' :: '*' :: body ++ ['*', '/']) .blank rest := by
  refine ⟨'/', '*' :: body ++ ['*', '/'], rfl, ?_⟩
  have hlen : commentLength? (body ++ ['*', '/'] ++ rest) = some (body.length + 2) := by
    rw [List.append_assoc]
    exact commentLength?_append hbody rest
  change slashLexeme ('*' :: (body ++ ['*', '/'] ++ rest)) = _
  rw [slashLexeme, hlen]
  simp only [List.cons_append, List.length_cons, List.length_append, List.length_nil]
  rw [Nat.add_comm 1]

theorem Lexes.scanFrom_append {text gap : List Char} (h : Lexes text .blank (gap ++ rest))
    (hgap : ∀ line, scanFrom line (gap ++ rest) = scanFrom (line + gap.count '\n') rest)
    (line : Nat) :
    scanFrom line (text ++ gap ++ rest) = scanFrom (line + (text ++ gap).count '\n') rest := by
  rw [List.append_assoc, h.scanFrom_blank, hgap, List.count_append, Nat.add_assoc]

theorem Separator.scanFrom_append {gap : List Char} (h : Separator gap) (line : Nat) :
    scanFrom line (gap ++ rest) = scanFrom (line + gap.count '\n') rest := by
  induction h generalizing line with
  | nil => rfl
  | blank hc _ ih => exact (lexes_blank hc).scanFrom_append ih line
  | @lineComment body cs hbody _ ih =>
    have hcomment : Lexes ('/' :: '/' :: body) .blank (['\n'] ++ cs ++ rest) :=
      lexes_lineComment hbody
    rw [List.append_assoc ('/' :: '/' :: body)]
    exact hcomment.scanFrom_append ((lexes_blank (by decide)).scanFrom_append ih) line
  | blockComment hbody _ ih => exact (lexes_blockComment hbody).scanFrom_append ih line

end Separators

def Ends (rest : List Char) : Prop := ∀ c ∈ rest.head?, c ∈ '/' :: blanks

theorem Separator.ends_append {gap : List Char} (h : Separator gap) (hne : gap ≠ [])
    (rest : List Char) : Ends (gap ++ rest) := by
  cases h with
  | nil => exact absurd rfl hne
  | blank hc _ => rintro _ ⟨⟩; exact List.mem_cons_of_mem _ hc
  | lineComment _ _ => rintro _ ⟨⟩; exact List.mem_cons_self
  | blockComment _ _ => rintro _ ⟨⟩; exact List.mem_cons_self

theorem isBlank_of_notMem {c : Char} (h : c ∉ '/' :: blanks) :
    isBlank c = false ∧ (c == '/') = false := by
  simp only [blanks, List.mem_cons, List.not_mem_nil, or_false, not_or] at h
  obtain ⟨hslash, hspace, htab, hreturn, hline, hfeed⟩ := h
  simp [isBlank, hslash, hspace, htab, hreturn, hline, hfeed]

theorem isDigit_eq_false_of_isNameStart {c : Char} (h : isNameStart c = true) :
    c.isDigit = false := by
  have hdigit : c.isDigit = true → c.val ≤ '9'.val := fun hd =>
    of_decide_eq_true ((Bool.and_eq_true _ _).mp hd).2
  have hletter : c.isAlpha = true → 'A'.val ≤ c.val := by
    intro halpha
    rcases (Bool.or_eq_true _ _).mp halpha with hupper | hlower
    · exact (of_decide_eq_true hupper).1
    · have hle : 'a'.val ≤ c.val := of_decide_eq_true ((Bool.and_eq_true _ _).mp hlower).1
      exact UInt32.le_trans (by decide) hle
  rcases (Bool.or_eq_true _ _).mp h with halpha | hscore
  · rw [Bool.eq_false_iff]
    exact fun hd => absurd (UInt32.le_trans (hletter halpha) (hdigit hd)) (by decide)
  · rw [beq_iff_eq.mp hscore]
    rfl

theorem firstLexeme_of_isNameStart {c : Char} (hc : isNameStart c = true) (cs : List Char) :
    firstLexeme c cs =
      (wordLexeme (String.ofList (c :: cs.takeWhile isNameChar)),
        (cs.takeWhile isNameChar).length) := by
  have hclass : ('/' :: blanks).any isNameStart = false := by decide
  have hmem : c ∉ '/' :: blanks := fun hmem => List.any_eq_false.mp hclass c hmem hc
  obtain ⟨hblank, hslash⟩ := isBlank_of_notMem hmem
  rw [firstLexeme, hblank, hslash, isDigit_eq_false_of_isNameStart hc, hc]
  rfl

theorem firstLexeme_of_isDigit {c : Char} (hc : c.isDigit = true) (cs : List Char) :
    firstLexeme c cs = numberLexeme c cs := by
  have hclass : ('/' :: blanks).any Char.isDigit = false := by decide
  have hmem : c ∉ '/' :: blanks := fun hmem => List.any_eq_false.mp hclass c hmem hc
  obtain ⟨hblank, hslash⟩ := isBlank_of_notMem hmem
  rw [firstLexeme, hblank, hslash, hc]
  rfl

section Tokens

variable {rest : List Char} (hends : Ends rest)
include hends

theorem Ends.takeWhile_append {p : Char → Bool} (hp : ('/' :: blanks).any p = false)
    {cs : List Char} (hcs : ∀ c ∈ cs, p c = true) : (cs ++ rest).takeWhile p = cs := by
  rw [List.takeWhile_append_of_pos hcs]
  cases rest with
  | nil => simp
  | cons d rest =>
    rw [List.takeWhile_cons_of_neg (List.any_eq_false.mp hp d (hends d rfl)), List.append_nil]

theorem Ends.sizedTail?_eq_none : sizedTail? rest = none := by
  unfold sizedTail?
  split
  · exact absurd (hends '\x27' rfl) (by decide)
  · rfl

theorem lexes_word {name : String} {c : Char} {cs : List Char} (hname : name.toList = c :: cs)
    (hc : isNameStart c = true) (hcs : ∀ d ∈ cs, isNameChar d = true) :
    Lexes name.toList (wordLexeme name) rest := by
  refine ⟨c, cs, hname, ?_⟩
  rw [firstLexeme_of_isNameStart hc, hends.takeWhile_append (by decide) hcs, ← hname,
    String.ofList_toList]

theorem lexes_integer {value : Nat} (hvalue : value < Nat.pow 2 64) :
    Lexes (toString value).toList (.token (.integer value)) rest := by
  have hdigit : ∀ c ∈ Nat.toDigits 10 value, c.isDigit = true :=
    fun c hc => Nat.isDigit_of_mem_toDigits (by decide) (by decide) hc
  have hdecimal := Decimal.digitsValue_toDigits value
  obtain ⟨c, cs, hdigits⟩ := List.exists_cons_of_ne_nil (Nat.toDigits_ne_nil (b := 10) (n := value))
  rw [hdigits] at hdigit hdecimal
  obtain ⟨hc, hcs⟩ := List.forall_mem_cons.mp hdigit
  refine ⟨c, cs, ?_, ?_⟩
  · rw [Nat.toString_eq_ofList_toDigits, String.toList_ofList, hdigits]
  · rw [firstLexeme_of_isDigit hc, numberLexeme]
    simp only [hends.takeWhile_append (by decide) hcs, List.drop_left, hends.sizedTail?_eq_none,
      integerLexeme, hdecimal, hvalue, if_true]

theorem sizedTail?_append {base : Char} {digits : List Char} (hbase : base = 'b' ∨ base = 'B')
    (hne : digits ≠ []) (hdigits : ∀ c ∈ digits, isBinaryDigit c = true) :
    sizedTail? ('\x27' :: base :: (digits ++ rest)) = some ('\x27' :: base :: digits) := by
  have htake : (digits ++ rest).takeWhile isBinaryDigit = digits :=
    hends.takeWhile_append (by decide) hdigits
  simp [sizedTail?, htake, hbase, hne]

theorem lexes_sized {text : String} {width digits : List Char} {base : Char}
    (h : IsSized text.toList width digits base) : Lexes text.toList (.token (.sized text)) rest := by
  obtain ⟨heq, hne, hwidth, hbase, hdigits_ne, hdigits⟩ := h
  obtain ⟨w, ws, rfl⟩ := List.exists_cons_of_ne_nil hne
  obtain ⟨hw, hws⟩ := List.forall_mem_cons.mp hwidth
  refine ⟨w, ws ++ '\x27' :: base :: digits, heq, ?_⟩
  have htail := sizedTail?_append hends hbase hdigits_ne hdigits
  have htake : (ws ++ '\x27' :: base :: (digits ++ rest)).takeWhile Char.isDigit = ws := by
    rw [List.takeWhile_append_of_pos hws]
    simp
  rw [firstLexeme_of_isDigit hw, List.append_assoc]
  change numberLexeme w (ws ++ '\x27' :: base :: (digits ++ rest)) = _
  rw [numberLexeme]
  simp only [htake, List.drop_left, htail, List.length_append]
  rw [← heq, String.ofList_toList]

theorem Token.Lexical.lexes {t : Token} (ht : t.Lexical) : Lexes t.text.toList (.token t) rest := by
  cases t with
  | keyword k =>
    have hword : wordLexeme k.text = .token (.keyword k) := by cases k <;> decide
    have hname : ∃ c cs, k.text.toList = c :: cs ∧ isNameStart c = true ∧
        ∀ d ∈ cs, isNameChar d = true := by
      cases k <;> exact ⟨_, _, rfl, by decide, List.all_eq_true.mp (by decide)⟩
    obtain ⟨c, cs, hname, hc, hcs⟩ := hname
    exact hword ▸ lexes_word hends hname hc hcs
  | punctuation p => cases p <;> exact ⟨_, [], rfl, rfl⟩
  | identifier name =>
    obtain ⟨hword, c, cs, hname, hc, hcs⟩ := ht
    have hlexes := lexes_word hends hname hc hcs
    rwa [wordLexeme, hword] at hlexes
  | integer value => exact lexes_integer hends ht
  | sized text =>
    obtain ⟨width, digits, base, hsized⟩ := ht
    exact lexes_sized hends hsized

end Tokens

section Pieces

variable {lead : String} {pieces : List (Token × String)}

theorem toList_printed (lead : String) (pieces : List (Token × String)) :
    (printed lead pieces).toList =
      lead.toList ++ pieces.flatMap fun p => p.1.text.toList ++ p.2.toList := by
  simp [printed, List.flatMap_map]

theorem ends_piece {gap : String} (h : Separator gap.toList) (rest : List Char)
    (hlast : gap = "" → rest = []) : Ends (gap.toList ++ rest) := by
  by_cases hgap : gap = ""
  · rw [hgap, hlast hgap]
    exact nofun
  · exact h.ends_append (by simpa using hgap) rest

theorem scanFrom_pieces (hpieces : ∀ p ∈ pieces, p.1.Lexical ∧ Separator p.2.toList)
    (hgaps : ∀ p ∈ pieces.dropLast, p.2 ≠ "") (line : Nat) :
    scanFrom line (pieces.flatMap fun p => p.1.text.toList ++ p.2.toList) =
      pieces.mapIdx fun i p =>
        ⟨line + ((pieces.take i).flatMap fun p => p.1.text.toList ++ p.2.toList).count '\n',
          .ok p.1⟩ := by
  induction pieces generalizing line with
  | nil => simp [scanFrom, lexemesFrom]
  | cons p pieces ih =>
    obtain ⟨⟨hlexical, hgap⟩, hrest⟩ := List.forall_mem_cons.mp hpieces
    have hgaps' : (p.2 = "" → pieces = []) ∧ ∀ q ∈ pieces.dropLast, q.2 ≠ "" := by
      cases pieces with
      | nil => exact ⟨fun _ => rfl, fun q hq => absurd hq List.not_mem_nil⟩
      | cons q pieces =>
        rw [List.dropLast_cons_cons, List.forall_mem_cons] at hgaps
        exact ⟨fun h => absurd h hgaps.1, hgaps.2⟩
    have hends : Ends (p.2.toList ++ pieces.flatMap fun p => p.1.text.toList ++ p.2.toList) :=
      ends_piece hgap _ fun h => by rw [hgaps'.1 h]; rfl
    rw [List.flatMap_cons, List.append_assoc, (hlexical.lexes hends).scanFrom_token,
      hgap.scanFrom_append, ih hrest hgaps'.2, List.mapIdx_cons]
    simp [Nat.add_assoc]

theorem scan_printed (hlead : Separator lead.toList)
    (hpieces : ∀ p ∈ pieces, p.1.Lexical ∧ Separator p.2.toList)
    (hgaps : ∀ p ∈ pieces.dropLast, p.2 ≠ "") :
    scan (printed lead pieces) =
      pieces.mapIdx fun i p =>
        ⟨1 + (printed lead (pieces.take i)).toList.count '\n', .ok p.1⟩ := by
  change scanFrom 1 (printed lead pieces).toList = _
  rw [toList_printed, hlead.scanFrom_append, scanFrom_pieces hpieces hgaps]
  simp only [toList_printed, List.count_append, Nat.add_assoc]

end Pieces

def mixedPieces : List (Token × String) :=
  [(.keyword .input, "\t"), (.identifier "inputs", "//;\n"),
    (.integer 18446744073709551615, "/*\n**/"), (.sized "4'B01", " \r\n"),
    (.punctuation .semicolon, "")]

theorem scan_printed_mixed :
    printed "/* /\n*/" mixedPieces =
      "/* /\n*/input\tinputs//;\n18446744073709551615/*\n**/4'B01 \r\n;" ∧
    scan (printed "/* /\n*/" mixedPieces) =
      [⟨2, .ok (.keyword .input)⟩, ⟨2, .ok (.identifier "inputs")⟩,
        ⟨3, .ok (.integer 18446744073709551615)⟩, ⟨4, .ok (.sized "4'B01")⟩,
        ⟨5, .ok (.punctuation .semicolon)⟩] := by
  have hlead : Separator "/* /\n*/".toList :=
    @Separator.blockComment [' ', '/', '\n'] [] (by decide) .nil
  have hpieces : ∀ p ∈ mixedPieces, p.1.Lexical ∧ Separator p.2.toList := by
    simp only [mixedPieces, List.forall_mem_cons]
    refine ⟨⟨trivial, ?_⟩, ⟨?_, ?_⟩, ⟨?_, ?_⟩, ⟨?_, ?_⟩, ⟨trivial, .nil⟩, nofun⟩
    · exact .blank (by decide) .nil
    · exact ⟨by decide, 'i', _, rfl, by decide, List.all_eq_true.mp (by decide)⟩
    · exact @Separator.lineComment [';'] [] (by decide) .nil
    · exact (by decide : 18446744073709551615 < Nat.pow 2 64)
    · exact @Separator.blockComment ['\n', '*'] [] (by decide) .nil
    · exact ⟨['4'], ['0', '1'], 'B', rfl, by decide, List.all_eq_true.mp (by decide), .inr rfl,
        by decide, List.all_eq_true.mp (by decide)⟩
    · exact .blank (by decide) (.blank (by decide) (.blank (by decide) .nil))
  exact ⟨by decide, (scan_printed hlead hpieces (by decide)).trans (by decide)⟩

end ReversibleSynthesis.Verilog
