import EchoLang.Proofs.Token.Classes

namespace EchoLang.Token

variable {cs text other rest : List Char} {c : Char}

-- The ways in which a lexeme is chosen, each with the classes that were tried before.
inductive Chosen (cs : List Char) : Option Lexeme → Prop where
  | comment (h : comment cs ≠ []) : Chosen cs (some (.gap (comment cs)))
  | word (hcomment : Token.comment cs = []) (h : word cs ≠ []) :
      Chosen cs (some (.token (wordKind (word cs)) (word cs)))
  | number (hcomment : Token.comment cs = []) (hword : Token.word cs = []) (h : number cs ≠ []) :
      Chosen cs (some (.token .number (number cs)))
  | openParen (hcomment : Token.comment cs = []) (hword : Token.word cs = [])
      (hnumber : Token.number cs = []) (h : cs.head? = some '(') :
      Chosen cs (some (.token .openParen ['(']))
  | closeParen (hcomment : Token.comment cs = []) (hword : Token.word cs = [])
      (hnumber : Token.number cs = []) (hopen : cs.head? ≠ some '(') (h : cs.head? = some ')') :
      Chosen cs (some (.token .closeParen [')']))
  | operator (hcomment : Token.comment cs = []) (hword : Token.word cs = [])
      (hnumber : Token.number cs = []) (hopen : cs.head? ≠ some '(') (hclose : cs.head? ≠ some ')')
      (h : operator cs ≠ []) : Chosen cs (some (.token .operator (operator cs)))
  | blank (hcomment : Token.comment cs = []) (hword : Token.word cs = [])
      (hnumber : Token.number cs = []) (hopen : cs.head? ≠ some '(') (hclose : cs.head? ≠ some ')')
      (hoperator : Token.operator cs = []) (h : blank cs ≠ []) : Chosen cs (some (.gap (blank cs)))
  | none (hcomment : Token.comment cs = []) (hword : Token.word cs = [])
      (hnumber : Token.number cs = []) (hopen : cs.head? ≠ some '(') (hclose : cs.head? ≠ some ')')
      (hoperator : Token.operator cs = []) (hblank : Token.blank cs = []) : Chosen cs none

theorem chosen_lexeme? (cs : List Char) : Chosen cs (lexeme? cs) := by
  unfold lexeme?
  split
  · rename_i h
    exact .comment h
  · rename_i hcomment
    rw [not_not] at hcomment
    split
    · rename_i h
      exact .word hcomment h
    · rename_i hword
      rw [not_not] at hword
      split
      · rename_i h
        exact .number hcomment hword h
      · rename_i hnumber
        rw [not_not] at hnumber
        split
        · rename_i h
          exact .openParen hcomment hword hnumber h
        · rename_i hopen
          split
          · rename_i h
            exact .closeParen hcomment hword hnumber hopen h
          · rename_i hclose
            split
            · rename_i h
              exact .operator hcomment hword hnumber hopen hclose h
            · rename_i hoperator
              rw [not_not] at hoperator
              split
              · rename_i h
                exact .blank hcomment hword hnumber hopen hclose hoperator h
              · rename_i hblank
                rw [not_not] at hblank
                exact .none hcomment hword hnumber hopen hclose hoperator hblank

theorem chosen_of_lexeme? {found : Option Lexeme} (h : lexeme? cs = found) : Chosen cs found := by
  rw [← h]
  exact chosen_lexeme? cs

section Heads

-- The text starts with a character of a kind.
def Starts (p : Char → Prop) (text : List Char) : Prop :=
  ∃ c rest, text = c :: rest ∧ p c

theorem Starts.of_begins {p : Char → Prop} (h : Starts p text) (hcs : text <+: cs) :
    Starts p cs := by
  obtain ⟨c, rest, rfl, hc⟩ := h
  obtain ⟨tail, rfl⟩ := hcs
  exact ⟨c, rest ++ tail, rfl, hc⟩

theorem Starts.and {p q : Char → Prop} (hp : Starts p text) (hq : Starts q text) :
    Starts (fun c => p c ∧ q c) text := by
  obtain ⟨c, rest, rfl, hc⟩ := hp
  obtain ⟨d, tail, heq, hd⟩ := hq
  obtain ⟨rfl, rfl⟩ := List.cons.inj heq
  exact ⟨c, rest, rfl, hc, hd⟩

theorem starts_of_head? (h : cs.head? = some c) : Starts (· = c) cs := by
  obtain ⟨rest, rfl⟩ := List.head?_eq_some_iff.mp h
  exact ⟨c, rest, rfl, rfl⟩

theorem IsWord.starts (h : IsWord text) : Starts (fun c => c.isAlpha) text := by
  obtain ⟨c, rest, rfl⟩ := List.exists_cons_of_ne_nil h.1
  exact ⟨c, rest, rfl, h.2 c List.mem_cons_self⟩

theorem IsNumber.starts (h : IsNumber text) : Starts (fun c => c = '-' ∨ c.isDigit) text := by
  obtain ⟨sign, rest, rfl, rfl | rfl, hrest⟩ := h
  · obtain ⟨c, tail, rfl, hc⟩ := hrest.exists_cons
    exact ⟨c, tail, rfl, .inr hc⟩
  · exact ⟨'-', rest, rfl, .inl rfl⟩

theorem IsParen.starts (h : IsParen text) : Starts (fun c => c = '(' ∨ c = ')') text := by
  rcases h with rfl | rfl
  · exact ⟨'(', [], rfl, .inl rfl⟩
  · exact ⟨')', [], rfl, .inr rfl⟩

theorem IsOperator.starts (h : IsOperator text) :
    Starts (fun c => c.isAlpha = false ∧ c.isDigit = false ∧ c ≠ '(' ∧ c ≠ ')' ∧
      (c = '-' → text = ['-'])) text := by
  have hall : ∀ op ∈ operators, op.head?.any fun c =>
      decide (c.isAlpha = false ∧ c.isDigit = false ∧ c ≠ '(' ∧ c ≠ ')' ∧
        (c = '-' → op = ['-'])) := by
    decide
  obtain ⟨c, hhead, hc⟩ := (Option.any_eq_true _ _).mp (hall text h)
  obtain ⟨rest, rfl⟩ := List.head?_eq_some_iff.mp hhead
  exact ⟨c, rest, rfl, of_decide_eq_true hc⟩

theorem toNat_of_isAlpha (h : c.isAlpha) :
    (65 ≤ c.toNat ∧ c.toNat ≤ 90) ∨ (97 ≤ c.toNat ∧ c.toNat ≤ 122) := by
  rcases Bool.or_eq_true_iff.mp h with hupper | hlower
  · exact .inl (of_decide_eq_true hupper)
  · exact .inr ((Bool.and_eq_true_iff.mp hlower).imp of_decide_eq_true of_decide_eq_true)

theorem toNat_of_isDigit (h : c.isDigit) : 48 ≤ c.toNat ∧ c.toNat ≤ 57 :=
  (Bool.and_eq_true_iff.mp h).imp of_decide_eq_true of_decide_eq_true

theorem isDigit_of_isAlpha (h : c.isAlpha) : c.isDigit = false := by
  have hletter := toNat_of_isAlpha h
  by_contra hdigit
  rw [Bool.not_eq_false] at hdigit
  obtain ⟨hlow, hhigh⟩ := toNat_of_isDigit hdigit
  omega

end Heads

-- A text of any class.
def IsLexeme (text : List Char) : Prop :=
  ∃ cls : LexicalClass, cls.Holds text

-- A scanner that finds nothing leaves no text of its class.
theorem length_le_of_eq_nil {scanner : List Char → List Char} {good : List Char → Prop}
    (h : ∀ cs, Longest good cs (scanner cs)) (hnil : scanner cs = []) (n : Nat) :
    ∀ other, good other → other <+: cs → other.length ≤ n := by
  intro other hother hcs
  have hlongest := h cs
  rw [hnil] at hlongest
  rw [hlongest.eq_nil hother hcs]
  exact Nat.zero_le n

theorem isParen_length (h : IsParen text) : text.length = 1 := by
  rcases h with rfl | rfl
  · rfl
  · rfl

-- The bounds of all classes together.
theorem longest_lexeme (htext : IsLexeme text) (hbegins : text <+: cs)
    (hcomment : ∀ other, IsComment other → other <+: cs → other.length ≤ text.length)
    (hword : ∀ other, IsWord other → other <+: cs → other.length ≤ text.length)
    (hnumber : ∀ other, IsNumber other → other <+: cs → other.length ≤ text.length)
    (hparen : ∀ other, IsParen other → other <+: cs → other.length ≤ text.length)
    (hoperator : ∀ other, IsOperator other → other <+: cs → other.length ≤ text.length) :
    Longest IsLexeme cs text := by
  refine ⟨hbegins, fun _ => htext, ?_⟩
  rintro other ⟨cls, hother⟩ hcs
  cases cls with
  | comment => exact hcomment other hother hcs
  | word => exact hword other hother hcs
  | number => exact hnumber other hother hcs
  | paren => exact hparen other hother hcs
  | operator => exact hoperator other hother hcs

-- A word shares its first letter with no other class.
theorem longest_lexeme_word (hcomment : comment cs = []) (h : word cs ≠ []) :
    Longest IsLexeme cs (word cs) := by
  have hword := longest_word cs
  have hstarts := (hword.fits h).starts.of_begins hword.begins
  refine longest_lexeme ⟨.word, hword.fits h⟩ hword.begins
    (length_le_of_eq_nil longest_comment hcomment _) hword.longest ?_ ?_ ?_
  · intro other hother hcs
    obtain ⟨c, rest, -, halpha, rfl | hdigit⟩ := hstarts.and (hother.starts.of_begins hcs)
    · cases halpha
    · rw [isDigit_of_isAlpha halpha] at hdigit
      cases hdigit
  · intro other hother hcs
    obtain ⟨c, rest, -, halpha, rfl | rfl⟩ := hstarts.and (hother.starts.of_begins hcs)
    · cases halpha
    · cases halpha
  · intro other hother hcs
    obtain ⟨c, rest, -, halpha, hother, -⟩ := hstarts.and (hother.starts.of_begins hcs)
    rw [halpha] at hother
    cases hother

-- The operator that a number may start with is its sign.
theorem longest_lexeme_number (hcomment : comment cs = []) (hword : word cs = [])
    (h : number cs ≠ []) : Longest IsLexeme cs (number cs) := by
  have hnumber := longest_number cs
  have hstarts := (hnumber.fits h).starts.of_begins hnumber.begins
  refine longest_lexeme ⟨.number, hnumber.fits h⟩ hnumber.begins
    (length_le_of_eq_nil longest_comment hcomment _) (length_le_of_eq_nil longest_word hword _)
    hnumber.longest ?_ ?_
  · intro other hother hcs
    rw [isParen_length hother]
    exact List.length_pos_iff.mpr h
  · intro other hother hcs
    obtain ⟨c, rest, -, hnumber, -, hdigit, -, -, hminus⟩ :=
      hstarts.and (hother.starts.of_begins hcs)
    rcases hnumber with rfl | hc
    · rw [hminus rfl]
      exact List.length_pos_iff.mpr h
    · rw [hc] at hdigit
      cases hdigit

theorem longest_lexeme_paren (hcomment : comment cs = []) (hword : word cs = [])
    (hnumber : number cs = []) (h : cs.head? = some c) (hc : IsParen [c]) :
    Longest IsLexeme cs [c] := by
  have hstarts := starts_of_head? h
  obtain ⟨rest, rfl⟩ := List.head?_eq_some_iff.mp h
  refine longest_lexeme ⟨.paren, hc⟩ (List.prefix_append [c] rest)
    (length_le_of_eq_nil longest_comment hcomment _) (length_le_of_eq_nil longest_word hword _)
    (length_le_of_eq_nil longest_number hnumber _) ?_ ?_
  · intro other hother hcs
    rw [isParen_length hother, isParen_length hc]
  · intro other hother hcs
    obtain ⟨d, tail, -, rfl, -, -, hopen, hclose, -⟩ := hstarts.and (hother.starts.of_begins hcs)
    rcases hc with heq | heq
    · exact absurd (List.cons.inj heq).1 hopen
    · exact absurd (List.cons.inj heq).1 hclose

theorem head?_of_isParen (h : IsParen other) (hcs : other <+: cs) :
    cs.head? = some '(' ∨ cs.head? = some ')' := by
  obtain ⟨c, rest, rfl, rfl | rfl⟩ := h.starts.of_begins hcs
  · exact .inl rfl
  · exact .inr rfl

theorem longest_lexeme_operator (hcomment : comment cs = []) (hword : word cs = [])
    (hnumber : number cs = []) (hopen : cs.head? ≠ some '(') (hclose : cs.head? ≠ some ')')
    (h : operator cs ≠ []) : Longest IsLexeme cs (operator cs) := by
  have hoperator := longest_operator cs
  refine longest_lexeme ⟨.operator, hoperator.fits h⟩ hoperator.begins
    (length_le_of_eq_nil longest_comment hcomment _) (length_le_of_eq_nil longest_word hword _)
    (length_le_of_eq_nil longest_number hnumber _) ?_ hoperator.longest
  intro other hother hcs
  rcases head?_of_isParen hother hcs with heq | heq
  · exact absurd heq hopen
  · exact absurd heq hclose

-- The texts of the tokens of a kind.
def KindHolds : TokenKind → List Char → Prop
  | .keyword, text => IsWord text ∧ String.ofList text ∈ keywords
  | .identifier, text => IsWord text ∧ String.ofList text ∉ keywords
  | .number, text => IsNumber text
  | .operator, text => IsOperator text
  | .openParen, text => text = ['(']
  | .closeParen, text => text = [')']

theorem token_of_lexeme? {kind : TokenKind} (hitem : lexeme? cs = some (.token kind text)) :
    Longest IsLexeme cs text ∧ KindHolds kind text := by
  cases chosen_of_lexeme? hitem with
  | word hcomment h =>
      refine ⟨longest_lexeme_word hcomment h, ?_⟩
      have hword := (longest_word cs).fits h
      unfold wordKind
      split
      · rename_i hkeyword
        exact ⟨hword, hkeyword⟩
      · rename_i hkeyword
        exact ⟨hword, hkeyword⟩
  | number hcomment hword h =>
      exact ⟨longest_lexeme_number hcomment hword h, (longest_number cs).fits h⟩
  | openParen hcomment hword hnumber h =>
      exact ⟨longest_lexeme_paren hcomment hword hnumber h (.inl rfl), rfl⟩
  | closeParen hcomment hword hnumber hopen h =>
      exact ⟨longest_lexeme_paren hcomment hword hnumber h (.inr rfl), rfl⟩
  | operator hcomment hword hnumber hopen hclose h =>
      exact ⟨longest_lexeme_operator hcomment hword hnumber hopen hclose h,
        (longest_operator cs).fits h⟩

theorem not_keyword_of_starts (h : Starts (fun c => c.isAlpha = false) text) :
    String.ofList text ∉ keywords := by
  intro hmem
  have hall : ∀ word ∈ keywords, word.toList.all Char.isAlpha := by decide
  have halpha := hall _ hmem
  rw [String.toList_ofList] at halpha
  obtain ⟨c, rest, rfl, hc⟩ := h
  have htrue := List.all_eq_true.mp halpha c List.mem_cons_self
  rw [hc] at htrue
  cases htrue

theorem keyword_iff {kind : TokenKind} (h : KindHolds kind text) :
    kind = .keyword ↔ String.ofList text ∈ keywords := by
  have hother : kind ≠ .keyword → Starts (fun c => c.isAlpha = false) text →
      (kind = .keyword ↔ String.ofList text ∈ keywords) := by
    intro hkind hstarts
    exact iff_of_false hkind (not_keyword_of_starts hstarts)
  cases kind with
  | keyword => exact iff_of_true rfl h.2
  | identifier => exact iff_of_false nofun h.2
  | number =>
      refine hother nofun ?_
      obtain ⟨c, rest, heq, hc⟩ := IsNumber.starts h
      refine ⟨c, rest, heq, ?_⟩
      rcases hc with rfl | hdigit
      · rfl
      · by_contra halpha
        rw [isDigit_of_isAlpha (Bool.not_eq_false _ ▸ halpha)] at hdigit
        cases hdigit
  | operator =>
      refine hother nofun ?_
      obtain ⟨c, rest, heq, hc, -⟩ := IsOperator.starts h
      exact ⟨c, rest, heq, hc⟩
  | openParen =>
      cases h
      exact hother nofun ⟨'(', [], rfl, rfl⟩
  | closeParen =>
      cases h
      exact hother nofun ⟨')', [], rfl, rfl⟩

theorem blank_eq_of_ne_nil (h : blank cs ≠ []) :
    ∃ c rest, cs = c :: rest ∧ isBlank c ∧ blank cs = [c] := by
  cases cs with
  | nil => exact absurd rfl h
  | cons c rest =>
      by_cases hblank : isBlank c
      · exact ⟨c, rest, rfl, hblank, if_pos hblank⟩
      · exact absurd (if_neg hblank) h

-- A gap is a blank character, or a comment up to the end of its line.
theorem gap_of_lexeme? (hitem : lexeme? cs = some (.gap text)) :
    (∃ c, text = [c] ∧ isBlank c) ∨ Longest IsComment cs text := by
  cases chosen_of_lexeme? hitem with
  | comment h => exact .inr (longest_comment cs)
  | blank hcomment hword hnumber hopen hclose hoperator h =>
      obtain ⟨c, rest, -, hblank, htext⟩ := blank_eq_of_ne_nil h
      exact .inl ⟨c, htext, hblank⟩

theorem text_of_lexeme? {item : Lexeme} (hitem : lexeme? cs = some item) :
    item.text ≠ [] ∧ item.text <+: cs := by
  cases chosen_of_lexeme? hitem with
  | comment h => exact ⟨h, (longest_comment cs).begins⟩
  | word hcomment h => exact ⟨h, (longest_word cs).begins⟩
  | number hcomment hword h => exact ⟨h, (longest_number cs).begins⟩
  | openParen hcomment hword hnumber h =>
      obtain ⟨rest, rfl⟩ := List.head?_eq_some_iff.mp h
      exact ⟨List.cons_ne_nil _ _, List.prefix_append ['('] rest⟩
  | closeParen hcomment hword hnumber hopen h =>
      obtain ⟨rest, rfl⟩ := List.head?_eq_some_iff.mp h
      exact ⟨List.cons_ne_nil _ _, List.prefix_append [')'] rest⟩
  | operator hcomment hword hnumber hopen hclose h => exact ⟨h, (longest_operator cs).begins⟩
  | blank hcomment hword hnumber hopen hclose hoperator h =>
      obtain ⟨c, rest, rfl, -, htext⟩ := blank_eq_of_ne_nil h
      refine ⟨h, ?_⟩
      rw [Lexeme.text, htext]
      exact List.prefix_append [c] rest

-- If the text ends earlier, but behind the lexeme, the same lexeme is chosen.
theorem lexeme?_of_shorter {item : Lexeme} {shorter : List Char} (hitem : lexeme? cs = some item)
    (hcs : shorter <+: cs) (htext : item.text <+: shorter) : lexeme? shorter = some item := by
  have hcomment := scanner_of_shorter longest_comment hcs
  have hword := scanner_of_shorter longest_word hcs
  have hnumber := scanner_of_shorter longest_number hcs
  have hoperator := scanner_of_shorter longest_operator hcs
  have hnil : ∀ {found : List Char}, found = [] → found <+: shorter := by
    rintro _ rfl
    exact List.nil_prefix
  have hhead : shorter.head? = cs.head? := by
    have hne := List.IsPrefix.ne_nil htext (text_of_lexeme? hitem).1
    obtain ⟨c, tail, rfl⟩ := List.exists_cons_of_ne_nil hne
    obtain ⟨rest, rfl⟩ := hcs
    rfl
  have hblank : blank shorter = blank cs := by
    cases shorter <;> cases cs <;> simp_all [blank]
  cases chosen_of_lexeme? hitem with
  | comment h => simp [lexeme?, hcomment htext, h]
  | word hc h => simp [lexeme?, hcomment (hnil hc), hc, hword htext, h]
  | number hc hw h => simp [lexeme?, hcomment (hnil hc), hc, hword (hnil hw), hw, hnumber htext, h]
  | openParen hc hw hn h =>
      simp [lexeme?, hcomment (hnil hc), hc, hword (hnil hw), hw, hnumber (hnil hn), hn, hhead, h]
  | closeParen hc hw hn hopen h =>
      simp [lexeme?, hcomment (hnil hc), hc, hword (hnil hw), hw, hnumber (hnil hn), hn, hhead, h]
  | operator hc hw hn hopen hclose h =>
      simp [lexeme?, hcomment (hnil hc), hc, hword (hnil hw), hw, hnumber (hnil hn), hn, hhead,
        hopen, hclose, hoperator htext, h]
  | blank hc hw hn hopen hclose ho h =>
      simp [lexeme?, hcomment (hnil hc), hc, hword (hnil hw), hw, hnumber (hnil hn), hn, hhead,
        hopen, hclose, hoperator (hnil ho), ho, hblank, h]

theorem LexicalClass.Holds.ne_nil {cls : LexicalClass} (h : cls.Holds text) : text ≠ [] := by
  have hstarts : ∀ {p : Char → Prop}, Starts p text → text ≠ [] := by
    rintro p ⟨c, rest, rfl, -⟩
    exact List.cons_ne_nil _ _
  cases cls with
  | comment =>
      obtain ⟨line, rfl, -⟩ := h
      exact List.cons_ne_nil _ _
  | word => exact h.1
  | number => exact hstarts (IsNumber.starts h)
  | paren => exact hstarts (IsParen.starts h)
  | operator => exact hstarts (IsOperator.starts h)

-- Where no lexeme is chosen, there is a character that starts none of any class.
theorem stuck_of_lexeme? (hitem : lexeme? (c :: rest) = none) :
    isBlank c = false ∧ ∀ (cls : LexicalClass) (text : List Char), cls.Holds text →
      ¬text <+: c :: rest := by
  cases chosen_of_lexeme? hitem with
  | none hcomment hword hnumber hopen hclose hoperator hblank =>
      refine ⟨?_, ?_⟩
      · by_contra hc
        rw [Bool.not_eq_false] at hc
        rw [blank, if_pos hc] at hblank
        cases hblank
      · intro cls text htext hcs
        apply htext.ne_nil
        apply List.eq_nil_of_length_eq_zero
        apply Nat.le_zero.mp
        cases cls with
        | comment => exact length_le_of_eq_nil longest_comment hcomment 0 text htext hcs
        | word => exact length_le_of_eq_nil longest_word hword 0 text htext hcs
        | number => exact length_le_of_eq_nil longest_number hnumber 0 text htext hcs
        | paren =>
            rcases head?_of_isParen htext hcs with heq | heq
            · exact absurd heq hopen
            · exact absurd heq hclose
        | operator => exact length_le_of_eq_nil longest_operator hoperator 0 text htext hcs

end EchoLang.Token
