import EchoLang.Proofs.Token.Tiling

namespace EchoLang.Token

variable {text rest other : List Char} {c : Char}

-- A token without its place.
abbrev Spelling := TokenKind × String

def spelling (t : Token) : Spelling := (t.kind, t.value)

-- Tokens of the kind can have this text.
def Spelling.Valid (w : Spelling) : Prop :=
  KindHolds w.1 w.2.toList

-- Blank characters and comments in any order. Each comment ends with its line.
inductive Filler : List Char → Prop where
  | nil : Filler []
  | blank {c : Char} {rest : List Char} (hc : isBlank c) (later : Filler rest) :
      Filler (c :: rest)
  | comment {line rest : List Char} (hline : '\n' ∉ line) (later : Filler rest) :
      Filler ('/' :: '/' :: line ++ '\n' :: rest)

-- What keeps two tokens apart. It starts with a blank character, because a comment that
-- stands directly behind a division sign would take that for its own.
def IsSeparator (text : List Char) : Prop :=
  ∃ c rest, text = c :: rest ∧ isBlank c ∧ Filler rest

-- The texts of the tokens with a separator behind each of them. Only behind the last one
-- it may be missing.
inductive Prints : List Spelling → List Char → Prop where
  | nil : Prints [] []
  | cons {w : Spelling} {ws : List Spelling} {gap rest : List Char}
      (hgap : IsSeparator gap ∨ gap = []) (hlast : gap = [] → ws = []) (later : Prints ws rest) :
      Prints (w :: ws) (w.2.toList ++ (gap ++ rest))

-- There may also be a separator in front of all tokens.
def IsPrinting (ws : List Spelling) (text : List Char) : Prop :=
  ∃ gap rest, text = gap ++ rest ∧ (IsSeparator gap ∨ gap = []) ∧ Prints ws rest

section Blanks

theorem toNat_of_isBlank (h : isBlank c) : c.toNat ≤ 32 ∨ 133 ≤ c.toNat := by
  simp [isBlank, blankRanges] at h
  omega

theorem isBlank_of_isAlpha (h : c.isAlpha) : isBlank c = false := by
  by_contra hblank
  have hlow := toNat_of_isBlank (Bool.not_eq_false _ ▸ hblank)
  have hletter := toNat_of_isAlpha h
  omega

theorem isBlank_of_isDigit (h : c.isDigit) : isBlank c = false := by
  by_contra hblank
  have hlow := toNat_of_isBlank (Bool.not_eq_false _ ▸ hblank)
  have hdigit := toNat_of_isDigit h
  omega

-- There is no blank character in the text.
def Solid (text : List Char) : Prop :=
  ∀ c ∈ text, isBlank c = false

theorem solid_append : Solid (text ++ other) ↔ Solid text ∧ Solid other :=
  List.forall_mem_append

theorem solid_cons : Solid (c :: text) ↔ isBlank c = false ∧ Solid text :=
  List.forall_mem_cons

theorem IsWord.solid (h : IsWord text) : Solid text :=
  fun c hc => isBlank_of_isAlpha (h.2 c hc)

theorem IsDigits.solid (h : IsDigits text) : Solid text :=
  fun c hc => isBlank_of_isDigit (h.2 c hc)

theorem IsSign.solid (h : IsSign text) : Solid text := by
  rcases h with rfl | rfl
  · exact nofun
  · exact solid_cons.mpr ⟨rfl, nofun⟩

theorem IsNumber.solid (h : IsNumber text) : Solid text := by
  obtain ⟨sign, _, rfl, hsign, whole, part, power, rfl, hwhole, hpart, hpower⟩ := h
  have hfraction : Solid part := by
    rcases hpart with rfl | ⟨ds, rfl, hds⟩
    · exact nofun
    · exact solid_cons.mpr ⟨rfl, hds.solid⟩
  have hexponent : Solid power := by
    rcases hpower with rfl | ⟨own, ds, rfl, hown, hds⟩
    · exact nofun
    · exact solid_cons.mpr ⟨rfl, solid_append.mpr ⟨hown.solid, hds.solid⟩⟩
  simp only [solid_append]
  exact ⟨hsign.solid, hwhole.solid, hfraction, hexponent⟩

theorem IsOperator.solid (h : IsOperator text) : Solid text := by
  have hall : operators.all (·.all fun c => !isBlank c) = true := by decide
  simpa [Solid] using List.all_eq_true.mp hall text h

theorem KindHolds.solid {kind : TokenKind} (h : KindHolds kind text) : Solid text := by
  cases kind with
  | keyword => exact IsWord.solid h.1
  | identifier => exact IsWord.solid h.1
  | number => exact IsNumber.solid h
  | operator => exact IsOperator.solid h
  | openParen =>
      rw [show text = ['('] from h]
      exact solid_cons.mpr ⟨rfl, nofun⟩
  | closeParen =>
      rw [show text = [')'] from h]
      exact solid_cons.mpr ⟨rfl, nofun⟩

end Blanks

section Boundary

-- The text is empty or starts with a blank character. A token that ends before it cannot
-- go on.
def Bounds (rest : List Char) : Prop :=
  ∀ c ∈ rest.head?, isBlank c

theorem IsSeparator.bounds (h : IsSeparator text) (rest : List Char) : Bounds (text ++ rest) := by
  obtain ⟨c, tail, rfl, hc, -⟩ := h
  intro d hd
  cases hd
  exact hc

theorem begins_of_solid (h : Solid other) (hrest : Bounds rest) (hcs : other <+: text ++ rest) :
    other <+: text := by
  obtain ⟨tail, htail⟩ := hcs
  rcases List.append_eq_append_iff.mp htail with ⟨more, rfl, -⟩ | ⟨more, rfl, hmore⟩
  · exact List.prefix_append _ _
  · cases more with
    | nil => simp
    | cons c more =>
        have hblank := hrest c (by rw [hmore]; rfl)
        rw [h c (by simp)] at hblank
        cases hblank

-- A scanner stops at the boundary behind a text of its class.
theorem scanner_append {scanner : List Char → List Char} {good : List Char → Prop}
    (h : ∀ cs, Longest good cs (scanner cs)) (hsolid : ∀ found, good found → Solid found)
    (hne : text ≠ []) (htext : good text) (hrest : Bounds rest) :
    scanner (text ++ rest) = text := by
  have hlongest := h (text ++ rest)
  have hle := hlongest.longest text htext (List.prefix_append _ _)
  have hfound : scanner (text ++ rest) ≠ [] := by
    intro hnil
    rw [hnil] at hle
    exact hne (List.eq_nil_of_length_eq_zero (Nat.le_zero.mp hle))
  have hbegins := begins_of_solid (hsolid _ (hlongest.fits hfound)) hrest hlongest.begins
  exact hbegins.eq_of_length (Nat.le_antisymm hbegins.length_le hle)

-- A scanner finds nothing where texts of its class do not start.
theorem scanner_eq_nil {scanner : List Char → List Char} {good : List Char → Prop}
    {p q : Char → Prop} (h : ∀ cs, Longest good cs (scanner cs))
    (hgood : ∀ found, good found → Starts p found) (hstarts : Starts q text)
    (hdisjoint : ∀ c, p c → q c → False) (rest : List Char) : scanner (text ++ rest) = [] := by
  by_contra hne
  have hlongest := h (text ++ rest)
  have hfound := (hgood _ (hlongest.fits hne)).of_begins hlongest.begins
  obtain ⟨c, tail, -, hp, hq⟩ := hfound.and (hstarts.of_begins (List.prefix_append text rest))
  exact hdisjoint c hp hq

theorem word_append_eq_nil (h : Starts (fun c => c.isAlpha = false) text) (rest : List Char) :
    word (text ++ rest) = [] := by
  refine scanner_eq_nil longest_word (fun _ => IsWord.starts) h ?_ rest
  intro c halpha hnot
  rw [halpha] at hnot
  cases hnot

theorem number_append_eq_nil (h : Starts (fun c => c ≠ '-' ∧ c.isDigit = false) text)
    (rest : List Char) : number (text ++ rest) = [] := by
  refine scanner_eq_nil longest_number (fun _ => IsNumber.starts) h ?_ rest
  rintro c (hminus | hdigit) ⟨hnot, hnone⟩
  · exact hnot hminus
  · rw [hdigit] at hnone
    cases hnone

theorem comment_append_eq_nil (h : Starts (· ≠ '/') text) (rest : List Char) :
    comment (text ++ rest) = [] := by
  refine scanner_eq_nil (p := (· = '/')) longest_comment ?_ h (fun c heq hne => hne heq) rest
  rintro _ ⟨line, rfl, -⟩
  exact ⟨'/', _, rfl, rfl⟩

-- At a boundary a minus sign is no sign of a number, and a slash opens no comment.
theorem operator_before_boundary (h : IsOperator text) (hrest : Bounds rest) :
    comment (text ++ rest) = [] ∧ number (text ++ rest) = [] := by
  have hdigits : digits rest = [] := by
    cases rest with
    | nil => rfl
    | cons c rest =>
        have hblank := hrest c rfl
        rw [digits, List.takeWhile_cons_of_neg]
        intro hdigit
        rw [isBlank_of_isDigit hdigit] at hblank
        cases hblank
  have hslash : comment ('/' :: rest) = [] := by
    cases rest with
    | nil => rfl
    | cons c rest =>
        unfold comment
        split
        · rename_i heq
          cases heq
          cases hrest '/' rfl
        · rfl
  have hminus : number ('-' :: rest) = [] := by
    rw [number, if_pos (magnitude_of_digits_eq_nil hdigits)]
  by_cases hsign : text = ['-'] ∨ text = ['/']
  · rcases hsign with rfl | rfl
    · exact ⟨comment_append_eq_nil ⟨'-', [], rfl, by decide⟩ rest, hminus⟩
    · exact ⟨hslash, number_append_eq_nil ⟨'/', [], rfl, by decide⟩ rest⟩
  · have hall : ∀ op ∈ operators, ¬(op = ['-'] ∨ op = ['/']) →
        op.head?.any fun c => decide (c ≠ '/' ∧ c ≠ '-' ∧ c.isDigit = false) := by
      decide
    obtain ⟨c, hhead, hc⟩ := (Option.any_eq_true _ _).mp (hall text h hsign)
    obtain ⟨hcomment, hnumber⟩ := of_decide_eq_true hc
    obtain ⟨tail, rfl⟩ := List.head?_eq_some_iff.mp hhead
    exact ⟨comment_append_eq_nil ⟨c, tail, rfl, hcomment⟩ rest,
      number_append_eq_nil ⟨c, tail, rfl, hnumber⟩ rest⟩

theorem lexeme?_word (h : IsWord text) (hrest : Bounds rest) :
    lexeme? (text ++ rest) = some (.token (wordKind text) text) := by
  have hcomment : comment (text ++ rest) = [] := by
    obtain ⟨c, tail, rfl, halpha⟩ := h.starts
    refine comment_append_eq_nil ⟨c, tail, rfl, ?_⟩ rest
    rintro rfl
    cases halpha
  have hword := scanner_append longest_word (fun _ => IsWord.solid) h.1 h hrest
  simp [lexeme?, hcomment, hword, h.1]

theorem lexeme?_number (h : IsNumber text) (hrest : Bounds rest) :
    lexeme? (text ++ rest) = some (.token .number text) := by
  obtain ⟨c, tail, htext, hc⟩ := h.starts
  have hne : text ≠ [] := by simp [htext]
  have hcomment : comment (text ++ rest) = [] := by
    refine comment_append_eq_nil ⟨c, tail, htext, ?_⟩ rest
    rintro rfl
    rcases hc with hc | hc <;> cases hc
  have hword : word (text ++ rest) = [] := by
    refine word_append_eq_nil ⟨c, tail, htext, ?_⟩ rest
    by_contra halpha
    rw [Bool.not_eq_false] at halpha
    rcases hc with rfl | hdigit
    · cases halpha
    · rw [isDigit_of_isAlpha halpha] at hdigit
      cases hdigit
  have hnumber := scanner_append longest_number (fun _ => IsNumber.solid) hne h hrest
  simp [lexeme?, hcomment, hword, hnumber, hne]

theorem lexeme?_operator (h : IsOperator text) (hrest : Bounds rest) :
    lexeme? (text ++ rest) = some (.token .operator text) := by
  obtain ⟨hcomment, hnumber⟩ := operator_before_boundary h hrest
  obtain ⟨c, tail, rfl, halpha, -, hopen, hclose, -⟩ := h.starts
  have hword : word (c :: tail ++ rest) = [] := word_append_eq_nil ⟨c, tail, rfl, halpha⟩ rest
  have hoperator := scanner_append longest_operator (fun _ => IsOperator.solid)
    (List.cons_ne_nil c tail) h hrest
  rw [List.cons_append] at hcomment hnumber hword hoperator ⊢
  simp [lexeme?, hcomment, hword, hnumber, hopen, hclose, hoperator]

theorem lexeme?_paren (h : IsParen [c]) (rest : List Char) :
    lexeme? (c :: rest) = some (.token (if c = '(' then .openParen else .closeParen) [c]) := by
  have hcomment : comment ([c] ++ rest) = [] := by
    refine comment_append_eq_nil ⟨c, [], rfl, ?_⟩ rest
    rcases h with h | h <;> cases h <;> decide
  have hword : word ([c] ++ rest) = [] := by
    refine word_append_eq_nil ⟨c, [], rfl, ?_⟩ rest
    rcases h with h | h <;> cases h <;> decide
  have hnumber : number ([c] ++ rest) = [] := by
    refine number_append_eq_nil ⟨c, [], rfl, ?_⟩ rest
    rcases h with h | h <;> cases h <;> decide
  rw [List.singleton_append] at hcomment hword hnumber
  rcases h with h | h <;> cases h <;> simp [lexeme?, hcomment, hword, hnumber]

-- Up to a boundary, every text is scanned as the token that it was printed for.
theorem lexeme?_append {kind : TokenKind} (h : KindHolds kind text) (hrest : Bounds rest) :
    lexeme? (text ++ rest) = some (.token kind text) := by
  cases kind with
  | keyword => rw [lexeme?_word h.1 hrest, wordKind, if_pos h.2]
  | identifier => rw [lexeme?_word h.1 hrest, wordKind, if_neg h.2]
  | number => exact lexeme?_number h hrest
  | operator => exact lexeme?_operator h hrest
  | openParen =>
      rw [show text = ['('] from h]
      exact lexeme?_paren (.inl rfl) rest
  | closeParen =>
      rw [show text = [')'] from h]
      exact lexeme?_paren (.inr rfl) rest

end Boundary

section Decidable

theorem isNumber_iff : IsNumber text ↔ text ≠ [] ∧ number text = text := by
  constructor
  · intro h
    have hne : text ≠ [] := by
      obtain ⟨c, tail, rfl, -⟩ := h.starts
      exact List.cons_ne_nil c tail
    have hend : Bounds [] := nofun
    have hnumber := scanner_append longest_number (fun _ => IsNumber.solid) hne h hend
    rw [List.append_nil] at hnumber
    exact ⟨hne, hnumber⟩
  · rintro ⟨hne, hnumber⟩
    rw [← hnumber] at hne ⊢
    exact (longest_number text).fits hne

instance : DecidablePred IsWord :=
  fun text => decidable_of_iff (text ≠ [] ∧ text.all (·.isAlpha) = true) (by simp [IsWord])

instance : DecidablePred IsNumber :=
  fun _ => decidable_of_iff _ isNumber_iff.symm

instance : DecidablePred IsOperator :=
  fun _ => inferInstanceAs (Decidable (_ ∈ operators))

instance : ∀ w : Spelling, Decidable w.Valid
  | (.keyword, _) => inferInstanceAs (Decidable (_ ∧ _))
  | (.identifier, _) => inferInstanceAs (Decidable (_ ∧ _))
  | (.number, value) => inferInstanceAs (Decidable (IsNumber value.toList))
  | (.operator, value) => inferInstanceAs (Decidable (IsOperator value.toList))
  | (.openParen, value) => inferInstanceAs (Decidable (value.toList = ['(']))
  | (.closeParen, value) => inferInstanceAs (Decidable (value.toList = [')']))

end Decidable

section Gaps

theorem lexeme?_blank (hc : isBlank c) (rest : List Char) :
    lexeme? (c :: rest) = some (.gap [c]) := by
  cases hitem : lexeme? (c :: rest) with
  | none =>
      rw [(stuck_of_lexeme? hitem).1] at hc
      cases hc
  | some item =>
      obtain ⟨hne, hbegins⟩ := text_of_lexeme? hitem
      obtain ⟨d, tail, htext⟩ := List.exists_cons_of_ne_nil hne
      rw [htext] at hbegins
      obtain ⟨rfl, -⟩ := List.cons_prefix_cons.mp hbegins
      cases item with
      | token kind text =>
          have hsolid := (token_of_lexeme? hitem).2.solid
          rw [show text = d :: tail from htext] at hsolid
          rw [(solid_cons.mp hsolid).1] at hc
          cases hc
      | gap text =>
          cases htext
          rcases gap_of_lexeme? hitem with ⟨e, heq, -⟩ | hlongest
          · rw [heq, (List.cons.inj heq).1]
          · obtain ⟨line, heq, -⟩ := hlongest.fits hne
            cases heq
            cases hc

theorem lexeme?_comment {line : List Char} (hline : '\n' ∉ line) (rest : List Char) :
    lexeme? ('/' :: '/' :: line ++ '\n' :: rest) = some (.gap ('/' :: '/' :: line)) := by
  have htake : (line ++ '\n' :: rest).takeWhile (· ≠ '\n') = line := by
    rw [List.takeWhile_append_of_pos, List.takeWhile_cons_of_neg, List.append_nil]
    · simp
    · intro c hc
      simpa using ne_of_mem_of_not_mem hc hline
  have hcomment : comment ('/' :: '/' :: line ++ '\n' :: rest) = '/' :: '/' :: line := by
    rw [List.cons_append, List.cons_append, comment, htake]
  rw [lexeme?, hcomment, if_pos (List.cons_ne_nil _ _)]

-- A gap only moves the place of what follows.
theorem scan_gap {loc : Location} (hitem : lexeme? (text ++ rest) = some (.gap text)) :
    scan loc (text ++ rest) = scan (loc.advance text) rest := by
  have hscan := @scan_lexeme rest loc (.gap text) hitem
  rw [Lexeme.text] at hscan
  rw [hscan]
  simp [Lexeme.addTo]

theorem scan_blank {loc : Location} (hc : isBlank c) (rest : List Char) :
    scan loc (c :: rest) = scan (loc.advance [c]) rest :=
  @scan_gap [c] rest loc (lexeme?_blank hc rest)

theorem Filler.scan_append {loc : Location} (h : Filler text) (rest : List Char) :
    scan loc (text ++ rest) = scan (loc.advance text) rest := by
  induction h generalizing loc with
  | nil => rfl
  | @blank c gap hc later ih =>
      rw [List.cons_append, scan_blank hc, ih]
      rfl
  | @comment line gap hline later ih =>
      have hsplit : '/' :: '/' :: line ++ '\n' :: gap ++ rest =
          '/' :: '/' :: line ++ '\n' :: (gap ++ rest) := by
        simp
      have hnewline : isBlank '\n' := by decide
      rw [hsplit, scan_gap (lexeme?_comment hline _), scan_blank hnewline, ih,
        Location.advance_append]
      rfl

theorem IsSeparator.filler (h : IsSeparator text) : Filler text := by
  obtain ⟨c, rest, rfl, hc, hrest⟩ := h
  exact .blank hc hrest

end Gaps

theorem bounds_of_prints {ws : List Spelling} {gap : List Char} (hgap : IsSeparator gap ∨ gap = [])
    (hlast : gap = [] → ws = []) (h : Prints ws rest) : Bounds (gap ++ rest) := by
  rcases hgap with hgap | rfl
  · exact hgap.bounds rest
  · cases hlast rfl
    cases h
    exact nofun

theorem filler_of_gap (h : IsSeparator text ∨ text = []) : Filler text := by
  rcases h with h | rfl
  · exact h.filler
  · exact .nil

-- By induction on the tokens, each scanned up to the separator behind it.
theorem scan_prints {ws : List Spelling} (h : Prints ws text) (hvalid : ∀ w ∈ ws, w.Valid)
    (loc : Location) : ∃ ts, scan loc text = .ok ts ∧ ts.map spelling = ws := by
  induction h generalizing loc with
  | nil => exact ⟨[], by rw [scan], rfl⟩
  | @cons w ws gap rest hgap hlast later ih =>
      have hitem := lexeme?_append (hvalid w List.mem_cons_self)
        (bounds_of_prints hgap hlast later)
      obtain ⟨ts, hts, hspelling⟩ := ih (fun v hv => hvalid v (List.mem_cons_of_mem w hv))
        ((loc.advance w.2.toList).advance gap)
      refine ⟨⟨w.1, w.2, loc⟩ :: ts, ?_, congrArg (w :: ·) hspelling⟩
      have hscan := @scan_lexeme (gap ++ rest) loc (.token w.1 w.2.toList) hitem
      rw [Lexeme.text] at hscan
      rw [hscan, (filler_of_gap hgap).scan_append, hts]
      simp [Lexeme.addTo, bind, Except.bind, pure, Except.pure]

theorem scan_printing {ws : List Spelling} (h : IsPrinting ws text) (hvalid : ∀ w ∈ ws, w.Valid)
    (loc : Location) : ∃ ts, scan loc text = .ok ts ∧ ts.map spelling = ws := by
  obtain ⟨gap, rest, rfl, hgap, hrest⟩ := h
  rw [(filler_of_gap hgap).scan_append]
  exact scan_prints hrest hvalid _

theorem valid_of_ofSource {source : String} {ts : List Token} (h : ofSource source = .ok ts) :
    ∀ w ∈ ts.map spelling, w.Valid := by
  intro w hw
  obtain ⟨t, ht, rfl⟩ := List.mem_map.mp hw
  have htiles : Tiles [] source.toList ts := tiles_of_scan h
  obtain ⟨before, rest, hstands⟩ := htiles.stands t ht
  exact hstands.kind

-- One space is a separator.
theorem prints_spaced (ws : List Spelling) : Prints ws (" ".intercalate (ws.map (·.2))).toList := by
  induction ws with
  | nil => exact .nil
  | cons w ws ih =>
      cases ws with
      | nil =>
          have hprints : Prints [w] (w.2.toList ++ ([] ++ [])) :=
            .cons (.inr rfl) (fun _ => rfl) .nil
          simpa using hprints
      | cons v ws =>
          have hspace : IsSeparator [' '] := ⟨' ', [], rfl, by decide, .nil⟩
          have hprints := Prints.cons (w := w) (.inl hspace) nofun ih
          simpa [String.intercalate_cons_cons] using hprints

-- Valid tokens are scanned from every text that prints them. The tokens of a source are
-- valid, so that they are scanned again when they are printed with single spaces.
theorem ofSource_printing :
    (∀ ws source, (∀ w ∈ ws, Spelling.Valid w) → IsPrinting ws source.toList →
      ∃ ts, ofSource source = .ok ts ∧ ts.map spelling = ws) ∧
    ∀ source ts, ofSource source = .ok ts →
      (∀ t ∈ ts, t.spelling.Valid) ∧
        ∃ us, ofSource (" ".intercalate (ts.map (·.value))) = .ok us ∧
          us.map spelling = ts.map spelling := by
  constructor
  · intro ws source hvalid hprinting
    exact scan_printing hprinting hvalid .start
  · intro source ts hts
    have hvalid := valid_of_ofSource hts
    refine ⟨fun t ht => hvalid _ (List.mem_map_of_mem ht), ?_⟩
    have hvalues : ts.map (·.value) = (ts.map spelling).map (·.2) := by
      rw [List.map_map]
      rfl
    rw [hvalues]
    exact scan_prints (prints_spaced _) hvalid .start

-- Neighbours that would be other tokens if they stood together.
def touchy : List Spelling :=
  [(.number, "1"), (.identifier, "e"), (.operator, "-"), (.number, "2.5e-3"), (.operator, "/"),
    (.operator, "<"), (.operator, "="), (.keyword, "end")]

theorem ofSource_printing_touchy :
    (∀ w ∈ touchy, w.Valid) ∧ IsPrinting touchy "1 e - 2.5e-3 / // half\n< =\tend ".toList ∧
      ∃ ts, ofSource "1 e - 2.5e-3 / // half\n< =\tend " = .ok ts ∧
        ts.map spelling = touchy := by
  have hspace : IsSeparator [' '] := ⟨' ', [], rfl, by decide, .nil⟩
  have htab : IsSeparator ['\t'] := ⟨'\t', [], rfl, by decide, .nil⟩
  have hcomment : IsSeparator " // half\n".toList :=
    ⟨' ', _, rfl, by decide, @Filler.comment " half".toList [] (by decide) .nil⟩
  have hvalid : ∀ w ∈ touchy, w.Valid := by decide
  have hprinting : IsPrinting touchy "1 e - 2.5e-3 / // half\n< =\tend ".toList := by
    refine ⟨[], _, rfl, .inr rfl, .cons (.inl hspace) nofun ?_⟩
    refine .cons (.inl hspace) nofun (.cons (.inl hspace) nofun (.cons (.inl hspace) nofun ?_))
    refine .cons (.inl hcomment) nofun (.cons (.inl hspace) nofun ?_)
    exact .cons (.inl htab) nofun (.cons (.inl hspace) nofun .nil)
  exact ⟨hvalid, hprinting, ofSource_printing.1 touchy _ hvalid hprinting⟩

end EchoLang.Token
