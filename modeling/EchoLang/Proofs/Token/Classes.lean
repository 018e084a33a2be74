import EchoLang.Decimal.Reader
import EchoLang.Token.Lexer
import Mathlib.Data.List.TakeDrop
import Mathlib.Data.List.TakeWhile

namespace EchoLang.Token

-- A comment has no line feed in it.
def IsComment (text : List Char) : Prop :=
  ∃ line, text = '/' :: '/' :: line ∧ '\n' ∉ line

def IsWord (text : List Char) : Prop :=
  text ≠ [] ∧ ∀ c ∈ text, c.isAlpha

def IsDigits (text : List Char) : Prop :=
  text ≠ [] ∧ ∀ c ∈ text, c.isDigit

def IsSign (text : List Char) : Prop :=
  text = [] ∨ text = ['-']

def IsFraction (text : List Char) : Prop :=
  text = [] ∨ ∃ ds, text = '.' :: ds ∧ IsDigits ds

def IsExponent (text : List Char) : Prop :=
  text = [] ∨ ∃ sign ds, text = 'e' :: (sign ++ ds) ∧ IsSign sign ∧ IsDigits ds

def IsMagnitude (text : List Char) : Prop :=
  ∃ whole part power, text = whole ++ (part ++ power) ∧ IsDigits whole ∧ IsFraction part ∧
    IsExponent power

def IsNumber (text : List Char) : Prop :=
  ∃ sign rest, text = sign ++ rest ∧ IsSign sign ∧ IsMagnitude rest

def IsParen (text : List Char) : Prop :=
  text = ['('] ∨ text = [')']

def IsOperator (text : List Char) : Prop :=
  text ∈ operators

inductive LexicalClass where
  | comment
  | word
  | number
  | paren
  | operator

def LexicalClass.Holds : LexicalClass → List Char → Prop
  | comment => IsComment
  | word => IsWord
  | number => IsNumber
  | paren => IsParen
  | operator => IsOperator

variable {good : List Char → Prop} {cs ds text other rest : List Char}

-- What was found at the beginning of a text is in the class or empty, and no beginning
-- of the text that is in the class is longer.
structure Longest (good : List Char → Prop) (cs found : List Char) : Prop where
  begins : found <+: cs
  fits : found ≠ [] → good found
  longest : ∀ other, good other → other <+: cs → other.length ≤ found.length

theorem Longest.eq_nil (h : Longest good cs []) (hother : good other) (hcs : other <+: cs) :
    other = [] :=
  List.eq_nil_of_length_eq_zero (Nat.le_zero.mp (h.longest other hother hcs))

-- A scanner looks no further than at what it finds and what could go on with it, so it
-- finds the same if the text ends earlier, behind what it found.
theorem scanner_of_shorter {scanner : List Char → List Char}
    (h : ∀ cs, Longest good cs (scanner cs)) {shorter : List Char} (hcs : shorter <+: cs)
    (hfound : scanner cs <+: shorter) : scanner shorter = scanner cs := by
  have hle : (scanner shorter).length ≤ (scanner cs).length := by
    by_cases hnil : scanner shorter = []
    · simp [hnil]
    · exact (h cs).longest _ ((h shorter).fits hnil) ((h shorter).begins.trans hcs)
  have hge : (scanner cs).length ≤ (scanner shorter).length := by
    by_cases hnil : scanner cs = []
    · simp [hnil]
    · exact (h shorter).longest _ ((h cs).fits hnil) hfound
  have hprefix := List.prefix_of_prefix_length_le (h shorter).begins hfound hle
  exact hprefix.eq_of_length (Nat.le_antisymm hle hge)

theorem length_le_takeWhile {p : Char → Bool} (h : ∀ c ∈ other, p c) (hcs : other <+: cs) :
    other.length ≤ (cs.takeWhile p).length := by
  obtain ⟨rest, rfl⟩ := hcs
  rw [List.takeWhile_append_of_pos h, List.length_append]
  omega

theorem longest_comment (cs : List Char) : Longest IsComment cs (comment cs) := by
  unfold comment
  split
  · rename_i rest
    refine ⟨?_, ?_, ?_⟩
    · exact List.prefix_cons_iff.mpr (.inr ⟨_, rfl,
        List.prefix_cons_iff.mpr (.inr ⟨_, rfl, List.takeWhile_prefix _⟩)⟩)
    · intro _
      refine ⟨_, rfl, ?_⟩
      intro hmem
      have hne := List.mem_takeWhile_imp hmem
      simp at hne
    · rintro _ ⟨line, rfl, hline⟩ hcs
      have hcs : line <+: rest := by simpa using hcs
      have hle : line.length ≤ (rest.takeWhile (· ≠ '\n')).length := by
        refine length_le_takeWhile ?_ hcs
        intro c hc
        have hne : c ≠ '\n' := ne_of_mem_of_not_mem hc hline
        simpa using hne
      simpa using hle
  · rename_i hnot
    refine ⟨List.nil_prefix, nofun, ?_⟩
    rintro _ ⟨line, rfl, -⟩ ⟨rest, rfl⟩
    exact absurd rfl (hnot (line ++ rest))

theorem longest_word (cs : List Char) : Longest IsWord cs (word cs) where
  begins := List.takeWhile_prefix _
  fits hne := ⟨hne, fun _ hc => List.mem_takeWhile_imp hc⟩
  longest _ hother hcs := length_le_takeWhile hother.2 hcs

theorem longest_digits (cs : List Char) : Longest IsDigits cs (digits cs) where
  begins := List.takeWhile_prefix _
  fits hne := ⟨hne, fun _ hc => List.mem_takeWhile_imp hc⟩
  longest _ hother hcs := length_le_takeWhile hother.2 hcs

theorem digits_append (h : IsDigits ds) (rest : List Char) :
    digits (ds ++ rest) = ds ++ digits rest :=
  List.takeWhile_append_of_pos h.2

theorem IsDigits.exists_cons (h : IsDigits ds) : ∃ c rest, ds = c :: rest ∧ c.isDigit := by
  obtain ⟨c, rest, rfl⟩ := List.exists_cons_of_ne_nil h.1
  exact ⟨c, rest, rfl, h.2 c List.mem_cons_self⟩

theorem fraction_append (h : IsDigits ds) (rest : List Char) :
    fraction ('.' :: (ds ++ rest)) = '.' :: (ds ++ digits rest) := by
  have hne : digits (ds ++ rest) ≠ [] := by
    rw [digits_append h]
    exact List.append_ne_nil_of_left_ne_nil h.1 _
  rw [fraction, if_neg hne, digits_append h]

theorem exponent_append {sign : List Char} (hsign : IsSign sign) (h : IsDigits ds)
    (rest : List Char) :
    exponent ('e' :: (sign ++ (ds ++ rest))) = 'e' :: (sign ++ (ds ++ digits rest)) := by
  have hne : digits (ds ++ rest) ≠ [] := by
    rw [digits_append h]
    exact List.append_ne_nil_of_left_ne_nil h.1 _
  rcases hsign with rfl | rfl
  · have hfirst : ∀ tail, ds ++ rest ≠ '-' :: tail := by
      obtain ⟨c, ds, rfl, hc⟩ := h.exists_cons
      intro tail heq
      rw [(List.cons.inj heq).1] at hc
      cases hc
    rw [List.nil_append, exponent, if_neg hne, digits_append h, List.nil_append]
    exact fun tail heq => hfirst tail heq
  · rw [List.singleton_append, exponent, if_neg hne, digits_append h, List.singleton_append]

theorem longest_fraction (cs : List Char) : Longest IsFraction cs (fraction cs) := by
  refine ⟨?_, ?_, ?_⟩
  · unfold fraction
    split
    · split
      · exact List.nil_prefix
      · exact List.prefix_cons_iff.mpr (.inr ⟨_, rfl, (longest_digits _).begins⟩)
    · exact List.nil_prefix
  · unfold fraction
    split
    · split
      · exact fun h => absurd rfl h
      · rename_i hne
        exact fun _ => .inr ⟨_, rfl, (longest_digits _).fits hne⟩
    · exact fun h => absurd rfl h
  · rintro _ (rfl | ⟨ds, rfl, hds⟩) ⟨rest, rfl⟩
    · exact Nat.zero_le _
    · rw [List.cons_append, fraction_append hds]
      simp

theorem longest_exponent (cs : List Char) : Longest IsExponent cs (exponent cs) := by
  refine ⟨?_, ?_, ?_⟩
  · unfold exponent
    split
    · split
      · exact List.nil_prefix
      · exact List.prefix_cons_iff.mpr (.inr ⟨_, rfl,
          List.prefix_cons_iff.mpr (.inr ⟨_, rfl, (longest_digits _).begins⟩)⟩)
    · split
      · exact List.nil_prefix
      · exact List.prefix_cons_iff.mpr (.inr ⟨_, rfl, (longest_digits _).begins⟩)
    · exact List.nil_prefix
  · unfold exponent
    split
    · split
      · exact fun h => absurd rfl h
      · rename_i hne
        exact fun _ => .inr ⟨['-'], _, rfl, .inr rfl, (longest_digits _).fits hne⟩
    · split
      · exact fun h => absurd rfl h
      · rename_i hne
        exact fun _ => .inr ⟨[], _, rfl, .inl rfl, (longest_digits _).fits hne⟩
    · exact fun h => absurd rfl h
  · rintro _ (rfl | ⟨sign, ds, rfl, hsign, hds⟩) ⟨rest, rfl⟩
    · exact Nat.zero_le _
    · rw [List.cons_append, List.append_assoc, exponent_append hsign hds]
      simp

-- The parts of a numeral, one behind the other.
theorem magnitude_append (h : IsDigits ds) (hrest : digits rest = []) :
    magnitude (ds ++ rest) =
      ds ++ (fraction rest ++ exponent (rest.drop (fraction rest).length)) := by
  have hwhole : digits (ds ++ rest) = ds := by rw [digits_append h, hrest, List.append_nil]
  unfold magnitude
  simp only [hwhole, if_neg h.1, List.drop_left, List.append_assoc, ← List.drop_drop]

theorem exists_digits (h : digits cs ≠ []) :
    ∃ whole rest, cs = whole ++ rest ∧ IsDigits whole ∧ digits rest = [] := by
  refine ⟨digits cs, cs.dropWhile Char.isDigit, List.takeWhile_append_dropWhile.symm,
    (longest_digits cs).fits h, ?_⟩
  rw [digits, List.takeWhile_eq_nil_iff]
  intro hlength
  exact List.dropWhile_get_zero_not _ _ hlength

theorem magnitude_of_digits_eq_nil (h : digits cs = []) : magnitude cs = [] := by
  simp [magnitude, h]

theorem isMagnitude_magnitude (h : magnitude cs ≠ []) : IsMagnitude (magnitude cs) := by
  have hdigits : digits cs ≠ [] := fun hnil => h (magnitude_of_digits_eq_nil hnil)
  obtain ⟨whole, rest, rfl, hwhole, hrest⟩ := exists_digits hdigits
  rw [magnitude_append hwhole hrest]
  refine ⟨whole, _, _, rfl, hwhole, ?_, ?_⟩
  · by_cases hnil : fraction rest = []
    · exact .inl hnil
    · exact (longest_fraction rest).fits hnil
  · by_cases hnil : exponent (rest.drop (fraction rest).length) = []
    · exact .inl hnil
    · exact (longest_exponent _).fits hnil

theorem magnitude_begins (cs : List Char) : magnitude cs <+: cs := by
  by_cases hdigits : digits cs = []
  · rw [magnitude_of_digits_eq_nil hdigits]
    exact List.nil_prefix
  · obtain ⟨whole, rest, rfl, hwhole, hrest⟩ := exists_digits hdigits
    rw [magnitude_append hwhole hrest, List.prefix_append_right_inj]
    have hparts := List.prefix_iff_eq_append.mp (longest_fraction rest).begins
    have hpower := (List.prefix_append_right_inj (fraction rest)).mpr
      (longest_exponent (rest.drop (fraction rest).length)).begins
    rwa [hparts] at hpower

-- The parts of a numeral start with different characters. So the part that is followed by
-- another one ends where its scanner ends, and the last part is at most as long.
theorem length_le_magnitude (hother : IsMagnitude other) (hcs : other <+: cs) :
    other.length ≤ (magnitude cs).length := by
  obtain ⟨whole, part, power, rfl, hwhole, hpart, hpower⟩ := hother
  obtain ⟨rest, rfl⟩ := hcs
  rw [List.append_assoc, List.append_assoc]
  rcases hpart with rfl | ⟨ds, rfl, hds⟩
  · rcases hpower with rfl | ⟨sign, es, rfl, hsign, hes⟩
    · have hle : whole.length ≤ (digits (whole ++ rest)).length :=
        (longest_digits _).longest whole hwhole (List.prefix_append _ _)
      have hne : digits (whole ++ rest) ≠ [] := by
        rw [digits_append hwhole]
        exact List.append_ne_nil_of_left_ne_nil hwhole.1 _
      simp only [List.nil_append, List.append_nil, magnitude, if_neg hne, List.length_append]
      omega
    · have hstop : digits ('e' :: (sign ++ (es ++ rest))) = [] := rfl
      have hparts := magnitude_append hwhole hstop
      have hnone : fraction ('e' :: (sign ++ (es ++ rest))) = [] := rfl
      rw [hnone, List.length_nil, List.drop_zero, exponent_append hsign hes] at hparts
      simp only [List.nil_append, List.cons_append, List.append_assoc, hparts, List.length_append,
        List.length_cons]
      omega
  · have hstop : digits ('.' :: (ds ++ (power ++ rest))) = [] := rfl
    have hparts := magnitude_append hwhole hstop
    rw [fraction_append hds] at hparts
    rcases hpower with rfl | ⟨sign, es, rfl, hsign, hes⟩
    · simp only [List.nil_append, List.append_nil, List.cons_append] at hparts ⊢
      simp only [hparts, List.length_append, List.length_cons]
      omega
    · have hend : digits ('e' :: (sign ++ es) ++ rest) = [] := rfl
      have hdrop : ('.' :: (ds ++ ('e' :: (sign ++ es) ++ rest))).drop ('.' :: ds).length =
          'e' :: (sign ++ (es ++ rest)) := by
        rw [← List.cons_append, List.drop_left, List.cons_append, List.append_assoc]
      rw [hend, List.append_nil, hdrop, exponent_append hsign hes] at hparts
      simp only [List.cons_append, List.append_assoc] at hparts ⊢
      simp only [hparts, List.length_append, List.length_cons]
      omega

theorem longest_magnitude (cs : List Char) : Longest IsMagnitude cs (magnitude cs) where
  begins := magnitude_begins cs
  fits := isMagnitude_magnitude
  longest _ := length_le_magnitude

theorem IsMagnitude.exists_cons (h : IsMagnitude text) :
    ∃ c rest, text = c :: rest ∧ c.isDigit := by
  obtain ⟨whole, part, power, rfl, hwhole, -, -⟩ := h
  obtain ⟨c, rest, rfl, hc⟩ := hwhole.exists_cons
  exact ⟨c, _, rfl, hc⟩

theorem longest_number (cs : List Char) : Longest IsNumber cs (number cs) := by
  unfold number
  split
  · rename_i rest
    have hrest := longest_magnitude rest
    have hlongest : ∀ other, IsNumber other → other <+: '-' :: rest →
        ∃ found, other = '-' :: found ∧ IsMagnitude found ∧ found <+: rest := by
      rintro _ ⟨sign, found, rfl, rfl | rfl, hfound⟩ hcs
      · obtain ⟨c, tail, rfl, hc⟩ := hfound.exists_cons
        have hhead : c = '-' := (List.cons_prefix_cons.mp hcs).1
        rw [hhead] at hc
        cases hc
      · exact ⟨found, rfl, hfound, (List.cons_prefix_cons.mp hcs).2⟩
    split
    · rename_i hnil
      rw [hnil] at hrest
      refine ⟨List.nil_prefix, fun h => absurd rfl h, ?_⟩
      intro other hother hcs
      obtain ⟨found, rfl, hfound, hbegins⟩ := hlongest other hother hcs
      obtain ⟨c, tail, rfl, -⟩ := hfound.exists_cons
      cases hrest.eq_nil hfound hbegins
    · rename_i hne
      refine ⟨List.cons_prefix_cons.mpr ⟨rfl, hrest.begins⟩, ?_, ?_⟩
      · intro _
        exact ⟨['-'], _, rfl, .inr rfl, hrest.fits hne⟩
      · intro other hother hcs
        obtain ⟨found, rfl, hfound, hbegins⟩ := hlongest other hother hcs
        exact Nat.succ_le_succ (hrest.longest found hfound hbegins)
  · rename_i hsign
    have hmagnitude := longest_magnitude cs
    refine ⟨hmagnitude.begins, ?_, ?_⟩
    · intro hne
      exact ⟨[], _, rfl, .inl rfl, hmagnitude.fits hne⟩
    · rintro _ ⟨sign, found, rfl, rfl | rfl, hfound⟩ hcs
      · exact hmagnitude.longest found hfound hcs
      · obtain ⟨tail, rfl⟩ := hcs
        exact absurd rfl (hsign (found ++ tail))

theorem operators_pairwise : operators.Pairwise fun a b => b.length ≤ a.length := by
  decide

theorem longest_operator (cs : List Char) : Longest IsOperator cs (operator cs) := by
  unfold operator
  cases hfind : operators.find? (·.isPrefixOf cs) with
  | none =>
      refine ⟨List.nil_prefix, fun h => absurd rfl h, ?_⟩
      intro other hother hcs
      have hnot := List.find?_eq_none.mp hfind other hother
      exact absurd (List.isPrefixOf_iff_prefix.mpr hcs) hnot
  | some found =>
      obtain ⟨hbegins, earlier, later, hsplit, hearlier⟩ := List.find?_eq_some_iff_append.mp hfind
      refine ⟨List.isPrefixOf_iff_prefix.mp hbegins, fun _ => List.mem_of_find?_eq_some hfind, ?_⟩
      intro other hother hcs
      have hpairwise := operators_pairwise
      rw [IsOperator, hsplit] at hother
      rw [hsplit] at hpairwise
      have hnot : other ∉ earlier := by
        intro hmem
        have hfalse := hearlier other hmem
        rw [List.isPrefixOf_iff_prefix.mpr hcs] at hfalse
        cases hfalse
      rcases List.mem_append.mp hother with hmem | hmem
      · exact absurd hmem hnot
      · rcases List.mem_cons.mp hmem with rfl | hmem
        · exact Nat.le_refl _
        · exact List.rel_of_pairwise_cons (List.pairwise_append.mp hpairwise).2.1 hmem

theorem span_digits (h : IsDigits ds) (hrest : digits rest = []) :
    (ds ++ rest).span Char.isDigit = (ds, rest) := by
  have htake : (ds ++ rest).takeWhile Char.isDigit = ds := by
    rw [← digits, digits_append h, hrest, List.append_nil]
  have hboth := List.takeWhile_append_dropWhile (p := Char.isDigit) (l := ds ++ rest)
  rw [htake] at hboth
  rw [List.span_eq_takeWhile_dropWhile, htake, List.append_cancel_left hboth]

theorem splitSign_digit {c : Char} (hc : c.isDigit) (rest : List Char) :
    Decimal.splitSign (c :: rest) = (false, c :: rest) := by
  unfold Decimal.splitSign
  split
  · rename_i heq
    rw [(List.cons.inj heq).1] at hc
    cases hc
  · rename_i heq
    rw [(List.cons.inj heq).1] at hc
    cases hc
  · rfl

theorem splitSign_append {sign : List Char} (hsign : IsSign sign) {c : Char} (hc : c.isDigit)
    (rest : List Char) : (Decimal.splitSign (sign ++ c :: rest)).2 = c :: rest := by
  rcases hsign with rfl | rfl
  · rw [List.nil_append, splitSign_digit hc]
  · rfl

theorem exists_exponent? (h : IsExponent text) : ∃ e, Decimal.exponent? text = some e := by
  rcases h with rfl | ⟨sign, ds, rfl, hsign, hds⟩
  · exact ⟨0, rfl⟩
  · obtain ⟨c, rest, rfl, hc⟩ := hds.exists_cons
    have hall : (c :: rest).all Char.isDigit := List.all_eq_true.mpr hds.2
    have hsplit := splitSign_append hsign hc rest
    cases hsigned : Decimal.splitSign (sign ++ c :: rest) with
    | mk negative found =>
        rw [hsigned] at hsplit
        dsimp only at hsplit
        subst hsplit
        simp only [Decimal.exponent?, hsigned]
        rw [if_pos ⟨.inl trivial, List.cons_ne_nil _ _, hall⟩]
        exact ⟨_, rfl⟩

theorem IsExponent.digits_eq_nil (h : IsExponent text) : digits text = [] := by
  rcases h with rfl | ⟨sign, ds, rfl, -, -⟩
  · rfl
  · rfl

theorem splitFraction_append {part power : List Char} (hpart : IsFraction part)
    (hpower : IsExponent power) : (Decimal.splitFraction (part ++ power)).2 = power := by
  rcases hpart with rfl | ⟨ds, rfl, hds⟩
  · rcases hpower with rfl | ⟨sign, es, rfl, -, -⟩
    · rfl
    · rfl
  · rw [List.cons_append, Decimal.splitFraction, span_digits hds hpower.digits_eq_nil]

theorem exists_ofDigits? (h : IsMagnitude text) : ∃ d, Decimal.ofDigits? text = some d := by
  obtain ⟨whole, part, power, rfl, hwhole, hpart, hpower⟩ := h
  have hstop : digits (part ++ power) = [] := by
    rcases hpart with rfl | ⟨ds, rfl, -⟩
    · exact hpower.digits_eq_nil
    · rfl
  have hsplit := splitFraction_append hpart hpower
  obtain ⟨e, he⟩ := exists_exponent? hpower
  unfold Decimal.ofDigits?
  rw [span_digits hwhole hstop]
  cases hfraction : Decimal.splitFraction (part ++ power) with
  | mk found left =>
      rw [hfraction] at hsplit
      dsimp only at hsplit
      subst hsplit
      have hne : whole ++ found ≠ [] := List.append_ne_nil_of_left_ne_nil hwhole.1 _
      simp only [hfraction, if_neg hne, he]
      exact ⟨_, rfl⟩

-- Whatever the scanner takes for a number can be read as one.
theorem exists_read? (h : IsNumber text) : ∃ x, Decimal.read? (String.ofList text) = some x := by
  obtain ⟨sign, rest, rfl, hsign, hrest⟩ := h
  have hmagnitude : ∃ x, Decimal.magnitude? rest = some x := by
    obtain ⟨d, hd⟩ := exists_ofDigits? hrest
    unfold Decimal.magnitude?
    dsimp only
    split
    · exact ⟨_, rfl⟩
    · split
      · exact ⟨_, rfl⟩
      · rw [hd]
        exact ⟨_, rfl⟩
  obtain ⟨x, hx⟩ := hmagnitude
  obtain ⟨c, tail, rfl, hc⟩ := hrest.exists_cons
  have hsplit := splitSign_append hsign hc tail
  unfold Decimal.read?
  rw [String.toList_ofList]
  cases hsigned : Decimal.splitSign (sign ++ c :: tail) with
  | mk negative found =>
      rw [hsigned] at hsplit
      dsimp only at hsplit
      subst hsplit
      dsimp only
      rw [hx]
      exact ⟨_, rfl⟩

end EchoLang.Token
