import EchoLang.Proofs.Except
import EchoLang.Proofs.Token.Lexemes
import Mathlib.Data.List.Induction

namespace EchoLang

namespace Location

-- The place behind a text. The line is told by the line feeds in it, the column by the
-- characters behind the last one.
def behind (before : List Char) : Location :=
  ⟨before.count '\n' + 1, (before.reverse.takeWhile (· ≠ '\n')).length + 1⟩

theorem advance_start (before : List Char) : start.advance before = behind before := by
  induction before using List.reverseRecOn with
  | nil => rfl
  | append_singleton before c ih =>
      rw [advance_append, ih]
      by_cases hc : c = '\n'
      · subst hc
        simp [advance, step, behind]
      · simp [advance, step, behind, hc]

end Location

namespace Token

variable {before cs text rest : List Char} {loc : Location} {ts : List Token}

-- Blank characters and comments in front of `rest`. A comment ends before a line feed or
-- with the text.
inductive Gap (rest : List Char) : List Char → Prop where
  | nil : Gap rest []
  | blank {c : Char} {gap : List Char} (hc : isBlank c) (later : Gap rest gap) :
      Gap rest (c :: gap)
  | comment {text gap : List Char} (htext : IsComment text)
      (hend : ∀ c ∈ (gap ++ rest).head?, c = '\n') (later : Gap rest gap) : Gap rest (text ++ gap)

-- The token that stands between two texts.
structure Stands (before : List Char) (t : Token) (rest : List Char) : Prop where
  lexeme : IsLexeme t.value.toList
  longest : Longest IsLexeme (t.value.toList ++ rest) t.value.toList
  place : t.loc = Location.behind before
  kind : KindHolds t.kind t.value.toList
  keyword : t.kind = .keyword ↔ t.value ∈ keywords
  number : t.kind = .number → ∃ x, Decimal.read? t.value = some x

-- A text, behind another one, is a gap, the text of a token, a gap and so on, and ends with
-- a gap.
inductive Tiles : List Char → List Char → List Token → Prop where
  | last {before gap : List Char} (hgap : Gap [] gap) : Tiles before gap []
  | token {before gap rest : List Char} {t : Token} {ts : List Token}
      (hgap : Gap (t.value.toList ++ rest) gap) (ht : Stands (before ++ gap) t rest)
      (later : Tiles (before ++ gap ++ t.value.toList) rest ts) :
      Tiles before (gap ++ (t.value.toList ++ rest)) (t :: ts)

theorem Tiles.blank {c : Char} (hc : isBlank c) (h : Tiles (before ++ [c]) rest ts) :
    Tiles before (c :: rest) ts := by
  cases h with
  | last hgap => exact .last (.blank hc hgap)
  | @token _ gap rest t ts hgap ht later =>
      have hbefore : before ++ [c] ++ gap = before ++ c :: gap := by simp
      rw [hbefore] at ht later
      exact .token (.blank hc hgap) ht later

theorem Tiles.comment (htext : IsComment text) (hend : ∀ c ∈ rest.head?, c = '\n')
    (h : Tiles (before ++ text) rest ts) : Tiles before (text ++ rest) ts := by
  cases h with
  | last hgap =>
      rw [← List.append_nil rest] at hend
      exact .last (.comment htext hend hgap)
  | @token _ gap rest t ts hgap ht later =>
      rw [List.append_assoc before] at ht later
      rw [← List.append_assoc text]
      exact .token (.comment htext hend hgap) ht later

theorem Tiles.cons {t : Token} (h : Tiles (before ++ text) rest ts) (hvalue : t.value.toList = text)
    (ht : Stands before t rest) : Tiles before (text ++ rest) (t :: ts) := by
  subst hvalue
  rw [← List.append_nil before] at ht h
  exact .token .nil ht h

theorem Tiles.stands (h : Tiles before cs ts) : ∀ t ∈ ts, ∃ before rest, Stands before t rest := by
  induction h with
  | last hgap => exact nofun
  | token hgap ht later ih =>
      intro u hu
      rcases List.mem_cons.mp hu with rfl | hmem
      · exact ⟨_, _, ht⟩
      · exact ih u hmem

-- The scanner never meets a number that it would have to refuse.
theorem check_of_lexeme? {item : Lexeme} (hitem : lexeme? (item.text ++ rest) = some item)
    (loc : Location) : item.check loc = .ok () := by
  cases item with
  | gap text => rfl
  | token kind text =>
      rw [Lexeme.check, if_neg]
      rintro ⟨rfl, hnone⟩
      obtain ⟨x, hx⟩ := exists_read? (token_of_lexeme? hitem).2
      rw [hx] at hnone
      cases hnone

-- What a lexeme at a place adds to the tokens behind it.
def Lexeme.addTo (loc : Location) (later : List Token) : Lexeme → List Token
  | .gap _ => later
  | .token kind text => ⟨kind, String.ofList text, loc⟩ :: later

theorem scan_lexeme {item : Lexeme} (hitem : lexeme? (item.text ++ rest) = some item) :
    scan loc (item.text ++ rest) = do
      let later ← scan (loc.advance item.text) rest
      return item.addTo loc later := by
  obtain ⟨c, tail, htext⟩ := List.exists_cons_of_ne_nil (text_of_lexeme? hitem).1
  have hdrop : (tail ++ rest).drop (item.text.length - 1) = rest := by
    rw [htext, List.length_cons, Nat.add_sub_cancel, List.drop_left]
  have hcs : item.text ++ rest = c :: (tail ++ rest) := by rw [htext, List.cons_append]
  have hcheck := check_of_lexeme? hitem loc
  rw [hcs] at hitem ⊢
  rw [scan, hitem]
  dsimp only
  rw [hcheck, hdrop]
  cases item with
  | gap text => rfl
  | token kind text => rfl

-- Scanning goes on lexeme by lexeme, and all that is proved of it does so too.
theorem scan_induction {motive : Location → List Char → Prop} (nil : ∀ loc, motive loc [])
    (stuck : ∀ loc c rest, lexeme? (c :: rest) = none → motive loc (c :: rest))
    (lexeme : ∀ loc item rest, lexeme? (item.text ++ rest) = some item →
      motive (loc.advance item.text) rest → motive loc (item.text ++ rest))
    (loc : Location) (cs : List Char) : motive loc cs := by
  induction loc, cs using scan.induct with
  | case1 loc => exact nil loc
  | case2 loc c rest hnone => exact stuck loc c rest hnone
  | case3 loc c rest item hitem ih =>
      obtain ⟨hne, left, hleft⟩ := text_of_lexeme? hitem
      obtain ⟨d, tail, htext⟩ := List.exists_cons_of_ne_nil hne
      have hrest : rest.drop (item.text.length - 1) = left := by
        rw [htext, List.cons_append] at hleft
        rw [htext, List.length_cons, Nat.add_sub_cancel, ← (List.cons.inj hleft).2, List.drop_left]
      rw [hrest] at ih
      rw [← hleft] at hitem ⊢
      exact lexeme loc item left hitem ih

theorem newline_of_longest (h : Longest IsComment (text ++ rest) text) (htext : IsComment text) :
    ∀ c ∈ rest.head?, c = '\n' := by
  intro c hc
  obtain ⟨tail, rfl⟩ := List.head?_eq_some_iff.mp hc
  by_contra hne
  obtain ⟨line, rfl, hline⟩ := htext
  have hlonger : IsComment ('/' :: '/' :: line ++ [c]) := by
    refine ⟨line ++ [c], rfl, ?_⟩
    simp [hline, Ne.symm hne]
  have hle := h.longest _ hlonger (by simp)
  rw [List.length_append, List.length_singleton] at hle
  omega

theorem stands_of_lexeme? {kind : TokenKind}
    (hitem : lexeme? (text ++ rest) = some (.token kind text)) :
    Stands before ⟨kind, String.ofList text, Location.start.advance before⟩ rest := by
  obtain ⟨hlongest, hkind⟩ := token_of_lexeme? hitem
  have hne : text ≠ [] := (text_of_lexeme? hitem).1
  refine ⟨?_, ?_, Location.advance_start before, ?_, keyword_iff hkind, ?_⟩
  · rw [String.toList_ofList]
    exact hlongest.fits hne
  · rw [String.toList_ofList]
    exact hlongest
  · rw [String.toList_ofList]
    exact hkind
  · rintro rfl
    exact exists_read? hkind

-- By induction on the lexemes, each a tile in front of those behind it.
theorem tiles_of_scan (hscan : scan (Location.start.advance before) cs = .ok ts) :
    Tiles before cs ts := by
  generalize hloc : Location.start.advance before = loc at hscan
  induction loc, cs using scan_induction generalizing before ts with
  | nil loc =>
      rw [scan] at hscan
      cases hscan
      exact .last .nil
  | stuck loc c rest hnone =>
      rw [scan, hnone] at hscan
      cases hscan
  | lexeme loc item rest hitem ih =>
      rw [scan_lexeme hitem] at hscan
      obtain ⟨later, hlater, hscan⟩ := exists_of_bind_eq_ok hscan
      cases hscan
      subst hloc
      have htiles : Tiles (before ++ item.text) rest later :=
        ih (Location.advance_append _ _ _) hlater
      cases item with
      | gap text =>
          rcases gap_of_lexeme? hitem with ⟨c, rfl, hc⟩ | hlongest
          · exact htiles.blank hc
          · have htext := hlongest.fits (text_of_lexeme? hitem).1
            exact htiles.comment htext (newline_of_longest hlongest htext)
      | token kind text =>
          exact htiles.cons String.toList_ofList (stands_of_lexeme? hitem)

-- The text up to the character that is reported is scanned.
theorem stuck_of_scan {e : CompileError} (hscan : scan loc cs = .error e) :
    ∃ read c rest, cs = read ++ c :: rest ∧ e = .lexical (loc.advance read) (.unexpected c) ∧
      (∃ ts, scan loc read = .ok ts) ∧ lexeme? (c :: rest) = none := by
  induction loc, cs using scan_induction with
  | nil loc =>
      rw [scan] at hscan
      cases hscan
  | stuck loc c rest hnone =>
      rw [scan, hnone] at hscan
      cases hscan
      exact ⟨[], c, rest, rfl, rfl, ⟨[], by rw [scan]⟩, hnone⟩
  | lexeme loc item rest hitem ih =>
      rw [scan_lexeme hitem] at hscan
      cases hlater : scan (loc.advance item.text) rest with
      | ok later =>
          rw [hlater] at hscan
          cases hscan
      | error fault =>
          rw [hlater] at hscan
          cases hscan
          obtain ⟨read, c, tail, rfl, he, ⟨ts, hts⟩, hnone⟩ := ih hlater
          -- the lexeme stays the same if the text ends before the character
          have hshorter : lexeme? (item.text ++ read) = some item := by
            refine lexeme?_of_shorter hitem ?_ (List.prefix_append _ _)
            rw [← List.append_assoc]
            exact List.prefix_append _ _
          refine ⟨item.text ++ read, c, tail, (List.append_assoc _ _ _).symm, ?_, ?_, hnone⟩
          · rw [he, Location.advance_append]
          · refine ⟨item.addTo loc ts, ?_⟩
            rw [scan_lexeme hshorter, hts]
            rfl

-- A source that is scanned is tiled by its tokens. A source that is not is scanned up to
-- the character of the error, at which there is no lexeme of any class and no blank.
theorem ofSource_tiles_or_stops (source : String) :
    (∀ ts, ofSource source = .ok ts → Tiles [] source.toList ts) ∧
      ∀ e, ofSource source = .error e →
        ∃ k c, source.toList[k]? = some c ∧
          e = .lexical (Location.behind (source.toList.take k)) (.unexpected c) ∧
          (∃ ts, ofSource (String.ofList (source.toList.take k)) = .ok ts) ∧
          isBlank c = false ∧
          ∀ (cls : LexicalClass) (text : List Char), cls.Holds text →
            ¬text <+: source.toList.drop k := by
  refine ⟨fun ts hscan => tiles_of_scan hscan, ?_⟩
  intro e hscan
  obtain ⟨read, c, rest, hsource, he, ⟨ts, hts⟩, hnone⟩ := stuck_of_scan hscan
  obtain ⟨hblank, hclasses⟩ := stuck_of_lexeme? hnone
  have htake : source.toList.take read.length = read := by rw [hsource, List.take_left]
  have hdrop : source.toList.drop read.length = c :: rest := by rw [hsource, List.drop_left]
  refine ⟨read.length, c, ?_, ?_, ?_, hblank, ?_⟩
  · rw [hsource, List.getElem?_append_right (Nat.le_refl _), Nat.sub_self]
    rfl
  · rw [htake, he, Location.advance_start]
  · refine ⟨ts, ?_⟩
    rw [htake, ofSource, String.toList_ofList, hts]
  · rw [hdrop]
    exact hclasses

end Token

end EchoLang
