import EchoLang.Proofs.Compile.Stages
import EchoLang.Proofs.Errors
import EchoLang.Proofs.Lowering.Places
import EchoLang.Proofs.Token.Printing

namespace EchoLang

section Errors

variable (f : Location → Location)

theorem GrammarFault.moved_moved (g : Location → Location) (fault : GrammarFault) :
    (fault.moved f).moved g = fault.moved (g ∘ f) := by
  cases fault <;> rfl

namespace CompileError

theorem kind_moved (e : CompileError) : (e.moved f).kind = e.kind := by
  cases e <;> rfl

theorem location?_moved (e : CompileError) : (e.moved f).location? = e.location?.map f := by
  cases e <;> rfl

theorem moved_moved (g : Location → Location) (e : CompileError) :
    (e.moved f).moved g = e.moved (g ∘ f) := by
  cases e with
  | grammar loc fault => simp [moved, GrammarFault.moved_moved]
  | _ => rfl

theorem moved_id (e : CompileError) : e.moved id = e := by
  cases e with
  | grammar loc fault => exact congrArg (grammar loc) fault.moved_id
  | _ => rfl

end CompileError

end Errors

theorem functionsOfTokens_moved {f : Location → Location} {g : CompileError → CompileError}
    (hg : MovesPlaces f g) (ts : List Token) :
    functionsOfTokens (ts.map (Token.moved f)) = translate g id (functionsOfTokens ts) := by
  unfold functionsOfTokens
  rw [Program.ofTokens_moved (fun loc fault => hg (.grammar loc fault) rfl)]
  exact bind_translate _ fun p => Program.lower_withEntry_moved hg p

-- Puts an error with a place where there is one without.
def CompileError.asPlaced : CompileError → CompileError
  | target _ => grammar .start .unexpectedEnd
  | e => e

-- No target has been asked yet, so that every error has a place.
theorem isSome_location?_of_functionsOfTokens {ts : List Token} {e : CompileError}
    (h : functionsOfTokens ts = .error e) : e.location?.isSome := by
  have hg : MovesPlaces id CompileError.asPlaced := by
    intro e he
    cases e with
    | target fault => cases he
    | _ => exact (CompileError.moved_id _).symm
  have hmoved := functionsOfTokens_moved hg ts
  rw [Token.map_moved_id, h] at hmoved
  have he : e = e.asPlaced := Except.error.inj hmoved
  cases e with
  | target fault => cases he
  | _ => rfl

namespace Token

-- Tokens of given spellings, each of them with its number as the line. All token lists of
-- these spellings are moved copies of this one, so that it stands between any two of them.
def numbered (ws : List Spelling) : List Token :=
  ws.zipIdx.map fun (w, i) => ⟨w.1, w.2, ⟨i, 0⟩⟩

-- Where the token of a number stands. Numbers that no token has get another place.
def placeOf (ts : List Token) (other number : Location) : Location :=
  (ts[number.line]?.map (·.loc)).getD other

theorem moved_numbered (ts : List Token) (other : Location) :
    (numbered (ts.map spelling)).map (Token.moved (placeOf ts other)) = ts := by
  apply List.ext_getElem?
  intro i
  cases hi : ts[i]? with
  | none => simp [numbered, hi]
  | some t => simp [numbered, hi, Token.moved, placeOf, spelling]

end Token

theorem functionsOfTokens_eq_numbered (ts : List Token) (other : Location) :
    functionsOfTokens ts = translate (CompileError.moved (Token.placeOf ts other)) id
      (functionsOfTokens (Token.numbered (ts.map Token.spelling))) := by
  have hmoves : MovesPlaces (Token.placeOf ts other)
      (CompileError.moved (Token.placeOf ts other)) := fun e _ => rfl
  rw [← functionsOfTokens_moved hmoves, Token.moved_numbered]

-- What the numbered copy reports at a number, the tokens themselves report at the token of
-- that number.
theorem exists_token_of_numbered {ts : List Token} {e : CompileError} {number : Location}
    (h : functionsOfTokens (Token.numbered (ts.map Token.spelling)) = .error e)
    (hnumber : e.location? = some number) :
    ∃ t, ts[number.line]? = some t ∧ ∃ e', functionsOfTokens ts = .error e' ∧
      e'.location? = some t.loc ∧ ∀ loc, (e'.moved fun _ => loc) = e.moved fun _ => loc := by
  have hmoved (other : Location) :
      functionsOfTokens ts = .error (e.moved (Token.placeOf ts other)) := by
    rw [functionsOfTokens_eq_numbered ts other, h]
    rfl
  have hplace (other : Location) :
      (e.moved (Token.placeOf ts other)).location? = some (Token.placeOf ts other number) := by
    rw [CompileError.location?_moved, hnumber]
    rfl
  cases ht : ts[number.line]? with
  | none =>
      -- The place of no token could be any other, and the error has only one.
      have hsame : e.moved (Token.placeOf ts ⟨0, 0⟩) = e.moved (Token.placeOf ts ⟨1, 1⟩) :=
        Except.error.inj ((hmoved _).symm.trans (hmoved _))
      have hplaces := (hplace ⟨0, 0⟩).symm.trans ((congrArg _ hsame).trans (hplace ⟨1, 1⟩))
      simp [Token.placeOf, ht] at hplaces
  | some t =>
      refine ⟨t, rfl, _, hmoved .start, ?_, ?_⟩
      · rw [hplace]
        simp [Token.placeOf, ht]
      · intro loc
        exact CompileError.moved_moved _ _ e

-- Both texts have the same code, in every unit and for every target and printer.
def SameCode (a b : String) : Prop :=
  ∃ imports functions,
    (∀ unit, (CodeModule.empty unit).addSource .listing a = (⟨unit, imports, functions⟩, none)) ∧
    (∀ unit, (CodeModule.empty unit).addSource .listing b = (⟨unit, imports, functions⟩, none)) ∧
    ∀ printer target unit optimize,
      compile printer target unit a optimize = compile printer target unit b optimize

-- Both texts fail for the same reason, and at the same one of their tokens.
def SameFailure (a b : String) (ts us : List Token) : Prop :=
  ∃ e e', (∀ unit, (CodeModule.empty unit).addSource .listing a = (CodeModule.empty unit, some e)) ∧
    (∀ unit, (CodeModule.empty unit).addSource .listing b = (CodeModule.empty unit, some e')) ∧
    (∀ printer target unit optimize, compile printer target unit a optimize = .error e ∧
      compile printer target unit b optimize = .error e') ∧
    e.kind = e'.kind ∧
    (∀ loc, (e.moved fun _ => loc).message = (e'.moved fun _ => loc).message) ∧
    ∃ (i : Nat) (t u : Token), ts[i]? = some t ∧ us[i]? = some u ∧
      e.location? = some t.loc ∧ e'.location? = some u.loc

-- Only the tokens matter, and not where they stand.
theorem compile_ignores_formatting {a b : String} {ts us : List Token}
    (ha : Token.ofSource a = .ok ts) (hb : Token.ofSource b = .ok us)
    (hsame : ts.map Token.spelling = us.map Token.spelling) :
    SameCode a b ∨ SameFailure a b ts us := by
  have hsourceA := functionsOfSource_of_ofSource ha
  have hsourceB := functionsOfSource_of_ofSource hb
  cases hnumbered : functionsOfTokens (Token.numbered (ts.map Token.spelling)) with
  | ok functions =>
      have hA : functionsOfSource a = .ok functions := by
        rw [hsourceA, functionsOfTokens_eq_numbered ts .start, hnumbered]
        rfl
      have hB : functionsOfSource b = .ok functions := by
        rw [hsourceB, functionsOfTokens_eq_numbered us .start, ← hsame, hnumbered]
        rfl
      refine .inl ⟨[.echo], functions, ?_, ?_, ?_⟩
      · intro unit
        exact CodeModule.addSource_listing unit hA
      · intro unit
        exact CodeModule.addSource_listing unit hB
      · intro printer target unit optimize
        rw [compile_eq, compile_eq, hA, hB]
  | error e =>
      obtain ⟨number, hnumber⟩ :=
        Option.isSome_iff_exists.mp (isSome_location?_of_functionsOfTokens hnumbered)
      obtain ⟨t, ht, eA, hA, hplaceA, halikeA⟩ := exists_token_of_numbered hnumbered hnumber
      rw [hsame] at hnumbered
      obtain ⟨u, hu, eB, hB, hplaceB, halikeB⟩ := exists_token_of_numbered hnumbered hnumber
      have halike (loc : Location) : (eA.moved fun _ => loc) = eB.moved fun _ => loc :=
        (halikeA loc).trans (halikeB loc).symm
      refine .inr ⟨eA, eB, ?_, ?_, ?_, ?_, ?_, number.line, t, u, ht, hu, hplaceA, hplaceB⟩
      · exact CodeModule.addSource_of_error (hsourceA.trans hA) .listing
      · exact CodeModule.addSource_of_error (hsourceB.trans hB) .listing
      · intro printer target unit optimize
        exact ⟨compile_of_error (hsourceA.trans hA) printer target unit optimize,
          compile_of_error (hsourceB.trans hB) printer target unit optimize⟩
      · rw [← CompileError.kind_moved (fun _ => .start) eA, halike, CompileError.kind_moved]
      · intro loc
        rw [halike]

-- A procedure prints a variable that it does not have.
def denseSource : String := "echo 1 proc tick echo y end"

def spreadSource : String := "// one\n\necho 1\nproc tick\n\techo  // what?\n\t\ty\nend\n"

theorem compile_ignores_formatting_tick :
    ∃ ts us, Token.ofSource denseSource = .ok ts ∧ Token.ofSource spreadSource = .ok us ∧
      ts.map Token.spelling = us.map Token.spelling ∧
      SameFailure denseSource spreadSource ts us := by
  obtain ⟨ts, hts⟩ : ∃ ts, Token.ofSource denseSource = .ok ts :=
    exists_of_toBool (by decide +kernel)
  obtain ⟨us, hus⟩ : ∃ us, Token.ofSource spreadSource = .ok us :=
    exists_of_toBool (by decide +kernel)
  have hspelling : (Token.ofSource denseSource).map (List.map Token.spelling) =
      (Token.ofSource spreadSource).map (List.map Token.spelling) := by decide +kernel
  have hfails : ((CodeModule.empty "").addSource .listing denseSource).2 ≠ none := by
    decide +kernel
  rw [hts, hus] at hspelling
  have hsame := Except.ok.inj hspelling
  refine ⟨ts, us, hts, hus, hsame, ?_⟩
  rcases compile_ignores_formatting hts hus hsame with ⟨_, _, hcode, _⟩ | hfailure
  · exact absurd (congrArg Prod.snd (hcode "")) hfails
  · exact hfailure

end EchoLang
