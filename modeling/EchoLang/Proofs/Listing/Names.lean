import EchoLang.Proofs.Listing.Lines
import EchoLang.Proofs.Lowering.Accesses
import EchoLang.Proofs.Token.Printing
import EchoLang.Proofs.Token.Words
import EchoLang.Proofs.Wasm.Compiled

namespace EchoLang

-- What a statement at the top level gives a name to.
def Stmt.givenNames : Stmt → List String
  | .procedure name _ body _ => name :: bodyDeclarations body
  | s => s.declarations

namespace Grammar

-- The name stands in the tokens as an identifier.
def Named (ts : List Token) (name : String) : Prop :=
  ∃ t ∈ ts, t.kind = .identifier ∧ t.value = name

theorem Named.of_subset {ts us : List Token} {name : String} (h : Named ts name) (hsub : ts ⊆ us) :
    Named us name := by
  obtain ⟨t, ht, hname⟩ := h
  exact ⟨t, hsub ht, hname⟩

mutual

theorem Statement.named : ∀ {ts : List Token} {s : Stmt}, Statement ts s →
    ∀ {name : String}, name ∈ s.declarations → Named ts name
  | _, _, .echo _ _, _, hname | _, _, .assign _ _ _, _, hname => nomatch hname
  | _, _, @Statement.declare _ found _ _ _ _ hfound _ _, _, hname =>
      ⟨found, by simp, hfound, (List.mem_singleton.mp hname).symm⟩
  | _, _, .loop _ _ hbody _, _, hname | _, _, .ifThen _ _ hbody _, _, hname =>
      (hbody.named hname).of_subset fun t ht => by simp [ht]
  | _, _, .ifElse _ _ hfirst _ hsecond _, _, hname => by
      rcases List.mem_append.mp hname with hname | hname
      · exact (hfirst.named hname).of_subset fun t ht => by simp [ht]
      · exact (hsecond.named hname).of_subset fun t ht => by simp [ht]

theorem Body.named : ∀ {ts : List Token} {body : List Stmt}, Body ts body →
    ∀ {name : String}, name ∈ bodyDeclarations body → Named ts name
  | _, _, .nil, _, hname => nomatch hname
  | _, _, .cons first later, _, hname => by
      rcases List.mem_append.mp hname with hname | hname
      · exact (first.named hname).of_subset (List.subset_append_left _ _)
      · exact (later.named hname).of_subset (List.subset_append_right _ _)

end

theorem TopLevel.named {ts : List Token} {s : Stmt} (h : TopLevel ts s) {name : String}
    (hname : name ∈ s.givenNames) : Named ts name := by
  cases h with
  | @procedure t found last us body ht hfound hbody hend =>
      rcases List.mem_cons.mp hname with rfl | hname
      · exact ⟨found, by simp, hfound, rfl⟩
      · exact (hbody.named hname).of_subset fun t ht => by simp [ht]
  | @exported t next found last us body ht hnext hfound hbody hend =>
      rcases List.mem_cons.mp hname with rfl | hname
      · exact ⟨found, by simp, hfound, rfl⟩
      · exact (hbody.named hname).of_subset fun t ht => by simp [ht]
  | statement hs =>
      have hsame : s.givenNames = s.declarations := by cases hs <;> rfl
      exact hs.named (hsame ▸ hname)

theorem Derives.named {ts : List Token} {p : Program} (h : Derives ts p) {s : Stmt} (hs : s ∈ p)
    {name : String} (hname : name ∈ s.givenNames) : Named ts name := by
  induction h with
  | nil => cases hs
  | cons first later ih =>
      rcases List.mem_cons.mp hs with rfl | hs
      · exact (first.named hname).of_subset (List.subset_append_left _ _)
      · exact (ih hs).of_subset (List.subset_append_right _ _)

end Grammar

open Token

theorem exists_of_mem_bodyDeclarations {name : String} {body : List Stmt}
    (h : name ∈ bodyDeclarations body) : ∃ s ∈ body, name ∈ s.declarations := by
  induction body with
  | nil => cases h
  | cons s rest ih =>
      rcases List.mem_append.mp h with hs | hrest
      · exact ⟨s, List.mem_cons_self, hs⟩
      · obtain ⟨s, hs, hname⟩ := ih hrest
        exact ⟨s, List.mem_cons_of_mem _ hs, hname⟩

theorem Stmt.mem_givenNames {s : Stmt} {name : String} (h : name ∈ s.declarations) :
    name ∈ s.givenNames := by
  cases s with
  | procedure => cases h
  | _ => exact h

namespace Program

variable {source : String} {p : Program} {s : Stmt} {name : String}

theorem isWord_of_ofSource (h : Program.ofSource source = .ok p) (hs : s ∈ p)
    (hname : name ∈ s.givenNames) : IsWord name.toList := by
  obtain ⟨ts, hts, hp⟩ := exists_of_bind_eq_ok h
  obtain ⟨t, ht, hkind, rfl⟩ := (Parser.derives_of_topLevels hp).1.named hs hname
  have hvalid : KindHolds t.kind t.value.toList :=
    valid_of_ofSource hts t.spelling (List.mem_map_of_mem ht)
  rw [hkind] at hvalid
  exact hvalid.1

-- An entry point that a program gets declares what stands outside of procedures.
theorem isWord_of_withEntry (h : Program.ofSource source = .ok p) (hs : s ∈ p.withEntry)
    (hname : name ∈ s.givenNames) : IsWord name.toList := by
  unfold withEntry at hs
  split at hs
  · exact isWord_of_ofSource h hs hname
  · rcases List.mem_cons.mp hs with rfl | hs
    · rcases List.mem_cons.mp hname with rfl | hname
      · decide
      · obtain ⟨s, hs, hname⟩ := exists_of_mem_bodyDeclarations hname
        exact isWord_of_ofSource h (List.mem_of_mem_filter hs) (Stmt.mem_givenNames hname)
    · exact isWord_of_ofSource h (List.mem_of_mem_filter hs) hname

end Program

theorem Typed.eq_echo_of_callee {n : Nat} {scopes : List Label} {kinds : List NumKind}
    {body : List Instr} (h : Typed n scopes kinds body) {name : String}
    (hname : .callee name ∈ codeReferences scopes body) : name = Effect.echo.name := by
  induction h with
  | nil => cases hname
  | operate _ _ ih => exact ih hname
  | echo _ ih =>
      rcases List.mem_cons.mp hname with heq | hname
      · exact Reference.callee.inj heq
      · exact ih hname
  | block _ _ ihInner ihLater | loop _ _ ihInner ihLater =>
      rcases List.mem_append.mp hname with hname | hname
      · exact ihInner hname
      · exact ihLater hname
  | branch => cases List.mem_singleton.mp hname
  | branchIf _ _ ih =>
      rcases List.mem_cons.mp hname with heq | hname
      · cases heq
      · exact ih hname

theorem Effect.worded_echo : Effect.echo.Worded :=
  ⟨by decide, by decide, by decide⟩

theorem CodeModule.worded_of_ofSource {target : Target} {unit source : String} {optimize : Bool}
    {m : CodeModule} (h : CodeModule.ofSource target unit source optimize = .ok m) : m.Worded := by
  obtain ⟨p, added, hprogram, hadd, rfl⟩ := Wasm.of_ofSource h
  have hlowered := lowered_of_addProgram hadd
  constructor
  case imports =>
    intro e he
    rw [imports_simplifyIf, hlowered.imports] at he
    rw [List.mem_singleton.mp he]
    exact Effect.worded_echo
  case functions =>
    intro f hf
    obtain ⟨g, hg, hname, hlocals⟩ :
        ∃ g ∈ added.functions, g.name = f.name ∧ g.locals = f.locals := by
      cases optimize with
      | false => exact ⟨f, hf, rfl, rfl⟩
      | true =>
          obtain ⟨g, hg, rfl⟩ := List.mem_map.mp hf
          exact ⟨g, hg, rfl, rfl⟩
    obtain ⟨stmt, hstmt, hlowers⟩ := hlowered.exists_procedure hg
    have hcallees : CallsWords [] f.body := fun name hmem => by
      rw [(hlowered.typed optimize f hf).eq_echo_of_callee hmem]
      exact Effect.worded_echo.name
    cases hlowers with
    | @procedure name exported body loc labels code after hbody =>
        have hdeclared : after.slots.names = (bodyDeclarations body).eraseDups := by
          rw [hbody.slots_eq, Slots.names_foldl_declare]
          simp [Slots.empty]
        refine ⟨?_, fun l hl => ?_, hcallees⟩
        · rw [← hname]
          exact Program.isWord_of_withEntry hprogram hstmt List.mem_cons_self
        · rw [← hlocals, hdeclared, List.mem_eraseDups] at hl
          exact Program.isWord_of_withEntry hprogram hstmt (List.mem_cons_of_mem _ hl)

end EchoLang
