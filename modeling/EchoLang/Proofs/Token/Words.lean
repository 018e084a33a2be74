import EchoLang.Program.Entry
import EchoLang.Proofs.Program.Derivation
import EchoLang.Proofs.Token.Tiling
import EchoLang.Target

namespace EchoLang

theorem Token.not_keyword_of_ofSource {source : String} {ts : List Token}
    (h : ofSource source = .ok ts) : ∀ t ∈ ts, t.kind = .identifier → t.value ∉ keywords := by
  intro t ht hkind
  have htiles : Tiles [] source.toList ts := tiles_of_scan h
  obtain ⟨before, rest, hstands⟩ := htiles.stands t ht
  rw [← hstands.keyword, hkind]
  decide

-- What a procedure is called stands in the tokens as an identifier.
theorem Grammar.Derives.exists_name {ts : List Token} {p : Program} (h : Derives ts p)
    {name : String} {exported : Bool} {body : List Stmt} {loc : Location}
    (hproc : .procedure name exported body loc ∈ p) :
    ∃ t ∈ ts, t.kind = .identifier ∧ t.value = name := by
  induction h with
  | nil => cases hproc
  | cons first later ih =>
      rcases List.mem_cons.mp hproc with heq | hmem
      · subst heq
        cases first with
        | @procedure t found last us body ht hname => exact ⟨found, by simp, hname, rfl⟩
        | @exported t next found last us body ht hnext hname => exact ⟨found, by simp, hname, rfl⟩
        | statement hs => cases hs
      · obtain ⟨t, ht, hname⟩ := ih hmem
        exact ⟨t, List.mem_append_right _ ht, hname⟩

namespace Program

-- No procedure of a source text is called like a keyword.
theorem name_not_keyword_of_ofSource {source : String} {p : Program}
    (h : Program.ofSource source = .ok p) {name : String} {exported : Bool} {body : List Stmt}
    {loc : Location} (hproc : .procedure name exported body loc ∈ p) : name ∉ Token.keywords := by
  obtain ⟨ts, hts, hp⟩ := exists_of_bind_eq_ok h
  obtain ⟨t, ht, hkind, hvalue⟩ := (Parser.derives_of_topLevels hp).1.exists_name hproc
  rw [← hvalue]
  exact Token.not_keyword_of_ofSource hts t ht hkind

-- Neither is the entry point that a program may get.
theorem name_not_keyword_of_withEntry {source : String} {p : Program}
    (h : Program.ofSource source = .ok p) {name : String} {exported : Bool} {body : List Stmt}
    {loc : Location} (hproc : .procedure name exported body loc ∈ p.withEntry) :
    name ∉ Token.keywords := by
  unfold withEntry at hproc
  split at hproc
  · exact name_not_keyword_of_ofSource h hproc
  · rcases List.mem_cons.mp hproc with hentry | hmem
    · have hname : name = entryName := (Stmt.procedure.inj hentry).1
      rw [hname]
      decide
    · exact name_not_keyword_of_ofSource h (List.mem_of_mem_filter hmem)

end Program

end EchoLang
