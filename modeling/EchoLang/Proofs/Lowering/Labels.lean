import EchoLang.Proofs.Lowering.Faults
import EchoLang.Proofs.Typing.Rules

namespace EchoLang

section Statements

mutual

-- Each `while` and each `if` in the order of the text, before what is inside of it.
def Stmt.branchingStmts : Stmt → List Stmt
  | .echo .. => []
  | .procedure _ _ body _ => bodyBranchingStmts body
  | .declare .. => []
  | .assign .. => []
  | .loop condition body loc => .loop condition body loc :: bodyBranchingStmts body
  | .ifThen condition body loc => .ifThen condition body loc :: bodyBranchingStmts body
  | .ifElse condition first second loc =>
      .ifElse condition first second loc ::
        (bodyBranchingStmts first ++ bodyBranchingStmts second)

def bodyBranchingStmts : List Stmt → List Stmt
  | [] => []
  | s :: rest => s.branchingStmts ++ bodyBranchingStmts rest

end

def Program.branchingStmts (p : Program) : List Stmt := bodyBranchingStmts p

mutual

theorem Stmt.length_branchingStmts : ∀ s : Stmt, s.branchingStmts.length = s.branchings
  | .echo .. | .declare .. | .assign .. => rfl
  | .procedure _ _ body _ => length_bodyBranchingStmts body
  | .loop _ body _ | .ifThen _ body _ => by
      rw [Stmt.branchingStmts, Stmt.branchings, List.length_cons, length_bodyBranchingStmts body,
        Nat.add_comm]
  | .ifElse _ first second _ => by
      rw [Stmt.branchingStmts, Stmt.branchings, List.length_cons, List.length_append,
        length_bodyBranchingStmts first, length_bodyBranchingStmts second]
      omega

theorem length_bodyBranchingStmts : ∀ body : List Stmt,
    (bodyBranchingStmts body).length = bodyBranchings body
  | [] => rfl
  | s :: rest => by
      rw [bodyBranchingStmts, bodyBranchings, List.length_append, s.length_branchingStmts,
        length_bodyBranchingStmts rest]

end

-- The labels of a statement with a given number, without those of the statements inside.
-- An `else` makes a difference even if there is nothing behind it.
def Stmt.ownLabels (id : Nat) : Stmt → List Label
  | .loop .. => [⟨.whileExit, id⟩, ⟨.whileLoop, id⟩]
  | .ifThen .. => [⟨.ifThen, id⟩]
  | .ifElse .. => [⟨.ifExit, id⟩, ⟨.ifThen, id⟩]
  | _ => []

theorem Stmt.nodup_ownLabels (id : Nat) (s : Stmt) : (s.ownLabels id).Nodup := by
  cases s <;> simp [ownLabels]

theorem Stmt.id_of_mem_ownLabels {id : Nat} {s : Stmt} {label : Label}
    (h : label ∈ s.ownLabels id) : label.id = id := by
  cases s with
  | loop _ _ _ | ifElse _ _ _ _ =>
      rcases List.mem_pair.mp h with rfl | rfl
      · rfl
      · rfl
  | ifThen _ _ _ =>
      obtain rfl := List.mem_singleton.mp h
      rfl
  | _ => cases h

mutual

theorem Stmt.ownLabels_ne_nil (id : Nat) : ∀ (within : Stmt) {s : Stmt},
    s ∈ within.branchingStmts → s.ownLabels id ≠ []
  | .procedure _ _ body _, s, h => bodyOwnLabels_ne_nil id body h
  | .loop _ body _, s, h | .ifThen _ body _, s, h => by
      rcases List.mem_cons.mp h with rfl | h
      · exact List.cons_ne_nil _ _
      · exact bodyOwnLabels_ne_nil id body h
  | .ifElse _ first second _, s, h => by
      rcases List.mem_cons.mp h with rfl | h
      · exact List.cons_ne_nil _ _
      · rcases List.mem_append.mp h with h | h
        · exact bodyOwnLabels_ne_nil id first h
        · exact bodyOwnLabels_ne_nil id second h

theorem bodyOwnLabels_ne_nil (id : Nat) : ∀ (body : List Stmt) {s : Stmt},
    s ∈ bodyBranchingStmts body → s.ownLabels id ≠ []
  | first :: rest, s, h => by
      rcases List.mem_append.mp h with h | h
      · exact first.ownLabels_ne_nil id h
      · exact bodyOwnLabels_ne_nil id rest h

end

end Statements

-- The labels of statements that are numbered one after the other.
def labelsFrom (id : Nat) (stmts : List Stmt) : List Label :=
  (stmts.zipIdx id).flatMap fun (s, k) => s.ownLabels k

section Numbering

variable {id : Nat} {stmts : List Stmt}

theorem labelsFrom_cons (id : Nat) (s : Stmt) (rest : List Stmt) :
    labelsFrom id (s :: rest) = s.ownLabels id ++ labelsFrom (id + 1) rest := by
  rw [labelsFrom, List.zipIdx_cons, List.flatMap_cons]
  rfl

theorem labelsFrom_append (id : Nat) (first second : List Stmt) :
    labelsFrom id (first ++ second) =
      labelsFrom id first ++ labelsFrom (id + first.length) second := by
  rw [labelsFrom, List.zipIdx_append, List.flatMap_append]
  rfl

theorem le_id_of_mem_labelsFrom {label : Label} (h : label ∈ labelsFrom id stmts) :
    id ≤ label.id := by
  obtain ⟨⟨s, k⟩, hnumbered, hlabel⟩ := List.mem_flatMap.mp h
  rw [Stmt.id_of_mem_ownLabels hlabel]
  exact List.le_snd_of_mem_zipIdx hnumbered

-- Labels of one statement differ in kind, and labels of different statements in number.
theorem nodup_labelsFrom (id : Nat) (stmts : List Stmt) : (labelsFrom id stmts).Nodup := by
  induction stmts generalizing id with
  | nil => exact List.nodup_nil
  | cons s rest ih =>
      rw [labelsFrom_cons]
      refine List.nodup_append'.mpr ⟨s.nodup_ownLabels id, ih (id + 1), ?_⟩
      intro label hown hlater
      have hid := Stmt.id_of_mem_ownLabels hown
      have hlt := le_id_of_mem_labelsFrom hlater
      omega

-- No number is left out.
theorem exists_id_labelsFrom_iff (hlabels : ∀ s ∈ stmts, ∀ k, s.ownLabels k ≠ []) (k : Nat) :
    (∃ label ∈ labelsFrom id stmts, label.id = k) ↔ id ≤ k ∧ k < id + stmts.length := by
  constructor
  · rintro ⟨label, h, rfl⟩
    obtain ⟨⟨s, k⟩, hnumbered, hlabel⟩ := List.mem_flatMap.mp h
    rw [Stmt.id_of_mem_ownLabels hlabel]
    exact ⟨List.le_snd_of_mem_zipIdx hnumbered, List.snd_lt_add_of_mem_zipIdx hnumbered⟩
  · rintro ⟨hle, hlt⟩
    have hindex : k - id < stmts.length := by omega
    have hnumbered : (stmts[k - id], k) ∈ stmts.zipIdx id :=
      List.mk_mem_zipIdx_iff_le_and_getElem?_sub.mpr ⟨hle, List.getElem?_eq_getElem hindex⟩
    obtain ⟨label, hlabel⟩ := List.exists_mem_of_ne_nil _ (hlabels _ (List.getElem_mem hindex) k)
    exact ⟨label, List.mem_flatMap.mpr ⟨_, hnumbered, hlabel⟩, Stmt.id_of_mem_ownLabels hlabel⟩

end Numbering

mutual

-- The labels of blocks and loops, each before those inside of it.
def Instr.labels : Instr → List Label
  | .block label body => label :: codeLabels body
  | .loop label body => label :: codeLabels body
  | _ => []

def codeLabels : List Instr → List Label
  | [] => []
  | i :: rest => i.labels ++ codeLabels rest

end

def CodeModule.labels (m : CodeModule) : List Label :=
  m.functions.flatMap fun f => codeLabels f.body

section Code

@[simp] theorem codeLabels_append (first second : List Instr) :
    codeLabels (first ++ second) = codeLabels first ++ codeLabels second := by
  induction first with
  | nil => rfl
  | cons i rest ih => rw [List.cons_append, codeLabels, ih, codeLabels, List.append_assoc]

@[simp] theorem codeLabels_straight (ops : List Operation) : codeLabels (straight ops) = [] := by
  induction ops with
  | nil => rfl
  | cons op rest ih => exact ih

@[simp] theorem codeLabels_guardCode (label : Label) (test : List Operation) :
    codeLabels (guardCode label test) = [] := by
  simp [guardCode, codeLabels, Instr.labels]

theorem labels_loopCode (id : Nat) (test : List Operation) (body : List Instr) :
    (loopCode id test body).labels = [⟨.whileExit, id⟩, ⟨.whileLoop, id⟩] ++ codeLabels body := by
  simp [loopCode, codeLabels, Instr.labels]

theorem labels_ifThenCode (id : Nat) (test : List Operation) (body : List Instr) :
    (ifThenCode id test body).labels = [⟨.ifThen, id⟩] ++ codeLabels body := by
  simp [ifThenCode, Instr.labels]

theorem labels_ifElseCode (id : Nat) (test : List Operation) (first second : List Instr) :
    (ifElseCode id test first second).labels =
      [⟨.ifExit, id⟩, ⟨.ifThen, id⟩] ++ (codeLabels first ++ codeLabels second) := by
  simp [ifElseCode, codeLabels, Instr.labels]

-- What is inside of a statement is numbered before what is behind it.
theorem labelsFrom_body_cons (id : Nat) (s : Stmt) (rest : List Stmt) :
    labelsFrom id (bodyBranchingStmts (s :: rest)) =
      labelsFrom id s.branchingStmts ++
        labelsFrom (id + s.branchings) (bodyBranchingStmts rest) := by
  rw [bodyBranchingStmts, labelsFrom_append, s.length_branchingStmts]

-- What a body has for labels is said by its branching statements and the next number.
theorem Lowers.codeLabels_eq {ctx after : Context} {body : List Stmt} {code : List Instr}
    (h : Lowers ctx body code after) :
    codeLabels code = labelsFrom ctx.labels.next (bodyBranchingStmts body) := by
  induction h with
  | nil => rfl
  | echo _ _ ih =>
      rw [codeLabels_append, codeLabels_straight]
      exact ih
  | declare _ _ ih =>
      rw [codeLabels_append, codeLabels_straight]
      exact ih
  | assign _ _ _ ih =>
      rw [codeLabels_append, codeLabels_straight]
      exact ih
  | loop _ _ inner _ ihInner ihLater =>
      rw [codeLabels, labels_loopCode, ihInner, ihLater, inner.next_eq, labelsFrom_body_cons,
        Stmt.branchingStmts, labelsFrom_cons, Stmt.branchings, ← Nat.add_assoc]
      rfl
  | ifThen _ _ inner _ ihInner ihLater =>
      rw [codeLabels, labels_ifThenCode, ihInner, ihLater, inner.next_eq, labelsFrom_body_cons,
        Stmt.branchingStmts, labelsFrom_cons, Stmt.branchings, ← Nat.add_assoc]
      rfl
  | ifElse _ _ innerFirst innerSecond _ ihFirst ihSecond ihLater =>
      rw [codeLabels, labels_ifElseCode, ihFirst, ihSecond, ihLater, innerSecond.next_eq,
        innerFirst.next_eq, labelsFrom_body_cons, Stmt.branchingStmts, labelsFrom_cons,
        labelsFrom_append, length_bodyBranchingStmts, Stmt.branchings, ← Nat.add_assoc,
        ← Nat.add_assoc]
      rfl

-- Procedures go on where the ones before have ended.
theorem codeLabels_of_lowerProcedures {declared : List String} {labels : LabelCounter}
    {p : Program} {functions : List FunctionDef}
    (h : lowerProcedures declared labels p = .ok functions) :
    (functions.flatMap fun f => codeLabels f.body) = labelsFrom labels.next p.branchingStmts := by
  induction p generalizing declared labels functions with
  | nil =>
      rw [lowerProcedures] at h
      cases h
      rfl
  | cons stmt rest ih =>
      obtain ⟨name, exported, body, loc, code, after, others, rfl, hnew, hbody, hothers, rfl⟩ :=
        of_lowerProcedures_cons h
      rw [List.flatMap_cons, ih hothers, hbody.codeLabels_eq, hbody.next_eq]
      exact (labelsFrom_body_cons _ (.procedure name exported body loc) rest).symm

end Code

mutual

-- Branches leave or restart scopes that they are inside of.
def Instr.BranchesInside (scopes : List Label) : Instr → Prop
  | .block label body => CodeBranchesInside (label :: scopes) body
  | .loop label body => CodeBranchesInside (label :: scopes) body
  | .branch label => label ∈ scopes
  | .branchIf label => label ∈ scopes
  | .operate _ => True
  | .call _ => True

def CodeBranchesInside (scopes : List Label) : List Instr → Prop
  | [] => True
  | i :: rest => i.BranchesInside scopes ∧ CodeBranchesInside scopes rest

end

theorem Typed.branchesInside {n : Nat} {scopes : List Label} {kinds : List NumKind}
    {code : List Instr} (h : Typed n scopes kinds code) : CodeBranchesInside scopes code := by
  induction h with
  | nil => trivial
  | operate _ _ ih => exact ⟨trivial, ih⟩
  | echo _ ih => exact ⟨trivial, ih⟩
  | block _ _ ihInner ihLater => exact ⟨ihInner, ihLater⟩
  | loop _ _ ihInner ihLater => exact ⟨ihInner, ihLater⟩
  | branch hlabel => exact ⟨hlabel, trivial⟩
  | branchIf hlabel _ ih => exact ⟨hlabel, ih⟩

-- The labels of a unit are numbered like the statements of the program, no label is used
-- twice, no number is left out, and every branch is where its label has a meaning.
theorem labels_of_addProgram {target : Target} {unit : String} {p : Program} {m : CodeModule}
    (h : (CodeModule.empty unit).addProgram target p = (m, none)) :
    m.labels = (p.branchingStmts.zipIdx.flatMap fun (s, k) => s.ownLabels k) ∧
      m.labels.Nodup ∧
      (∀ k, (∃ label ∈ m.labels, label.id = k) ↔ k < p.branchings) ∧
      ∀ f ∈ m.functions, CodeBranchesInside [] f.body := by
  obtain ⟨functions, hlower, rfl, _⟩ := CodeModule.of_addProgram h
  have hlabels : CodeModule.labels ⟨unit, [.echo], functions⟩ = labelsFrom 0 p.branchingStmts :=
    codeLabels_of_lowerProcedures hlower
  refine ⟨hlabels, ?_, ?_, ?_⟩
  · rw [hlabels]
    exact nodup_labelsFrom 0 p.branchingStmts
  · intro k
    have hlength : p.branchingStmts.length = p.branchings := length_bodyBranchingStmts p
    have hown (s : Stmt) (hs : s ∈ p.branchingStmts) (k : Nat) : s.ownLabels k ≠ [] :=
      bodyOwnLabels_ne_nil k p hs
    rw [hlabels, exists_id_labelsFrom_iff hown, hlength]
    omega
  · intro f hf
    obtain ⟨stmt, _, hlowers⟩ := (lowered_of_addProgram h).exists_procedure hf
    exact (typed_of_lowersTo hlowers).branchesInside

-- The `else` of the first procedure is empty. The second procedure goes on with the numbers.
def nestedProgram : Program :=
  [.procedure "main" true
      [.loop (.number 1 .start)
        [.ifElse (.number 0 .start) [.ifThen (.number 1 .start) [] .start] [] .start] .start]
      .start,
    .procedure "tick" false [.loop (.number 0 .start) [] .start] .start]

theorem labels_of_addProgram_nested :
    ∃ m, (CodeModule.empty "").addProgram .listing nestedProgram = (m, none) ∧
      m.labels = [⟨.whileExit, 0⟩, ⟨.whileLoop, 0⟩, ⟨.ifExit, 1⟩, ⟨.ifThen, 1⟩, ⟨.ifThen, 2⟩,
        ⟨.whileExit, 3⟩, ⟨.whileLoop, 3⟩] ∧
      m.labels.Nodup ∧ (∀ k, (∃ label ∈ m.labels, label.id = k) ↔ k < 4) ∧
      ∀ f ∈ m.functions, CodeBranchesInside [] f.body := by
  obtain ⟨m, hm⟩ : ∃ m, (CodeModule.empty "").addProgram .listing nestedProgram = (m, none) :=
    ⟨_, rfl⟩
  exact ⟨m, hm, labels_of_addProgram hm⟩

end EchoLang
