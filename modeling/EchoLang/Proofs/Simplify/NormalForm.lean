import EchoLang.Code.Simplify
import Mathlib.Data.List.Infix

namespace EchoLang

-- The ten operations that have a constant for a result if both operands are constants.
def Operation.isFoldable : Operation → Bool
  | floatOp _ | floatTest _ => true
  | _ => false

namespace Operation

variable {a b : FloatBits} {op value : Operation}

theorem fold?_eq_none_iff : op.fold? a b = none ↔ op.isFoldable = false := by
  cases op <;> simp [fold?, isFoldable]

-- A folded operation is a constant, and no operation on constants.
theorem isFoldable_of_fold? (h : op.fold? a b = some value) : value.isFoldable = false := by
  cases op with
  | floatOp op =>
      cases h
      rfl
  | floatTest test =>
      cases h
      rfl
  | _ => cases h

end Operation

namespace Instr

mutual

-- The bodies inside of an instruction, at every level of nesting.
def levels : Instr → List (List Instr)
  | block _ body => body :: innerLevels body
  | loop _ body => body :: innerLevels body
  | operate _ | call _ | branch _ | branchIf _ => []

def innerLevels : List Instr → List (List Instr)
  | [] => []
  | i :: rest => i.levels ++ innerLevels rest

end

-- Nowhere do two constants stand right before an operation that folds them.
def Folded (level : List Instr) : Prop :=
  ∀ a b op, [operate (.floatConst a), operate (.floatConst b), operate op] <:+: level →
    op.isFoldable = false

-- Nothing stands behind a branch.
def Cut (level : List Instr) : Prop :=
  ∀ label rest, branch label :: rest <:+ level → rest = []

-- There is nothing left to simplify, neither in the body nor in the bodies inside of it.
def NormalForm (body : List Instr) : Prop :=
  ∀ level ∈ body :: innerLevels body, Folded level ∧ Cut level

section Levels

variable {pass : List Instr → List Instr} {body level : List Instr}

@[simp] theorem innerLevels_append (first second : List Instr) :
    innerLevels (first ++ second) = innerLevels first ++ innerLevels second := by
  induction first with
  | nil => rfl
  | cons i rest ih => rw [List.cons_append, innerLevels, ih, innerLevels, List.append_assoc]

mutual

-- A pass that takes no body for another one leaves at each level what it makes of a body of
-- that level, in which the bodies inside may have changed before.
theorem levels_mapBodies {good good' : List Instr → Prop}
    (hinner : ∀ body, innerLevels (pass body) ⊆ innerLevels body)
    (hpass : ∀ body, good body → good' (pass (mapAllBodies pass body))) :
    ∀ i : Instr, (∀ level ∈ i.levels, good level) → ∀ level ∈ (i.mapBodies pass).levels, good' level
  | block _ body, h | loop _ body, h => by
      intro level hlevel
      rcases List.mem_cons.mp hlevel with rfl | hlevel
      · exact hpass body (h body List.mem_cons_self)
      · exact innerLevels_mapAllBodies hinner hpass body
          (fun level hlevel => h level (List.mem_cons_of_mem _ hlevel)) level (hinner _ hlevel)
  | operate _, _ | call _, _ | branch _, _ | branchIf _, _ => by simp [mapBodies, levels]

theorem innerLevels_mapAllBodies {good good' : List Instr → Prop}
    (hinner : ∀ body, innerLevels (pass body) ⊆ innerLevels body)
    (hpass : ∀ body, good body → good' (pass (mapAllBodies pass body))) :
    ∀ body : List Instr, (∀ level ∈ innerLevels body, good level) →
      ∀ level ∈ innerLevels (mapAllBodies pass body), good' level
  | [], _ => by simp [mapAllBodies, innerLevels]
  | i :: rest, h => by
      intro level hlevel
      rcases List.mem_append.mp hlevel with hlevel | hlevel
      · exact levels_mapBodies hinner hpass i
          (fun level hlevel => h level (List.mem_append_left _ hlevel)) level hlevel
      · exact innerLevels_mapAllBodies hinner hpass rest
          (fun level hlevel => h level (List.mem_append_right _ hlevel)) level hlevel

end

theorem forall_levels_everywhere {good good' : List Instr → Prop}
    (hinner : ∀ body, innerLevels (pass body) ⊆ innerLevels body)
    (hpass : ∀ body, good body → good' (pass (mapAllBodies pass body)))
    (h : ∀ level ∈ body :: innerLevels body, good level) :
    ∀ level ∈ everywhere pass body :: innerLevels (everywhere pass body), good' level := by
  intro level hlevel
  rcases List.mem_cons.mp hlevel with rfl | hlevel
  · exact hpass body (h body List.mem_cons_self)
  · exact innerLevels_mapAllBodies hinner hpass body
      (fun level hlevel => h level (List.mem_cons_of_mem _ hlevel)) level (hinner _ hlevel)

mutual

theorem mapBodies_eq_self : ∀ i : Instr, (∀ level ∈ i.levels, pass level = level) →
    i.mapBodies pass = i
  | block _ body, h | loop _ body, h => by
      rw [mapBodies, mapAllBodies_eq_self body
        fun level hlevel => h level (List.mem_cons_of_mem _ hlevel), h body List.mem_cons_self]
  | operate _, _ | call _, _ | branch _, _ | branchIf _, _ => rfl

-- A pass that changes no body changes no code around these bodies.
theorem mapAllBodies_eq_self : ∀ body : List Instr,
    (∀ level ∈ innerLevels body, pass level = level) →
    mapAllBodies pass body = body
  | [], _ => rfl
  | i :: rest, h => by
      rw [mapAllBodies, mapBodies_eq_self i
        fun level hlevel => h level (List.mem_append_left _ hlevel), mapAllBodies_eq_self rest
        fun level hlevel => h level (List.mem_append_right _ hlevel)]

end

theorem everywhere_eq_self (h : ∀ level ∈ body :: innerLevels body, pass level = level) :
    everywhere pass body = body := by
  rw [everywhere, mapAllBodies_eq_self body
    fun level hlevel => h level (List.mem_cons_of_mem _ hlevel), h body List.mem_cons_self]

end Levels

section Folding

variable {level done rest : List Instr} {i : Instr}

theorem Folded.of_infix {part : List Instr} (h : Folded level) (hpart : part <:+: level) :
    Folded part :=
  fun a b op hop => h a b op (hop.trans hpart)

-- One more instruction is no operation on two constants right before it.
theorem folded_concat : Folded (level ++ [i]) ↔ Folded level ∧
    ∀ a b op, [operate (.floatConst a), operate (.floatConst b)] <:+ level → i = operate op →
      op.isFoldable = false := by
  constructor
  · intro h
    refine ⟨h.of_infix (List.prefix_append _ _).isInfix, ?_⟩
    rintro a b op ⟨earlier, rfl⟩ rfl
    exact h a b op ⟨earlier, [], by simp⟩
  · rintro ⟨hlevel, hlast⟩ a b op hop
    rcases List.infix_concat_iff.mp hop with hsuffix | hinfix
    · obtain ⟨earlier, hearlier⟩ := hsuffix
      have hsplit : (earlier ++ [operate (.floatConst a), operate (.floatConst b)]) ++
          [operate op] = level ++ [i] := by simpa using hearlier
      obtain ⟨rfl, hi⟩ := List.append_inj' hsplit rfl
      exact hlast a b op ⟨earlier, rfl⟩ (List.cons.inj hi).1.symm
    · exact hlevel a b op hinfix

-- All that one more instruction does to code that is kept in reverse.
theorem pushFolding_cases (done : List Instr) (i : Instr) :
    (∃ a b op value earlier, done = operate (.floatConst b) :: operate (.floatConst a) :: earlier ∧
      i = operate op ∧ op.fold? a b = some value ∧ pushFolding done i = operate value :: earlier) ∨
    (pushFolding done i = i :: done ∧ ∀ a b op,
      [operate (.floatConst a), operate (.floatConst b)] <:+ done.reverse → i = operate op →
        op.isFoldable = false) := by
  unfold pushFolding
  split
  · rename_i b a earlier op
    split
    · rename_i value hvalue
      exact .inl ⟨a, b, op, value, earlier, rfl, rfl, hvalue, rfl⟩
    · rename_i hnone
      refine .inr ⟨rfl, ?_⟩
      rintro _ _ other - hother
      cases hother
      exact Operation.fold?_eq_none_iff.mp hnone
  · rename_i hother
    refine .inr ⟨rfl, ?_⟩
    rintro a b op ⟨earlier, hearlier⟩ rfl
    refine absurd rfl (hother b a earlier.reverse op ?_)
    have hreverse := congrArg List.reverse hearlier
    simpa using hreverse.symm

theorem folded_pushFolding (h : Folded done.reverse) : Folded (pushFolding done i).reverse := by
  rcases pushFolding_cases done i with
    ⟨a, b, op, value, earlier, rfl, rfl, hvalue, hpush⟩ | ⟨hpush, hlast⟩
  · rw [hpush, List.reverse_cons, folded_concat]
    refine ⟨h.of_infix ?_, ?_⟩
    · exact ⟨[], [operate (.floatConst a), operate (.floatConst b)], by simp⟩
    · rintro _ _ other - hother
      cases hother
      exact Operation.isFoldable_of_fold? hvalue
  · rw [hpush, List.reverse_cons, folded_concat]
    exact ⟨h, hlast⟩

-- The invariant of the sweep is that there is nothing to fold in what has been done.
theorem folded_foldl (rest : List Instr) (h : Folded done.reverse) :
    Folded (rest.foldl pushFolding done).reverse := by
  induction rest generalizing done with
  | nil => exact h
  | cons i rest ih => exact ih (folded_pushFolding h)

theorem folded_foldConstants (body : List Instr) : Folded (foldConstants body) := by
  apply folded_foldl
  intro a b op h
  simpa using h.length_le

theorem pushFolding_of_folded (h : Folded (done.reverse ++ i :: rest)) :
    pushFolding done i = i :: done := by
  rcases pushFolding_cases done i with
    ⟨a, b, op, value, earlier, rfl, rfl, hvalue, -⟩ | ⟨hpush, -⟩
  · have hnot := h a b op ⟨earlier.reverse, rest, by simp⟩
    rw [Operation.fold?_eq_none_iff.mpr hnot] at hvalue
    cases hvalue
  · exact hpush

theorem foldl_of_folded (h : Folded (done.reverse ++ rest)) :
    rest.foldl pushFolding done = rest.reverse ++ done := by
  induction rest generalizing done with
  | nil => rfl
  | cons i rest ih =>
      rw [List.foldl_cons, pushFolding_of_folded h, ih (by simpa using h)]
      simp

theorem foldConstants_of_folded (h : Folded level) : foldConstants level = level := by
  have hfold : level.foldl pushFolding [] = level.reverse ++ [] := foldl_of_folded h
  rw [foldConstants, hfold]
  simp

-- What is collected from code without looking at operations is not changed by folding them.
theorem collect_foldConstants {β : Type} {collect : List Instr → List β}
    (happend : ∀ first second, collect (first ++ second) = collect first ++ collect second)
    (hoperate : ∀ op, collect [operate op] = []) (body : List Instr) :
    collect (foldConstants body) = collect body := by
  have hfoldl (done rest : List Instr) : collect (rest.foldl pushFolding done).reverse =
      collect done.reverse ++ collect rest := by
    induction rest generalizing done with
    | nil => rw [← happend, List.append_nil, List.foldl_nil]
    | cons i rest ih =>
        have hpush :
            collect (pushFolding done i).reverse = collect done.reverse ++ collect [i] := by
          rcases pushFolding_cases done i with
            ⟨a, b, op, value, earlier, rfl, rfl, -, hpush⟩ | ⟨hpush, -⟩
          · simp only [hpush, List.reverse_cons, happend, hoperate, List.append_nil]
          · rw [hpush, List.reverse_cons, happend]
        rw [List.foldl_cons, ih, hpush, List.append_assoc, ← happend]
        rfl
  have hnil : collect [] = [] := by simpa using happend [] []
  rw [foldConstants, hfoldl, List.reverse_nil, hnil, List.nil_append]

-- Blocks and loops are kept.
theorem innerLevels_foldConstants (body : List Instr) :
    innerLevels (foldConstants body) = innerLevels body :=
  collect_foldConstants innerLevels_append (fun _ => rfl) body

theorem eq_operate_of_mapBodies {pass : List Instr → List Instr} {op : Operation}
    (h : i.mapBodies pass = operate op) : i = operate op := by
  cases i <;> simp_all [mapBodies]

theorem mapAllBodies_eq_map (pass : List Instr → List Instr) (body : List Instr) :
    mapAllBodies pass body = body.map (mapBodies pass) := by
  induction body with
  | nil => rfl
  | cons i rest ih => rw [mapAllBodies, ih, List.map_cons]

-- What is inside of blocks and loops does not matter for what is folded around them.
theorem Folded.mapAllBodies (pass : List Instr → List Instr) (h : Folded level) :
    Folded (mapAllBodies pass level) := by
  intro a b op hop
  rw [mapAllBodies_eq_map] at hop
  obtain ⟨part, hpart, hmap⟩ := List.infix_map_iff.mp hop
  obtain ⟨first, part, rfl, hfirst, hmap⟩ := List.map_eq_cons_iff.mp hmap.symm
  obtain ⟨second, part, rfl, hsecond, hmap⟩ := List.map_eq_cons_iff.mp hmap
  obtain ⟨third, part, rfl, hthird, hmap⟩ := List.map_eq_cons_iff.mp hmap
  obtain rfl := List.map_eq_nil_iff.mp hmap
  obtain rfl := eq_operate_of_mapBodies hfirst
  obtain rfl := eq_operate_of_mapBodies hsecond
  obtain rfl := eq_operate_of_mapBodies hthird
  exact h a b op hpart

end Folding

section Cutting

variable {level : List Instr}

theorem isPrefix_cutAfterBranch (body : List Instr) : cutAfterBranch body <+: body := by
  fun_induction cutAfterBranch body with
  | case1 => exact List.prefix_refl _
  | case2 label rest => exact List.prefix_append [branch label] rest
  | case3 i rest _ ih => exact List.prefix_cons_inj i |>.mpr ih

theorem cut_cutAfterBranch (body : List Instr) : Cut (cutAfterBranch body) := by
  fun_induction cutAfterBranch body with
  | case1 =>
      intro label rest h
      simp at h
  | case2 label later =>
      intro label' rest h
      rcases List.suffix_cons_iff.mp h with h | h
      · exact (List.cons.inj h).2
      · simp at h
  | case3 i later hne ih =>
      intro label rest h
      rcases List.suffix_cons_iff.mp h with h | h
      · exact absurd (List.cons.inj h).1.symm (hne label)
      · exact ih label rest h

theorem cutAfterBranch_of_cut (h : Cut level) : cutAfterBranch level = level := by
  fun_induction cutAfterBranch level with
  | case1 => rfl
  | case2 label rest => rw [h label rest (List.suffix_refl _)]
  | case3 i rest _ ih =>
      rw [ih fun label later hlater => h label later (hlater.trans (List.suffix_cons i rest))]

theorem innerLevels_cutAfterBranch (body : List Instr) :
    innerLevels (cutAfterBranch body) ⊆ innerLevels body := by
  obtain ⟨rest, hrest⟩ := isPrefix_cutAfterBranch body
  conv => rhs; rw [← hrest, innerLevels_append]
  exact List.subset_append_left _ _

end Cutting

-- The second pass drops code and so leaves nothing to fold for another run of the first one.
theorem normalForm_simplify (body : List Instr) : NormalForm (simplify body) := by
  have hfolded : ∀ level ∈ everywhere foldConstants body ::
      innerLevels (everywhere foldConstants body), Folded level :=
    forall_levels_everywhere (fun body => innerLevels_foldConstants body ▸ List.Subset.refl _)
      (fun _ (_ : True) => folded_foldConstants _) fun _ _ => trivial
  refine forall_levels_everywhere innerLevels_cutAfterBranch ?_ hfolded
  intro level hlevel
  have hinside := hlevel.mapAllBodies cutAfterBranch
  exact ⟨hinside.of_infix (isPrefix_cutAfterBranch _).isInfix, cut_cutAfterBranch _⟩

theorem simplify_of_normalForm {body : List Instr} (h : NormalForm body) :
    simplify body = body := by
  have hfold : everywhere foldConstants body = body :=
    everywhere_eq_self fun level hlevel => foldConstants_of_folded (h level hlevel).1
  have hcut : everywhere cutAfterBranch body = body :=
    everywhere_eq_self fun level hlevel => cutAfterBranch_of_cut (h level hlevel).2
  rw [simplify, hfold, hcut]

-- One run of simplification leaves nothing to simplify at any level, so that a second run
-- changes nothing, and exactly the code that has nothing to simplify is left as it was.
theorem simplify_reaches_normalForm (body : List Instr) :
    NormalForm (simplify body) ∧ simplify (simplify body) = simplify body ∧
      (simplify body = body ↔ NormalForm body) := by
  have hnormal := normalForm_simplify body
  refine ⟨hnormal, simplify_of_normalForm hnormal, ?_, simplify_of_normalForm⟩
  intro h
  rwa [h] at hnormal

-- The result of a folded operation is an operand of the next one.
example (a b c : FloatBits) :
    simplify [operate (.floatConst a), operate (.floatConst b), operate (.floatConst c),
      operate (.floatOp .mul), operate (.floatOp .add),
      block ⟨.ifExit, 0⟩ [branch ⟨.ifExit, 0⟩, call "echo"]] =
    [operate (.floatConst (.ofValue (a.value + (FloatBits.ofValue (b.value * c.value)).value))),
      block ⟨.ifExit, 0⟩ [branch ⟨.ifExit, 0⟩]] := by
  rfl

end Instr

end EchoLang
