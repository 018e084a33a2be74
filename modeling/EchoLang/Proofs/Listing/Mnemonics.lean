import EchoLang.Code.Text
import Mathlib.Data.List.Nodup

namespace EchoLang

section Split

variable {α : Type} {p : α → Bool} {first first' rest rest' : List α}

-- What comes next is of another kind, or nothing does.
def Stops (p : α → Bool) (rest : List α) : Prop :=
  ∀ a ∈ rest.head?, p a = false

theorem takeWhile_of_stops (h : Stops p rest) : rest.takeWhile p = [] := by
  cases rest with
  | nil => rfl
  | cons a rest => rw [List.takeWhile_cons, h a rfl]; rfl

-- Where one kind stops, a list can be cut in one way only.
theorem append_inj_of_stops (hfirst : ∀ a ∈ first, p a) (hfirst' : ∀ a ∈ first', p a)
    (hrest : Stops p rest) (hrest' : Stops p rest') (h : first ++ rest = first' ++ rest') :
    first = first' ∧ rest = rest' := by
  have hcut := congrArg (List.takeWhile p) h
  rw [List.takeWhile_append_of_pos hfirst, List.takeWhile_append_of_pos hfirst',
    takeWhile_of_stops hrest, takeWhile_of_stops hrest', List.append_nil, List.append_nil] at hcut
  exact ⟨hcut, List.append_cancel_left (hcut ▸ h)⟩

end Split

section Numbers

theorem isDigit_toDigits (n : Nat) : ∀ c ∈ Nat.toDigits 10 n, c.isDigit := fun _ hc =>
  Nat.isDigit_of_mem_toDigits (by decide) (by decide) hc

theorem isDigit_repr (n : Nat) : ∀ c ∈ n.repr.toList, c.isDigit := by
  rw [Nat.toList_repr]
  exact isDigit_toDigits n

-- The digits of a number can be read back.
theorem eq_of_repr_eq {n n' : Nat} (h : n.repr = n'.repr) : n = n' := by
  have hread (n : Nat) : Nat.ofDigitChars 10 n.repr.toList 0 = n := by
    rw [Nat.toList_repr]
    exact Nat.ofDigitChars_toDigits (by decide) (by decide)
  rw [← hread n, h, hread n']

theorem repr_ne_negative (n : Nat) (text : String) : n.repr ≠ "-" ++ text := by
  intro h
  have hsign : '-' ∈ n.repr.toList := by simp [h]
  exact absurd (isDigit_repr n '-' hsign) (by decide)

theorem eq_of_int_repr_eq {a b : Int} (h : a.repr = b.repr) : a = b := by
  cases a with
  | ofNat m =>
      cases b with
      | ofNat n => exact congrArg Int.ofNat (eq_of_repr_eq h)
      | negSucc n => exact absurd h (repr_ne_negative m _)
  | negSucc m =>
      cases b with
      | ofNat n => exact absurd h.symm (repr_ne_negative n _)
      | negSucc n =>
          have hsucc := eq_of_repr_eq ((String.append_right_inj _).mp h)
          exact congrArg Int.negSucc (Nat.succ.inj hsucc)

end Numbers

section Labels

theorem LabelKind.name_injective {kind kind' : LabelKind} (h : kind.name = kind'.name) :
    kind = kind' := by
  revert h
  cases kind <;> cases kind' <;> decide

theorem LabelKind.not_isDigit_name (kind : LabelKind) :
    ∀ c ∈ kind.name.toList, !c.isDigit := by
  have hall : kind.name.toList.all (!·.isDigit) = true := by cases kind <;> decide
  exact List.all_eq_true.mp hall

theorem Label.render_eq (label : Label) :
    label.render = "$" ++ label.kind.name ++ label.id.repr :=
  rfl

-- The number starts with the first digit.
theorem Label.render_injective {label label' : Label} (h : label.render = label'.render) :
    label = label' := by
  have hstops (n : Nat) : Stops (!·.isDigit) n.repr.toList := by
    intro c hc
    simpa using isDigit_repr n c (List.mem_of_mem_head? hc)
  have htext (l : Label) : l.render.toList = '$' :: (l.kind.name.toList ++ l.id.repr.toList) := by
    simp [l.render_eq]
  have hlist := congrArg String.toList h
  rw [htext, htext, List.cons.injEq] at hlist
  obtain ⟨hkind, hid⟩ := append_inj_of_stops label.kind.not_isDigit_name
    label'.kind.not_isDigit_name (hstops _) (hstops _) hlist.2
  have hkind := LabelKind.name_injective (String.toList_inj.mp hkind)
  have hid := eq_of_repr_eq (String.toList_inj.mp hid)
  obtain ⟨kind, id⟩ := label
  exact congr (congrArg Label.mk hkind) hid

end Labels

section Keywords

def Operation.keyword : Operation → String
  | floatConst _ => "f32.const"
  | intConst _ => "i32.const"
  | get _ => "local.get"
  | set _ => "local.set"
  | op => op.mnemonic

-- What follows the keyword, with the space before it.
def Operation.argument : Operation → String
  | floatConst bits => " " ++ NumberFormat.plain.write bits.value
  | intConst value => " " ++ value.toInt.repr
  | get slot => " " ++ slot.repr
  | set slot => " " ++ slot.repr
  | _ => ""

-- The operation with some fixed argument.
def Operation.bare : Operation → Operation
  | floatConst _ => floatConst 0
  | intConst _ => intConst 0
  | get _ => get 0
  | set _ => set 0
  | op => op

namespace Instr

def keyword : Instr → String
  | operate op => op.keyword
  | call _ => "call"
  | block _ _ => "block"
  | loop _ _ => "loop"
  | branch _ => "br"
  | branchIf _ => "br_if"

def argument : Instr → String
  | operate op => op.argument
  | call name => " $" ++ name
  | block label _ => " " ++ label.render
  | loop label _ => " " ++ label.render
  | branch label => " " ++ label.render
  | branchIf label => " " ++ label.render

def bare : Instr → Instr
  | operate op => operate op.bare
  | call _ => call ""
  | block _ _ => block ⟨.whileExit, 0⟩ []
  | loop _ _ => loop ⟨.whileExit, 0⟩ []
  | branch _ => branch ⟨.whileExit, 0⟩
  | branchIf _ => branchIf ⟨.whileExit, 0⟩

-- Every instruction with its argument fixed.
def allBare : List Instr :=
  [call "", block ⟨.whileExit, 0⟩ [], loop ⟨.whileExit, 0⟩ [], branch ⟨.whileExit, 0⟩,
    branchIf ⟨.whileExit, 0⟩, operate (.floatConst 0), operate (.intConst 0), operate (.get 0),
    operate (.set 0), operate .isZero, operate .remainder, operate .truncate, operate .saturate,
    operate .ofSigned, operate .ofUnsigned, operate (.floatOp .add), operate (.floatOp .sub),
    operate (.floatOp .mul), operate (.floatOp .div), operate (.floatTest .lt),
    operate (.floatTest .gt), operate (.floatTest .le), operate (.floatTest .ge),
    operate (.floatTest .eq), operate (.floatTest .ne), operate (.intOp .shl),
    operate (.intOp .shr), operate (.intOp .and), operate (.intOp .or), operate (.intOp .ne)]

theorem mem_allBare (i : Instr) : i.bare ∈ allBare := by
  cases i with
  | operate op =>
      cases op with
      | floatOp op => cases op <;> simp [allBare, bare, Operation.bare]
      | floatTest test => cases test <;> simp [allBare, bare, Operation.bare]
      | intOp op => cases op <;> simp [allBare, bare, Operation.bare]
      | _ => simp [allBare, bare, Operation.bare]
  | _ => simp [allBare, bare]

theorem keyword_bare (i : Instr) : i.bare.keyword = i.keyword := by
  cases i with
  | operate op => cases op <;> rfl
  | _ => rfl

theorem nodup_keywords : (allBare.map keyword).Nodup := by
  decide

-- The keyword tells everything but the argument and the body.
theorem bare_eq_of_keyword {i j : Instr} (h : i.keyword = j.keyword) : i.bare = j.bare := by
  refine List.inj_on_of_nodup_map nodup_keywords i.mem_allBare j.mem_allBare ?_
  rw [keyword_bare, keyword_bare, h]

theorem mnemonic_eq (i : Instr) : i.mnemonic = i.keyword ++ i.argument := by
  rw [← String.toList_inj]
  cases i with
  | operate op =>
      cases op <;> simp [mnemonic, keyword, argument, Operation.mnemonic, Operation.keyword,
        Operation.argument, toString]
  | _ => simp [mnemonic, keyword, argument, toString]

theorem all_keyword : ∀ i ∈ allBare, i.keyword.toList.all fun c => c != ' ' && c != '\n' := by
  decide

theorem chars_keyword (i : Instr) : ∀ c ∈ i.keyword.toList, c ≠ ' ' ∧ c ≠ '\n' := by
  intro c hc
  have hall := all_keyword i.bare i.mem_allBare
  rw [keyword_bare] at hall
  simpa using List.all_eq_true.mp hall c hc

theorem stops_argument (i : Instr) : Stops (· != ' ') i.argument.toList := by
  cases i with
  | operate op => cases op <;> simp [Stops, argument, Operation.argument]
  | _ => simp [Stops, argument]

-- The keyword ends before the first space.
theorem keyword_argument_of_mnemonic {i j : Instr} (h : i.mnemonic = j.mnemonic) :
    i.keyword = j.keyword ∧ i.argument = j.argument := by
  rw [mnemonic_eq, mnemonic_eq, ← String.toList_inj, String.toList_append,
    String.toList_append] at h
  have hkeyword (i : Instr) : ∀ c ∈ i.keyword.toList, c != ' ' := fun c hc =>
    bne_iff_ne.mpr (i.chars_keyword c hc).1
  obtain ⟨hword, hrest⟩ := append_inj_of_stops (hkeyword i) (hkeyword j) i.stops_argument
    j.stops_argument h
  exact ⟨String.toList_inj.mp hword, String.toList_inj.mp hrest⟩

end Instr

end Keywords

section Alike

-- Float constants count as one if they are written with the same digits.
inductive Operation.Alike : Operation → Operation → Prop
  | floatConst {x y : FloatBits}
      (h : NumberFormat.plain.write x.value = NumberFormat.plain.write y.value) :
      Alike (.floatConst x) (.floatConst y)
  | same (op : Operation) : Alike op op

-- Instructions that differ in their bodies at most.
inductive Instr.SameHead : Instr → Instr → Prop
  | operate {op op' : Operation} (h : op.Alike op') : SameHead (.operate op) (.operate op')
  | call (name : String) : SameHead (.call name) (.call name)
  | block (label : Label) (body body' : List Instr) :
      SameHead (.block label body) (.block label body')
  | loop (label : Label) (body body' : List Instr) :
      SameHead (.loop label body) (.loop label body')
  | branch (label : Label) : SameHead (.branch label) (.branch label)
  | branchIf (label : Label) : SameHead (.branchIf label) (.branchIf label)

theorem Operation.alike_of_argument {op op' : Operation} (hbare : op.bare = op'.bare)
    (hargument : op.argument = op'.argument) : op.Alike op' := by
  cases op with
  | floatConst x =>
      cases op' with
      | floatConst y => exact .floatConst ((String.append_right_inj _).mp hargument)
      | _ => cases hbare
  | intConst value =>
      cases op' with
      | intConst value' =>
          have hrepr := eq_of_int_repr_eq ((String.append_right_inj _).mp hargument)
          rw [Int32.toInt_inj.mp hrepr]
          exact .same _
      | _ => cases hbare
  | get slot =>
      cases op' with
      | get slot' =>
          rw [eq_of_repr_eq ((String.append_right_inj _).mp hargument)]
          exact .same _
      | _ => cases hbare
  | set slot =>
      cases op' with
      | set slot' =>
          rw [eq_of_repr_eq ((String.append_right_inj _).mp hargument)]
          exact .same _
      | _ => cases hbare
  | _ => cases op' <;> cases hbare; exact .same _

theorem Instr.sameHead_of_mnemonic {i j : Instr} (h : i.mnemonic = j.mnemonic) :
    i.SameHead j := by
  obtain ⟨hkeyword, hargument⟩ := keyword_argument_of_mnemonic h
  have hbare := bare_eq_of_keyword hkeyword
  have hlabel {label label' : Label} (h : " " ++ label.render = " " ++ label'.render) :
      label = label' :=
    Label.render_injective ((String.append_right_inj _).mp h)
  cases i with
  | operate op =>
      cases j with
      | operate op' => exact .operate (op.alike_of_argument (operate.inj hbare) hargument)
      | _ => cases hbare
  | call name =>
      cases j with
      | call name' =>
          rw [(String.append_right_inj _).mp hargument]
          exact .call _
      | _ => cases hbare
  | block label body =>
      cases j with
      | block label' body' => rw [hlabel hargument]; exact .block _ _ _
      | _ => cases hbare
  | loop label body =>
      cases j with
      | loop label' body' => rw [hlabel hargument]; exact .loop _ _ _
      | _ => cases hbare
  | branch label =>
      cases j with
      | branch label' => rw [hlabel hargument]; exact .branch _
      | _ => cases hbare
  | branchIf label =>
      cases j with
      | branchIf label' => rw [hlabel hargument]; exact .branchIf _
      | _ => cases hbare

end Alike

end EchoLang
