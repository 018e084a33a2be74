import EchoLang.Proofs.Machine.Ends
import EchoLang.Proofs.Wasm.RoundTrip

namespace EchoLang

-- What is added to a module and can be called then.
inductive Callee where
  | effect (e : Effect)
  | function (f : FunctionDef)

namespace Callee

def name : Callee → String
  | effect e => e.name
  | function f => f.name

-- How the machine calls it. The only effect a host has is `echo`.
def call (enter : FunctionDef → Exec Unit) (name : String) : Callee → Exec Unit
  | effect e => do
    if e.field = Effect.echo.field then
      Exec.print (← Exec.popFloat (Instr.call name).mnemonic)
    else
      throw (.unknownFunction name)
  | function f => enter f

end Callee

namespace CodeModule

variable {m recorded built : CodeModule} {target : Target} {name : String}

def add (target : Target) (m : CodeModule) : Callee → Except CompileError CodeModule
  | .effect e => m.addEffect target e
  | .function f => m.addFunction target f

-- Adds one after the other, if the target takes all of them.
def addAll (target : Target) (m : CodeModule) (callees : List Callee) :
    Except CompileError CodeModule :=
  callees.foldlM (add target) m

-- What a target makes of an addition that it takes.
def extend (m : CodeModule) : Callee → CodeModule
  | .effect e => { m with imports := m.imports ++ [e] }
  | .function f => { m with functions := m.functions ++ [f] }

theorem eq_extend_of_add {c : Callee} (h : m.add target c = .ok built) : built = m.extend c := by
  cases c with
  | effect e =>
      rw [add, addEffect] at h
      split at h
      · cases h
      · exact (Except.ok.inj h).symm
  | function f =>
      rw [add, addFunction] at h
      split at h
      · cases h
      · exact (Except.ok.inj h).symm

theorem eq_foldl_of_addAll {callees : List Callee} (h : m.addAll target callees = .ok built) :
    built = callees.foldl extend m := by
  induction callees generalizing m with
  | nil => exact (Except.ok.inj h).symm
  | cons c rest ih =>
      rw [addAll, List.foldlM_cons] at h
      obtain ⟨next, hnext, hrest⟩ := exists_of_bind_eq_ok h
      rw [List.foldl_cons, ← eq_extend_of_add hnext]
      exact ih hrest

-- Targets that take the same additions build the same module.
theorem addAll_unique {target' : Target} {callees : List Callee}
    (h : m.addAll target callees = .ok recorded) (h' : m.addAll target' callees = .ok built) :
    recorded = built :=
  (eq_foldl_of_addAll h).trans (eq_foldl_of_addAll h').symm

-- All that can be called, by the index that WebAssembly gives it.
def callees (m : CodeModule) : List Callee :=
  m.imports.map .effect ++ m.functions.map .function

def calleesOf (m : CodeModule) (name : String) : List Callee :=
  m.callees.filter (·.name = name)

theorem map_name_callees (m : CodeModule) : m.callees.map (·.name) = Wasm.functionNames m := by
  simp [callees, Wasm.functionNames, Callee.name, Function.comp_def]

-- The machine looks through the imports first, and in each list for the first of the name.
theorem head?_calleesOf (m : CodeModule) (name : String) :
    (m.calleesOf name).head? =
      ((m.effect? name).map Callee.effect).or ((m.function? name).map Callee.function) := by
  rw [calleesOf, List.head?_filter, callees, List.find?_append, List.find?_map, List.find?_map]
  rfl

theorem callNamed_of_head? {c : Callee} (h : (m.calleesOf name).head? = some c)
    (enter : FunctionDef → Exec Unit) : Machine.callNamed m enter name = c.call enter name := by
  rw [head?_calleesOf] at h
  unfold Machine.callNamed
  cases heffect : m.effect? name with
  | some e =>
      rw [heffect] at h
      cases h
      rfl
  | none =>
      rw [heffect] at h
      cases hfunction : m.function? name with
      | some f =>
          rw [hfunction] at h
          cases h
          rfl
      | none =>
          rw [hfunction] at h
          cases h

-- A name that is used once stands for one thing.
theorem calleesOf_of_count_eq_one (h : (m.callees.map (·.name)).count name = 1) :
    ∃ c, m.calleesOf name = [c] := by
  rw [← List.length_eq_one_iff, calleesOf, ← List.countP_eq_length_filter, ← h, List.count,
    List.countP_map]
  rfl

end CodeModule

namespace Wasm

variable {α : Type} {key : α → String} {name : String} {index : Nat}

-- By the recursion of the search: a later match wins over the one at hand.
theorem getLast?_filter_of_lastIndex? {l : List α}
    (h : lastIndex? (l.map key) name = some index) :
    (l.filter (key · = name)).getLast? = l[index]? := by
  induction l generalizing index with
  | nil => cases h
  | cons a l ih =>
      rw [List.map_cons, lastIndex?] at h
      cases hlater : lastIndex? (l.map key) name with
      | some later =>
          rw [hlater] at h
          cases h
          have hlast := ih hlater
          have hlt : later < l.length := by
            have hget := (getElem?_of_lastIndex? hlater).1
            simpa using (List.getElem?_eq_some_iff.mp hget).1
          rw [List.getElem?_cons_succ, ← hlast, List.filter_cons]
          split
          · rw [List.getLast?_cons, hlast, List.getElem?_eq_getElem hlt]
            rfl
          · rfl
      | none =>
          rw [hlater] at h
          dsimp only at h
          have hnone : l.filter (key · = name) = [] := by
            rw [List.filter_eq_nil_iff]
            intro b hb hkey
            refine not_mem_of_lastIndex? hlater (List.mem_map.mpr ⟨b, hb, ?_⟩)
            simpa using hkey
          split at h
          · rename_i hkey
            cases h
            rw [List.filter_cons, if_pos (by simpa using hkey), hnone]
            rfl
          · cases h

theorem exists_lastIndex? {names : List String} (h : name ∈ names) :
    ∃ index, lastIndex? names name = some index := by
  cases hindex : lastIndex? names name with
  | some index => exact ⟨index, rfl⟩
  | none => exact absurd h (not_mem_of_lastIndex? hindex)

theorem encodeInstr_call {names : List String} (h : lastIndex? names name = some index)
    (scopes : List Label) :
    encodeInstr names scopes (.call name) = .ok (0x10 :: unsigned index) := by
  rw [encodeInstr, calleeIndex, h]
  rfl

end Wasm

open CodeModule

-- The machine and the encoder disagree about a name only if it is used more than once. The
-- machine takes the first import or function of the name, and the index in the binary is that
-- of the last one.
theorem calls_agree_on_unique_names {unit name : String} {additions : List Callee}
    {recorded built : CodeModule}
    (hrecorded : (CodeModule.empty unit).addAll .listing additions = .ok recorded)
    (hbuilt : (CodeModule.empty unit).addAll .wasm additions = .ok built)
    (hname : name ∈ recorded.callees.map (·.name)) :
    ∃ index first last,
      (∀ scopes, Wasm.encodeInstr (Wasm.functionNames built) scopes (.call name) =
        .ok (0x10 :: Wasm.unsigned index)) ∧
      built.callees[index]? = some last ∧
      (∀ enter, Machine.callNamed recorded enter name = first.call enter name) ∧
      (recorded.calleesOf name).head? = some first ∧
      (recorded.calleesOf name).getLast? = some last ∧
      ((recorded.callees.map (·.name)).count name = 1 → first = last) := by
  have hsame := addAll_unique hrecorded hbuilt
  subst hsame
  obtain ⟨index, hindex⟩ := Wasm.exists_lastIndex? hname
  have hlast : (recorded.calleesOf name).getLast? = recorded.callees[index]? :=
    Wasm.getLast?_filter_of_lastIndex? hindex
  have hlt : index < recorded.callees.length := by
    have hget := (Wasm.getElem?_of_lastIndex? hindex).1
    simpa using (List.getElem?_eq_some_iff.mp hget).1
  rw [List.getElem?_eq_getElem hlt] at hlast
  have hfirst : ∃ first, (recorded.calleesOf name).head? = some first := by
    cases hcallees : recorded.calleesOf name with
    | nil =>
        rw [hcallees] at hlast
        cases hlast
    | cons first rest => exact ⟨first, rfl⟩
  obtain ⟨first, hfirst⟩ := hfirst
  refine ⟨index, first, recorded.callees[index], ?_, List.getElem?_eq_getElem hlt,
    callNamed_of_head? hfirst, hfirst, hlast, ?_⟩
  · rw [← map_name_callees]
    exact Wasm.encodeInstr_call hindex
  · intro honce
    obtain ⟨c, hc⟩ := calleesOf_of_count_eq_one honce
    rw [hc] at hfirst hlast
    exact Option.some.inj (hfirst.symm.trans hlast)

-- Two functions have one name, and `main` calls it.
def repeatedTick : CodeModule where
  unit := "tick"
  imports := [.echo]
  functions :=
    [⟨"tick", false, [], [.operate (.floatConst 1), .call "echo"]⟩, ⟨"tick", false, [], []⟩,
      ⟨"main", true, [], [.call "tick"]⟩]

theorem calls_agree_on_unique_names_echo :
    ∃ index first last,
      (∀ scopes, Wasm.encodeInstr (Wasm.functionNames repeatedTick) scopes (.call "echo") =
        .ok (0x10 :: Wasm.unsigned index)) ∧
      repeatedTick.callees[index]? = some last ∧
      (∀ enter, Machine.callNamed repeatedTick enter "echo" = first.call enter "echo") ∧
      (repeatedTick.calleesOf "echo").head? = some first ∧
      (repeatedTick.calleesOf "echo").getLast? = some last ∧ first = last := by
  have hadded (target : Target) :
      (CodeModule.empty "tick").addAll target repeatedTick.callees = .ok repeatedTick := by
    cases target <;> rfl
  have hname : "echo" ∈ repeatedTick.callees.map (·.name) := by decide
  obtain ⟨index, first, last, hindex, hget, hcall, hfirst, hlast, hsame⟩ :=
    calls_agree_on_unique_names (hadded .listing) (hadded .wasm) hname
  exact ⟨index, first, last, hindex, hget, hcall, hfirst, hlast, hsame (by decide)⟩

-- Both targets take the module. A machine that comes to the call enters the function that
-- prints, and the index in the binary is that of the function that does nothing.
theorem calls_disagree_on_repeated_name :
    (CodeModule.empty "tick").addAll .listing repeatedTick.callees = .ok repeatedTick ∧
      (CodeModule.empty "tick").addAll .wasm repeatedTick.callees = .ok repeatedTick ∧
      Wasm.encodeInstr (Wasm.functionNames repeatedTick) [] (.call "tick") = .ok [0x10, 2] ∧
      repeatedTick.callees[2]? = some (.function ⟨"tick", false, [], []⟩) ∧
      (∀ enter, Machine.callNamed repeatedTick enter "tick" =
        enter ⟨"tick", false, [], [.operate (.floatConst 1), .call "echo"]⟩) ∧
      (repeatedTick.calleesOf "tick").head? ≠ repeatedTick.callees[2]? := by
  have hindex : Wasm.lastIndex? (Wasm.functionNames repeatedTick) "tick" = some 2 := rfl
  refine ⟨rfl, rfl, ?_, rfl, fun _ => rfl, ?_⟩
  · rw [Wasm.encodeInstr_call hindex, Wasm.unsigned]
    rfl
  · simp [repeatedTick, calleesOf, callees, Callee.name, Effect.echo]

end EchoLang
