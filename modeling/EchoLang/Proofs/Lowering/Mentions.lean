import EchoLang.Proofs.Lowering.Faults
import Mathlib.Data.List.DropRight

namespace EchoLang

-- A use reads a variable or assigns to it. A stray statement stands outside of procedures,
-- and a nested procedure inside of one.
inductive Mention where
  | stray (loc : Location)
  | opens (procedure : String) (loc : Location)
  | nested (loc : Location)
  | declares (name : String)
  | uses (name : String) (loc : Location)
deriving DecidableEq

def Mention.isOpening : Mention → Bool
  | opens .. => true
  | _ => false

def Expr.mentions : Expr → List Mention
  | number _ _ => []
  | var name loc => [.uses name loc]
  | binary left _ right _ => left.mentions ++ right.mentions
  | paren inner _ => inner.mentions

mutual

-- A value comes before the name that it is given to. What a nested procedure says does not
-- matter.
def Stmt.mentions : Stmt → List Mention
  | .echo value _ => value.mentions
  | .procedure _ _ _ loc => [.nested loc]
  | .declare name value _ => value.mentions ++ [.declares name]
  | .assign name value loc => value.mentions ++ [.uses name loc]
  | .loop condition body _ => condition.mentions ++ bodyMentions body
  | .ifThen condition body _ => condition.mentions ++ bodyMentions body
  | .ifElse condition first second _ =>
      condition.mentions ++ (bodyMentions first ++ bodyMentions second)

def bodyMentions : List Stmt → List Mention
  | [] => []
  | s :: rest => s.mentions ++ bodyMentions rest

end

def Stmt.topMentions : Stmt → List Mention
  | .procedure name _ body loc => .opens name loc :: bodyMentions body
  | s => [.stray s.loc]

def Program.mentions (p : Program) : List Mention :=
  p.flatMap Stmt.topMentions

-- What was said since the last procedure was opened.
def sinceOpening (before : List Mention) : List Mention :=
  before.rtakeWhile (!·.isOpening)

-- What is wrong with a mention, if others have come before it.
inductive Violates (before : List Mention) : Mention → CompileError → Prop where
  | stray {loc : Location} : Violates before (.stray loc) (.grammar loc .strayStatement)
  | duplicate {name : String} {loc loc' : Location} (h : .opens name loc' ∈ before) :
      Violates before (.opens name loc) (.naming loc (.duplicateProcedure name))
  | nested {loc : Location} : Violates before (.nested loc) (.lowering loc .nestedProcedure)
  | unknown {name : String} {loc : Location} (h : .declares name ∉ sinceOpening before) :
      Violates before (.uses name loc) (.naming loc (.unknownVariable name))

-- Nothing is wrong with any of the mentions.
def Clean (before mentions : List Mention) : Prop :=
  ∀ earlier mention later, mentions = earlier ++ mention :: later →
    ∀ e, ¬Violates (before ++ earlier) mention e

-- Something is wrong with one of the mentions and with none that comes earlier.
def FirstViolation (before mentions : List Mention) (e : CompileError) : Prop :=
  ∃ earlier mention later, mentions = earlier ++ mention :: later ∧
    Violates (before ++ earlier) mention e ∧ Clean before earlier

section Order

variable {before mentions : List Mention} {mention : Mention} {e : CompileError}

theorem violates_stray_iff {loc : Location} :
    Violates before (.stray loc) e ↔ e = .grammar loc .strayStatement := by
  constructor
  · rintro ⟨⟩
    rfl
  · rintro rfl
    exact .stray

theorem violates_opens_iff {name : String} {loc : Location} : Violates before (.opens name loc) e ↔
    (∃ loc', .opens name loc' ∈ before) ∧ e = .naming loc (.duplicateProcedure name) := by
  constructor
  · intro h
    cases h with
    | duplicate hmem => exact ⟨⟨_, hmem⟩, rfl⟩
  · rintro ⟨⟨loc', hmem⟩, rfl⟩
    exact .duplicate hmem

theorem violates_nested_iff {loc : Location} :
    Violates before (.nested loc) e ↔ e = .lowering loc .nestedProcedure := by
  constructor
  · rintro ⟨⟩
    rfl
  · rintro rfl
    exact .nested

theorem not_violates_declares {name : String} : ¬Violates before (.declares name) e := by
  rintro ⟨⟩

theorem violates_uses_iff {name : String} {loc : Location} : Violates before (.uses name loc) e ↔
    .declares name ∉ sinceOpening before ∧ e = .naming loc (.unknownVariable name) := by
  constructor
  · intro h
    cases h with
    | unknown hunknown => exact ⟨hunknown, rfl⟩
  · rintro ⟨hunknown, rfl⟩
    exact .unknown hunknown

theorem clean_nil : Clean before [] := by
  intro earlier mention later h
  simp at h

theorem clean_cons : Clean before (mention :: mentions) ↔
    (∀ e, ¬Violates before mention e) ∧ Clean (before ++ [mention]) mentions := by
  constructor
  · intro h
    refine ⟨fun e he => h [] mention mentions rfl e (by simpa using he), ?_⟩
    intro earlier other later hsplit e he
    exact h (mention :: earlier) other later (by rw [hsplit]; rfl) e (by simpa using he)
  · rintro ⟨hfirst, hrest⟩ earlier other later hsplit e he
    cases earlier with
    | nil =>
        obtain ⟨rfl, -⟩ := List.cons.inj hsplit
        exact hfirst e (by simpa using he)
    | cons first earlier =>
        obtain ⟨rfl, htail⟩ := List.cons.inj hsplit
        exact hrest earlier other later htail e (by simpa using he)

theorem clean_append {more : List Mention} : Clean before (mentions ++ more) ↔
    Clean before mentions ∧ Clean (before ++ mentions) more := by
  induction mentions generalizing before with
  | nil => simp [clean_nil]
  | cons mention mentions ih =>
      rw [List.cons_append, clean_cons, clean_cons, ih, and_assoc, List.append_assoc]
      rfl

theorem not_firstViolation_nil : ¬FirstViolation before [] e := by
  rintro ⟨earlier, mention, later, hsplit, -⟩
  simp at hsplit

theorem firstViolation_cons : FirstViolation before (mention :: mentions) e ↔
    Violates before mention e ∨
      (∀ e', ¬Violates before mention e') ∧ FirstViolation (before ++ [mention]) mentions e := by
  constructor
  · rintro ⟨earlier, other, later, hsplit, hviolates, hclean⟩
    cases earlier with
    | nil =>
        obtain ⟨rfl, -⟩ := List.cons.inj hsplit
        exact .inl (by simpa using hviolates)
    | cons first earlier =>
        obtain ⟨rfl, htail⟩ := List.cons.inj hsplit
        obtain ⟨hfirst, hclean⟩ := clean_cons.mp hclean
        exact .inr ⟨hfirst, earlier, other, later, htail, by simpa using hviolates, hclean⟩
  · rintro (hviolates | ⟨hfirst, earlier, other, later, hsplit, hviolates, hclean⟩)
    · exact ⟨[], mention, mentions, rfl, by simpa using hviolates, clean_nil⟩
    · refine ⟨mention :: earlier, other, later, by rw [hsplit]; rfl, by simpa using hviolates, ?_⟩
      exact clean_cons.mpr ⟨hfirst, hclean⟩

theorem clean_iff : Clean before mentions ↔ ∀ e, ¬FirstViolation before mentions e := by
  induction mentions generalizing before with
  | nil => simp [clean_nil, not_firstViolation_nil]
  | cons mention mentions ih =>
      simp only [clean_cons, firstViolation_cons, ih, not_or, not_and]
      constructor
      · rintro ⟨hfirst, hrest⟩ e
        exact ⟨hfirst e, fun _ => hrest e⟩
      · intro h
        have hfirst := fun e => (h e).1
        exact ⟨hfirst, fun e => (h e).2 hfirst⟩

end Order

section Reading

-- What is known from the mentions so far.
structure Seen where
  procedures : List String
  slots : Slots

def Mention.read (seen : Seen) : Mention → Except CompileError Seen
  | stray loc => .error (.grammar loc .strayStatement)
  | opens name loc =>
    if name ∈ seen.procedures then .error (.naming loc (.duplicateProcedure name))
    else .ok ⟨name :: seen.procedures, .empty⟩
  | nested loc => .error (.lowering loc .nestedProcedure)
  | declares name => .ok { seen with slots := (seen.slots.declare name).2 }
  | uses name loc => (seen.slots.require name loc).map fun _ => seen

-- What was seen is what the mentions say.
structure Reflects (before : List Mention) (seen : Seen) : Prop where
  procedures : ∀ name, name ∈ seen.procedures ↔ ∃ loc, .opens name loc ∈ before
  slots : ∀ name, name ∈ seen.slots.names ↔ .declares name ∈ sinceOpening before

variable {before mentions : List Mention} {mention : Mention} {seen seen' : Seen}
  {e : CompileError}

theorem sinceOpening_concat (before : List Mention) (mention : Mention) :
    sinceOpening (before ++ [mention]) =
      if mention.isOpening then [] else sinceOpening before ++ [mention] := by
  unfold sinceOpening
  rw [List.rtakeWhile_concat]
  cases mention.isOpening <;> rfl

theorem Slots.require_eq_error_iff {slots : Slots} {name : String} {loc : Location} :
    slots.require name loc = .error e ↔
      name ∉ slots.names ∧ e = .naming loc (.unknownVariable name) := by
  rw [← Slots.resolve?_eq_none_iff]
  unfold Slots.require
  cases slots.resolve? name with
  | some slot => simp
  | none => simp [eq_comm]

-- Reading fails at a mention if and only if something is wrong with it.
theorem Reflects.read_eq_error_iff (h : Reflects before seen) :
    mention.read seen = .error e ↔ Violates before mention e := by
  cases mention with
  | stray loc =>
      rw [violates_stray_iff, Mention.read]
      simp [eq_comm]
  | opens name loc =>
      rw [violates_opens_iff, ← h.procedures, Mention.read]
      by_cases hname : name ∈ seen.procedures <;> simp [hname, eq_comm]
  | nested loc =>
      rw [violates_nested_iff, Mention.read]
      simp [eq_comm]
  | declares name => simp [Mention.read, not_violates_declares]
  | uses name loc =>
      rw [violates_uses_iff, ← h.slots, ← Slots.require_eq_error_iff, Mention.read]
      cases seen.slots.require name loc <;> simp [Except.map]

theorem Reflects.read (h : Reflects before seen) (hread : mention.read seen = .ok seen') :
    Reflects (before ++ [mention]) seen' := by
  cases mention with
  | stray loc => cases hread
  | opens name loc =>
      rw [Mention.read] at hread
      split at hread
      · cases hread
      · cases hread
        refine ⟨?_, ?_⟩
        · intro other
          rw [List.mem_cons, h.procedures]
          constructor
          · rintro (rfl | ⟨loc', hmem⟩)
            · exact ⟨loc, by simp⟩
            · exact ⟨loc', List.mem_append_left _ hmem⟩
          · rintro ⟨loc', hmem⟩
            simp only [List.mem_append, List.mem_singleton, Mention.opens.injEq] at hmem
            rcases hmem with hmem | ⟨rfl, -⟩
            · exact .inr ⟨loc', hmem⟩
            · exact .inl rfl
        · intro other
          simp [sinceOpening_concat, Mention.isOpening, Slots.empty]
  | nested loc => cases hread
  | declares name =>
      cases hread
      refine ⟨?_, ?_⟩
      · intro other
        simpa using h.procedures other
      · intro other
        simp [sinceOpening_concat, Mention.isOpening, Slots.mem_names_declare, h.slots]
  | uses name loc =>
      obtain ⟨slot, -, rfl⟩ := exists_of_map_eq_ok hread
      refine ⟨?_, ?_⟩
      · intro other
        simpa using h.procedures other
      · intro other
        simp [sinceOpening_concat, Mention.isOpening, h.slots]

-- Reading all mentions stops at the first one with which something is wrong.
theorem Reflects.foldlM_eq_error_iff (h : Reflects before seen) :
    mentions.foldlM Mention.read seen = .error e ↔ FirstViolation before mentions e := by
  induction mentions generalizing before seen with
  | nil => simp [not_firstViolation_nil, pure, Except.pure]
  | cons mention mentions ih =>
      rw [List.foldlM_cons, firstViolation_cons, ← h.read_eq_error_iff]
      cases hread : mention.read seen with
      | error e' =>
          have hviolates : Violates before mention e' := h.read_eq_error_iff.mp hread
          constructor
          · exact .inl
          · rintro (he | ⟨hfine, -⟩)
            · exact he
            · exact absurd hviolates (hfine e')
      | ok seen' =>
          have hfine (e' : CompileError) : ¬Violates before mention e' := by
            rw [← h.read_eq_error_iff, hread]
            simp
          change mentions.foldlM Mention.read seen' = .error e ↔ _
          rw [ih (h.read hread)]
          simp [hfine]

theorem reflects_nil : Reflects [] ⟨[], .empty⟩ :=
  ⟨by simp, by simp [Slots.empty, sinceOpening]⟩

end Reading

section Lowering

-- Mentions of an expression are read where it is lowered, and nothing is learned from them.
theorem Expr.foldlM_mentions (seen : Seen) (e : Expr) :
    e.mentions.foldlM Mention.read seen = translate id (fun _ => seen) (e.lower seen.slots) := by
  induction e with
  | number value loc => rfl
  | var name loc =>
      rw [Expr.mentions, List.foldlM_cons, Mention.read, Expr.lower]
      cases seen.slots.require name loc <;> rfl
  | paren inner loc ih => exact ih
  | binary left op right loc ihLeft ihRight =>
      rw [Expr.mentions, List.foldlM_append, ihLeft, Expr.lower]
      refine bind_translate _ fun _ => ?_
      rw [ihRight]
      exact translate_bind _ fun _ => rfl

theorem Expr.foldlM_mentions_as (seen : Seen) (shape : Shape) (e : Expr) :
    e.mentions.foldlM Mention.read seen =
      translate id (fun _ => seen) (e.lowerAs seen.slots shape) := by
  rw [e.foldlM_mentions, Expr.lowerAs]
  exact translate_bind _ fun _ => rfl

theorem Expr.foldlM_mentions_guard (seen : Seen) (label : Label) (e : Expr) :
    e.mentions.foldlM Mention.read seen =
      translate id (fun _ => seen) (e.lowerGuard seen.slots label) := by
  rw [e.foldlM_mentions_as seen .flag, Expr.lowerGuard]
  exact translate_bind _ fun _ => rfl

-- What is seen when the procedures opened so far are known and a context is reached.
def Context.seen (procedures : List String) (ctx : Context) : Seen := ⟨procedures, ctx.slots⟩

-- A guard is read before what it guards. That a number has been taken is not seen.
theorem foldlM_guarded (procedures : List String) (ctx : Context) (condition : Expr)
    (label : Label) {mentions : List Mention}
    {next : List Instr → Except CompileError (List Instr × Context)}
    (hnext : ∀ guard, mentions.foldlM Mention.read (ctx.afterLabel.seen procedures) =
      translate id (fun r => r.2.seen procedures) (next guard)) :
    (condition.mentions ++ mentions).foldlM Mention.read (ctx.seen procedures) =
      translate id (fun r => r.2.seen procedures)
        (condition.lowerGuard ctx.afterLabel.slots label >>= next) := by
  rw [List.foldlM_append, condition.foldlM_mentions_guard _ label]
  exact bind_translate _ hnext

theorem next_of_lower {s : Stmt} {ctx : Context} {r : List Instr × Context}
    (h : s.lower ctx = .ok r) : r.2.labels.next = ctx.labels.next + s.branchings := by
  exact (lowers_cons s h .nil).next_eq

mutual

theorem Stmt.foldlM_mentions (procedures : List String) : ∀ (s : Stmt) (ctx : Context),
    ctx.labels.next + s.branchings ≤ LabelCounter.limit →
      s.mentions.foldlM Mention.read (ctx.seen procedures) =
        translate id (fun r => r.2.seen procedures) (s.lower ctx)
  | .echo value loc, ctx, _ => by
      rw [Stmt.mentions, Stmt.lower, value.foldlM_mentions_as _ .float]
      exact translate_bind _ fun _ => rfl
  | .declare name value loc, ctx, _ => by
      rw [Stmt.mentions, List.foldlM_append, Stmt.lower, value.foldlM_mentions_as _ .float]
      exact bind_translate _ fun _ => rfl
  | .assign name value loc, ctx, _ => by
      rw [Stmt.mentions, List.foldlM_append, Stmt.lower, value.foldlM_mentions_as _ .float]
      refine bind_translate _ fun _ => ?_
      rw [List.foldlM_cons, Mention.read, Context.seen]
      cases ctx.slots.require name loc <;> rfl
  | .loop condition body loc, ctx, hlabels | .ifThen condition body loc, ctx, hlabels => by
      rw [Stmt.branchings] at hlabels
      have hinside := ctx.next_afterLabel
      rw [Stmt.mentions, Stmt.lower, takeLabel_of_lt (by omega)]
      refine foldlM_guarded procedures ctx condition _ fun guard => ?_
      rw [foldlM_bodyMentions procedures body ctx.afterLabel (by omega)]
      exact translate_bind _ fun _ => rfl
  | .ifElse condition first second loc, ctx, hlabels => by
      rw [Stmt.branchings] at hlabels
      have hinside := ctx.next_afterLabel
      rw [Stmt.mentions, Stmt.lower, takeLabel_of_lt (by omega)]
      refine foldlM_guarded procedures ctx condition _ fun guard => ?_
      rw [List.foldlM_append, foldlM_bodyMentions procedures first ctx.afterLabel (by omega)]
      refine bind_translate_of_ok fun (firstCode, middle) hr => ?_
      have hnext := (lowers_of_lowerBody first hr).next_eq
      refine (foldlM_bodyMentions procedures second middle (by omega)).trans ?_
      exact translate_bind _ fun _ => rfl
  | .procedure name exported body loc, ctx, _ => by
      rw [Stmt.mentions, Stmt.lower]
      rfl

theorem foldlM_bodyMentions (procedures : List String) : ∀ (body : List Stmt) (ctx : Context),
    ctx.labels.next + bodyBranchings body ≤ LabelCounter.limit →
      (bodyMentions body).foldlM Mention.read (ctx.seen procedures) =
        translate id (fun r => r.2.seen procedures) (lowerBody body ctx)
  | [], ctx, _ => rfl
  | s :: rest, ctx, hlabels => by
      rw [bodyBranchings] at hlabels
      rw [bodyMentions, List.foldlM_append, lowerBody,
        Stmt.foldlM_mentions procedures s ctx (by omega)]
      refine bind_translate_of_ok fun (code, middle) hr => ?_
      have hnext : middle.labels.next = _ := next_of_lower hr
      refine (foldlM_bodyMentions procedures rest middle (by omega)).trans ?_
      exact translate_bind _ fun _ => rfl

end

-- Every procedure has variables of its own, whatever the one before it declared.
theorem error?_foldlM_mentions (p : Program) (declared : List String) (slots : Slots)
    (labels : LabelCounter) (hlabels : labels.next + p.branchings ≤ LabelCounter.limit) :
    error? (p.mentions.foldlM Mention.read ⟨declared, slots⟩) =
      error? (lowerProcedures declared labels p) := by
  induction p generalizing declared slots labels with
  | nil => rfl
  | cons s rest ih =>
      have hcount : Program.branchings (s :: rest) = s.branchings + Program.branchings rest := rfl
      have hmentions : Program.mentions (s :: rest) = s.topMentions ++ Program.mentions rest := rfl
      rw [hmentions, List.foldlM_append]
      cases s with
      | procedure name exported body loc =>
          rw [Stmt.branchings] at hcount
          rw [Stmt.topMentions, List.foldlM_cons, Mention.read, lowerProcedures]
          by_cases hname : name ∈ declared
          · rw [if_pos hname, if_pos hname]
            rfl
          · rw [if_neg hname, if_neg hname]
            have hbody := foldlM_bodyMentions (name :: declared) body ⟨.empty, labels⟩
              (by dsimp only; omega)
            change error? (List.foldlM _ (Context.seen _ ⟨.empty, labels⟩) _ >>= _) = _
            rw [hbody]
            cases hlower : lowerBody body ⟨.empty, labels⟩ with
            | error e => rfl
            | ok r =>
                have hnext := (lowers_of_lowerBody body hlower).next_eq
                dsimp only at hnext
                refine (ih (name :: declared) r.2.slots r.2.labels (by omega)).trans ?_
                exact (error?_bind fun _ => rfl).symm
      | _ => rfl

end Lowering

end EchoLang
