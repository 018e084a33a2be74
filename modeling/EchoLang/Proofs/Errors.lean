import EchoLang.Error
import EchoLang.Proofs.Except

namespace EchoLang

-- What has gone wrong, without where and how.
inductive ErrorKind where
  | lexical
  | grammar
  | naming
  | lowering
  | target
deriving DecidableEq

def CompileError.kind : CompileError → ErrorKind
  | lexical .. => .lexical
  | grammar .. => .grammar
  | naming .. => .naming
  | lowering .. => .lowering
  | target .. => .target

section Outcome

variable {α β : Type} {kinds kinds' : List ErrorKind} {good : α → Prop} {good' : β → Prop}
  {r : Except CompileError α}

-- The result is good, or there is an error of one of the kinds.
def Outcome (kinds : List ErrorKind) (good : α → Prop) : Except CompileError α → Prop
  | .ok a => good a
  | .error e => e.kind ∈ kinds

theorem Outcome.bind {next : α → Except CompileError β} (hr : Outcome kinds good r)
    (hnext : ∀ a, good a → Outcome kinds good' (next a)) : Outcome kinds good' (r >>= next) := by
  cases r with
  | ok a => exact hnext a hr
  | error e => exact hr

theorem Outcome.mono (hr : Outcome kinds good r) (hkinds : kinds ⊆ kinds') :
    Outcome kinds' good r := by
  cases r with
  | ok a => exact hr
  | error e => exact hkinds hr

end Outcome

end EchoLang
