import EchoLang.FloatBits
import Mathlib

namespace EchoLang.FloatBits

-- Arithmetic sees nothing of the pattern that a result is kept in. No part of Mathlib leads to
-- the law of patterns that this rests on, hence the import of all of it.
@[simp] theorem value_ofValue (x : Float32) : (ofValue x).value = x := Float32.ofBits_toBits x

end EchoLang.FloatBits
