import RaptorqTs.Dec.Regain
import RaptorqTs.System

/-!
# The encoder is started again

The decoder keeps running when the encoder stops and another one is started, with another input and
with SBNs from 0 on, or when the link has been down for a while. Once the packets of the new stream
get through, the decoder writes the new input.
-/

namespace RaptorqTs

open Enc

section Restart

variable {E R D : Type} {setup : Setup E R} {env : Env D} {code : FountainCode} {stdin : Bytes}
  {rng : R} {p : Pipeline E R} {k m δ j : ℕ} {frames : List WireFrame}

namespace Relayed

end Relayed

end Restart

namespace Reference

end Reference

end RaptorqTs
