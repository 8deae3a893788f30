import EthPanel.App.Display
import EthPanel.App.Ws2812

/-!
# `rings/rings_hw.c`

A push writes the words of a frame to the state machine of its ring. With what `Display` says of
the frames that are pushed, the lights of a ring show the colour its commands have set.
-/

namespace EthPanel

open Lts Pio Nrz

/-- The bits of a channel, as they are sent. -/
def byteBits (c : UInt8) : List Bool := (List.range 8).map c.toBitVec.getMsbD

/-- What a light shows: green, red and blue. -/
def RingState.bits (s : RingState) : List Bool :=
  byteBits (ringsScale s.g s.brightness) ++ byteBits (ringsScale s.r s.brightness) ++
    byteBits (ringsScale s.b s.brightness)

variable {nleds : Ring → UInt16}

end EthPanel
