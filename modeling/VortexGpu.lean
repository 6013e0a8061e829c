import VortexGpu.MmuDelivery
import VortexGpu.RingOverflow
import VortexGpu.RingPolling
import VortexGpu.CtaDispatchRtl
import VortexGpu.CtaResidency
import VortexGpu.HostOrder
import VortexGpu.CpDecoders
import VortexGpu.CpSharing
import VortexGpu.CtaSlots
import VortexGpu.DivergenceRtl
import VortexGpu.BarrierTokens
import VortexGpu.BarrierRounds
import VortexGpu.BarrierAgree
import VortexGpu.GlobalRounds
import VortexGpu.Reservations
import VortexGpu.SerialDivRtl
import VortexGpu.SerialMulRtl
import VortexGpu.SparseRoundTrip
import VortexGpu.DxaAddrGenRtl
import VortexGpu.LsuFence
import VortexGpu.CoalescerServes
import VortexGpu.CpDmaMemory
import VortexGpu.CpCompletionRtl
import VortexGpu.GfxTiles
import VortexGpu.DeviceMem
import VortexGpu.HostFill
import VortexGpu.HostRect
import VortexGpu.AmoReservationRtl
import VortexGpu.ArbitersRtl
