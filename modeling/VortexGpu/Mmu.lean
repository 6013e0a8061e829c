import VortexGpu.PageTable

/-!
# The memory management unit of a core

`Mmu` sits between a core and its cache. A request whose page is in the TLB is passed on at once; a
miss is parked in the single page-table walker, which fetches entries through port 0 and fills the
TLB before it passes the request on. A channel out of it is the list of packets sent with the room
it still has.
-/

namespace VortexGpu.Simx
open Word ByteMem Vm Function

structure TlbEntry where
  valid : Bool
  mru : Bool
  vpn : ℕ
  ppn : ℕ
  flags : ℕ
deriving DecidableEq, Repr

abbrev Tlb := List TlbEntry

namespace Tlb

def new (size : ℕ) : Tlb := List.replicate size ⟨false, false, 0, 0, 0⟩

def lookup : Tlb → ℕ → Tlb × Option ℕ
  | [], _ => ([], none)
  | e :: entries, vpn =>
    if e.valid ∧ e.vpn = vpn then ({ e with mru := true } :: entries, some e.ppn)
    else
      let r := lookup entries vpn
      (e :: r.1, r.2)

def victim (entries : Tlb) : Option ℕ :=
  (entries.findIdx? (fun e => !e.valid)).or (entries.findIdx? (fun e => !e.mru))

def fill (entries : Tlb) (vpn ppn flags : ℕ) : Tlb :=
  let e : TlbEntry := ⟨true, true, vpn, ppn, flags⟩
  match victim entries with
  | some i => entries.set i e
  | none => (entries.map (fun e => { e with mru := false })).set 0 e

def flush (entries : Tlb) : Tlb := entries.map (fun e => { e with valid := false, mru := false })

end Tlb

inductive MemOp where
  | ld
  | st
  | flush
  | amoLr
  | amoSc
  | amoSwap
  | amoAdd
  | amoAnd
  | amoOr
  | amoXor
  | amoMin
  | amoMax
deriving DecidableEq, Repr

structure MemReq where
  op : MemOp
  addr : ℕ
  data : Option Mem
  byteen : ℕ
  tag : ℕ
  hartId : ℕ
  uuid : ℕ
  flags : ℕ

structure MemRsp where
  tag : ℕ
  hartId : ℕ
  uuid : ℕ
  data : Option Mem

structure OutPort (α : Type) where
  room : ℕ
  sent : List α

namespace OutPort
variable {α : Type}

def full (c : OutPort α) : Bool := c.room == 0

def send (c : OutPort α) (pkt : α) : OutPort α := ⟨c.room - 1, c.sent ++ [pkt]⟩

end OutPort

def ptwTagMarker : ℕ := 2 ^ 24

def marked (tag : ℕ) : Bool := tag.testBit 24

def memBlockSize : ℕ := 64

inductive PtwState where
  | idle
  | req
  | wait
  | fill
deriving DecidableEq, Repr

structure Ptw where
  state : PtwState
  vaddr : ℕ
  pteAddr : ℕ
  curPpn : ℕ
  level : ℕ
  finalPpn : ℕ
  flags : ℕ
  leafLevel : ℕ
  origReq : MemReq
  origPort : ℕ

structure Mmu where
  numPorts : ℕ
  satp : Option Satp
  tlb : Tlb
  ptw : Ptw
  reqIn : ℕ → List MemReq
  rspIn : ℕ → List MemRsp
  reqOut : ℕ → OutPort MemReq
  rspOut : ℕ → OutPort MemRsp

namespace Mmu

def setSatp (m : AddrMode) (s : Mmu) (satp : ℕ) : Mmu :=
  { s with satp := some (Satp.ofValue m satp), tlb := s.tlb.flush }

def sendReq (s : Mmu) (p : ℕ) (req : MemReq) : Mmu :=
  { s with reqOut := update s.reqOut p ((s.reqOut p).send req) }

def sendRsp (s : Mmu) (p : ℕ) (rsp : MemRsp) : Mmu :=
  { s with rspOut := update s.rspOut p ((s.rspOut p).send rsp) }

def popReq (s : Mmu) (p : ℕ) : Mmu :=
  { s with reqIn := update s.reqIn p (s.reqIn p).tail }

def popRsp (s : Mmu) (p : ℕ) : Mmu :=
  { s with rspIn := update s.rspIn p (s.rspIn p).tail }

def startPtw (m : AddrMode) (s : Mmu) (va : ℕ) (orig : MemReq) (port : ℕ) : Mmu :=
  { s with ptw := { s.ptw with state := .req, level := m.ptLevel - 1, curPpn := getBasePpn s.satp,
                               vaddr := va, origReq := orig, origPort := port } }

def pteBytes (m : AddrMode) (addr : ℕ) (rsp : MemRsp) : ℕ :=
  match rsp.data with
  | some data => readLE data (addr &&& (memBlockSize - 1)) m.pteSize
  | none => 0

/-- The walk goes on with an entry; `none` is the abort on a page fault. -/
def takePte (s : Mmu) (pte : Pte) : Option Mmu :=
  if pte.invalid then none
  else if pte.interior then
    if s.ptw.level = 0 then none
    else some { s with ptw := { s.ptw with curPpn := pte.ppn, level := s.ptw.level - 1,
                                           state := .req } }
  else some { s with ptw := { s.ptw with finalPpn := pte.ppn, flags := pte.flags,
                                         leafLevel := s.ptw.level, state := .fill } }

def onPtwResponse (m : AddrMode) (s : Mmu) (rsp : MemRsp) : Option Mmu :=
  s.takePte (Pte.ofBytes m (pteBytes m s.ptw.pteAddr rsp))

def pteFetch (addr : ℕ) : MemReq := ⟨.ld, addr, none, 0, ptwTagMarker, 0, 0, 0⟩

section
variable (m : AddrMode)

def drivePtw (s : Mmu) : Mmu :=
  match s.ptw.state with
  | .req =>
    let shift := pageLog2Size + s.ptw.level * m.vpnBits
    let vpn := (s.ptw.vaddr >>> shift) &&& (2 ^ m.vpnBits - 1)
    let s := { s with ptw := { s.ptw with pteAddr := pteAddr m s.ptw.curPpn vpn } }
    if (s.reqOut 0).full then s
    else
      let s := s.sendReq 0 (pteFetch s.ptw.pteAddr)
      { s with ptw := { s.ptw with state := .wait } }
  | .fill =>
    let pa := physAddr m s.ptw.finalPpn s.ptw.leafLevel s.ptw.vaddr
    let vpn := s.ptw.vaddr >>> pageLog2Size
    let s := { s with tlb := s.tlb.fill vpn (pa >>> pageLog2Size) s.ptw.flags }
    if (s.reqOut s.ptw.origPort).full then s
    else
      let s := s.sendReq s.ptw.origPort { s.ptw.origReq with addr := pa }
      { s with ptw := { s.ptw with state := .idle } }
  | .idle => s
  | .wait => s

def drainResponse (s : Mmu) (p : ℕ) : Option Mmu :=
  match s.rspIn p with
  | [] => some s
  | rsp :: _ =>
    if marked rsp.tag then
      if s.ptw.state = .wait then (onPtwResponse m s rsp).map (fun s => s.popRsp p)
      else some (s.popRsp p)
    else if (s.rspOut p).full then some s
    else some ((s.sendRsp p rsp).popRsp p)

def forwardRequest (s : Mmu) (p : ℕ) : Mmu :=
  match s.reqIn p with
  | [] => s
  | req :: _ =>
    if needTrans s.satp then
      let vpn := req.addr >>> pageLog2Size
      let hit := s.tlb.lookup vpn
      let s := { s with tlb := hit.1 }
      match hit.2 with
      | some ppn =>
        let pa := shl64 ppn pageLog2Size ||| (req.addr &&& (2 ^ pageLog2Size - 1))
        if (s.reqOut p).full then s else (s.sendReq p { req with addr := pa }).popReq p
      | none =>
        if s.ptw.state = .idle then (s.startPtw m req.addr req p).popReq p else s
    else if (s.reqOut p).full then s
    else (s.sendReq p req).popReq p

def runPtw (s : Mmu) : Mmu :=
  if s.ptw.state ≠ .idle ∧ s.ptw.state ≠ .wait then s.drivePtw m else s

def onTick (s : Mmu) : Option Mmu := do
  let s ← (List.range s.numPorts).foldlM (drainResponse m) s
  let s := s.runPtw m
  some ((List.range s.numPorts).foldl (forwardRequest m) s)

end

end Mmu
end VortexGpu.Simx
