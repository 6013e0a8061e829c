import VortexGpu.CmdSpec

/-!
# One tick of the engine

Between loading a command and retiring it the engine makes the calls of that command, in order, and
leaves the line buffer and the queue registers alone. `Progress` is kept by both halves of a tick.
-/

namespace VortexGpu.Cp
open ByteMem Word Vm CommandProcessor Option List

/-- What a step between loading and retiring a command leaves alone. -/
structure Frame (s t : CommandProcessor) : Prop where
  q0 : t.q0 = s.q0 := by rfl
  satp : t.satp = s.satp := by rfl
  clBuf : t.clBuf = s.clBuf := by rfl
  clCmdCount : t.clCmdCount = s.clCmdCount := by rfl
  clCmdSlot : t.clCmdSlot = s.clCmdSlot := by rfl
  clLoaded : t.clLoaded = s.clLoaded := by rfl
  curCmd : t.curCmd = s.curCmd := by rfl
  curIsLaunch : t.curIsLaunch = s.curIsLaunch := by rfl
  curIsNoResource : t.curIsNoResource = s.curIsNoResource := by rfl

def isEffect : HookCall → Bool
  | .fetch _ _ => false
  | _ => true

theorem qmdWrites_eq (mem : Mem) (n addr d : ℕ) : qmdWrites mem n (add64 addr d) =
    (range n).map fun k => .dcrWrite (readLE mem (add64 addr (d + 8 * k)) 4 % 2 ^ 12)
      (readLE mem (add64 addr (d + 8 * k) + 4) 4) := by
  induction n generalizing d with
  | zero => rfl
  | succ n ih =>
    rw [qmdWrites, add64_add64, ih, range_succ_eq_map, map_cons, List.map_map]
    congr 1
    refine map_congr_left fun k _ => ?_
    rw [Function.comp, show d + 8 * (k + 1) = d + 8 + 8 * k by ring]

theorem qmdCalls_eq (mem : Mem) (addr : ℕ) : qmdCalls mem addr = qmdSets mem addr :=
  qmdWrites_eq mem _ addr 4

theorem copyStep_spec (mem : Mem) (dst src total n : ℕ) {r : Mem × List HookCall}
    (hr : (range n).foldl (copyStep dst src total) (mem, []) = r) :
    r.1 = stored mem r.2 ∧ r.2.length = n ∧ ∀ i < n, r.2[i]? =
      some (.store (add64 dst (i * copyChunk)) (readBytes (stored mem (r.2.take i))
        (add64 src (i * copyChunk)) (min (total - i * copyChunk) copyChunk))) := by
  induction n generalizing r with
  | zero =>
    subst hr
    exact ⟨rfl, rfl, fun i hi => absurd hi (Nat.not_lt_zero i)⟩
  | succ n ih =>
    rw [range_succ, foldl_append, foldl_cons, foldl_nil] at hr
    obtain ⟨hmem, hlen, hcalls⟩ := ih rfl
    generalize foldl _ _ (range n) = q at hr hmem hlen hcalls
    subst hr
    refine ⟨by simp [copyStep, hmem, stored], by simp [copyStep, hlen], fun i hi => ?_⟩
    simp only [copyStep]
    rcases Nat.lt_succ_iff_lt_or_eq.mp hi with hi | rfl
    · rw [getElem?_append_left (hlen ▸ hi), take_append_of_le_length (by omega), hcalls i hi]
    · rw [← hlen, getElem?_concat_length, take_left', hlen, hmem]
      exact rfl

theorem copies_copied (mem : Mem) (dst src total : ℕ) :
    Copies mem dst src total (copied mem dst src total).2 := by
  obtain ⟨-, hlen, hcalls⟩ := copyStep_spec mem dst src total _ rfl
  intro i
  have hblocks : i < (total + copyChunk - 1) / copyChunk ↔ i * copyChunk < total := by
    rw [copyChunk]
    omega
  split_ifs with hi
  · exact hcalls i (hblocks.mpr hi)
  · exact getElem?_eq_none (hlen ▸ not_lt.mp (mt hblocks.mp hi))

theorem Copies.isEffect {mem : Mem} {dst src total : ℕ} {cs : List HookCall}
    (h : Copies mem dst src total cs) : ∀ c ∈ cs, isEffect c = true := by
  intro c hc
  obtain ⟨i, hi⟩ := mem_iff_getElem?.mp hc
  rw [h i] at hi
  split_ifs at hi
  rw [← some.inj hi]
  rfl

theorem isEffect_launchCalls (b : Bool) (l : LaunchState) :
    ∀ c ∈ launchCalls b l, isEffect c = true := by
  cases l <;> simp [launchCalls, isEffect]

theorem isEffect_plainCalls (c : Cmd) : ∀ x ∈ plainCalls c, isEffect x = true := by
  unfold plainCalls
  split <;> simp [isEffect]

theorem tickLaunch_of_idle {s : CommandProcessor} (b : Bool) (h : s.launchState = .idle) :
    s.tickLaunch b = s := by
  simp [tickLaunch, h]

theorem tickLaunch_frame (b : Bool) (s : CommandProcessor) :
    Frame s (s.tickLaunch b) ∧ (s.tickLaunch b).calls = s.calls ++ launchCalls b s.launchState ∧
      (s.tickLaunch b).engState = s.engState ∧ (s.tickLaunch b).dram = s.dram ∧
      (s.tickLaunch b).drawPhys = s.drawPhys ∧ (s.tickLaunch b).drawNumSteps = s.drawNumSteps ∧
      (s.tickLaunch b).drawStep = s.drawStep := by
  cases h : s.launchState <;>
    simp only [tickLaunch, h, log, launchCalls, append_nil, and_self, and_true] <;>
    exact {}

variable [VmBuild]

/-- The calls a step adds to the log, and to the current command. -/
structure Makes (s t : CommandProcessor) (cur new : List HookCall) : Prop where
  frame : Frame s t
  calls : t.calls = s.calls ++ new
  effects : ∀ c ∈ new, isEffect c = true
  progress : Progress t.satp t t.engState (cur ++ new)

section Tick
variable {s t : CommandProcessor} {cur : List HookCall}

variable {satp : ℕ} {c : Cmd} {rsp : ℕ → ℕ → ℕ}

theorem Progress.launch_idle {st : EngState} (h : Progress satp s st cur)
    (hw : st ≠ .waitDone) (hd : st ≠ .drawLaunchWait) : s.launchState = .idle := by
  cases h with
  | idle hl => exact hl
  | decode hl => exact hl
  | bid ms hl _ => exact hl
  | waitDone => exact absurd rfl hw
  | drawStep mem d hl => exact hl
  | drawLaunchWait => exact absurd rfl hd
  | retire _ hl _ => exact hl

theorem Makes.tickLaunch {new : List HookCall} (b : Bool) (h : Makes s t cur new) :
    ∃ new', Makes s (t.tickLaunch b) cur new' := by
  by_cases hidle : t.launchState = .idle
  · rw [tickLaunch_of_idle b hidle]
    exact ⟨new, h⟩
  obtain ⟨hf, hcalls, heng, _, hphys, hnum, hstep⟩ := tickLaunch_frame b t
  have hlaunch : ∀ d, LaunchProgress t.launchState d →
      LaunchProgress (t.tickLaunch b).launchState (d ++ launchCalls b t.launchState) :=
    fun d hd => hd.tick b hidle
  refine ⟨new ++ launchCalls b t.launchState, ?_, ?_, ?_, ?_⟩
  · exact ⟨hf.q0.trans h.frame.q0, hf.satp.trans h.frame.satp, hf.clBuf.trans h.frame.clBuf,
      hf.clCmdCount.trans h.frame.clCmdCount, hf.clCmdSlot.trans h.frame.clCmdSlot,
      hf.clLoaded.trans h.frame.clLoaded, hf.curCmd.trans h.frame.curCmd,
      hf.curIsLaunch.trans h.frame.curIsLaunch, hf.curIsNoResource.trans h.frame.curIsNoResource⟩
  · rw [hcalls, h.calls, append_assoc]
  · intro c hc
    rcases mem_append.mp hc with hc | hc
    · exact h.effects c hc
    · exact isEffect_launchCalls b _ c hc
  · rw [heng, hf.satp, ← append_assoc]
    have hp := h.progress
    generalize cur ++ new = cs at hp
    by_cases hw : t.engState = .waitDone
    · rw [hw] at hp ⊢
      cases hp with
      | waitDone mem pre d hset hd =>
        rw [append_assoc]
        exact Progress.waitDone mem pre _ (hf.curCmd.symm ▸ hset) (hlaunch d hd)
    · by_cases hd : t.engState = .drawLaunchWait
      · rw [hd] at hp ⊢
        cases hp with
        | drawLaunchWait mem mem' d pre e hop htrans hn hlt hsteps hset he =>
          rw [← hf.curCmd] at hop htrans
          rw [← hphys] at htrans hn hsteps hset
          rw [← hstep] at hlt hsteps hset
          rw [← hnum] at hn hlt
          simpa using Progress.drawLaunchWait mem mem' d pre _ hop htrans hn hlt hsteps hset
            (hlaunch e he)
      · exact absurd (hp.launch_idle hw hd) hidle

def Launched (s : CommandProcessor) (c : Cmd) (t : CommandProcessor) : Prop :=
  ∃ pre, Sets s.satp s.dram c pre ∧ (∀ x ∈ pre, isEffect x = true) ∧
    t = { s.log pre with launchState := .pulseStart }

theorem startLaunch_spec (hc : c.isLaunch = true) (h : s.startLaunch c = some t) :
    Launched s c t := by
  unfold startLaunch at h
  rcases isLaunch_iff.mp hc with hop | hop
  · simp only [hop, reduceCtorEq, if_false, bind_eq_bind, bind_some] at h
    refine ⟨[], Sets.launch _ _ hop, by simp, ?_⟩
    rw [← some.inj h]
    simp [log]
  · simp only [hop, if_true, applyQmd, bind_eq_bind] at h
    cases htrans : translate s.satp s.dram c.arg0 false with
    | none => simp [htrans] at h
    | some addr =>
      simp only [htrans, bind_some, some.injEq, qmdCalls_eq] at h
      exact ⟨_, Sets.qmd _ _ addr hop htrans,
        forall_mem_cons.mpr ⟨rfl, List.forall_mem_map.mpr fun _ _ => rfl⟩, h.symm⟩

theorem execInlineCmd_spec {launched : Bool} (h : s.execInlineCmd rsp c = some (t, launched)) :
    (launched = true ∧ Launched s c t) ∨ (launched = false ∧ c.isLaunch = false ∧
      ∃ r, t = { s.log (plainCalls c) with lastDcrRsp := r }) := by
  have hlaunch : c.isLaunch = true → (s.startLaunch c).map (fun s => (s, true)) =
      some (t, launched) → launched = true ∧ Launched s c t := by
    intro hc hmap
    obtain ⟨t', ht', heq⟩ := map_eq_some_iff.mp hmap
    cases heq
    exact ⟨rfl, startLaunch_spec hc ht'⟩
  unfold execInlineCmd at h
  split at h
  · rename_i hop
    exact .inl (hlaunch (isLaunch_iff.mpr (.inl hop)) h)
  · rename_i hop
    exact .inl (hlaunch (isLaunch_iff.mpr (.inr hop)) h)
  · rename_i hop
    cases h
    refine .inr ⟨rfl, by simp [Cmd.isLaunch, hop], s.lastDcrRsp, ?_⟩
    simp [execDcrWrite, log, plainCalls, hop]
  · rename_i hop
    cases h
    refine .inr ⟨rfl, by simp [Cmd.isLaunch, hop], rsp (c.arg0 % 2 ^ 12) (c.arg1 % 2 ^ 32), ?_⟩
    simp [execDcrRead, log, plainCalls, hop]
  · rename_i hop
    cases h
    refine .inr ⟨rfl, by simp [Cmd.isLaunch, hop], s.lastDcrRsp, ?_⟩
    simp [log, plainCalls, hop, flushReads]
  · rename_i h₁ h₂ h₃ h₄ h₅
    cases h
    refine .inr ⟨rfl, by simpa [Cmd.isLaunch] using ⟨h₁, h₂⟩, s.lastDcrRsp, ?_⟩
    have hplain : plainCalls c = [] := by
      unfold plainCalls
      split
      · exact absurd (by assumption) h₃
      · exact absurd (by assumption) h₄
      · exact absurd (by assumption) h₅
      · rfl
    simp [log, hplain]

theorem makes_retire {new : List HookCall} (r : ℕ) (mem : Mem) (hl : s.launchState = .idle)
    (heff : ∀ c ∈ new, isEffect c = true) (hperf : Performs s.satp s.curCmd (cur ++ new)) :
    Makes s (toRetire { s.log new with lastDcrRsp := r, dram := mem }) cur new where
  frame := {}
  calls := rfl
  effects := heff
  progress := Progress.retire _ hl hperf

theorem performs_nothing (hop : c.op ∈ [Op.nop, .fence, .unknown]) : Performs satp c [] := by
  simp only [mem_cons, not_mem_nil, or_false] at hop
  have hplain : plainCalls c = [] := by
    rcases hop with hop | hop | hop <;> simp [plainCalls, hop]
  rw [← hplain]
  apply Performs.plain
  rcases hop with hop | hop | hop <;> simp [hop]

theorem makes_toRetire (hl : s.launchState = .idle) (hperf : Performs s.satp s.curCmd cur) :
    Makes s s.toRetire cur [] where
  frame := {}
  calls := (append_nil _).symm
  effects := by simp
  progress := by
    rw [append_nil]
    exact Progress.retire _ hl hperf

theorem makes_stay (hp : Progress s.satp s s.engState cur) : Makes s s cur [] where
  frame := {}
  calls := (append_nil _).symm
  effects := by simp
  progress := by
    rw [append_nil]
    exact hp

theorem progress_bid_nil (h : Progress satp s .bid cur) (hop : s.curCmd.op ≠ .eventWait) :
    cur = [] ∧ s.launchState = .idle := by
  cases h with
  | bid ms hl hms =>
    cases ms with
    | nil => exact ⟨rfl, hl⟩
    | cons m ms => exact absurd (hms m mem_cons_self).1 hop

theorem execMem_spec (h : s.execMem c = some t) : (c.arg2 = 0 ∧ t = s) ∨
    (c.arg2 ≠ 0 ∧ ∃ dst src, memDst s.satp s.dram c = some dst ∧
      memSrc s.satp s.dram c = some src ∧
      t = { s.log (.view s.dram :: (copied s.dram dst src c.arg2).2) with
            dram := (copied s.dram dst src c.arg2).1 }) := by
  unfold execMem at h
  split at h
  · rename_i hz
    exact .inl ⟨hz, (some.inj h).symm⟩
  · rename_i hz
    obtain ⟨dst, hdst, h⟩ := bind_eq_some_iff.mp h
    obtain ⟨src, hsrc, h⟩ := bind_eq_some_iff.mp h
    exact .inr ⟨hz, dst, src, hdst, hsrc, (some.inj h).symm⟩

theorem bid_mem_makes (hop : isMem s.curCmd.op = true) (hp : Progress s.satp s .bid cur)
    (h : (s.execMem s.curCmd).map toRetire = some t) : ∃ new, Makes s t cur new := by
  obtain ⟨rfl, hl⟩ := progress_bid_nil hp fun he => by simp [isMem, he] at hop
  obtain ⟨t', ht', rfl⟩ := map_eq_some_iff.mp h
  rcases execMem_spec ht' with ⟨hz, rfl⟩ | ⟨hz, dst, src, hdst, hsrc, rfl⟩
  · exact ⟨[], makes_toRetire hl (Performs.copyNone _ hop hz)⟩
  · have hcopies := copies_copied s.dram dst src s.curCmd.arg2
    exact ⟨_, makes_retire s.lastDcrRsp _ hl (by simpa [isEffect] using hcopies.isEffect)
      (Performs.copy s.dram _ dst src _ hop hz hdst hsrc hcopies)⟩

theorem bid_plain_makes (r : ℕ)
    (hop : s.curCmd.op ∈ [Op.nop, .fence, .unknown, .dcrWrite, .dcrRead, .cacheFlush])
    (hp : Progress s.satp s .bid cur) :
    Makes s (toRetire { s.log (plainCalls s.curCmd) with lastDcrRsp := r }) cur
      (plainCalls s.curCmd) := by
  obtain ⟨rfl, hl⟩ := progress_bid_nil hp fun he => by simp [he] at hop
  exact makes_retire r s.dram hl (isEffect_plainCalls _) (Performs.plain _ hop)

theorem bid_nothing_makes (hop : s.curCmd.op ∈ [Op.nop, .fence, .unknown])
    (hp : Progress s.satp s .bid cur) : Makes s s.toRetire cur [] := by
  obtain ⟨rfl, hl⟩ := progress_bid_nil hp fun he => by simp [he] at hop
  exact makes_toRetire hl (performs_nothing hop)

theorem wait_makes (hop : s.curCmd.op = .eventWait) (hs : s.engState = .bid)
    (hp : Progress s.satp s .bid cur)
    (h : (if eventWaitSatisfied s.dram s.curCmd then some (s.log [.view s.dram]).toRetire
      else some (s.log [.view s.dram])) = some t) : ∃ new, Makes s t cur new := by
  cases hp with
  | bid ms hl hms =>
    split at h
    · rename_i hsat
      have hperf : Performs s.satp s.curCmd (ms.map .view ++ [.view s.dram]) :=
        Performs.eventWait _ ms s.dram hop (fun m hm => (hms m hm).2) hsat
      have hm := makes_retire s.lastDcrRsp s.dram hl (by simp [isEffect]) hperf
      exact ⟨_, some.inj h ▸ hm⟩
    · rename_i hsat
      cases h
      refine ⟨[.view s.dram], {},
        rfl, by simp [isEffect], ?_⟩
      have hnext : Progress s.satp (s.log [.view s.dram]) .bid ((ms ++ [s.dram]).map .view) := by
        apply Progress.bid
        · exact hl
        intro m hm
        rcases mem_append.mp hm with hm | hm
        · exact hms m hm
        · rw [mem_singleton.mp hm]
          exact ⟨hop, Bool.eq_false_iff.mpr hsat⟩
      rw [map_append] at hnext
      rw [show (s.log [.view s.dram]).engState = .bid from hs]
      exact hnext

theorem bid_launch_makes (hc : s.curCmd.isLaunch = true) (hp : Progress s.satp s .bid cur)
    (h : (s.startLaunch s.curCmd).map (fun s => { s with engState := .waitDone }) = some t) :
    ∃ new, Makes s t cur new := by
  obtain ⟨rfl, _⟩ := progress_bid_nil hp fun he => by simp [Cmd.isLaunch, he] at hc
  obtain ⟨t', ht', rfl⟩ := map_eq_some_iff.mp h
  obtain ⟨pre, hset, heff, rfl⟩ := startLaunch_spec hc ht'
  refine ⟨pre, {}, rfl, heff, ?_⟩
  rw [nil_append, ← append_nil pre]
  exact Progress.waitDone s.dram pre [] hset LaunchProgress.set

theorem dispatch_makes (hc : s.curCmd.isLaunch = false)
    (hs : s.engState = .bid) (hp : Progress s.satp s .bid cur)
    (h : s.dispatch rsp s.curCmd = some t) : ∃ new, Makes s t cur new := by
  unfold dispatch at h
  cases hop : s.curCmd.op with
  | draw =>
    simp only [hop] at h
    obtain ⟨rfl, hl⟩ := progress_bid_nil hp (by simp [hop])
    obtain ⟨phys, hphys, heq⟩ := bind_eq_some_iff.mp h
    cases heq
    refine ⟨[.view s.dram], {},
      rfl, by simp [isEffect], ?_⟩
    exact Progress.drawStep s.dram [] hl hop hphys rfl (Nat.zero_le _) PerformsSteps.zero
  | dcrWrite | cacheFlush =>
    simp only [hop, some.injEq] at h
    have hm := bid_plain_makes s.lastDcrRsp (by simp [hop]) hp
    rw [plainCalls, hop] at hm
    exact ⟨_, h ▸ hm⟩
  | dcrRead =>
    simp only [hop, some.injEq] at h
    have hm := bid_plain_makes (rsp (s.curCmd.arg0 % 2 ^ 12) (s.curCmd.arg1 % 2 ^ 32))
      (by simp [hop]) hp
    rw [plainCalls, hop] at hm
    exact ⟨_, h ▸ hm⟩
  | eventSig =>
    simp only [hop, some.injEq] at h
    obtain ⟨rfl, hl⟩ := progress_bid_nil hp (by simp [hop])
    have hperf :
        Performs s.satp s.curCmd ([] ++ [.store s.curCmd.arg0 (bytesLE 8 s.curCmd.arg1)]) :=
      Performs.eventSig _ hop
    have hm := makes_retire s.lastDcrRsp (writeBytes s.dram s.curCmd.arg0
      (bytesLE 8 s.curCmd.arg1)) hl (by simp [isEffect]) hperf
    exact ⟨_, h ▸ hm⟩
  | eventWait =>
    simp only [hop] at h
    exact wait_makes hop hs hp h
  | memWrite | memRead | memCopy =>
    simp only [hop] at h
    exact bid_mem_makes (by simp [isMem, hop]) hp h
  | launch | launchQmd => simp [Cmd.isLaunch, hop] at hc
  | nop | fence | unknown =>
    simp only [hop, some.injEq] at h
    exact ⟨[], h ▸ bid_nothing_makes (by simp [hop]) hp⟩

theorem bid_makes (hlaunch : s.curIsLaunch = s.curCmd.isLaunch)
    (hs : s.engState = .bid) (hp : Progress s.satp s .bid cur) (h : s.bid rsp = some t) :
    ∃ new, Makes s t cur new := by
  unfold bid at h
  split at h
  · rename_i hc
    exact bid_launch_makes (hlaunch ▸ hc) hp h
  · rename_i hc
    exact dispatch_makes (by simpa [hlaunch] using hc) hs hp h

theorem waitDone_makes (hlaunch : s.curIsLaunch = s.curCmd.isLaunch) (hs : s.engState = .waitDone)
    (hp : Progress s.satp s .waitDone cur)
    (h : (if s.curIsLaunch ∧ s.launchState ≠ .idle then some s else some s.toRetire) = some t) :
    ∃ new, Makes s t cur new := by
  split at h
  · cases h
    exact ⟨[], makes_stay (hs.symm ▸ hp)⟩
  rename_i hdone
  cases h
  cases hp with
  | waitDone mem pre d hset hd =>
    have hidle : s.launchState = .idle := by
      by_contra hne
      exact hdone ⟨by rw [hlaunch]; exact hset.isLaunch, hne⟩
    rw [hidle] at hd
    exact ⟨[], makes_toRetire hidle (Performs.launch mem _ pre d hset hd)⟩

theorem drawNext_makes (hs : s.engState = .drawStep)
    (hp : Progress s.satp s .drawStep cur) (hlt : s.drawStep < s.drawNumSteps)
    (h : s.drawNext rsp = some t) : ∃ new, Makes s t cur new := by
  cases hp with
  | drawStep mem d hl hop htrans hn hle hsteps =>
    obtain ⟨⟨t', launched⟩, ht', heq⟩ := bind_eq_some_iff.mp h
    rcases execInlineCmd_spec ht' with ⟨rfl, pre, hset, heff, rfl⟩ | ⟨rfl, hplain, r, rfl⟩
    · cases heq
      refine ⟨.view s.dram :: pre, {},
        by simp [log], by simpa [isEffect] using heff, ?_⟩
      have happ : HookCall.view mem :: d ++ .view s.dram :: pre =
          .view mem :: (d ++ .view s.dram :: (pre ++ [])) := by simp
      rw [happ]
      exact Progress.drawLaunchWait mem s.dram d pre [] hop htrans hn hlt hsteps hset
        LaunchProgress.set
    · cases heq
      refine ⟨.view s.dram :: plainCalls (drawStepCmd s.dram s.drawPhys s.drawStep),
        {}, by simp [log], by simpa [isEffect] using isEffect_plainCalls _, ?_⟩
      have hnext := PerformsSteps.succ _ s.dram d _ hsteps (PerformsStep.plain s.dram _ hplain)
      rw [cons_append, show ∀ x : CommandProcessor, x.engState = s.engState →
        x.engState = .drawStep from fun x hx => hx.trans hs]
      · exact Progress.drawStep mem _ hl hop htrans hn hlt hnext
      · rfl

theorem tickEngine_makes (hlaunch : s.curIsLaunch = s.curCmd.isLaunch)
    (hres : s.curIsNoResource = (s.curCmd.op == .nop || s.curCmd.op == .fence))
    (hp : Progress s.satp s s.engState cur) (hidle : s.engState ≠ .idle)
    (hretire : s.engState ≠ .retire) (h : s.tickEngine rsp = some t) :
    ∃ new, Makes s t cur new := by
  cases hs : s.engState with
  | idle => exact absurd hs hidle
  | retire => exact absurd hs hretire
  | decode =>
    rw [hs] at hp
    cases hp with
    | decode hl =>
      simp only [tickEngine, hs] at h
      cases h
      refine ⟨[], {}, (append_nil _).symm, by simp, ?_⟩
      split
      · rename_i hno
        rw [hres, Bool.or_eq_true, beq_iff_eq, beq_iff_eq] at hno
        have hperf : Performs s.satp s.curCmd [] := by
          apply performs_nothing
          rcases hno with hno | hno <;> simp [hno]
        exact Progress.retire _ hl hperf
      · exact Progress.bid [] hl (by simp)
  | bid =>
    rw [hs] at hp
    simp only [tickEngine, hs] at h
    exact bid_makes hlaunch hs hp h
  | waitDone =>
    rw [hs] at hp
    simp only [tickEngine, hs] at h
    exact waitDone_makes hlaunch hs hp h
  | drawStep =>
    rw [hs] at hp
    simp only [tickEngine, hs] at h
    split at h
    · rename_i hdone
      cases h
      cases hp with
      | drawStep mem d hl hop htrans hn hle hsteps =>
        rw [le_antisymm hle hdone, hn] at hsteps
        exact ⟨[], makes_toRetire hl (Performs.draw mem _ _ d hop htrans hsteps)⟩
    · rename_i hmore
      exact drawNext_makes hs hp (by omega) h
  | drawLaunchWait =>
    have hp' := hp
    rw [hs] at hp
    simp only [tickEngine, hs] at h
    split at h
    · cases h
      exact ⟨[], makes_stay hp'⟩
    rename_i hdone
    cases h
    cases hp with
    | drawLaunchWait mem mem' d pre e hop htrans hn hlt hsteps hset he =>
      have hl : s.launchState = .idle := not_not.mp hdone
      rw [hl] at he
      refine ⟨[], {}, (append_nil _).symm, by simp, ?_⟩
      rw [append_nil]
      exact Progress.drawStep mem _ hl hop htrans hn hlt
        (PerformsSteps.succ _ mem' d _ hsteps (PerformsStep.launch mem' _ pre e hset he))

end Tick

end VortexGpu.Cp
