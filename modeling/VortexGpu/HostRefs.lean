import VortexGpu.HostQueue
import VortexGpu.HostSubmits
import Mathlib.Data.BitVec

/-!
# References of queued commands

Every entry point takes references in the thread of its caller, and the worker gives them back:
those of the wait list one by one, the others inside the closure. The counts are 32-bit words,
so what a call leaves behind is a sum of words, and it vanishes only if nothing is left behind.
-/

namespace VortexGpu.Api
open Word ByteMem Simx Api.Action Quiet Option

theorem natCast_eq_zero_of_lt {n : ℕ} (hn : n < 2 ^ 32) : (n : BitVec 32) = 0 ↔ n = 0 := by
  rw [BitVec.natCast_eq_ofNat, ← BitVec.toNat_inj]
  have hz : (0 : BitVec 32).toNat = 0 := rfl
  rw [BitVec.toNat_ofNat, hz]
  omega

namespace Host
variable (h : Host) (o : Obj)

theorem refs_retain (p : Obj) : (h.retain p).refs o = h.refs o + if p = o then 1 else 0 := by
  by_cases hp : p = o
  · subst hp
    simp [retain]
  · simp [retain, hp, Function.update_of_ne (Ne.symm hp)]

theorem refs_release (p : Obj) : (h.release p).refs o = h.refs o - if p = o then 1 else 0 := by
  by_cases hp : p = o
  · subst hp
    simp [release]
  · simp [release, hp, Function.update_of_ne (Ne.symm hp)]

theorem refs_retainAll (os : List Obj) :
    (h.retainAll os).refs o = h.refs o + (os.count o : BitVec 32) := by
  induction os generalizing h with
  | nil => simp [retainAll]
  | cons p os ih =>
    have hcons : h.retainAll (p :: os) = (h.retain p).retainAll os := rfl
    rw [hcons, ih, refs_retain, List.count_cons]
    by_cases hp : p = o
    · simp [hp, add_assoc, add_comm]
    · simp [hp]

theorem refs_releaseAll (os : List Obj) :
    (h.releaseAll os).refs o = h.refs o - (os.count o : BitVec 32) := by
  induction os generalizing h with
  | nil => simp [releaseAll]
  | cons p os ih =>
    have hcons : h.releaseAll (p :: os) = (h.release p).releaseAll os := rfl
    rw [hcons, ih, refs_release, List.count_cons]
    by_cases hp : p = o
    · simp [hp, sub_sub, add_comm]
    · simp [hp]

variable {h}

theorem releaseAll_congr {h' : Host} (hr : h'.refs = h.refs) (os : List Obj) :
    (h'.releaseAll os).refs = (h.releaseAll os).refs := by
  funext o
  rw [refs_releaseAll, refs_releaseAll, hr]

theorem releaseAll_retainAll (h : Host) (os : List Obj) :
    ((h.retainAll os).releaseAll os).refs = h.refs := by
  funext o
  rw [refs_releaseAll, refs_retainAll, add_sub_cancel_right]

end Host

open Host

namespace Work

variable {dev : Device}

theorem slotRelease_refs (slot : Option (ℕ × Bool)) (h : Host) :
    (slotRelease dev slot h).refs = h.refs := by
  cases slot <;> rfl

theorem stagedRelease_refs (sts : List CmdStaged) (h : Host) :
    (sts.foldl (stagedRelease dev) h).refs = h.refs := by
  induction sts generalizing h with
  | nil => rfl
  | cons st sts ih => rw [List.foldl_cons, ih, stagedRelease, slotRelease_refs, slotRelease_refs]

theorem dcrWrites_quiet (dev : Device) (ds : List (ℕ × ℕ)) :
    Quiet (runAll (fun d => dev.cpSubmitDcrWrite d.1 d.2) ds) :=
  Submits.runAll fun d _ => cpSubmitDcrWrite d.1 d.2

theorem launchSubmit_refs (l : LaunchRec) (tpw : ℕ) (args : Option (ℕ × Bool)) (h : Host) :
    (launchSubmit dev l tpw args h).2.refs = (h.releaseAll l.objs).refs := by
  have hw := (dcrWrites_quiet dev (l.dcrs tpw (args.map Prod.fst))).refs h
  unfold launchSubmit
  dsimp only
  split_ifs
  · exact releaseAll_congr ((slotRelease_refs _ _).trans hw) _
  · exact releaseAll_congr ((slotRelease_refs _ _).trans ((cpSubmitLaunch.refs _).trans hw)) _

theorem launchStage_refs (l : LaunchRec) (tpw : ℕ) (h : Host) :
    (launchStage dev l tpw h).2.refs = (h.releaseAll l.objs).refs := by
  unfold launchStage
  dsimp only
  split_ifs
  · exact launchSubmit_refs l tpw none h
  · refine releaseAll_congr ?_ l.objs
    rfl
  · refine releaseAll_congr ?_ l.objs
    exact refs (devWrite _ _ _) (h.perform dev _).2
  · rw [launchSubmit_refs]
    refine releaseAll_congr ?_ l.objs
    exact refs (devWrite _ _ _) (h.perform dev _).2

theorem launchWork_refs (l : LaunchRec) (h : Host) :
    (launchWork dev l h).2.refs = (h.releaseAll l.objs).refs := by
  unfold launchWork
  dsimp only
  split_ifs
  · exact launchStage_refs l 0 h
  · refine releaseAll_congr ?_ l.objs
    rfl
  · refine releaseAll_congr ?_ l.objs
    rfl
  · rw [launchStage_refs]
    refine releaseAll_congr ?_ l.objs
    rfl

theorem stageQmd_refs (l : LaunchRec) (tpw : ℕ) (args : Option (ℕ × Bool)) (h : Host) :
    (stageQmd dev l tpw args h).2.2.refs = h.refs := by
  unfold stageQmd
  dsimp only
  split_ifs
  · rfl
  · rfl
  · exact refs (devWrite _ _ _) (h.perform dev _).2

theorem stageLaunch_refs (l : LaunchRec) (tpw : ℕ) (h : Host) :
    (stageLaunch dev l tpw h).2.2.refs = h.refs := by
  unfold stageLaunch
  dsimp only
  split_ifs
  · exact stageQmd_refs l tpw none h
  · rfl
  · exact refs (devWrite _ _ _) (h.perform dev _).2
  · exact (stageQmd_refs l tpw _ _).trans (refs (devWrite _ _ _) (h.perform dev _).2)

theorem cmdStageQmds_refs (tpw : ℕ) (recs : List CmdRec) (h : Host) :
    (cmdStageQmds dev tpw recs h).2.2.refs = h.refs := by
  induction recs generalizing h with
  | nil => rfl
  | cons r recs ih =>
    cases r with
    | dcr addr value => exact ih h
    | launch l =>
      rw [cmdStageQmds]
      dsimp only
      split_ifs
      · exact stageLaunch_refs l tpw h
      · exact (ih _).trans (stageLaunch_refs l tpw h)

theorem cmdSubmit_quiet (item : CmdRec × CmdStaged) : Quiet (cmdSubmit dev item) := by
  obtain ⟨rec, st⟩ := item
  cases rec with
  | dcr addr value => exact cpSubmitDcrWrite addr value
  | launch l =>
    unfold cmdSubmit cmdSubmitLaunch
    split_ifs
    · exact cpSubmitLaunchQmd _
    · exact (dcrWrites_quiet dev st.dcrs).andThen cpSubmitLaunch

theorem submitBatch_refs (items : List (CmdRec × CmdStaged)) (h : Host) :
    (submitBatch dev items h).2.refs = h.refs :=
  refs (Submits.runAll fun item _ => cmdSubmit_quiet item) (h.notify dev .batchBegin)

theorem queryAll_refs (caps : List Cap) (h : Host) : (queryAll dev caps h).2.refs = h.refs :=
  refs (Submits.runAll fun c _ => call dev (.queryCaps c)) h

theorem commandsWork_refs (recs : List CmdRec) (h : Host) :
    (commandsWork dev recs h).2.refs = (h.releaseAll (recObjs recs)).refs := by
  unfold commandsWork
  dsimp only
  split_ifs
  · exact releaseAll_congr (queryAll_refs _ h) _
  · refine releaseAll_congr ?_ _
    rw [stagedRelease_refs, submitBatch_refs, cmdStageQmds_refs, queryAll_refs]
  · refine releaseAll_congr ?_ _
    rw [stagedRelease_refs, cmdStageQmds_refs, queryAll_refs]

theorem submitDescriptor_refs (bytes : List UInt8) (h : Host) :
    (submitDescriptor dev bytes h).2.2.refs = h.refs := by
  unfold submitDescriptor
  dsimp only
  split_ifs
  · rfl
  · exact refs (Submits.andThen (devWrite _ _ _) (cpSubmitDraw _)) (h.perform dev _).2

theorem drawWork_refs (recs : List CmdRec) (h : Host) :
    (drawWork dev recs h).2.refs = (h.releaseAll (recObjs recs)).refs := by
  unfold drawWork
  dsimp only
  split_ifs
  · exact releaseAll_congr (queryAll_refs _ h) _
  · refine releaseAll_congr ?_ _
    rw [stagedRelease_refs, slotRelease_refs, cmdStageQmds_refs, queryAll_refs]
  · refine releaseAll_congr ?_ _
    rw [stagedRelease_refs, slotRelease_refs, submitDescriptor_refs, cmdStageQmds_refs,
      queryAll_refs]
  · refine releaseAll_congr ?_ _
    rw [stagedRelease_refs, slotRelease_refs, submitBatch_refs, cmdStageQmds_refs, queryAll_refs]

theorem fillLoop_refs (base chunk size : ℕ) (staging : Mem) (fuel done : ℕ) (h : Host) :
    (fillLoop dev base chunk size staging fuel done h).2.refs = h.refs := by
  induction fuel generalizing done h with
  | zero => rfl
  | succ fuel ih =>
    rw [fillLoop]
    dsimp only
    split_ifs
    · rfl
    · exact (devWrite _ _ _).refs h
    · exact (ih _ _).trans ((devWrite _ _ _).refs h)

theorem mapCommit_quiet (buf : Buffer) (h : Host) : (mapCommit dev buf h).2.refs = h.refs := by
  unfold mapCommit
  split
  · rfl
  · split_ifs
    · exact (devRead _ _ _).refs h
    · rfl

theorem bufferUnmap_quiet (buf : Buffer) (hostPtr : ℕ) (mirror : Mem) (h : Host) :
    (bufferUnmap dev buf hostPtr mirror h).2.refs = h.refs := by
  unfold bufferUnmap
  split
  · rfl
  · dsimp only
    split_ifs
    · rfl
    · exact (devWrite _ _ _).refs h
    · rfl

theorem run_refs {fuel : ℕ} {w : Work} {h : Host} (hr : (w.run dev fuel h).1 ≠ none) :
    (w.run dev fuel h).2.refs = (h.releaseAll w.objs).refs := by
  cases w with
  | write dst off host sz => exact releaseAll_congr ((devWrite _ _ _).refs h) _
  | read host src so sz => exact releaseAll_congr ((devRead _ _ _).refs h) _
  | copy dst dOff src so sz => exact releaseAll_congr ((devCopy _ _ _).refs h) _
  | launch l => exact launchWork_refs l h
  | commands recs => exact commandsWork_refs recs h
  | draw recs => exact drawWork_refs recs h
  | barrier => rfl
  | readRect src rr =>
    exact releaseAll_congr (refs (Submits.runAll fun r _ => devRead _ _ _) h) _
  | writeRect dst host rr =>
    exact releaseAll_congr (refs (Submits.runAll fun r _ => devWrite _ _ _) h) _
  | copyRect dst src rr =>
    exact releaseAll_congr (refs (Submits.runAll fun r _ => devCopy _ _ _) h) _
  | fill dst offset size pat =>
    rw [run] at hr ⊢
    dsimp only at hr ⊢
    rw [if_neg hr]
    exact releaseAll_congr (fillLoop_refs _ _ _ _ _ _ h) [dst.obj]
  | map buf => exact releaseAll_congr (mapCommit_quiet buf h) _
  | unmap buf hostPtr mirror => exact releaseAll_congr (bufferUnmap_quiet buf hostPtr mirror h) _
  | dcrWrite addr value => exact releaseAll_congr ((cpSubmitDcrWrite _ _).refs h) _
  | dcrRead addr => exact releaseAll_congr ((cpSubmitDcrRead _ _).refs h) _
  | signal ev value => rfl
  | waitValue ev value => exact releaseAll_congr (h := h) rfl [.event ev]

end Work

def leading : List (Option ℕ) → List ℕ
  | some e :: ws => e :: leading ws
  | _ => []

theorem leading_length_le (ws : List (Option ℕ)) : (leading ws).length ≤ ws.length := by
  induction ws with
  | nil => simp [leading]
  | cons x ws ih =>
    cases x with
    | none => simp [leading]
    | some e => simpa [leading] using ih

theorem leading_length_eq_iff (ws : List (Option ℕ)) :
    (leading ws).length = ws.length ↔ ws.all isSome = true := by
  induction ws with
  | nil => simp [leading]
  | cons x ws ih =>
    cases x with
    | none => simp [leading]
    | some e => simpa [leading] using ih

theorem captureWaits_eq (ws : List (Option ℕ)) (h : Host) :
    h.captureWaits ws = (if ws.all isSome then some (leading ws) else none,
      h.retainAll ((leading ws).map .event)) := by
  induction ws generalizing h with
  | nil => rfl
  | cons x ws ih =>
    cases x with
    | none => rfl
    | some e =>
      rw [captureWaits, ih]
      cases hall : ws.all isSome <;> simp [leading, hall, retainAll]

namespace WaitArgs

def captured (wa : WaitArgs) : List ℕ :=
  match wa.w with
  | none => []
  | some w => leading (wa.handles w)

def accepted (wa : WaitArgs) : Bool :=
  match wa.w with
  | none => wa.nw = 0
  | some w => (wa.handles w).all isSome

theorem length_handles (wa : WaitArgs) (w : ℕ → Option ℕ) :
    (wa.handles w).length = wa.nw := by
  simp [handles]

theorem captured_length {wa : WaitArgs} (h : wa.accepted = true) : wa.captured.length = wa.nw := by
  unfold accepted at h
  unfold captured
  cases hw : wa.w with
  | none => simpa [hw, eq_comm] using h
  | some w =>
    rw [hw] at h
    rw [(leading_length_eq_iff _).mpr h, length_handles]

theorem captured_length_lt {wa : WaitArgs} (h : wa.accepted = false) :
    wa.captured.length < wa.nw := by
  unfold accepted at h
  unfold captured
  cases hw : wa.w with
  | none =>
    have hn : ¬wa.nw = 0 := by simpa [hw] using h
    simpa using pos_of_ne_zero hn
  | some w =>
    rw [hw] at h
    dsimp only at h
    have hne : (leading (wa.handles w)).length ≠ (wa.handles w).length := by
      intro heq
      rw [(leading_length_eq_iff _).mp heq] at h
      exact Bool.noConfusion h
    have hle := leading_length_le (wa.handles w)
    rw [length_handles] at hne hle
    exact lt_of_le_of_ne hle hne

end WaitArgs

namespace Host
variable (work : Work) {wa : WaitArgs} (out : Bool) (h : Host)

theorem enqueue_accepted (ha : wa.accepted = true) :
    h.enqueue work wa out = (h.retainAll (wa.captured.map .event)).push wa.captured work out := by
  unfold WaitArgs.accepted at ha
  unfold enqueue WaitArgs.captured
  cases hw : wa.w with
  | none =>
    have hn : wa.nw = 0 := by simpa [hw] using ha
    simp [hn, retainAll]
  | some w =>
    rw [hw] at ha
    simp [captureWaits_eq, ha]

theorem enqueue_refused (ha : wa.accepted = false) :
    ∃ r, r ≠ VxResult.success ∧
    h.enqueue work wa out = ⟨r, none, h.retainAll (wa.captured.map .event)⟩ := by
  unfold WaitArgs.accepted at ha
  unfold enqueue WaitArgs.captured
  cases hw : wa.w with
  | none =>
    have hn : ¬wa.nw = 0 := by simpa [hw] using ha
    exact ⟨.invalidValue, by simp, by simp [hn, retainAll]⟩
  | some w =>
    rw [hw] at ha
    exact ⟨.invalidHandle, by simp, by simp [captureWaits_eq, ha]⟩

theorem push_refs (waits : List ℕ) (o : Obj) : (h.push waits work out).host.refs o =
    if o = .event h.nextEvent then (if out then 2 else 1) else h.refs o := by
  unfold push createEvent
  cases out with
  | true =>
    by_cases ho : o = .event h.nextEvent
    all_goals simp [ho, retain]
  | false =>
    by_cases ho : o = .event h.nextEvent
    all_goals simp [ho, retain, release]

end Host

namespace Command
variable {dev : Device} (outcome : ℕ → VxResult)

theorem waitAll_host (i : ℕ) (deps : List ℕ) (r : VxResult) (h : Host) :
    (waitAll outcome i deps r h).2 = h.releaseAll (deps.map .event) := by
  induction deps generalizing i r h with
  | nil => rfl
  | cons dep deps ih =>
    rw [waitAll, ih]
    rfl

theorem waitAll_success (i : ℕ) (deps : List ℕ) (r : VxResult) (h : Host) :
    (waitAll outcome i deps r h).1 = .success ↔
      r = .success ∧ ∀ j < deps.length, outcome (i + j) = .success := by
  induction deps generalizing i r h with
  | nil => simp [waitAll]
  | cons dep deps ih =>
    rw [waitAll, ih]
    constructor
    · rintro ⟨hr, hrest⟩
      have hs : r = .success := by
        by_contra hne
        rw [if_neg hne] at hr
        exact hne hr
      rw [if_pos hs] at hr
      refine ⟨hs, fun j hj => ?_⟩
      cases j with
      | zero => exact hr
      | succ j =>
        rw [show i + (j + 1) = i + 1 + j by omega]
        exact hrest j (by simpa using hj)
    · rintro ⟨hs, hall⟩
      rw [if_pos hs]
      refine ⟨hall 0 (by simp), fun j hj => ?_⟩
      rw [show i + 1 + j = i + (j + 1) by omega]
      exact hall (j + 1) (by simpa using hj)

variable {outcome}

theorem run_refs {fuel : ℕ} {cmd : Command} {h h' : Host} {status : VxResult}
    (hrun : cmd.run dev outcome fuel h = (some status, h')) (o : Obj) :
    h'.refs o = h.refs o - ((cmd.waits.map Obj.event).count o : BitVec 32)
      - (if ∀ j < cmd.waits.length, outcome j = .success then (cmd.work.objs.count o : BitVec 32)
        else 0)
      - if .event cmd.completion = o then 1 else 0 := by
  have hok := waitAll_success outcome 0 cmd.waits .success h
  simp only [true_and, zero_add] at hok
  unfold run at hrun
  dsimp only at hrun
  rw [waitAll_host] at hrun
  by_cases hall : ∀ j < cmd.waits.length, outcome j = .success
  · rw [if_pos (hok.mpr hall)] at hrun
    rw [if_pos hall]
    cases hr : (cmd.work.run dev fuel (h.releaseAll (cmd.waits.map .event))).1 with
    | none =>
      rw [hr] at hrun
      dsimp only at hrun
      rw [hrun] at hr
      exact absurd hr (some_ne_none status)
    | some s =>
      have hne : (cmd.work.run dev fuel (h.releaseAll (cmd.waits.map .event))).1 ≠ none := by
        rw [hr]
        exact some_ne_none s
      have hwork := Work.run_refs hne
      rw [hr] at hrun
      cases hrun
      rw [Host.refs_release, Host.notify, Host.perform]
      dsimp only
      rw [hwork, refs_releaseAll, refs_releaseAll]
  · rw [if_neg (fun hs => hall (hok.mp hs))] at hrun
    rw [if_neg hall]
    cases hrun
    rw [Host.refs_release, Host.notify, Host.perform]
    dsimp only
    rw [refs_releaseAll, sub_zero]

theorem run_of_failed (dev : Device) (fuel : ℕ) (cmd : Command) (h : Host)
    (hfail : ¬∀ j < cmd.waits.length, outcome j = .success) :
    ∃ status h', cmd.run dev outcome fuel h = (some status, h') := by
  have hok := waitAll_success outcome 0 cmd.waits .success h
  simp only [true_and, zero_add] at hok
  unfold run
  dsimp only
  rw [if_neg fun hs => hfail (hok.mp hs)]
  exact ⟨_, _, rfl⟩

end Command

end VortexGpu.Api
