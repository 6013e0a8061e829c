import VortexGpu.HostRefs
import Mathlib.Tactic.Abel

/-!
# Which calls keep the reference counts

An entry point refuses its arguments with the counts as they were, or it passes a closure on with
the objects of the closure retained. Whether the counts come back then depends on the wait list and
on the waits.
-/

namespace VortexGpu.Api
open Word ByteMem Simx Api.Action VxCommand Host List Option

def VxCommand.toRec : VxCommand → Option CmdRec
  | .dcrWrite addr value => some (.dcr addr value)
  | .launch (some info) =>
    if info.check ≠ .success then none
    else if info.divides = false then none else some (.launch info.capture)
  | _ => none

def rectWork (info : Option RectInfo) (use : ResolvedRect → Option Work) : Option Work :=
  match info with
  | none => none
  | some info =>
    if info.structSize < sizeofRectInfo then none
    else match resolveRect info with
      | none => none
      | some rr => use rr

def listWork (work : List CmdRec → Work) (cs : Option CommandList) : Option Work :=
  match cs with
  | none => none
  | some cs => if cs.commands = [] then none else (cs.commands.mapM toRec).map work

def Call.work (dev : Device) (h : Host) : Call → Option Work
  | .write (some dst) off host sz =>
    if host.isNone ∧ sz ≠ 0 then none
    else if dst.size < add64 off sz then none else some (.write dst off host sz)
  | .read host (some src) so sz =>
    if host = false ∧ sz ≠ 0 then none
    else if src.size < add64 so sz then none else some (.read host src so sz)
  | .copy (some dst) dOff (some src) so sz =>
    if dst.size < add64 dOff sz then none
    else if src.size < add64 so sz then none else some (.copy dst dOff src so sz)
  | .launch (some info) =>
    if info.check ≠ .success then none
    else if info.divides = false then none else some (.launch info.capture)
  | .commands cs => listWork .commands cs
  | .draw cs => listWork .draw cs
  | .barrier => some .barrier
  | .readRect hostDst (some src) info =>
    if hostDst = false then none
    else rectWork info fun rr => if src.size < rr.bufferSpan then none else some (.readRect src rr)
  | .writeRect (some dst) (some hostSrc) info =>
    rectWork info fun rr => if dst.size < rr.bufferSpan then none
      else some (.writeRect dst hostSrc rr)
  | .copyRect (some dst) (some src) info => rectWork info fun rr =>
      if dst.size < rr.bufferSpan then none
      else if src.size < rr.hostSpan then none else some (.copyRect dst src rr)
  | .fillBuffer (some dst) offset size (some pattern) patternSize =>
    if patternSize = 0 then none
    else if size % patternSize ≠ 0 then none
    else if dst.size < add64 offset size then none
    else some (.fill dst offset size (readBytes pattern 0 patternSize))
  | .map (some buf) off size flags outHostPtr =>
    if outHostPtr = false then none
    else if (h.mapReserve dev buf off size flags).1 ≠ .success then none else some (.map buf)
  | .unmap (some buf) hostPtr mirror => some (.unmap buf hostPtr mirror)
  | .dcrWrite addr value => some (.dcrWrite addr value)
  | .dcrRead addr hostDst => if hostDst = false then none else some (.dcrRead addr)
  | .signal (some ev) value => some (.signal ev value)
  | .waitValue (some ev) value => some (.waitValue ev value)
  | _ => none

def Work.isTimeline : Work → Bool
  | .signal _ _ => true
  | .waitValue _ _ => true
  | _ => false

/-- The outcome of a call: refused with the counts as they were, or passed on with the objects
of its closure retained. What is retained is given back when the wait list is refused, but not
by the two calls on events. -/
def Passes (wa : WaitArgs) (out : Bool) (h : Host) (r : Enqueued) : Option Work → Prop
  | none => r.result ≠ .success ∧ r.command = none ∧ r.host.refs = h.refs
  | some w => ∃ h₁ : Host, (∀ o, h₁.refs o = h.refs o + (w.objs.count o : BitVec 32)) ∧
      h₁.nextEvent = h.nextEvent ∧
      r.result = (h₁.enqueue w wa out).result ∧ r.command = (h₁.enqueue w wa out).command ∧
      r.host.refs = if r.result ≠ .success ∧ w.isTimeline = false
        then ((h₁.enqueue w wa out).host.releaseAll w.objs).refs
        else (h₁.enqueue w wa out).host.refs

namespace Passes
variable {wa : WaitArgs} {out : Bool} {h h₁ : Host} {r e : Enqueued} {w : Work} {ow : Option Work}

theorem reject {s : VxResult} (hr : h₁.refs = h.refs) (hs : s ≠ .success) :
    Passes wa out h (h₁.reject s) none :=
  ⟨hs, rfl, hr⟩

theorem refused {s : VxResult} (hs : s ≠ .success := by decide) :
    Passes wa out h (h.reject s) none :=
  reject rfl hs

theorem check {p : Prop} [Decidable p] (hr : p → Passes wa out h r none)
    (he : ¬p → Passes wa out h e ow) :
    Passes wa out h (if p then r else e) (if p then none else ow) := by
  split_ifs with hp
  · exact hr hp
  · exact he hp

theorem guard {p : Prop} [Decidable p] {s : VxResult} (he : Passes wa out h e ow)
    (hs : s ≠ .success := by decide) :
    Passes wa out h (if p then h.reject s else e) (if p then none else ow) :=
  check (fun _ => refused hs) fun _ => he

theorem nextEvent_retainAll (h : Host) (os : List Obj) :
    (h.retainAll os).nextEvent = h.nextEvent := by
  induction os generalizing h with
  | nil => rfl
  | cons p _ ih => exact ih (h.retain p)

theorem held {os : List Obj} (hp : os.Perm w.objs) (hr : h₁.refs = h.refs)
    (hn : h₁.nextEvent = h.nextEvent) (ht : w.isTimeline = false) :
    Passes wa out h ((h₁.retainAll os).enqueueHeld w wa out) (some w) := by
  refine ⟨h₁.retainAll os, ?_, (nextEvent_retainAll h₁ os).trans hn, ?_⟩
  · intro o
    rw [refs_retainAll, hr, hp.count_eq]
  · unfold enqueueHeld
    generalize (h₁.retainAll os).enqueue w wa out = e
    by_cases hf : e.result = .success
    · simp [hf]
    · simp [hf, ht]

theorem kept (ht : w.isTimeline = false) :
    Passes wa out h ((h.retainAll w.objs).enqueueHeld w wa out) (some w) :=
  held (.refl _) rfl rfl ht

theorem plain (hw : w.objs = []) : Passes wa out h (h.enqueue w wa out) (some w) := by
  refine ⟨h, ?_, rfl, rfl, rfl, ?_⟩
  · simp [hw]
  · simp [hw, releaseAll]

theorem target {ev : ℕ} (hw : w.objs = [.event ev]) (ht : w.isTimeline = true) :
    Passes wa out h ((h.retainAll [.event ev]).enqueue w wa out) (some w) := by
  refine ⟨h.retainAll [.event ev], ?_, rfl, rfl, rfl, ?_⟩
  · intro o
    rw [refs_retainAll, hw]
  · rw [if_neg (by simp [ht])]

theorem congr (hp : Passes wa out h r ow) (hr : e.result = r.result) (hc : e.command = r.command)
    (hh : e.host.refs = r.host.refs) : Passes wa out h e ow := by
  cases ow with
  | none => exact ⟨hr ▸ hp.1, hc.trans hp.2.1, hh.trans hp.2.2⟩
  | some w =>
    obtain ⟨h₁, hrefs, hn, h₂, h₃, h₄⟩ := hp
    exact ⟨h₁, hrefs, hn, hr.trans h₂, hc.trans h₃, by rw [hh, hr, h₄]⟩

theorem rect {info : Option RectInfo} {use : ResolvedRect → Enqueued}
    {work : ResolvedRect → Option Work} (hu : ∀ rr, Passes wa out h (use rr) (work rr)) :
    Passes wa out h (h.withRect info use) (rectWork info work) := by
  cases info with
  | none => exact refused
  | some info =>
    refine guard ?_
    cases resolveRect info with
    | none => exact refused
    | some rr => exact hu rr

end Passes

open Passes

theorem retainAll_append (h : Host) (as bs : List Obj) :
    (h.retainAll as).retainAll bs = h.retainAll (as ++ bs) := by
  simp [retainAll]

theorem mapM_toRec_cons {c : VxCommand} {cs : List VxCommand} {rs : List CmdRec}
    (h : (c :: cs).mapM toRec = some rs) :
    ∃ r rs', c.toRec = some r ∧ cs.mapM toRec = some rs' ∧ rs = r :: rs' := by
  rw [mapM_cons] at h
  obtain ⟨r, hr, hrest⟩ := bind_eq_some_iff.mp h
  obtain ⟨rs', hrs', heq⟩ := bind_eq_some_iff.mp hrest
  exact ⟨r, rs', hr, hrs', (some.inj heq).symm⟩

theorem cmdBuildRecs_ok {cs : List VxCommand} {rs : List CmdRec} (hrs : cs.mapM toRec = some rs)
    (recs : List CmdRec) (retained : List Obj) (h : Host) :
    cmdBuildRecs cs recs retained h = (.ok (recs ++ rs), h.retainAll (rs.flatMap CmdRec.objs)) := by
  induction cs generalizing rs recs retained h with
  | nil =>
    obtain rfl : [] = rs := by simpa using hrs
    simp [cmdBuildRecs, retainAll]
  | cons c cs ih =>
    obtain ⟨r, rs', hr, hrs', rfl⟩ := mapM_toRec_cons hrs
    cases c with
    | dcrWrite addr value =>
      obtain rfl : CmdRec.dcr addr value = r := by simpa [toRec] using hr
      rw [cmdBuildRecs, ih hrs']
      simp [CmdRec.objs]
    | launch info =>
      cases info with
      | none => simp [toRec] at hr
      | some info =>
        simp only [toRec] at hr
        split_ifs at hr with hc hd
        cases hr
        rw [cmdBuildRecs, if_neg hc, if_neg hd, ih hrs', retainAll_append]
        simp [CmdRec.objs]
    | other => simp [toRec] at hr

theorem cmdBuildRecs_error {cs : List VxCommand} (hrs : cs.mapM toRec = none)
    (recs : List CmdRec) (retained : List Obj) (h : Host) :
    ∃ e h', cmdBuildRecs cs recs retained h = (.error e, h') ∧ e ≠ .success ∧
      ∀ o, h'.refs o = h.refs o - (retained.count o : BitVec 32) := by
  induction cs generalizing recs retained h with
  | nil => simp at hrs
  | cons c cs ih =>
    have hrest : ∀ r, c.toRec = some r → cs.mapM toRec = none := by
      intro r hr
      cases hm : cs.mapM toRec with
      | none => rfl
      | some rs => simp [mapM_cons, hr, hm] at hrs
    cases c with
    | dcrWrite addr value => exact ih (hrest _ rfl) _ retained h
    | launch info =>
      cases info with
      | none => exact ⟨_, _, rfl, by simp, fun o => refs_releaseAll h o retained⟩
      | some info =>
        rw [cmdBuildRecs]
        split_ifs with hc hd
        · exact ⟨_, _, rfl, hc, fun o => refs_releaseAll h o retained⟩
        · refine ⟨_, _, rfl, by simp, fun o => ?_⟩
          rw [refs_releaseAll, refs_retainAll, count_append]
          push_cast
          abel
        · obtain ⟨e, h', heq, he, hrefs⟩ :=
            ih (hrest (.launch info.capture) (by simp [toRec, hc, hd]))
              (recs ++ [.launch info.capture]) (retained ++ info.capture.objs)
            (h.retainAll info.capture.objs)
          refine ⟨e, h', heq, he, fun o => ?_⟩
          rw [hrefs, refs_retainAll, count_append]
          push_cast
          abel
    | other => exact ⟨_, _, rfl, by simp, fun o => refs_releaseAll h o retained⟩

theorem Passes.list {wa : WaitArgs} {out : Bool} {h : Host} {work : List CmdRec → Work}
    (hobjs : ∀ rs, (work rs).objs = rs.flatMap CmdRec.objs)
    (ht : ∀ rs, (work rs).isTimeline = false) (cs : Option CommandList) :
    Passes wa out h (h.enqueueList wa out work cs) (listWork work cs) := by
  cases cs with
  | none => exact refused
  | some cs =>
    refine guard ?_
    cases hrs : cs.commands.mapM toRec with
    | none =>
      obtain ⟨e, h', heq, he, hrefs⟩ := cmdBuildRecs_error hrs [] [] h
      rw [heq]
      refine reject (funext fun o => ?_) he
      rw [hrefs, count_nil]
      simp
    | some rs =>
      rw [cmdBuildRecs_ok hrs]
      exact held (by rw [hobjs, nil_append]) rfl rfl (ht _)

theorem mapReserve_frame (dev : Device) (buf : Buffer) (off size flags : ℕ) (h : Host) :
    (h.mapReserve dev buf off size flags).2.refs = h.refs ∧
      (h.mapReserve dev buf off size flags).2.nextEvent = h.nextEvent := by
  unfold mapReserve
  dsimp only
  split_ifs <;> exact ⟨rfl, rfl⟩

theorem Call.passes (dev : Device) (wa : WaitArgs) (out : Bool) (h : Host) (c : Call) :
    Passes wa out h (c.enqueue dev wa out h) (c.work dev h) := by
  cases c with
  | write dst off host sz =>
    cases dst with
    | none => exact refused
    | some dst =>
      refine guard ?_
      refine guard ?_
      exact kept rfl
  | read host src so sz =>
    cases src with
    | none => exact refused
    | some src =>
      refine guard ?_
      refine guard ?_
      exact kept rfl
  | copy dst dOff src so sz =>
    cases dst with
    | none => exact refused
    | some dst =>
      cases src with
      | none => exact refused
      | some src =>
        refine guard ?_
        refine guard ?_
        exact held (.swap _ _ _) rfl rfl rfl
  | launch info =>
    cases info with
    | none => exact refused
    | some info =>
      refine check (fun hc => refused hc) fun _ => ?_
      refine check (fun _ => reject (releaseAll_retainAll h _) (by simp)) fun _ => ?_
      exact kept rfl
  | commands cs | draw cs => exact list (fun _ => rfl) (fun _ => rfl) cs
  | barrier => exact plain rfl
  | readRect hostDst src info =>
    cases src with
    | none => exact refused
    | some src =>
      refine guard (rect fun rr => ?_)
      refine guard ?_
      exact kept rfl
  | writeRect dst hostSrc info =>
    cases dst with
    | none => exact refused
    | some dst =>
      cases hostSrc with
      | none => exact refused
      | some hostSrc =>
        refine rect fun rr => guard ?_
        exact kept rfl
  | copyRect dst src info =>
    cases dst with
    | none => exact refused
    | some dst =>
      cases src with
      | none => exact refused
      | some src =>
        refine rect fun rr => guard ?_
        refine guard ?_
        exact held (.swap _ _ _) rfl rfl rfl
  | fillBuffer dst offset size pattern patternSize =>
    cases dst with
    | none => exact refused
    | some dst =>
      cases pattern with
      | none => exact refused
      | some pattern =>
        refine guard ?_
        refine guard ?_
        refine guard ?_
        exact kept rfl
  | map buf off size flags outHostPtr =>
    cases buf with
    | none => exact refused
    | some buf =>
      obtain ⟨hrefs, hnext⟩ := mapReserve_frame dev buf off size flags h
      refine guard ?_
      refine check (fun hc => reject hrefs hc) fun _ => ?_
      refine (held (w := .map buf) (.refl _) hrefs hnext rfl).congr ?_ ?_ ?_
      all_goals
        dsimp only
        split_ifs <;> rfl
  | unmap buf hostPtr mirror =>
    cases buf with
    | none => exact refused
    | some buf => exact kept rfl
  | dcrWrite addr value => exact plain rfl
  | dcrRead addr hostDst => exact guard (plain rfl)
  | signal ev value | waitValue ev value =>
    cases ev with
    | none => exact refused
    | some ev => exact target rfl rfl

theorem LaunchRec.length_objs_le (l : LaunchRec) : l.objs.length ≤ 1 := by
  cases hk : l.kernel <;> simp [LaunchRec.objs, hk]

theorem length_flatMap_objs_le (rs : List CmdRec) :
    (rs.flatMap CmdRec.objs).length ≤ rs.length := by
  induction rs with
  | nil => simp
  | cons r rs ih =>
    have hr : r.objs.length ≤ 1 := by
      cases r with
      | dcr addr value => simp [CmdRec.objs]
      | launch l => exact l.length_objs_le
    rw [flatMap_cons, length_append, length_cons]
    omega

theorem length_mapM_toRec {cs : List VxCommand} {rs : List CmdRec} (hrs : cs.mapM toRec = some rs) :
    rs.length = cs.length := by
  induction cs generalizing rs with
  | nil =>
    obtain rfl : [] = rs := by simpa using hrs
    rfl
  | cons c cs ih =>
    obtain ⟨r, rs', _, hrs', rfl⟩ := mapM_toRec_cons hrs
    rw [length_cons, length_cons, ih hrs']

theorem listWork_objs_length {work : List CmdRec → Work}
    (hobjs : ∀ rs, (work rs).objs = rs.flatMap CmdRec.objs)
    {cs : Option CommandList} {w : Work} (hw : listWork work cs = some w) :
    w.objs.length < 2 ^ 32 := by
  cases cs with
  | none => simp [listWork] at hw
  | some cs =>
    rw [listWork] at hw
    split_ifs at hw
    obtain ⟨rs, hrs, rfl⟩ := map_eq_some_iff.mp hw
    have hlen := length_mapM_toRec hrs
    have hle := length_flatMap_objs_le rs
    have hlt := cs.count_lt
    rw [hobjs]
    omega

theorem Call.length_objs_lt {dev : Device} {h : Host} {c : Call} {w : Work}
    (hw : c.work dev h = some w) : w.objs.length < 2 ^ 32 := by
  cases c with
  | commands cs | draw cs => exact listWork_objs_length (fun _ => rfl) hw
  | launch info =>
    simp only [Call.work] at hw
    repeat' split at hw
    all_goals try contradiction
    cases hw
    exact lt_of_le_of_lt (LaunchRec.length_objs_le _) (by norm_num)
  | _ =>
    simp only [Call.work, rectWork] at hw
    repeat' split at hw
    all_goals first | contradiction | (obtain rfl := some.inj hw; simp [Work.objs])

/-- The handles a call is given denote events that exist. -/
structure Call.Live (dev : Device) (wa : WaitArgs) (h : Host) (c : Call) : Prop where
  waits : ∀ e ∈ wa.captured, e < h.nextEvent
  objs : ∀ w, c.work dev h = some w → ∀ e, .event e ∈ w.objs → e < h.nextEvent

/-- A call that fails leaves every count as it was, and so does one that succeeds together with
the round of the worker, up to the reference to the completion event its caller asked for. -/
structure Balanced (dev : Device) (wa : WaitArgs) (out : Bool) (outcome : ℕ → VxResult)
    (h : Host) (c : Call) : Prop where
  failed : (c.enqueue dev wa out h).result ≠ .success →
    (c.enqueue dev wa out h).host.refs = h.refs
  completed : ∀ cmd fuel status h', (c.enqueue dev wa out h).command = some cmd →
    cmd.run dev outcome fuel (c.enqueue dev wa out h).host = (some status, h') →
    ∀ o, h'.refs o = if o = .event cmd.completion then (if out then 1 else 0) else h.refs o

/-- With a wait list that is accepted, no waited event fails or the closure holds nothing. With
one that is not, nothing of it has been retained and the call is not one of the two on events. -/
def Work.Keeps (wa : WaitArgs) (outcome : ℕ → VxResult) (w : Work) : Prop :=
  if wa.accepted then (∀ i < wa.nw, outcome i = .success) ∨ w.objs = []
  else wa.captured = [] ∧ w.isTimeline = false

theorem count_cast_eq_zero_iff {os : List Obj} (hlen : os.length < 2 ^ 32) :
    (∀ o, (os.count o : BitVec 32) = 0) ↔ os = [] := by
  constructor
  · intro hall
    refine eq_nil_iff_forall_not_mem.mpr fun o ho => ?_
    have hle : os.count o ≤ os.length := count_le_length
    have hz := (natCast_eq_zero_of_lt (hle.trans_lt hlen)).mp (hall o)
    exact absurd (count_pos_iff.mpr ho) (by omega)
  · rintro rfl
    simp

section
variable {dev : Device} {wa : WaitArgs} {out : Bool} {outcome : ℕ → VxResult} {h : Host}
  {c : Call} {w : Work}

theorem Work.length_objs_of_isTimeline (ht : w.isTimeline = true) : w.objs.length = 1 := by
  cases w <;> simp_all [Work.isTimeline, Work.objs]

theorem refused_refs (out : Bool) (hw : c.work dev h = some w) (ha : wa.accepted = false) :
    (c.enqueue dev wa out h).result ≠ .success ∧ (c.enqueue dev wa out h).command = none ∧
      ∀ o, (c.enqueue dev wa out h).host.refs o =
        h.refs o + ((wa.captured.map Obj.event).count o : BitVec 32)
        + if w.isTimeline then (w.objs.count o : BitVec 32) else 0 := by
  have hp := c.passes dev wa out h
  rw [hw] at hp
  obtain ⟨h₁, hrefs, _, hres, hcmd, hhost⟩ := hp
  obtain ⟨r, hr, henq⟩ := enqueue_refused w out h₁ ha
  rw [henq] at hres hcmd hhost
  refine ⟨hres ▸ hr, hcmd, fun o => ?_⟩
  rw [hhost, hres]
  cases ht : w.isTimeline with
  | false =>
    rw [if_pos ⟨hr, rfl⟩, refs_releaseAll, refs_retainAll, hrefs]
    simp only [Bool.false_eq_true, if_false]
    abel
  | true =>
    rw [if_neg (by simp), refs_retainAll, hrefs]
    simp only [if_true]
    abel

theorem balanced_of_refused (hw : c.work dev h = some w) (ha : wa.accepted = false) :
    Balanced dev wa out outcome h c ↔ wa.captured = [] ∧ w.isTimeline = false := by
  obtain ⟨hres, hcmd, hrefs⟩ := refused_refs out hw ha
  have hcap := WaitArgs.captured_length_lt ha
  have hnw := wa.nw_lt
  have hiff : Balanced dev wa out outcome h c ↔ (c.enqueue dev wa out h).host.refs = h.refs := by
    refine ⟨fun hb => hb.failed hres, fun heq => ⟨fun _ => heq, ?_⟩⟩
    intro cmd fuel status h' hc
    rw [hcmd] at hc
    cases hc
  rw [hiff, funext_iff]
  cases ht : w.isTimeline with
  | false =>
    have hlen : (wa.captured.map Obj.event).length < 2 ^ 32 := by
      rw [length_map]
      omega
    have hzero := count_cast_eq_zero_iff hlen
    rw [map_eq_nil_iff] at hzero
    simp only [and_true]
    rw [← hzero]
    refine forall_congr' fun o => ?_
    rw [hrefs o, ht]
    simp
  | true =>
    simp only [Bool.true_eq_false, and_false, iff_false]
    intro hall
    -- the target and the events of the list are both left with one reference more
    have hone := Work.length_objs_of_isTimeline ht
    have hlen : (wa.captured.map Obj.event ++ w.objs).length < 2 ^ 32 := by
      rw [length_append, length_map, hone]
      omega
    have hnil := (count_cast_eq_zero_iff hlen).mp fun o => by
      have ho := hall o
      rw [hrefs o, ht, if_pos rfl, add_assoc, add_eq_left] at ho
      rw [count_append]
      push_cast
      exact ho
    have hobjs := (append_eq_nil_iff.mp hnil).2
    rw [hobjs] at hone
    exact absurd hone (by simp)

theorem accepted_refs (out : Bool) (hw : c.work dev h = some w) (ha : wa.accepted = true) :
    (c.enqueue dev wa out h).result = .success ∧
      (c.enqueue dev wa out h).command = some ⟨wa.captured, h.nextEvent, w⟩ ∧
      ∀ o, (c.enqueue dev wa out h).host.refs o =
        if o = .event h.nextEvent then (if out then 2 else 1)
        else h.refs o + (w.objs.count o : BitVec 32) +
          ((wa.captured.map Obj.event).count o : BitVec 32) := by
  have hp := c.passes dev wa out h
  rw [hw] at hp
  obtain ⟨h₁, hrefs, hnext, hres, hcmd, hhost⟩ := hp
  rw [enqueue_accepted w out h₁ ha] at hres hcmd hhost
  have hnext' : (h₁.retainAll (wa.captured.map .event)).nextEvent = h.nextEvent :=
    (nextEvent_retainAll h₁ _).trans hnext
  refine ⟨hres, ?_, fun o => ?_⟩
  · rw [hcmd, push, hnext']
  · rw [hhost, hres, if_neg (fun hc => hc.1 rfl), push_refs, hnext', refs_retainAll, hrefs]

theorem command_work {cmd : Command} (hc : (c.enqueue dev wa out h).command = some cmd) :
    c.work dev h = some cmd.work := by
  cases hw : c.work dev h with
  | none =>
    have hp := c.passes dev wa out h
    rw [hw] at hp
    rw [hp.2.1] at hc
    cases hc
  | some w =>
    cases ha : wa.accepted with
    | false =>
      rw [(refused_refs out hw ha).2.1] at hc
      cases hc
    | true =>
      rw [(accepted_refs out hw ha).2.1] at hc
      cases hc
      rfl

theorem Call.Live.count_completion (hl : c.Live dev wa h) (hw : c.work dev h = some w) {o : Obj}
    (ho : o = .event h.nextEvent) : w.objs.count o = 0 := by
  rw [count_eq_zero, ho]
  exact fun hmem => lt_irrefl _ (hl.objs w hw _ hmem)

theorem completed_refs (hl : c.Live dev wa h) (hw : c.work dev h = some w) (ha : wa.accepted = true)
    {fuel : ℕ} {status : VxResult} {h' : Host}
    (hrun :
      (Command.mk wa.captured h.nextEvent w).run dev outcome fuel (c.enqueue dev wa out h).host =
      (some status, h')) (o : Obj) :
    h'.refs o = if o = .event h.nextEvent then (if out then 1 else 0)
      else h.refs o + if ∀ i < wa.nw, outcome i = .success then 0
      else (w.objs.count o : BitVec 32) := by
  obtain ⟨_, _, hrefs⟩ := accepted_refs out hw ha
  rw [Command.run_refs hrun o, hrefs o, WaitArgs.captured_length ha]
  by_cases ho : o = .event h.nextEvent
  · have hcap : (wa.captured.map Obj.event).count o = 0 := by
      rw [count_eq_zero, ho]
      intro hmem
      obtain ⟨e, he, heq⟩ := mem_map.mp hmem
      have := hl.waits e he
      cases heq
      omega
    rw [if_pos ho, if_pos ho, if_pos ho.symm, hcap, hl.count_completion hw ho]
    cases out <;> simp
  · rw [if_neg ho, if_neg ho, if_neg (Ne.symm ho)]
    split_ifs <;> abel

theorem balanced_of_accepted (hl : c.Live dev wa h) (hw : c.work dev h = some w)
    (ha : wa.accepted = true) :
    Balanced dev wa out outcome h c ↔ (∀ i < wa.nw, outcome i = .success) ∨ w.objs = [] := by
  obtain ⟨hres, hcmd, _⟩ := accepted_refs out hw ha
  constructor
  · intro hb
    by_cases hok : ∀ i < wa.nw, outcome i = .success
    · exact .inl hok
    -- a failed wait returns at once, and the round has not touched the objects of the closure
    right
    obtain ⟨status, h', hrun⟩ := Command.run_of_failed dev 0 ⟨wa.captured, h.nextEvent, w⟩
      (c.enqueue dev wa out h).host (by rwa [WaitArgs.captured_length ha])
    refine (count_cast_eq_zero_iff (Call.length_objs_lt hw)).mp fun o => ?_
    have hbal := hb.completed _ _ _ _ hcmd hrun o
    rw [completed_refs hl hw ha hrun o, if_neg hok] at hbal
    by_cases ho : o = .event h.nextEvent
    · rw [hl.count_completion hw ho, Nat.cast_zero]
    · rwa [if_neg ho, if_neg ho, add_eq_left] at hbal
  · intro hk
    refine ⟨fun hne => absurd hres hne, ?_⟩
    intro cmd fuel status h' hc hrun o
    cases hcmd.symm.trans hc
    rw [completed_refs hl hw ha hrun o]
    rcases hk with hok | hnil
    · rw [if_pos hok, add_zero]
    · simp [hnil]

/-- Every entry point keeps every count exactly under the condition on its wait list, on the
outcome of the waits and on what its closure holds. -/
theorem refs_balanced_iff (hl : c.Live dev wa h) :
    Balanced dev wa out outcome h c ↔ ∀ w, c.work dev h = some w → w.Keeps wa outcome := by
  cases hw : c.work dev h with
  | none =>
    have hp := c.passes dev wa out h
    rw [hw] at hp
    obtain ⟨_, hcmd, hrefs⟩ := hp
    refine iff_of_true ⟨fun _ => hrefs, ?_⟩ (by simp)
    intro cmd fuel status h' hc
    rw [hcmd] at hc
    cases hc
  | some w =>
    simp only [some.injEq, forall_eq']
    unfold Work.Keeps
    cases ha : wa.accepted with
    | true => simpa using balanced_of_accepted hl hw ha
    | false => simpa using balanced_of_refused hw ha

end

def readyDevice : Device := ⟨fun _ => ⟨.success, 0, false⟩, true, true, none⟩

def sampleHost : Host := ⟨fun _ => 1, 2, fun _ => none, 0, []⟩

def sampleBuffer : Buffer := ⟨0, 0x10000, 64, by decide, by decide⟩

def sampleWrite : Call := .write (some sampleBuffer) 0 (some fun _ => 0) 4

def waitFor (hs : List (Option ℕ)) (hlen : hs.length < 2 ^ 32) : WaitArgs :=
  ⟨hs.length, some fun i => hs.getD i none, hlen⟩

def waitBoth : WaitArgs := waitFor [some 0, some 1] (by decide)

def waitNull : WaitArgs := waitFor [some 0, none] (by decide)

def nullList : WaitArgs := ⟨1, none, by decide⟩

theorem refs_balanced_write : sampleWrite.Live readyDevice waitBoth sampleHost ∧
      Balanced readyDevice waitBoth true (fun _ => .success) sampleHost sampleWrite := by
  have hl : sampleWrite.Live readyDevice waitBoth sampleHost := by
    refine ⟨by decide, fun w hw e he => ?_⟩
    cases hw
    simp [Work.objs, Buffer.obj] at he
  refine ⟨hl, (refs_balanced_iff hl).mpr fun w _ => ?_⟩
  rw [Work.Keeps, if_pos (by decide)]
  exact .inl fun _ _ => rfl

/-- A buffer stays retained when a waited event has failed, an event when a null handle follows
it, and the target of a signal when there is no wait list. -/
theorem references_left_behind :
    ¬Balanced readyDevice waitBoth true (fun _ => .deviceLost) sampleHost sampleWrite ∧
      ¬Balanced readyDevice waitNull true (fun _ => .success) sampleHost sampleWrite ∧
      ¬Balanced readyDevice nullList true (fun _ => .success) sampleHost (.signal (some 1) 1) := by
  refine ⟨fun hb => ?_, fun hb => ?_, fun hb => ?_⟩
  · have hbuf :=
      hb.completed ⟨[0, 1], 2,
        .write sampleBuffer 0 (some fun _ => 0) 4⟩ 0 .deviceLost _ rfl rfl
      (.buffer 0)
    exact absurd hbuf (by decide)
  · have hev := congrFun (hb.failed (by decide)) (.event 0)
    exact absurd hev (by decide)
  · have hev := congrFun (hb.failed (by decide)) (.event 1)
    exact absurd hev (by decide)

end VortexGpu.Api
