import VortexGpu.LsuPending

/-!
# Retirement of loads and atomics

The instruction is sent on when the entry with the end-of-packet mark is answered. That is the last
of its answers only if the answers to its other beats came before. On runs in which they do, every
instruction is sent on exactly once, with the answers of all its threads in `dst_data`.
-/

namespace VortexGpu.Lsu
open Bool (and_eq_true not_eq_false not_eq_true not_eq_true' or_eq_true)
open List (cons length_append mem_append mem_singleton)
open Option (all_some bind_some map_some some_inj)
open Function (update update_of_ne update_self)
open List Runs Config

def sentCount (outputs : List (ℕ × (ℕ → ℕ))) (k : ℕ) : ℕ :=
  (outputs.map Prod.fst).count k

theorem sentCount_append (outputs : List (ℕ × (ℕ → ℕ))) (k k' : ℕ) (d : ℕ → ℕ) :
    sentCount (outputs ++ [(k', d)]) k = sentCount outputs k + if k' = k then 1 else 0 := by
  simp [sentCount, count_singleton]

theorem sentCount_pos {outputs : List (ℕ × (ℕ → ℕ))} {k : ℕ} {d : ℕ → ℕ}
    (h : (k, d) ∈ outputs) : 0 < sentCount outputs k :=
  count_pos_iff.mpr (mem_map_of_mem h)

theorem mem_outputs_append {outputs : List (ℕ × (ℕ → ℕ))} {k k' : ℕ} {d d' : ℕ → ℕ}
    (h : (k, d) ∈ outputs ++ [(k', d')]) : (k, d) ∈ outputs ∨ k = k' ∧ d = d' := by
  simpa using h

section
variable {w : World} {k : ℕ} {tr : Trace}

theorem trace_eq {tr' : Trace} (htr : w.traces[k]? = some tr) (htr' : w.traces[k]? = some tr') :
    tr = tr' :=
  some_inj.mp (htr.symm.trans htr')

theorem trace_lt (htr : w.traces[k]? = some tr) : k < w.traces.length :=
  (List.getElem?_eq_some_iff.mp htr).1

theorem trace_append {new : Trace} (htr : w.traces[k]? = some tr) :
    (w.traces ++ [new])[k]? = some tr := by
  rw [List.getElem?_append_left (trace_lt htr), htr]

theorem trace_of_append {new : Trace} (htr : (w.traces ++ [new])[k]? = some tr) :
    w.traces[k]? = some tr ∨ k = w.traces.length ∧ tr = new := by
  rw [List.getElem?_append] at htr
  split at htr
  · exact .inl htr
  · obtain ⟨hlt, heq⟩ := List.getElem?_eq_some_iff.mp htr
    simp only [length_singleton, getElem_singleton] at hlt heq
    exact .inr ⟨by omega, heq.symm⟩

theorem ne_of_unsent {queue : List ℕ} {k' n : ℕ} (hk : k < n) (hq : k ∉ queue)
    (hk' : n ≤ k' ∨ k' ∈ queue) : k ≠ k' := by
  rintro rfl
  exact hk'.elim (Nat.not_le.mpr hk) hq

/-- A tracked instruction is not a fence. -/
theorem fence_ne {k' : ℕ} {tr' : Trace} (htr : w.traces[k]? = some tr)
    (hfence : tr.isFence = true)
    (htr' : w.traces[k']? = some tr') (htracked : tr'.Tracked) : k ≠ k' := by
  rintro rfl
  rw [trace_eq htr htr'] at hfence
  cases hfence.symm.trans htracked.2

end

section Retire
variable [Config]

def Trace.Encoded (tr : Trace) : Bool :=
  decide (tr.width ≤ 6) && (!tr.isWrite || decide (tr.width ≤ 3))

def Trace.Served (tr : Trace) : Bool :=
  ((range numThreads).all fun t => !tr.tmask t ||
    decide ((addrEntry tr t).addr % 64 + tr.dataBytes ≤ 64)) &&
    (!tr.isAmo || (range numThreads).any tr.tmask)

def Contract (w : World) (t : Tick) : Bool :=
  (t.rsp.all fun rsp => (range numLanes).any rsp.mask &&
    (range numLanes).all fun lane => !rsp.mask lane || w.owed rsp.tag lane) &&
    t.input.all Trace.Encoded

def OnlyEntry (w : World) (tag : ℕ) : Owner → Bool
  | .trace k => (range pendingSize).all fun tag' =>
    decide (tag' = tag) || (w.lsu.pendingReqs tag').all fun e => decide (e.owner ≠ .trace k)
  | .tcu _ => true

/-- The packet that completes the last beat of an instruction comes after the answers to its other
beats. -/
def Orderly (w : World) (t : Tick) : Bool :=
  (t.rsp.all fun rsp => (w.lsu.pendingReqs rsp.tag).all fun entry =>
    t.outFull || !entry.eop || decide (entry.count ≠ popcount rsp.mask) ||
      OnlyEntry w rsp.tag entry.owner) &&
  t.input.all Trace.Served

structure Progress (w : World) : Prop where
  untouched : ∀ {k},
    (w.traces.length ≤ k ∨ k ∈ w.lsu.reqQueue ∧
      (w.lsu.reqQueue.head? = some k → w.lsu.remainAddrs = 0)) → ∀ t, w.access k t = .waiting
  partly : ∀ {k rest tr}, w.lsu.reqQueue = k :: rest → w.lsu.remainAddrs ≠ 0 →
    w.traces[k]? = some tr → tr.Tracked → ∀ t < numThreads, tr.tmask t = true →
    (w.access k t = .waiting ↔ w.lsu.addrList.length - w.lsu.remainAddrs ≤ t)
  gone : ∀ {k tr}, w.traces[k]? = some tr → tr.Tracked → k ∉ w.lsu.reqQueue →
    ∀ t < numThreads, tr.tmask t = true → w.access k t ≠ .waiting
  value : ∀ {k t v}, w.access k t = .answered v → w.dstData k t = v
  marked : ∀ {tag e k}, w.lsu.pendingReqs tag = some e → e.owner = .trace k → e.eop = true →
    k ∉ w.lsu.reqQueue ∧
      ∀ tag' e', w.lsu.pendingReqs tag' = some e' → e'.owner = .trace k → e'.eop = true →
        tag' = tag
  sent : ∀ {k tr}, w.traces[k]? = some tr → tr.Tracked → k ∉ w.lsu.reqQueue →
    (sentCount w.outputs k = 1 ∧
      ∀ tag e, w.lsu.pendingReqs tag = some e → e.owner ≠ .trace k) ∨
    (sentCount w.outputs k = 0 ∧
      ∃ tag e, w.lsu.pendingReqs tag = some e ∧ e.owner = .trace k ∧ e.eop = true)
  unsent : ∀ {k}, (w.traces.length ≤ k ∨ k ∈ w.lsu.reqQueue) → sentCount w.outputs k = 0
  snapshot : ∀ {k d tr}, (k, d) ∈ w.outputs → w.traces[k]? = some tr → tr.Tracked →
    w.dstData k = d

structure Inv (w : World) : Prop extends Progress w where
  wf : ∀ {k : ℕ} {tr : Trace}, w.traces[k]? = some tr → tr.Encoded = true ∧ tr.Served = true
  nodup : w.lsu.reqQueue.Nodup
  queued : ∀ {k}, k ∈ w.lsu.reqQueue → k < w.traces.length
  fence : ∀ {k}, w.lsu.fence = some k →
    k ∉ w.lsu.reqQueue ∧ ∃ tr, w.traces[k]? = some tr ∧ tr.isFence = true
  started : w.lsu.remainAddrs ≠ 0 → ∃ k rest tr, w.lsu.reqQueue = k :: rest ∧
    w.traces[k]? = some tr ∧ tr.isFence = false ∧
    AddrsOf tr w.lsu.addrList ∧ w.lsu.remainAddrs ≤ w.lsu.addrList.length
  table : Table w.traces w.lsu.pendingReqs w.owed w.access

theorem Inv.reset : Inv World.reset := by
  refine ⟨?_, fun h => ?_, nodup_nil, fun h => absurd h not_mem_nil, fun h => ?_,
    fun h => absurd rfl h, ?_⟩
  · exact ⟨fun _ _ => rfl, nofun, nofun, nofun, nofun, nofun, fun _ => rfl, nofun⟩
  · simp [World.reset] at h
  · cases h
  · exact ⟨⟨fun _ => rfl, nofun, fun _ _ => rfl, nofun⟩, nofun, nofun, nofun, nofun⟩

section Moves

variable {w : World} {k : ℕ} {tr : Trace} {rest : List ℕ}

theorem Inv.pop (h : Inv w) (hq : w.lsu.reqQueue = k :: rest) :
    k ∉ rest ∧ rest.Nodup ∧ k ∈ w.lsu.reqQueue ∧
    (∀ {k'}, k' ∈ rest → k' ∈ w.lsu.reqQueue) ∧
    (∀ {k'}, k' ≠ k → k' ∉ rest → k' ∉ w.lsu.reqQueue) ∧
    ∀ {k'}, k' ≠ k → w.lsu.reqQueue.head? ≠ some k' := by
  have hnodup := h.nodup
  rw [hq, nodup_cons] at hnodup
  refine ⟨hnodup.1, hnodup.2, hq ▸ mem_cons_self .., fun hk' => hq ▸ mem_cons_of_mem _ hk',
    fun hne hnot hin => ?_, fun hne heq => ?_⟩
  · rw [hq] at hin
    exact (mem_cons.mp hin).elim hne hnot
  · rw [hq, head?_cons, some_inj] at heq
    exact hne heq.symm

section
variable (h : Inv w) {tag : ℕ} {e : PendingReq} (he : w.lsu.pendingReqs tag = some e)
  (hk : e.owner = .trace k)
include h he hk

theorem Inv.sentCount_of_entry : sentCount w.outputs k = 0 := by
  obtain ⟨tr, htr, htracked, -⟩ := h.table.owner he hk
  by_cases hq : k ∈ w.lsu.reqQueue
  · exact h.unsent (.inr hq)
  · rcases h.sent htr htracked hq with ⟨-, hno⟩ | ⟨hzero, -⟩
    · exact absurd hk (hno tag e he)
    · exact hzero

theorem Inv.entry_active (htr : w.traces[k]? = some tr) :
    ∃ t < numThreads, tr.tmask t = true ∧ ∃ lane, w.access k t = .requested tag lane := by
  have hpos := h.table.count_pos he hk
  rw [h.table.count he, popcount_pos_iff] at hpos
  obtain ⟨lane, -, howed⟩ := hpos
  obtain ⟨hacc, -, hlt, hactive⟩ := h.table.lane he hk htr howed
  exact ⟨_, hlt, hactive, lane, hacc⟩

end

theorem Progress.of_entries (h : Progress w) {pending : ℕ → Option PendingReq}
    {owed : ℕ → ℕ → Bool} (hsame : ∀ {tag e k}, e.owner = .trace k →
      (pending tag = some e ↔ w.lsu.pendingReqs tag = some e)) :
    Progress { w with lsu := { w.lsu with pendingReqs := pending }, owed := owed } := by
  refine { h with marked := fun he hk heop => ?_, sent := fun htr htracked hq => ?_ }
  · obtain ⟨hq, huniq⟩ := h.marked ((hsame hk).mp he) hk heop
    exact ⟨hq, fun tag' e' he' hk' => huniq tag' e' ((hsame hk').mp he') hk'⟩
  · rcases h.sent htr htracked hq with ⟨hone, hno⟩ | ⟨hzero, tag, e, he, hk, heop⟩
    · exact .inl ⟨hone, fun tag e he hk => hno tag e ((hsame hk).mp he) hk⟩
    · exact .inr ⟨hzero, tag, e, (hsame hk).mpr he, hk, heop⟩

variable {rsp : LsuRsp} {entry : PendingReq}

section
variable (h : Inv w)
include h

section
variable (hentry : w.lsu.pendingReqs rsp.tag = some entry)
include hentry

theorem Inv.answer_tcu {c : ℕ} (howner : entry.owner = .tcu c)
    (hmask : rsp.Owed w.owed) : Inv (answered w rsp entry) := by
  have htable := h.table.answer hentry hmask
  have hacc : answerAccess w.traces rsp w.access = w.access := by
    funext k t
    refine answerAccess_of_not fun lane hreq => ?_
    obtain ⟨e, he, hk, -⟩ := h.table.requested hreq
    rw [hentry, some_inj] at he
    rw [← he, howner] at hk
    cases hk
  rw [answered, hacc]
  rw [hacc] at htable
  refine { h with table := htable, toProgress := h.of_entries fun {tag e k} hk => ?_ }
  by_cases htag : tag = rsp.tag
  · subst htag
    refine ⟨fun he => ?_, fun he => ?_⟩
    · obtain ⟨e', he', howner', -⟩ := entry_of_answer hentry he
      cases (some_inj.mp (hentry.symm.trans he') ▸ howner).symm.trans (howner'.trans hk)
    · cases (some_inj.mp (hentry.symm.trans he) ▸ howner).symm.trans hk
  · rw [update_of_ne htag]

theorem Inv.writeBack (hk : entry.owner = .trace k)
    (htr : w.traces[k]? = some tr) (hmask : rsp.Owed w.owed) :
    ∃ dst, writeBack tr k entry rsp w.dstData = some dst ∧
    (∀ k' ≠ k, dst k' = w.dstData k') ∧
      ∀ k' t v, answerAccess w.traces rsp w.access k' t = .answered v → dst k' t = v := by
  obtain ⟨tr', htr', _, hwidth⟩ := h.table.owner hentry hk
  obtain rfl := trace_eq htr' htr
  have hlane : ∀ lane < numLanes, rsp.mask lane = true →
      w.access k (entry.lanes lane).tid = .requested rsp.tag lane ∧
      entry.lanes lane = addrEntry tr' (entry.lanes lane).tid ∧
      (entry.lanes lane).tid < numThreads ∧ tr'.tmask (entry.lanes lane).tid = true :=
        fun lane hlt hm => h.table.lane hentry hk htr (hmask lane hlt hm)
  obtain ⟨hencoded, hserved⟩ := h.wf htr
  simp only [Trace.Encoded, and_eq_true, decide_eq_true_eq] at hencoded
  simp only [Trace.Served, and_eq_true, all_eq_true, mem_range, or_eq_true, not_eq_true',
    decide_eq_true_eq] at hserved
  have hwidth6 : tr'.entryWidth ≤ 6 ∧ tr'.entryWidth % 4 = tr'.width % 4 := by
    unfold Trace.entryWidth
    split <;> omega
  have hformat : ∀ lane ∈ range numLanes, rsp.mask lane = true →
      (formatLoad tr' entry.width (entry.lanes lane).addr (rsp.data lane)).isSome = true := by
    intro lane hl hm
    obtain ⟨-, haddr, hlt, hactive⟩ := hlane lane (mem_range.mp hl) hm
    rw [hwidth, haddr]
    refine formatLoad_isSome hwidth6.1 ?_
    rw [hwidth6.2]
    rcases hserved.1 _ hlt with hinactive | hblock
    · rw [hactive] at hinactive
      cases hinactive
    · exact hblock
  have hinj : ∀ i ∈ range numLanes, ∀ j ∈ range numLanes, rsp.mask i = true →
      rsp.mask j = true →
      (entry.lanes i).tid = (entry.lanes j).tid → i = j := by
    intro i hi j hj hmi hmj heq
    have hi' := (hlane i (mem_range.mp hi) hmi).1
    have hj' := (hlane j (mem_range.mp hj) hmj).1
    rw [heq, hj'] at hi'
    exact ((Access.requested.injEq ..).mp hi').2.symm
  obtain ⟨dst, hfold, hother, hkeep, hset⟩ :=
    writeBack_lanes k nodup_range hformat hinj w.dstData
  refine ⟨dst, hfold, hother, fun k' t v hans => ?_⟩
  by_cases hreq : ∃ lane, w.access k' t = .requested rsp.tag lane ∧ rsp.mask lane = true
  · obtain ⟨lane, hacc, hm⟩ := hreq
    obtain ⟨e, he, hk', howed, htid⟩ := h.table.requested hacc
    rw [hentry] at he
    cases he
    cases hk.symm.trans hk'
    have hlt := h.table.owed_lt howed
    have hvalue := hset lane (mem_range.mpr hlt) hm
    rw [answerAccess_of_mask htr hacc hm, Access.answered.injEq, ← htid,
      ← (hlane lane hlt hm).2.1, ← hwidth, hvalue] at hans
    rw [← hans, htid]
    rfl
  · push Not at hreq
    rw [answerAccess_of_not fun lane hacc => not_eq_true _ ▸ hreq lane hacc] at hans
    rw [← h.value hans]
    by_cases hkk : k' = k
    · subst hkk
      refine hkeep t fun lane hl hm htid => ?_
      have hacc := (hlane lane (mem_range.mp hl) hm).1
      rw [htid, hans] at hacc
      cases hacc
    · rw [hother k' hkk]

theorem Inv.answer_trace (hk : entry.owner = .trace k) (hmask : rsp.Owed w.owed)
    (horder : entry.eop = true → entry.count = popcount rsp.mask →
      ∀ tag e, tag ≠ rsp.tag → w.lsu.pendingReqs tag = some e → e.owner ≠ .trace k)
    {dst : ℕ → ℕ → ℕ} (hother : ∀ k' ≠ k, dst k' = w.dstData k')
    (hvalue : ∀ k' t v, answerAccess w.traces rsp w.access k' t = .answered v → dst k' t = v) :
    Inv { answered w rsp entry with
      dstData := dst
      outputs :=
        if decide (entry.count - popcount rsp.mask = 0) && entry.eop then w.outputs ++ [(k, dst k)]
        else w.outputs } := by
  have hzero := h.sentCount_of_entry hentry hk
  have hle : popcount rsp.mask ≤ entry.count := by
    have := popcount_answer hmask
    rw [h.table.count hentry]
    omega
  have htable := h.table.answer hentry hmask
  generalize houtputs :
    (if decide (entry.count - popcount rsp.mask = 0) && entry.eop then w.outputs ++ [(k, dst k)]
      else w.outputs) = outputs
  have hcount : ∀ k' ≠ k, sentCount outputs k' = sentCount w.outputs k' := by
    intro k' hk'
    rw [← houtputs]
    split
    · rw [sentCount_append, if_neg hk'.symm, add_zero]
    · rfl
  have hmem : ∀ {k' d}, (k', d) ∈ outputs → (k', d) ∈ w.outputs ∨ k' = k ∧
      d = dst k := by
    intro k' d hin
    rw [← houtputs] at hin
    split at hin
    · exact mem_outputs_append hin
    · exact .inl hin
  refine { h with table := htable, toProgress := ?_ }
  refine ⟨fun hk' t => answerAccess_waiting.mpr (h.untouched hk' t),
    fun hq hr htr' htracked t ht hactive =>
    answerAccess_waiting.trans (h.partly hq hr htr' htracked t ht hactive),
    fun htr' htracked hq t ht hactive hwait =>
      h.gone htr' htracked hq t ht hactive (answerAccess_waiting.mp hwait),
    fun hans => hvalue _ _ _ hans, fun he hk' heop => ?_, fun {k' tr'} htr' htracked hq => ?_,
      fun {k'} hk' => ?_, fun {k' d tr'} hin htr' htracked => ?_⟩
  · -- an entry afterwards is an entry before, with the same owner and mark
    obtain ⟨e', he', howner, heop', -⟩ := entry_of_answer hentry he
    obtain ⟨hq, huniq⟩ := h.marked he' (howner.trans hk') (heop'.trans heop)
    refine ⟨hq, fun tag'' e'' he'' hk'' heop'' => ?_⟩
    obtain ⟨e3, he3, howner3, heop3, -⟩ := entry_of_answer hentry he''
    exact huniq tag'' e3 he3 (howner3.trans hk'') (heop3.trans heop'')
  · by_cases hkk : k' = k
    · subst hkk
      rcases h.sent htr' htracked hq with ⟨hone, -⟩ | ⟨-, tag, e, he, hke, heop⟩
      · omega
      by_cases htag : tag = rsp.tag
      · subst htag
        rw [hentry] at he
        cases he
        by_cases hdone : entry.count - popcount rsp.mask = 0
        · refine .inl ⟨?_, fun tag' e' he' hk' => ?_⟩
          · rw [← houtputs, if_pos (by rw [heop, Bool.and_true]; exact decide_eq_true hdone),
              sentCount_append, hzero, if_pos rfl]
          · by_cases htag' : tag' = rsp.tag
            · subst htag'
              cases ((update_self ..).trans (if_pos hdone)).symm.trans he'
            · exact horder heop (by omega) tag' e' htag'
                ((update_of_ne htag' ..).symm.trans he') hk'
        · refine .inr ⟨?_, rsp.tag, { entry with count := entry.count - popcount rsp.mask }, ?_,
            hk, heop⟩
          · rw [← houtputs, if_neg (by simp [hdone]), hzero]
          · exact (update_self ..).trans (if_neg hdone)
      · -- the packet is for another beat, whose entry is not marked
        have hmark : entry.eop = false := by
          by_contra hne
          exact htag ((h.marked hentry hk (not_eq_false _ ▸ hne)).2 tag e he hke heop)
        refine .inr ⟨?_, tag, e, (update_of_ne htag ..).trans he, hke, heop⟩
        rw [← houtputs, if_neg (by simp [hmark]), hzero]
    · rw [hcount k' hkk]
      rcases h.sent htr' htracked hq with ⟨hone, hno⟩ | ⟨hz, tag, e, he, hke, heop⟩
      · refine .inl ⟨hone, fun tag e he hke => ?_⟩
        obtain ⟨e', he', howner, -⟩ := entry_of_answer hentry he
        exact hno tag e' he' (howner.trans hke)
      have htag : tag ≠ rsp.tag := by
        rintro rfl
        rw [hentry] at he
        cases he
        exact hkk (Owner.trace.inj (hke.symm.trans hk))
      exact .inr ⟨hz, tag, e, (update_of_ne htag ..).trans he, hke, heop⟩
  · by_cases hkk : k' = k
    · subst hkk
      have hmark : entry.eop = false := by
        by_contra hne
        rcases hk' with hlen | hq
        · obtain ⟨tr', htr', -⟩ := h.table.owner hentry hk
          have := trace_lt htr'
          simp only at hlen
          omega
        · exact (h.marked hentry hk (not_eq_false _ ▸ hne)).1 hq
      rw [← houtputs, if_neg (by simp [hmark]), hzero]
    · rw [hcount k' hkk]
      exact h.unsent hk'
  · rcases hmem hin with hin | ⟨rfl, rfl⟩
    · have hkk : k' ≠ k := by
        rintro rfl
        have := sentCount_pos hin
        omega
      exact (hother k' hkk).trans (h.snapshot hin htr' htracked)
    · rfl

end

theorem Inv.respond {t : Tick} (hcontract : Contract w t = true) (horder : Orderly w t = true) :
    ∃ w', respond w t = some w' ∧ Inv w' := by
  cases hrsp : t.rsp with
  | none => exact ⟨w, by rw [Lsu.respond, hrsp], h⟩
  | some rsp =>
    simp only [Contract, Orderly, hrsp, all_some, and_eq_true, any_eq_true, all_eq_true, mem_range,
      or_eq_true, not_eq_true'] at hcontract horder
    obtain ⟨⟨⟨lane, hlt, hm⟩, hmask⟩, -⟩ := hcontract
    have howed : rsp.Owed w.owed := by
      intro lane hlt hm
      rcases hmask lane hlt with hno | hyes
      · rw [hm] at hno
        cases hno
      · exact hyes
    obtain ⟨entry, hentry⟩ : ∃ entry, w.lsu.pendingReqs rsp.tag = some entry := by
      by_contra hnone
      have :=
        h.table.free (Option.eq_none_iff_forall_ne_some.mpr fun e he => hnone ⟨e, he⟩) lane
      rw [howed lane hlt hm] at this
      cases this
    simp only [Lsu.respond, hrsp, responseStep, hentry, bind_some]
    cases hk : entry.owner with
    | tcu c =>
      refine ⟨_, rfl, ?_⟩
      split
      · exact h
      · exact h.answer_tcu hentry hk howed
    | trace k =>
      obtain ⟨tr, htr, -⟩ := h.table.owner hentry hk
      have hpos := h.table.count_pos hentry hk
      simp only
      split
      · exact ⟨w, rfl, h⟩
      rename_i hroom
      obtain ⟨dst, hdst, hother, hvalue⟩ := h.writeBack hentry hk htr howed
      rw [if_neg (by omega)]
      simp only [htr, bind_some, hdst, map_some]
      refine ⟨_, rfl,
        h.answer_trace hentry hk howed (fun heop hcount tag e htag he hke => ?_) hother hvalue⟩
      have honly := horder.1
      rw [hentry, all_some, heop, hk] at honly
      rw [heop, decide_eq_true hcount] at hroom
      simp only [Bool.not_true, Bool.or_false, or_eq_true, decide_eq_true_eq, OnlyEntry,
        all_eq_true, mem_range] at honly
      rcases honly with (hfull | hcount') | hall
      · rw [hfull] at hroom
        exact hroom rfl
      · exact hcount' hcount
      · have hlt' : tag < pendingSize := by
          by_contra hge
          rw [h.table.tags (by omega)] at he
          cases he
        rcases hall tag hlt' with hsame | hdiff
        · exact htag hsame
        · rw [he, all_some, decide_eq_true_eq] at hdiff
          exact hdiff hke

theorem Inv.releaseFence (outFull : Bool) : Inv (releaseFence w outFull) := by
  unfold Lsu.releaseFence
  cases hfence : w.lsu.fence with
  | none => exact h
  | some k =>
    simp only
    split
    · obtain ⟨hq, tr, htr, hisFence⟩ := h.fence hfence
      have hlt := trace_lt htr
      have hne : ∀ {k' tr'}, w.traces[k']? = some tr' → tr'.Tracked → k ≠ k' :=
        fence_ne htr hisFence
      refine { h with fence := (fun hk => by cases hk), toProgress := ?_ }
      refine { h.toProgress with
        sent := fun htr' htracked hq' => ?_, unsent := fun {k'} hk' => ?_,
        snapshot := fun hmem htr' htracked => ?_ }
      · rw [sentCount_append, if_neg (hne htr' htracked), add_zero]
        exact h.sent htr' htracked hq'
      · rw [sentCount_append, if_neg (ne_of_unsent hlt hq hk'), add_zero]
        exact h.unsent hk'
      · rcases mem_outputs_append hmem with hin | ⟨rfl, -⟩
        · exact h.snapshot hin htr' htracked
        · exact absurd rfl (hne htr' htracked)
    · exact h

theorem Inv.forwardTcu (q : TcuReq) (hroom : w.lsu.pendingFull = false) :
    ∃ w', forwardTcu w q = some w' ∧ Inv w' := by
  obtain ⟨tag, htag⟩ := TagTable.free_isSome hroom
  obtain ⟨hlt, hfree⟩ := TagTable.free_spec htag
  refine ⟨_, congrArg (Option.map _) htag, ?_⟩
  have hacc : ∀ entry : PendingReq, entry.owner = .tcu q.clientTag → ∀ mask,
      allocated entry mask tag w.access = w.access := by
    intro entry howner mask
    funext k
    exact allocated_of_ne (by rw [howner]; simp)
  refine { h with
    table := h.table.allocate hlt hfree rfl (fun k hk => by cases hk), toProgress := ?_ }
  refine h.of_entries fun {tag' e k} hk => ?_
  by_cases htag' : tag' = tag
  · subst htag'
    rw [update_self, hfree, some_inj]
    refine ⟨fun he => ?_, fun he => by cases he⟩
    cases he ▸ hk
  · rw [update_of_ne htag']

section
variable (hq : w.lsu.reqQueue = k :: rest)
include hq

theorem Inv.lockFence (htr : w.traces[k]? = some tr) (hfence : tr.isFence = true) :
    Inv { w with lsu := { w.lsu with fence := some k, reqQueue := rest } } := by
  obtain ⟨hkrest, hnodup, -, hsub, hout, -⟩ := h.pop hq
  have hzero : w.lsu.remainAddrs = 0 := by
    by_contra hne
    obtain ⟨k', rest', tr', hq', htr', hnot, -⟩ := h.started hne
    rw [hq, cons.injEq] at hq'
    rw [trace_eq htr (hq'.1 ▸ htr')] at hfence
    cases hfence.symm.trans hnot
  have hne : ∀ {k' tr'}, w.traces[k']? = some tr' → tr'.Tracked → k' ≠ k :=
    fun htr' htracked => (fence_ne htr hfence htr' htracked).symm
  refine ⟨?_, h.wf, hnodup, fun hk' => h.queued (hsub hk'), fun hk' => ?_,
    fun hne => absurd hzero hne, h.table⟩
  rotate_left
  · cases hk'
    exact ⟨hkrest, tr, htr, hfence⟩
  refine ⟨fun hk' => h.untouched (hk'.imp_right fun hin => ⟨hsub hin.1, fun _ => hzero⟩),
    fun _ hne => absurd hzero hne,
    fun htr' htracked hnot => h.gone htr' htracked (hout (hne htr' htracked) hnot), h.value,
    fun he hk' heop => ?_,
    fun htr' htracked hnot => h.sent htr' htracked (hout (hne htr' htracked) hnot),
    fun hk' => h.unsent (hk'.imp_right hsub), h.snapshot⟩
  obtain ⟨hnot, huniq⟩ := h.marked he hk' heop
  exact ⟨fun hin => hnot (hsub hin), huniq⟩

theorem Inv.setAddrs (htr : w.traces[k]? = some tr) (hfence : tr.isFence = false)
    {l : List AddrEntry} {r : ℕ} (hl : AddrsOf tr l) (hle : r ≤ l.length)
    (hzero : r = 0 → w.lsu.remainAddrs = 0)
    (hpart : r ≠ 0 → tr.Tracked → ∀ t < numThreads, tr.tmask t = true →
      (w.access k t = .waiting ↔ l.length - r ≤ t)) :
    Inv { w with lsu := { w.lsu with addrList := l, remainAddrs := r } } := by
  refine { h with
    started := fun _ => ⟨k, rest, tr, hq, htr, hfence, hl, hle⟩, toProgress := ?_ }
  refine { h.toProgress with
    untouched := fun {k'} hk' =>
    h.untouched (hk'.imp_right fun hin => ⟨hin.1, fun heq => hzero (hin.2 heq)⟩),
    partly := fun {k' rest' tr'} hq' hr htr' htracked => ?_ }
  obtain ⟨rfl, -⟩ := cons.inj (hq.symm.trans hq')
  obtain rfl := trace_eq htr htr'
  exact hpart hr htracked

theorem Inv.commit (htr : w.traces[k]? = some tr)
    (hnone : tr.Tracked → ∀ t < numThreads, tr.tmask t = false) : Inv { w with
      lsu := { w.lsu with reqQueue := rest, remainAddrs := 0 }
      outputs := w.outputs ++ [(k, w.dstData k)] } := by
  obtain ⟨hkrest, hnodup, hk, hsub, hout, hhead⟩ := h.pop hq
  have hzero := h.unsent (.inr hk)
  have hlt := h.queued hk
  refine ⟨?_, h.wf, hnodup, fun hk' => h.queued (hsub hk'), fun hk' => ?_,
    fun hne => absurd rfl hne, h.table⟩
  rotate_left
  · obtain ⟨hnot, hrest⟩ := h.fence hk'
    exact ⟨fun hin => hnot (hsub hin), hrest⟩
  refine ⟨fun hk' => h.untouched (hk'.imp_right fun hin => ⟨hsub hin.1, fun heq =>
      absurd heq (hhead (ne_of_mem_of_not_mem hin.1 hkrest))⟩), fun _ hne => absurd rfl hne,
    fun {k' tr'} htr' htracked hnot t ht hactive => ?_, h.value, fun he hk' heop => ?_,
      fun {k' tr'} htr' htracked hnot => ?_,
    fun {k'} hk' => ?_, fun {k' d tr'} hmem htr' htracked => ?_⟩
  · by_cases hkk : k' = k
    · subst hkk
      obtain rfl := trace_eq htr htr'
      rw [hnone htracked t ht] at hactive
      cases hactive
    · exact h.gone htr' htracked (hout hkk hnot) t ht hactive
  · obtain ⟨hnot, huniq⟩ := h.marked he hk' heop
    exact ⟨fun hin => hnot (hsub hin), huniq⟩
  · rw [sentCount_append]
    by_cases hkk : k' = k
    · subst hkk
      obtain rfl := trace_eq htr htr'
      refine .inl ⟨by rw [hzero, if_pos rfl], fun tag e he hke => ?_⟩
      obtain ⟨t, ht, hactive, -⟩ := h.entry_active he hke htr
      rw [hnone htracked t ht] at hactive
      cases hactive
    · rw [if_neg (Ne.symm hkk), add_zero]
      exact h.sent htr' htracked (hout hkk hnot)
  · rw [sentCount_append, if_neg (ne_of_unsent hlt hkrest hk'), add_zero]
    exact h.unsent (hk'.imp_right hsub)
  · rcases mem_outputs_append hmem with hin | ⟨rfl, rfl⟩
    · exact h.snapshot hin htr' htracked
    · rfl

end

end

theorem beatEntry_eq {s : State} (hl : AddrsOf tr s.addrList)
    (hle : s.remainAddrs ≤ s.addrList.length) {i : ℕ} (hi : i < min numLanes s.remainAddrs) :
    beatEntry s i = addrEntry tr (s.addrList.length - s.remainAddrs + i) := by
  rw [beatEntry, getD_eq_getElem?_getD, hl.get _ (by omega)]
  rfl

theorem beatMask_iff {s : State} (hl : AddrsOf tr s.addrList)
    (hle : s.remainAddrs ≤ s.addrList.length) (i : ℕ) : beatMask s i = true ↔
      i < min numLanes s.remainAddrs ∧ tr.tmask (s.addrList.length - s.remainAddrs + i) =
        true := by
  rw [beatMask, and_eq_true, decide_eq_true_eq, decide_eq_true_eq]
  refine and_congr_right fun hi => ?_
  rw [beatEntry_eq hl hle hi, Ne, addrEntry_size, not_eq_false]

section
variable (h : Inv w) (hq : w.lsu.reqQueue = k :: rest) (htr : w.traces[k]? = some tr)
include h hq htr

theorem Inv.beat (htracked : tr.Tracked)
    (hr : w.lsu.remainAddrs ≠ 0) (hl : AddrsOf tr w.lsu.addrList)
    (hle : w.lsu.remainAddrs ≤ w.lsu.addrList.length)
    (hactive : ∃ i < min numLanes w.lsu.remainAddrs,
      tr.tmask (w.lsu.addrList.length - w.lsu.remainAddrs + i) = true)
    {tag : ℕ} (hlt : tag < pendingSize) (hfree : w.lsu.pendingReqs tag = none) {r : ℕ}
    (hr' : w.lsu.remainAddrs - min numLanes w.lsu.remainAddrs = r)
    {entry : PendingReq} {mask : ℕ → Bool} (hentry : entry = beatPending w.lsu k tr)
    (hmask : mask = beatMask w.lsu) (queue : List ℕ)
    (hqueue : (r = 0 ∧ queue = rest) ∨ (r ≠ 0 ∧ queue = w.lsu.reqQueue)) : Inv { w with
      lsu := { w.lsu with
        pendingReqs := update w.lsu.pendingReqs tag (some entry)
        remainAddrs := r
        reqQueue := queue }
      owed := update w.owed tag fun lane => decide (lane < numLanes) && mask lane
      access := allocated entry mask tag w.access } := by
  obtain ⟨hkrest, hnodup, hk, hrest, hleft, hhead⟩ := h.pop hq
  have hzero := h.unsent (.inr hk)
  have hbeat := beatMask_iff hl hle
  rw [← hmask] at hbeat
  obtain ⟨howner, hcount, hlast⟩ : entry.owner = .trace k ∧ entry.count = popcount mask ∧
      (entry.eop = true ↔ r = 0) := by
    subst hentry hmask hr'
    exact ⟨rfl, rfl, decide_eq_true_iff⟩
  have hsub : ∀ {k'}, k' ∈ queue → k' ∈ w.lsu.reqQueue := by
    rcases hqueue with ⟨-, rfl⟩ | ⟨-, rfl⟩
    · exact hrest
    · exact id
  have hout : ∀ {k'}, k' ≠ k → k' ∉ queue → k' ∉ w.lsu.reqQueue := by
    rcases hqueue with ⟨-, rfl⟩ | ⟨-, rfl⟩
    · exact hleft
    · exact fun _ hnot => hnot
  have hkout : k ∉ queue ↔ r = 0 := by
    rcases hqueue with ⟨h0, rfl⟩ | ⟨h0, rfl⟩
    · exact iff_of_true hkrest h0
    · exact iff_of_false (not_not_intro hk) h0
  -- the lane of a thread in the beat
  have hlane : ∀ {i}, mask i = true →
      entry.lanes i = addrEntry tr (w.lsu.addrList.length - w.lsu.remainAddrs + i) := by
    intro i hi
    have := beatEntry_eq hl hle ((hbeat i).mp hi).1
    simpa [hentry, beatPending, ← hmask, hi] using this
  have htid : ∀ {i}, mask i = true →
      (entry.lanes i).tid = w.lsu.addrList.length - w.lsu.remainAddrs + i := by
    intro i hi
    rw [hlane hi, addrEntry_tid]
  have hlen := hl.len
  have hfresh : Fresh w.traces w.access entry mask k tr := by
    refine ⟨htr, htracked, ?_, by rw [hentry]; rfl, fun hi => ?_, fun hi => ?_,
      fun hi hj heq => ?_⟩
    · obtain ⟨i, hi, ht⟩ := hactive
      exact ⟨i, by omega, (hbeat i).mpr ⟨hi, ht⟩⟩
    · obtain ⟨hlt', ht⟩ := (hbeat _).mp hi
      rw [htid hi]
      exact ⟨hlane hi, by omega, ht⟩
    · obtain ⟨hlt', ht⟩ := (hbeat _).mp hi
      rw [htid hi]
      exact (h.partly hq hr htr htracked _ (by omega) ht).mpr (by omega)
    · rw [htid hi, htid hj] at heq
      omega
  have hother : ∀ {k'}, k' ≠ k → allocated entry mask tag w.access k' = w.access k' :=
    fun hne => allocated_of_ne fun heq => hne (Owner.trace.inj (howner.symm.trans heq)).symm
  -- the threads that still wait are those after the beat
  have hwait : ∀ t < numThreads, tr.tmask t = true →
      (allocated entry mask tag w.access k t = .waiting ↔ w.lsu.addrList.length - r ≤ t) := by
    intro t ht hat
    rcases allocated_cases w.access mask tag howner t with
      ⟨lane, -, hm, heq, hreq⟩ | ⟨hno, hsame⟩
    · rw [hreq]
      rw [htid hm] at heq
      have := ((hbeat _).mp hm).1
      exact iff_of_false (by simp) (by omega)
    · rw [hsame, h.partly hq hr htr htracked t ht hat]
      refine ⟨fun hge => ?_, fun hge => by omega⟩
      by_contra hlt'
      have hm : mask (t - (w.lsu.addrList.length - w.lsu.remainAddrs)) = true :=
        (hbeat _).mpr ⟨by omega, by rwa [Nat.add_sub_cancel' hge]⟩
      exact hno _ (by omega) hm (by rw [htid hm, Nat.add_sub_cancel' hge])
  have htable := h.table.allocate hlt hfree hcount
    fun k' hk' => ⟨tr, Owner.trace.inj (howner.symm.trans hk') ▸ hfresh⟩
  refine ⟨?_, h.wf, ?_, fun hk' => h.queued (hsub hk'), fun hk' => ?_, fun hne => ?_, htable⟩
  rotate_left
  · rcases hqueue with ⟨-, rfl⟩ | ⟨-, rfl⟩
    · exact hnodup
    · exact h.nodup
  · obtain ⟨hnot, hrest⟩ := h.fence hk'
    exact ⟨fun hin => hnot (hsub hin), hrest⟩
  · rcases hqueue with ⟨h0, -⟩ | ⟨-, rfl⟩
    · exact absurd h0 hne
    · exact ⟨k, rest, tr, hq, htr, htracked.2, hl, by simp only; omega⟩
  refine ⟨fun {k'} hk' t => ?_, fun {k' rest' tr'} hq' h0 htr' _ t ht hat => ?_,
    fun {k' tr'} htr' htracked' hnot t ht hat => ?_,
    fun {k' t v} hans => ?_, fun {tag' e k'} he hk' heop => ?_,
    fun {k' tr'} htr' htracked' hnot => ?_, fun hk' => h.unsent (hk'.imp_right hsub), h.snapshot⟩
  · have hkk : k' ≠ k := by
      rintro rfl
      rcases hk' with hlen' | ⟨hin, hfirst⟩
      · exact absurd (h.queued hk) (by simpa using hlen')
      · rcases hqueue with ⟨-, rfl⟩ | ⟨h0, rfl⟩
        · exact hkrest hin
        · exact h0 (hfirst (by simp only [hq, head?_cons]))
    exact (congrFun (hother hkk) t).trans
      (h.untouched (hk'.imp_right fun hin => ⟨hsub hin.1, fun heq => absurd heq (hhead hkk)⟩) t)
  · rcases hqueue with ⟨hz, -⟩ | ⟨-, rfl⟩
    · exact absurd hz h0
    · obtain ⟨rfl, -⟩ := cons.inj (hq.symm.trans hq')
      obtain rfl := trace_eq htr htr'
      exact hwait t ht hat
  · by_cases hkk : k' = k
    · subst hkk
      obtain rfl := trace_eq htr htr'
      rw [Ne, hwait t ht hat, hkout.mp hnot]
      intro hge
      rw [hl.tail t ht (by omega)] at hat
      cases hat
    · exact fun hw =>
        h.gone htr' htracked' (hout hkk hnot) t ht hat ((congrFun (hother hkk) t).symm.trans hw)
  · refine h.value (?_ : w.access k' t = .answered v)
    by_cases hkk : k' = k
    · subst hkk
      rcases allocated_cases w.access mask tag howner t with
        ⟨lane, -, -, -, hreq⟩ | ⟨-, hsame⟩
      · cases hreq.symm.trans hans
      · exact hsame.symm.trans hans
    · exact (congrFun (hother hkk) t).symm.trans hans
  · rcases entry_of_allocate he with ⟨rfl, rfl⟩ | ⟨-, he'⟩
    · cases howner.symm.trans hk'
      refine ⟨hkout.mpr (hlast.mp heop), fun tag'' e'' he'' hk'' heop'' => ?_⟩
      rcases entry_of_allocate he'' with ⟨rfl, -⟩ | ⟨-, hin⟩
      · rfl
      · exact absurd hk (h.marked hin hk'' heop'').1
    · obtain ⟨hnot, huniq⟩ := h.marked he' hk' heop
      refine ⟨fun hin => hnot (hsub hin), fun tag'' e'' he'' hk'' heop'' => ?_⟩
      rcases entry_of_allocate he'' with ⟨-, rfl⟩ | ⟨-, hin⟩
      · cases howner.symm.trans hk''
        exact absurd hk hnot
      · exact huniq tag'' e'' hin hk'' heop''
  · by_cases hkk : k' = k
    · subst hkk
      exact .inr ⟨hzero, tag, _, update_self .., howner, hlast.mpr (hkout.mp hnot)⟩
    · rcases h.sent htr' htracked' (hout hkk hnot) with ⟨hone, hno⟩ |
        ⟨hz, tag', e, he, hke, heop⟩
      · refine .inl ⟨hone, fun tag' e he hke => ?_⟩
        rcases entry_of_allocate he with ⟨-, rfl⟩ | ⟨-, hin⟩
        · exact hkk (Owner.trace.inj (howner.symm.trans hke)).symm
        · exact hno tag' e hin hke
      · refine .inr ⟨hz, tag', e, (update_of_ne ?_ ..).trans he, hke, heop⟩
        rintro rfl
        cases hfree.symm.trans he

theorem Inv.loaded :
    ∃ l r, (if w.lsu.remainAddrs = 0 then (computeAddrs tr).map fun l =>
        { w.lsu with addrList := l, remainAddrs := l.length }
      else some w.lsu) = some { w.lsu with addrList := l, remainAddrs := r } ∧ AddrsOf tr l ∧
      r ≤ l.length ∧ (r = 0 → l = []) ∧ (r = 0 → w.lsu.remainAddrs = 0) ∧
      (tr.Tracked → ∀ t < numThreads, tr.tmask t = true →
        (w.access k t = .waiting ↔ l.length - r ≤ t)) := by
  by_cases hr : w.lsu.remainAddrs = 0
  · have hencoded := (h.wf htr).1
    simp only [Trace.Encoded, and_eq_true, or_eq_true, not_eq_true', decide_eq_true_eq] at hencoded
    have hwidth : ¬ (tr.isWrite && decide (3 < tr.width)) = true := by
      rw [and_eq_true, decide_eq_true_eq]
      rintro ⟨hwrite, hgt⟩
      rcases hencoded.2 with hno | hle
      · rw [hwrite] at hno
        cases hno
      · omega
    obtain ⟨l, hl⟩ : ∃ l, computeAddrs tr = some l := ⟨_, if_neg hwidth⟩
    have haddrs := computeAddrs_spec hl
    refine ⟨l, l.length, by rw [if_pos hr, hl]; rfl, haddrs, le_refl _, eq_nil_of_length_eq_zero,
      fun _ => hr, fun _ t _ _ => ?_⟩
    have hk : k ∈ w.lsu.reqQueue := hq ▸ mem_cons_self ..
    exact iff_of_true (h.untouched (.inr ⟨hk, fun _ => hr⟩) t) (by omega)
  · obtain ⟨k', rest', tr', hq', htr', -, hl, hle⟩ := h.started hr
    obtain ⟨rfl, -⟩ := cons.inj (hq.symm.trans hq')
    obtain rfl := trace_eq htr htr'
    exact ⟨w.lsu.addrList, w.lsu.remainAddrs, if_neg hr, hl, hle, fun h0 => absurd h0 hr, id,
      h.partly hq hr htr⟩

theorem Inv.send (hfence : tr.isFence = false)
    (hroom : ¬ (!tr.isWrite && w.lsu.pendingFull) = true) (hl : AddrsOf tr w.lsu.addrList)
    (hle : w.lsu.remainAddrs ≤ w.lsu.addrList.length) (hbeat : w.lsu.remainAddrs ≠ 0 →
      ∃ i < min numLanes w.lsu.remainAddrs,
        tr.tmask (w.lsu.addrList.length - w.lsu.remainAddrs + i) = true)
    (hempty : w.lsu.remainAddrs = 0 → w.lsu.addrList = []) {commit : Bool}
    (hcommit : commit = ((tr.isWrite || w.lsu.addrList.isEmpty) && !tr.isAmo)) :
    ∃ w', ((if w.lsu.remainAddrs ≠ 0 then sendBeat w k tr else some w).map fun w' =>
      if w'.lsu.remainAddrs = 0 then
        { w' with
          lsu := { w'.lsu with reqQueue := rest }
          outputs := if commit then w'.outputs ++ [(k, w'.dstData k)] else w'.outputs }
      else w') = some w' ∧ Inv w' := by
  by_cases hr : w.lsu.remainAddrs = 0
  · -- no thread is active, so the instruction is not an atomic
    have hnil := hempty hr
    have hnone : ∀ t < numThreads, tr.tmask t = false :=
      fun t ht => hl.tail t ht (by rw [hnil]; exact Nat.zero_le t)
    have hamo : tr.isAmo = false := by
      have hserved := (h.wf htr).2
      simp only [Trace.Served, and_eq_true, or_eq_true, not_eq_true', any_eq_true,
        mem_range] at hserved
      rcases hserved.2 with hno | ⟨t, ht, hat⟩
      · exact hno
      · rw [hnone t ht] at hat
        cases hat
    have hyes : commit = true := by
      rw [hcommit, hnil, hamo]
      simp
    rw [if_neg (not_not_intro hr), map_some, if_pos hr, if_pos hyes]
    refine ⟨_, rfl, ?_⟩
    have := h.commit hq htr fun _ => hnone
    rwa [← hr] at this
  · rw [if_pos hr]
    have h' : Inv { w with beats := w.beats ++ sentThreads w.lsu k } :=
      { h with toProgress := { h.toProgress with } }
    by_cases hwrite : tr.isWrite = true
    · have hyes : commit = true := by
        have hamo : tr.isAmo = false := by
          rw [Trace.isWrite, decide_eq_true_eq] at hwrite
          rw [Trace.isAmo, hwrite]
        rw [hcommit, hwrite, hamo]
        rfl
      have huntracked : ¬ tr.Tracked := fun ht => by
        rw [Trace.Tracked, hwrite] at ht
        cases ht.1
      simp only [sendBeat, hwrite, if_true, map_some, hyes]
      refine ⟨_, rfl, ?_⟩
      split
      · rename_i h0
        rw [h0]
        exact h'.commit hq htr fun ht => absurd ht huntracked
      · rename_i h0
        exact h'.setAddrs hq htr hfence hl (by omega) (fun hz => absurd hz h0)
          fun _ ht => absurd ht huntracked
    · rw [not_eq_true] at hwrite
      have htracked : tr.Tracked := ⟨hwrite, hfence⟩
      have hno : commit = false := by
        have hne : w.lsu.addrList.isEmpty = false := by
          rw [isEmpty_eq_false_iff, ← length_pos_iff]
          omega
        rw [hcommit, hwrite, hne]
        rfl
      rw [hwrite, Bool.not_false, Bool.true_and, not_eq_true] at hroom
      obtain ⟨tag, htag⟩ := TagTable.free_isSome hroom
      obtain ⟨hlt, hfree⟩ := TagTable.free_spec htag
      have hbeat' := h'.beat hq htr htracked hr hl hle (hbeat hr) hlt hfree rfl rfl rfl
      have hsend : sendBeat w k tr = some { w with
          lsu := { w.lsu with
            pendingReqs := update w.lsu.pendingReqs tag (some (beatPending w.lsu k tr))
            remainAddrs := w.lsu.remainAddrs - min numLanes w.lsu.remainAddrs }
          owed := update w.owed tag fun lane => decide (lane < numLanes) && beatMask w.lsu lane
          access := allocated (beatPending w.lsu k tr) (beatMask w.lsu) tag w.access
          beats := w.beats ++ sentThreads w.lsu k } := by
        simp only [sendBeat, hwrite, Bool.false_eq_true, if_false]
        exact congrArg (Option.map _) htag
      rw [hsend, map_some, hno]
      refine ⟨_, rfl, ?_⟩
      split
      · rename_i h0
        exact hbeat' rest (.inl ⟨h0, rfl⟩)
      · rename_i h0
        exact hbeat' w.lsu.reqQueue (.inr ⟨h0, rfl⟩)

end

theorem Inv.dispatch (h : Inv w) (outFull reqFull : Bool) :
    ∃ w', dispatch w outFull reqFull = some w' ∧ Inv w' := by
  unfold Lsu.dispatch
  split
  · exact ⟨w, rfl, h⟩
  rename_i k rest hq
  have hlt := h.queued (hq ▸ mem_cons_self .. : k ∈ w.lsu.reqQueue)
  obtain ⟨tr, htr⟩ : ∃ tr, w.traces[k]? = some tr := ⟨_, getElem?_eq_getElem hlt⟩
  rw [htr, bind_some]
  split
  · rename_i hfence
    exact ⟨_, rfl, h.lockFence hq htr hfence⟩
  rename_i hfence
  rw [not_eq_true] at hfence
  split
  · exact ⟨w, rfl, h⟩
  rename_i hroom
  obtain ⟨l, r, hloaded, hl, hle, hnil, hzero, hpart⟩ := h.loaded hq htr
  rw [hloaded, bind_some]
  have hskip : r ≠ 0 → _ :=
    fun hr => skipInactive_spec hl lanes_pos hle (le_refl r) (pos_of_ne_zero hr) rfl
  have hskip0 : r = 0 → skipInactive numLanes l r r = 0 := fun hr => by rw [hr]; rfl
  have hset : Inv { w with
      lsu := { w.lsu with addrList := l, remainAddrs := skipInactive numLanes l r r } } := by
    refine h.setAddrs hq htr hfence hl ?_ (fun h0 => ?_) fun hne htracked t ht hat => ?_
    · by_cases hr : r = 0
      · rw [hskip0 hr]
        exact Nat.zero_le _
      · exact (hskip hr).2.1.trans hle
    · by_cases hr : r = 0
      · exact hzero hr
      · have := (hskip hr).1
        omega
    · have hr : r ≠ 0 := fun hr => hne (hskip0 hr)
      obtain ⟨-, hle', hinactive, -⟩ := hskip hr
      rw [hpart htracked t ht hat]
      refine ⟨fun hge => ?_, fun hge => by omega⟩
      by_contra hlt'
      rw [hinactive t hge (by omega)] at hat
      cases hat
  simp only
  split
  · exact ⟨_, rfl, hset⟩
  split
  · exact ⟨_, rfl, hset⟩
  refine hset.send hq htr hfence hroom hl ?_ (fun hne => ?_) (fun h0 => ?_) rfl
  · by_cases hr : r = 0
    · simp only [hskip0 hr, zero_le]
    · exact (hskip hr).2.1.trans hle
  · exact (hskip fun hr => hne (hskip0 hr)).2.2.2
  · refine hnil ?_
    by_contra hr
    simp only at h0
    omega

theorem Inv.requestStep (h : Inv w) (tcuReq : Option TcuReq) (outFull reqFull : Bool) :
    ∃ w', requestStep w tcuReq outFull reqFull = some w' ∧ Inv w' := by
  have hfence := h.releaseFence outFull
  simp only [Lsu.requestStep]
  cases hreq : tcuReq.filter fun _ => !(Lsu.releaseFence w outFull).lsu.pendingFull && !reqFull with
  | some q =>
    have hroom := (Option.filter_eq_some_iff.mp hreq).2
    rw [and_eq_true, not_eq_true'] at hroom
    exact hfence.forwardTcu q hroom.1
  | none =>
    simp only
    split
    · exact ⟨_, rfl, hfence⟩
    · exact hfence.dispatch outFull reqFull

theorem Inv.ingestInputs (h : Inv w) (hencoded : tr.Encoded = true) (hserved : tr.Served = true) :
    Inv (ingestInputs w tr) := by
  unfold Lsu.ingestInputs
  split
  · exact h
  have hold : ∀ {k' : ℕ} {tr' : Trace}, (w.traces ++ [tr])[k']? = some tr' →
      k' ≠ w.traces.length →
      w.traces[k']? = some tr' :=
    fun htr' hne => (trace_of_append htr').resolve_right fun hnew => hne hnew.1
  have hnew : w.traces.length ∉ w.lsu.reqQueue := fun hin => absurd (h.queued hin) (lt_irrefl _)
  have hnewout : ∀ {k'}, k' ∉ w.lsu.reqQueue ++ [w.traces.length] → k' ≠ w.traces.length ∧
      k' ∉ w.lsu.reqQueue := by
    intro k' hnot
    rw [mem_append, mem_singleton, not_or] at hnot
    exact ⟨hnot.2, hnot.1⟩
  have hlt : ∀ {tag e k'}, w.lsu.pendingReqs tag = some e → e.owner = .trace k' →
      k' < w.traces.length := by
    intro tag e k' he hk'
    obtain ⟨tr', htr', -⟩ := h.table.owner he hk'
    exact trace_lt htr'
  refine ⟨?_, fun {k' tr'} htr' => ?_, ?_, fun {k'} hk' => ?_, fun hk' => ?_, fun hne => ?_, ?_⟩
  rotate_left
  · by_cases hk' : k' = w.traces.length
    · subst hk'
      rw [List.getElem?_concat_length, some_inj] at htr'
      exact htr' ▸ ⟨hencoded, hserved⟩
    · exact h.wf (hold htr' hk')
  · refine List.nodup_append.mpr ⟨h.nodup, by simp, fun a ha b hb heq => ?_⟩
    rw [mem_singleton] at hb
    exact hnew (hb ▸ heq ▸ ha)
  · simp only [mem_append, mem_singleton, length_append, List.length_singleton] at hk' ⊢
    rcases hk' with hin | rfl
    · have := h.queued hin
      omega
    · omega
  · obtain ⟨hnot, tr', htr', hfence⟩ := h.fence hk'
    refine ⟨fun hin => ?_, tr', trace_append htr', hfence⟩
    rcases mem_append.mp hin with hin | hin
    · exact hnot hin
    · rw [mem_singleton] at hin
      have := trace_lt htr'
      omega
  · obtain ⟨k', rest', tr', hq', htr', hrest⟩ := h.started hne
    exact ⟨k', rest' ++ [w.traces.length], tr', by simp [hq'], trace_append htr', hrest⟩
  · refine { h.table with owner := fun he hk' => ?_, lane := fun he hk' htr' => ?_ }
    · obtain ⟨tr', htr', hrest⟩ := h.table.owner he hk'
      exact ⟨tr', trace_append htr', hrest⟩
    · exact h.table.lane he hk' (hold htr' (ne_of_lt (hlt he hk')))
  refine ⟨fun {k'} hk' => ?_, fun {k' rest' tr'} hq' hne htr' => ?_, fun htr' htracked hnot => ?_,
    h.value, fun he hk' heop => ?_,
    fun htr' htracked hnot => ?_, fun {k'} hk' => ?_, fun {k' d tr'} hmem htr' htracked => ?_⟩
  · simp only [length_append, List.length_singleton, mem_append, mem_singleton] at hk'
    rcases hk' with hlen | ⟨hin | rfl, hhead⟩
    · exact h.untouched (.inl (by omega))
    · refine h.untouched (.inr ⟨hin, fun heq => hhead ?_⟩)
      rw [List.head?_append, heq]
      rfl
    · exact h.untouched (.inl (le_refl _))
  · obtain ⟨k0, rest0, tr0, hq0, htr0, -⟩ := h.started hne
    simp only [hq0, List.cons_append, cons.injEq] at hq'
    rw [← hq'.1] at htr' ⊢
    exact h.partly hq0 hne (hold htr' (ne_of_lt (trace_lt htr0)))
  · obtain ⟨hne, hnot⟩ := hnewout hnot
    exact h.gone (hold htr' hne) htracked hnot
  · obtain ⟨hnot, huniq⟩ := h.marked he hk' heop
    refine ⟨fun hin => ?_, huniq⟩
    rcases mem_append.mp hin with hin | hin
    · exact hnot hin
    · rw [mem_singleton] at hin
      have := hlt he hk'
      omega
  · obtain ⟨hne, hnot⟩ := hnewout hnot
    exact h.sent (hold htr' hne) htracked hnot
  · simp only [length_append, List.length_singleton, mem_append, mem_singleton] at hk'
    rcases hk' with hlen | hin | rfl
    · exact h.unsent (.inl (by omega))
    · exact h.unsent (.inr hin)
    · exact h.unsent (.inl (le_refl _))
  · have hne : k' ≠ w.traces.length := by
      rintro rfl
      exact absurd (h.unsent (.inl (le_refl _))) (ne_of_gt (sentCount_pos hmem))
    exact h.snapshot hmem (hold htr' hne) htracked

theorem Inv.onTick (h : Inv w) {t : Tick} (hcontract : Contract w t = true)
    (horder : Orderly w t = true) : ∃ w', onTick w t = some (w', ()) ∧ Inv w' := by
  obtain ⟨w1, h1, hinv1⟩ := h.respond hcontract horder
  obtain ⟨w2, h2, hinv2⟩ := hinv1.requestStep t.tcuReq t.outFullLater t.reqFull
  refine ⟨ingest w2 t, by simp [Lsu.onTick, h1, h2], ?_⟩
  unfold ingest
  cases hinput : t.input with
  | none => exact hinv2
  | some tr =>
    simp only [Contract, Orderly, hinput, all_some, and_eq_true] at hcontract horder
    exact hinv2.ingestInputs hcontract.2 horder.2

end Moves

/-- An instruction was sent on exactly if all its beats were sent and every active thread is
answered, and then once; it was sent with the threads' answers in `dst_data`, which is as it was. -/
structure Retired (w : World) (k : ℕ) (tr : Trace) : Prop where
  once : sentCount w.outputs k ≤ 1
  sent_iff : sentCount w.outputs k = 1 ↔
    k ∉ w.lsu.reqQueue ∧ ∀ t < numThreads, tr.tmask t = true → ∃ v,
    w.access k t = .answered v
  values : ∀ d, (k, d) ∈ w.outputs → ∀ t < numThreads, tr.tmask t = true →
    w.access k t = .answered (d t)
  kept : ∀ d, (k, d) ∈ w.outputs → w.dstData k = d

theorem Inv.retired {w : World} (h : Inv w) {k : ℕ} {tr : Trace} (htr : w.traces[k]? = some tr)
    (htracked : tr.Tracked) : Retired w k tr := by
  have hanswered : sentCount w.outputs k = 1 → k ∉ w.lsu.reqQueue ∧
      ∀ t < numThreads, tr.tmask t = true → ∃ v, w.access k t = .answered v := by
    intro hone
    have hq : k ∉ w.lsu.reqQueue := fun hin => by
      rw [h.unsent (.inr hin)] at hone
      cases hone
    refine ⟨hq, fun t ht hat => ?_⟩
    rcases h.sent htr htracked hq with ⟨-, hno⟩ | ⟨hzero, -⟩
    · cases hacc : w.access k t with
      | waiting => exact absurd hacc (h.gone htr htracked hq t ht hat)
      | requested tag lane =>
        obtain ⟨e, he, hk, -⟩ := h.table.requested hacc
        exact absurd hk (hno tag e he)
      | answered v => exact ⟨v, rfl⟩
    · rw [hzero] at hone
      cases hone
  have honce : sentCount w.outputs k ≤ 1 := by
    by_cases hq : k ∈ w.lsu.reqQueue
    · rw [h.unsent (.inr hq)]
      exact Nat.zero_le 1
    · rcases h.sent htr htracked hq with ⟨hone, -⟩ | ⟨hzero, -⟩ <;> omega
  refine ⟨honce, ⟨hanswered, fun ⟨hq, hall⟩ => ?_⟩, fun d hmem t ht hat => ?_,
    fun d hmem => h.snapshot hmem htr htracked⟩
  · rcases h.sent htr htracked hq with ⟨hone, -⟩ | ⟨-, tag, e, he, hk, -⟩
    · exact hone
    · obtain ⟨t, ht, hat, lane, hreq⟩ := h.entry_active he hk htr
      obtain ⟨v, hv⟩ := hall t ht hat
      cases hv.symm.trans hreq
  · have hone : sentCount w.outputs k = 1 := by
      have := sentCount_pos hmem
      omega
    obtain ⟨v, hv⟩ := (hanswered hone).2 t ht hat
    rw [hv, ← h.value hv, h.snapshot hmem htr htracked]

/-- On runs in which the last beat of an instruction is the last to be answered completely, every
load and every atomic retires. -/
theorem loads_retire_once {ticks : List Tick}
    (h : Along onTick (fun w t => Contract w t = true ∧ Orderly w t = true) World.reset ticks) :
    ∃ w bs, run onTick World.reset ticks = some (w, bs) ∧
      ∀ k tr, w.traces[k]? = some tr → tr.Tracked → Retired w k tr := by
  obtain ⟨w, bs, hrun, hinv⟩ := run_keeps (fun w t hinv hC => by
    obtain ⟨w', hw', hinv'⟩ := Inv.onTick hinv hC.1 hC.2
    exact ⟨w', (), hw', hinv'⟩) Inv.reset h
  exact ⟨w, bs, hrun, fun k tr htr htracked => hinv.retired htr htracked⟩

/-! A word load of four threads on two lanes, hence in two beats. -/

end Retire

abbrev twoLanes : Config := ⟨4, 2, 4, 2, 32, by decide⟩

def wordLoad : Trace where
  op := .load
  tmask _ := true
  rs1 t := 256 + 4 * t
  rs2 _ := 0
  width := 2
  stride := 0
  offset := 0
  dstFloat := false
  dstBytesel := 0

def quietTick : Tick := ⟨none, false, false, false, none, false, none⟩

def arrive (tr : Trace) : Tick := { quietTick with input := some tr }

def answerBeat (tag : ℕ) : Tick :=
  { quietTick with rsp := some ⟨tag, fun _ => true, fun _ _ => 7⟩ }

theorem loads_retire_once_two_beats : letI := twoLanes
    let ticks := [arrive wordLoad, quietTick, quietTick, answerBeat 0, answerBeat 1]
    Along onTick (fun w t => Contract w t = true ∧ Orderly w t = true) World.reset ticks ∧
    ∃ w bs, run onTick World.reset ticks = some (w, bs) ∧ sentCount w.outputs 0 = 1 ∧
      ∀ k tr, w.traces[k]? = some tr → tr.Tracked → Retired w k tr := by
  intro ticks
  let := twoLanes
  refine (and_iff_left_of_imp fun halong => ?_).mpr (by decide +kernel)
  have hsent : (run onTick World.reset ticks).map (fun r => sentCount r.1.outputs 0) = some 1 := by
    decide +kernel
  obtain ⟨w, bs, hrun, hretired⟩ := loads_retire_once halong
  rw [hrun, map_some, some_inj] at hsent
  exact ⟨w, bs, hrun, hsent, hretired⟩

/-- The second beat is answered first: the load is sent on with nothing in `dst_data` of the first
thread, which the other answer writes later. An atomic without an active thread is never sent on. -/
theorem load_retires_early : letI := twoLanes
    let early := [arrive wordLoad, quietTick, quietTick, answerBeat 1]
    let late := early ++ [answerBeat 0]
    let view ticks := (run onTick World.reset ticks).map fun r =>
      (r.1.outputs.map fun o => (o.1, o.2 0), r.1.access 0 0, r.1.dstData 0 0)
    let amo := [arrive { wordLoad with op := .amo .amoAdd, tmask := fun _ => false }, quietTick]
    Along onTick (Contract · ·) World.reset late ∧
    view early = some ([(0, 0)], .requested 0 0, 0) ∧
    view late = some ([(0, 0)], .answered 0x07070707, 0x07070707) ∧
    Along onTick (Contract · ·) World.reset amo ∧
    (run onTick World.reset amo).map (fun r => (r.1.traces.length, r.1.lsu.reqQueue,
      r.1.outputs.length)) = some (1, [], 0) := by
  decide +kernel

end VortexGpu.Lsu
