import VortexGpu.LsuRetire

/-!
# Fences of the load/store unit

The queue holds the instructions that came last. A fence is taken into an empty queue only, so it is
the first one there until it locks the unit, and the last one that has left until it is sent on.
-/

namespace VortexGpu.Lsu
open Option (bind_eq_some_iff map_eq_some_iff some_inj)
open Function (update)
open List Config
open Runs

section Fence
variable [Config]

/-- No access of the instruction has been sent. -/
def Untouched (w : World) (k : ℕ) : Prop := ∀ t, (k, t) ∉ w.beats

/-- The accesses of all active threads have been sent. -/
def Sent (w : World) (k : ℕ) : Prop :=
  ∀ tr, w.traces[k]? = some tr → tr.isFence = false →
    ∀ t < numThreads, tr.tmask t = true → (k, t) ∈ w.beats

/-- Everything before `k` has left the queue and has been sent, and the memory has answered it. -/
def Settled (w : World) (k : ℕ) : Prop :=
  (∀ k' < k, k' ∉ w.lsu.reqQueue ∧ Sent w k') ∧ ∀ tag lane, w.owed tag lane = false

structure FenceOrder (w : World) (k : ℕ) : Prop where
  once : sentCount w.outputs k = if k ∈ w.lsu.reqQueue ∨ w.lsu.fence = some k then 0 else 1
  later : sentCount w.outputs k = 0 → ∀ k', k < k' → Untouched w k'
  tick : ∀ t w', Contract w t = true → onTick w t = some (w', ()) →
    sentCount w.outputs k = 0 →
    ∃ w₁, respond w t = some w₁ ∧
      (sentCount w'.outputs k = 1 ↔ w.lsu.fence = some k ∧ w₁.lsu.pendingEmpty = true ∧
        t.outFullLater = false) ∧
      (sentCount w'.outputs k = 1 → Settled w₁ k ∧ ∀ k', k < k' → Untouched w' k')

/-- Of the addresses of an instruction those of the last threads are still to be sent. -/
structure Partly (tr : Trace) (beats : List (ℕ × ℕ)) (k : ℕ) (l : List AddrEntry)
    (r : ℕ) : Prop where
  addrs : AddrsOf tr l
  le : r ≤ l.length
  sent : ∀ t < l.length - r, tr.tmask t = true → (k, t) ∈ beats

/-- The queue holds the instructions from `first` on. -/
structure Ordered (w : World) (first : ℕ) : Prop where
  owes : Owes w.lsu.pendingReqs w.owed
  owner : ∀ {tag e k}, w.lsu.pendingReqs tag = some e → e.owner = .trace k →
    ∃ tr, w.traces[k]? = some tr ∧ tr.isFence = false
  le : first ≤ w.traces.length
  queue : w.lsu.reqQueue = range' first (w.traces.length - first)
  fences : ∀ {k tr}, w.traces[k]? = some tr → tr.isFence = true → k ≤ first
  started : w.lsu.remainAddrs ≠ 0 →
    ∃ tr, w.traces[first]? = some tr ∧ tr.isFence = false ∧
    Partly tr w.beats first w.lsu.addrList w.lsu.remainAddrs
  locked : ∀ {k}, w.lsu.fence = some k → k + 1 = first
  beats : ∀ {k t}, (k, t) ∈ w.beats → k < first ∨ k = first ∧ w.lsu.fence = none
  done : ∀ k < first, Sent w k
  sent : ∀ {k tr}, w.traces[k]? = some tr → tr.isFence = true →
    sentCount w.outputs k = if first ≤ k ∨ w.lsu.fence = some k then 0 else 1
  unsent : ∀ {k}, w.traces.length ≤ k → sentCount w.outputs k = 0

/-- A fence stays in the queue or locks the unit. -/
abbrev FencesKept (w w' : World) (first first' : ℕ) : Prop :=
  ∀ {k tr}, w.traces[k]? = some tr → tr.isFence = true → first ≤ k →
    first' ≤ k ∨ w'.lsu.fence = some k

variable {w w' : World} {first k : ℕ} {tr : Trace}

namespace Partly
variable {beats : List (ℕ × ℕ)} {l : List AddrEntry} {r : ℕ}

theorem skip (h : Partly tr beats k l r) : Partly tr beats k l (skipInactive numLanes l r r) := by
  rcases Nat.eq_zero_or_pos r with rfl | hpos
  · exact h
  obtain ⟨-, hle, hinactive, -⟩ := skipInactive_spec h.addrs lanes_pos h.le (le_refl r) hpos rfl
  refine ⟨h.addrs, hle.trans h.le, fun t ht hat => ?_⟩
  by_cases hold : t < l.length - r
  · exact h.sent t hold hat
  · cases (hinactive t (by omega) ht).symm.trans hat

theorem send {s : State} (h : Partly tr beats k s.addrList s.remainAddrs) :
    Partly tr (beats ++ sentThreads s k) k s.addrList
      (s.remainAddrs - min numLanes s.remainAddrs) := by
  have hle := h.le
  refine ⟨h.addrs, (Nat.sub_le _ _).trans hle, fun t ht hat => mem_append.mpr ?_⟩
  by_cases hold : t < s.addrList.length - s.remainAddrs
  · exact .inl (h.sent t hold hat)
  · obtain ⟨i, rfl⟩ := Nat.exists_eq_add_of_le (Nat.le_of_not_lt hold)
    have hi : i < min numLanes s.remainAddrs := by omega
    refine .inr (mem_map.mpr ⟨i, mem_filter.mpr ⟨mem_range.mpr (by omega), ?_⟩, ?_⟩)
    · exact (beatMask_iff h.addrs hle i).mpr ⟨hi, hat⟩
    · rw [beatEntry_eq h.addrs hle hi, addrEntry_tid]

theorem all (h : Partly tr beats k l 0) {t : ℕ} (ht : t < numThreads)
    (hat : tr.tmask t = true) : (k, t) ∈ beats := by
  by_cases hlt : t < l.length
  · exact h.sent t hlt hat
  · cases (h.addrs.tail t ht (Nat.le_of_not_lt hlt)).symm.trans hat

end Partly

namespace Ordered

theorem reset : Ordered World.reset 0 := by
  refine ⟨⟨fun _ => rfl, fun h => ?_, fun _ _ => rfl, fun h => ?_⟩, fun h => ?_,
    le_refl _, rfl, fun h => ?_, fun h => absurd rfl h, fun h => ?_, fun h => ?_,
    fun _ h => absurd h (Nat.not_lt_zero _), fun h => ?_, fun _ => rfl⟩ <;>
    simp [World.reset] at h

section
variable (h : Ordered w first)
include h

theorem mem_queue : k ∈ w.lsu.reqQueue ↔ first ≤ k ∧ k < w.traces.length := by
  have hle := h.le
  rw [h.queue, mem_range'_1]
  omega

/-- An instruction that is not a fence is sent on. -/
theorem output (htr : w.traces[k]? = some tr) (hnot : tr.isFence = false) (d : ℕ → ℕ) :
    Ordered { w with outputs := w.outputs ++ [(k, d)] } first := by
  refine { h with sent := fun {k' tr'} htr' hfence => ?_, unsent := fun {k'} hk' => ?_ }
  · have hne : k ≠ k' := by
      rintro rfl
      rw [trace_eq htr htr'] at hnot
      cases hnot.symm.trans hfence
    rw [sentCount_append, if_neg hne, add_zero]
    exact h.sent htr' hfence
  · have hlt := trace_lt htr
    rw [sentCount_append, if_neg (by simp only at hk'; omega), add_zero]
    exact h.unsent hk'

theorem respond {t : Tick} (hcontract : Contract w t = true) (hw : respond w t = some w') :
    Ordered w' first ∧ w'.traces = w.traces ∧ w'.lsu.fence = w.lsu.fence := by
  unfold Lsu.respond at hw
  cases hrsp : t.rsp with
  | none =>
    rw [hrsp] at hw
    cases hw
    exact ⟨h, rfl, rfl⟩
  | some rsp =>
    simp only [Contract, hrsp, Option.all_some, Bool.and_eq_true, all_eq_true, mem_range,
      Bool.or_eq_true, Bool.not_eq_true'] at hcontract
    have hmask : rsp.Owed w.owed := fun lane hlt hm =>
      (hcontract.1.2 lane hlt).resolve_left (by simp [hm])
    simp only [hrsp, responseStep] at hw
    obtain ⟨entry, hentry, hw⟩ := bind_eq_some_iff.mp hw
    have howner : ∀ {tag e k}, update w.lsu.pendingReqs rsp.tag (countDown entry rsp) tag =
        some e →
        e.owner = .trace k → ∃ tr, w.traces[k]? = some tr ∧ tr.isFence = false := by
      intro tag e k he hk
      obtain ⟨e', he', hown, -⟩ := entry_of_answer hentry he
      exact h.owner he' (hown.trans hk)
    -- the entry counts down whoever owns it
    have hdone : ∀ access dst,
        Ordered { answered w rsp entry with access := access, dstData := dst } first := fun _ _ =>
        { h with owes := h.owes.answer hentry hmask, owner := howner }
    cases hown : entry.owner with
    | tcu c =>
      simp only [hown] at hw
      cases hw
      split
      · exact ⟨h, rfl, rfl⟩
      · exact ⟨hdone _ _, rfl, rfl⟩
    | trace k =>
      simp only [hown] at hw
      split at hw
      · cases hw
        exact ⟨h, rfl, rfl⟩
      · split at hw
        · cases hw
        · obtain ⟨tr, htr, hw⟩ := bind_eq_some_iff.mp hw
          obtain ⟨dst, -, rfl⟩ := map_eq_some_iff.mp hw
          obtain ⟨tr', htr', hnot⟩ := h.owner hentry hown
          refine ⟨?_, rfl, rfl⟩
          split
          · exact (hdone _ dst).output htr' hnot (dst k)
          · exact hdone _ dst

theorem allocate {entry : PendingReq} {mask : ℕ → Bool} (hcount : entry.count = popcount mask)
    (howner : ∀ {k}, entry.owner = .trace k → ∃ tr, w.traces[k]? = some tr ∧
      tr.isFence = false)
    (hw : Lsu.allocate w entry mask = some w') : Ordered w' first ∧ ∃ p o a,
      w' = { w with lsu := { w.lsu with pendingReqs := p }, owed := o, access := a } := by
  obtain ⟨tag, htag, rfl⟩ := map_eq_some_iff.mp hw
  refine ⟨{ h with
    owes := h.owes.allocate (TagTable.free_spec htag).1 hcount
    owner := fun {tag' e k} he hk => ?_ }, _, _, _, rfl⟩
  rcases entry_of_allocate he with ⟨-, rfl⟩ | ⟨-, he⟩
  · exact howner hk
  · exact h.owner he hk

/-- The first instruction gets on with its addresses. -/
theorem setAddrs (htr : w.traces[first]? = some tr) (hnot : tr.isFence = false)
    (hunlocked : w.lsu.fence = none) {l : List AddrEntry} {r : ℕ} {beats : List (ℕ × ℕ)}
    (hpart : Partly tr beats first l r) (hold : w.beats ⊆ beats)
    (hnew : ∀ x ∈ beats, x ∈ w.beats ∨ x.1 = first) : Ordered { w with
      lsu := { w.lsu with addrList := l, remainAddrs := r }, beats := beats } first :=
  { h with
    started := fun _ => ⟨tr, htr, hnot, hpart⟩
    beats := fun hin => (hnew _ hin).elim h.beats fun heq => .inr ⟨heq, hunlocked⟩
    done := fun k hk tr' htr' hnot' t ht hat => hold (h.done k hk tr' htr' hnot' t ht hat) }

theorem head (hk : w.lsu.reqQueue.head? = some k) : k = first ∧ first < w.traces.length := by
  rw [h.queue, head?_range'] at hk
  split at hk
  · cases hk
  · cases hk
    exact ⟨rfl, by omega⟩

/-- The first instruction leaves the queue, and locks the unit if it is a fence. -/
theorem pop {rest : List ℕ} {s : State} (hq : w.lsu.reqQueue = first :: rest)
    (hunlocked : w.lsu.fence = none)
    (hpending : s.pendingReqs = w.lsu.pendingReqs) (hrest : s.reqQueue = rest)
    (hzero : s.remainAddrs = 0)
    (hfence : (s.fence = none ∧ ∀ tr, w.traces[first]? = some tr → tr.isFence = false) ∨
      s.fence = some first) (hsent : Sent w first) : Ordered { w with lsu := s } (first + 1) := by
  have hlt := (h.head (by rw [hq, head?_cons])).2
  refine ⟨hpending ▸ h.owes, hpending ▸ h.owner, hlt, ?_,
    fun htr hf => Nat.le_succ_of_le (h.fences htr hf),
    fun hne => absurd hzero hne, fun {k} hk => ?_, fun hin => .inl ?_, fun k hk => ?_,
    fun {k tr} htr hf => ?_, h.unsent⟩
  · have hqueue := h.queue
    rw [hq, show w.traces.length - first = w.traces.length - (first + 1) + 1 by omega, range'_succ,
      cons.injEq] at hqueue
    exact hrest.trans hqueue.2
  · rcases hfence with ⟨hnone, -⟩ | hsome
    · cases hnone.symm.trans hk
    · exact congrArg (· + 1) (some_inj.mp (hk.symm.trans hsome))
  · have := h.beats hin
    omega
  · rcases Nat.lt_succ_iff_lt_or_eq.mp hk with hk | rfl
    · exact h.done k hk
    · exact hsent
  · have hle := h.fences htr hf
    have hsent := h.sent htr hf
    simp only [hunlocked, reduceCtorEq, or_false] at hsent
    simp only [hsent]
    rcases hfence with ⟨hnone, hnot⟩ | hsome
    · have hne : k ≠ first := by
        rintro rfl
        cases (hnot tr htr).symm.trans hf
      rw [hnone, if_neg (by omega), if_neg (by simp only [reduceCtorEq, or_false]; omega)]
    · simp only [hsome, some_inj]
      by_cases hk : first ≤ k
      · rw [if_pos hk, if_pos (by omega)]
      · rw [if_neg hk, if_neg (by omega)]

theorem dispatch {outFull reqFull : Bool} (hunlocked : w.lsu.fence = none)
    (hw : dispatch w outFull reqFull = some w') :
    ∃ first', Ordered w' first' ∧ w'.traces = w.traces ∧ FencesKept w w' first first' := by
  unfold Lsu.dispatch at hw
  split at hw
  · cases hw
    exact ⟨first, h, rfl, fun _ _ => .inl⟩
  · rename_i k rest hq
    obtain ⟨rfl, -⟩ := h.head (k := k) (by rw [hq, head?_cons])
    obtain ⟨tr, htr, hw⟩ := bind_eq_some_iff.mp hw
    split at hw
    · rename_i hfence
      cases hw
      have hzero : w.lsu.remainAddrs = 0 := by
        by_contra hne
        obtain ⟨tr', htr', hnot, -⟩ := h.started hne
        rw [trace_eq htr htr'] at hfence
        cases hnot.symm.trans hfence
      refine ⟨k + 1, h.pop hq hunlocked rfl rfl hzero (.inr rfl) fun tr' htr' hnot => ?_, rfl,
        fun htr' hf hle => .inr (congrArg some (le_antisymm hle (h.fences htr' hf)))⟩
      cases hnot.symm.trans (trace_eq htr htr' ▸ hfence)
    · rename_i hfence
      have hnot : tr.isFence = false := Bool.eq_false_iff.mpr hfence
      split at hw
      · cases hw
        exact ⟨k, h, rfl, fun _ _ => .inl⟩
      · obtain ⟨s, hs, hw⟩ := bind_eq_some_iff.mp hw
        obtain ⟨l, r, rfl, hpart⟩ : ∃ l r, s = { w.lsu with
            addrList := l, remainAddrs := r } ∧
            Partly tr w.beats k l r := by
          split at hs
          · obtain ⟨l, hl, rfl⟩ := map_eq_some_iff.mp hs
            exact ⟨l, l.length, rfl, computeAddrs_spec hl, le_refl _, fun t ht => by omega⟩
          · rename_i hr
            cases hs
            obtain ⟨tr', htr', -, hpart⟩ := h.started hr
            exact ⟨_, _, rfl, trace_eq htr' htr ▸ hpart⟩
        simp only at hw
        replace hpart := hpart.skip
        generalize skipInactive numLanes l r r = r at hw hpart
        have hset := h.setAddrs htr hnot hunlocked hpart (List.Subset.refl _) fun _ => .inl
        split at hw
        · cases hw
          exact ⟨k, hset, rfl, fun _ _ => .inl⟩
        · split at hw
          · cases hw
            exact ⟨k, hset, rfl, fun _ _ => .inl⟩
          · obtain ⟨v, hsent, rfl⟩ := map_eq_some_iff.mp hw
            obtain ⟨hv, htraces, hopen, hvq, hvpart⟩ : Ordered v k ∧ v.traces = w.traces ∧
                v.lsu.fence = none ∧ v.lsu.reqQueue = k :: rest ∧
                Partly tr v.beats k v.lsu.addrList v.lsu.remainAddrs := by
              split at hsent
              · have hnext :=
                  Partly.send (s := { w.lsu with addrList := l, remainAddrs := r }) hpart
                have hbeat :=
                  h.setAddrs htr hnot hunlocked hnext (subset_append_left ..) fun x hx =>
                  (mem_append.mp hx).imp_right fun hx => by
                    obtain ⟨i, -, rfl⟩ := mem_map.mp hx
                    rfl
                unfold sendBeat at hsent
                split at hsent
                · cases hsent
                  exact ⟨hbeat, rfl, hunlocked, hq, hnext⟩
                · obtain ⟨hv, p, o, a, rfl⟩ :=
                    hbeat.allocate rfl (fun hk => ⟨tr, by cases hk; exact htr, hnot⟩) hsent
                  exact ⟨hv, rfl, hunlocked, hq, hnext⟩
              · cases hsent
                exact ⟨hset, rfl, hunlocked, hq, hpart⟩
            rw [← htraces] at htr
            split
            · rename_i hzero
              have hleft : ∀ tr', v.traces[k]? = some tr' → tr'.isFence = false :=
                fun tr' htr' => trace_eq htr htr' ▸ hnot
              have hall : Sent v k := fun tr' htr' _ t ht hat =>
                (hzero ▸ hvpart).all ht (trace_eq htr' htr ▸ hat)
              refine ⟨k + 1, ?_, htraces, fun {k' tr'} htr' hf hle => .inl ?_⟩
              · split
                · exact (hv.output htr hnot _).pop hvq hopen rfl rfl hzero
                    (.inl ⟨hopen, hleft⟩) hall
                · exact hv.pop hvq hopen rfl rfl hzero (.inl ⟨hopen, hleft⟩) hall
              · refine Nat.lt_of_le_of_ne hle ?_
                rintro rfl
                cases (hleft tr' (htraces ▸ htr')).symm.trans hf
            · exact ⟨k, hv, htraces, fun _ _ => .inl⟩

theorem releaseFence (hk : w.lsu.fence = some k) (outFull : Bool) :
    Ordered (releaseFence w outFull) first ∧ (releaseFence w outFull).traces = w.traces ∧
    (releaseFence w outFull).beats = w.beats ∧ (releaseFence w outFull).lsu.fence =
      if (w.lsu.pendingEmpty && !outFull) = true then none else some k := by
  have hlast := h.locked hk
  have hle := h.le
  simp only [Lsu.releaseFence, hk]
  split
  · refine ⟨{ h with
      locked := fun hk' => (nomatch hk')
      beats := fun hin => (h.beats hin).imp_right fun hx => ⟨hx.1, rfl⟩
      sent := fun {k' tr} htr hf => ?_
      unsent := fun {k'} hk' => ?_ }, rfl, rfl, rfl⟩
    · have hsent := h.sent htr hf
      simp only [hk, some_inj] at hsent
      simp only [sentCount_append, hsent, reduceCtorEq, or_false]
      by_cases hkk : k = k'
      · rw [if_pos (.inr hkk), if_pos hkk, if_neg (by omega)]
      · simp only [hkk, or_false, if_false, add_zero]
    · have hsame := h.unsent hk'
      simp only [sentCount_append, hsame] at hk' ⊢
      rw [if_neg (by omega)]
  · exact ⟨h, rfl, rfl, hk⟩

theorem requestStep {q : Option TcuReq} {outFull reqFull : Bool}
    (hw : requestStep w q outFull reqFull = some w') :
    ∃ first', Ordered w' first' ∧ w'.traces = w.traces ∧
      FencesKept w w' first first' ∧ ∀ {k}, w.lsu.fence = some k → first' = first ∧
      w'.beats = w.beats ∧
        w'.lsu.fence = if (w.lsu.pendingEmpty && !outFull) = true then none else some k := by
  unfold Lsu.requestStep at hw
  cases hk : w.lsu.fence with
  | none =>
    have hsame : Lsu.releaseFence w outFull = w := by simp only [Lsu.releaseFence, hk]
    simp only [hsame, hk, Option.isSome_none, Bool.false_eq_true, if_false] at hw
    split at hw
    · obtain ⟨hv, p, o, a, rfl⟩ := h.allocate rfl (fun hk => by cases hk) hw
      exact ⟨first, hv, rfl, fun _ _ => .inl, fun hk' => nomatch hk'⟩
    · obtain ⟨first', hv, htraces, hheld⟩ := h.dispatch hk hw
      exact ⟨first', hv, htraces, hheld, fun hk' => nomatch hk'⟩
  | some k =>
    obtain ⟨hv, htraces, hbeats, hfence⟩ := h.releaseFence hk outFull
    simp only [hk, Option.isSome_some, if_true] at hw
    split at hw
    · obtain ⟨hv', p, o, a, rfl⟩ := hv.allocate rfl (fun hk => by cases hk) hw
      exact ⟨first, hv', htraces, fun _ _ => .inl, fun hk' => ⟨rfl, hbeats, hk' ▸ hfence⟩⟩
    · cases hw
      exact ⟨first, hv, htraces, fun _ _ => .inl, fun hk' => ⟨rfl, hbeats, hk' ▸ hfence⟩⟩

theorem ingest (t : Tick) : Ordered (ingest w t) first ∧
    (ingest w t).lsu.fence = w.lsu.fence ∧ (ingest w t).beats = w.beats ∧
    ∀ {k : ℕ} {tr}, w.traces[k]? = some tr → (ingest w t).traces[k]? = some tr := by
  unfold Lsu.ingest
  cases t.input with
  | none => exact ⟨h, rfl, rfl, id⟩
  | some new =>
    simp only [ingestInputs]
    split
    · exact ⟨h, rfl, rfl, id⟩
    · rename_i hopen
      have hle := h.le
      have hfirst : new.isFence = true → first = w.traces.length := by
        intro hf
        simp only [hf, Bool.true_and, Bool.or_eq_true, Bool.not_eq_true', not_or, Bool.not_eq_false,
          List.isEmpty_iff] at hopen
        have hlen := congrArg length (h.queue.symm.trans hopen.2)
        rw [length_range', length_nil] at hlen
        omega
      refine ⟨⟨h.owes, fun he hk => (h.owner he hk).imp fun _ hx =>
        ⟨trace_append hx.1, hx.2⟩, ?_, ?_, fun {k tr} htr hf => ?_,
        fun hne => (h.started hne).imp fun _ hx => ⟨trace_append hx.1, hx.2⟩, h.locked, h.beats,
        fun k hk tr htr => ?_, fun {k tr} htr hf => ?_, fun {k} hk => ?_⟩, rfl, rfl,
        trace_append⟩
      · simp only [length_append, length_singleton]
        omega
      · simp only [length_append, length_singleton]
        rw [h.queue, show w.traces.length + 1 - first = w.traces.length - first + 1 by omega,
          range'_1_concat, Nat.add_sub_cancel' hle]
      · rcases trace_of_append htr with htr | ⟨rfl, rfl⟩
        · exact h.fences htr hf
        · exact le_of_eq (hfirst hf).symm
      · rcases trace_of_append htr with htr | ⟨rfl, rfl⟩
        · exact h.done k hk tr htr
        · omega
      · rcases trace_of_append htr with htr | ⟨rfl, rfl⟩
        · exact h.sent htr hf
        · rw [if_pos (.inl hle)]
          exact h.unsent (le_refl _)
      · simp only [length_append, length_singleton] at hk
        exact h.unsent (by omega)

theorem onTick {t : Tick} (hcontract : Contract w t = true) (hw : onTick w t = some (w', ())) :
    ∃ w₁ first', Lsu.respond w t = some w₁ ∧ Ordered w₁ first ∧ Ordered w' first' ∧
      (∀ {k : ℕ} {tr}, w.traces[k]? = some tr → w'.traces[k]? = some tr) ∧
      FencesKept w w' first first' ∧ w₁.lsu.fence = w.lsu.fence ∧ ∀ {k},
        w.lsu.fence = some k → first' = first ∧ w'.beats = w₁.beats ∧
        w'.lsu.fence = if (w₁.lsu.pendingEmpty && !t.outFullLater) = true then none
          else some k := by
  obtain ⟨w₁, hw₁, hw⟩ := bind_eq_some_iff.mp hw
  obtain ⟨w₂, hw₂, heq⟩ := map_eq_some_iff.mp hw
  cases heq
  obtain ⟨h₁, htraces₁, hfence₁⟩ := h.respond hcontract hw₁
  obtain ⟨first', h₂, htraces₂, hheld, hlocked⟩ := h₁.requestStep hw₂
  obtain ⟨h₃, hfence₃, hbeats₃, hkeep⟩ := h₂.ingest t
  rw [htraces₁] at htraces₂
  rw [htraces₂] at hkeep
  rw [hfence₁] at hlocked
  exact ⟨w₁, first', hw₁, h₁, h₃, hkeep,
    fun htr hf hle => (hheld (by rwa [htraces₁]) hf hle).imp_right hfence₃.trans, hfence₁,
    fun hk => (hlocked hk).imp_right fun hx => ⟨hbeats₃.trans hx.1, hfence₃.trans hx.2⟩⟩

theorem untouched (hk : first < k ∨ k = first ∧ w.lsu.fence ≠ none) : Untouched w k := by
  intro t hin
  rcases h.beats hin with hlt | ⟨heq, hnone⟩
  · omega
  · exact hk.elim (by omega) fun hx => hx.2 hnone

end

theorem settled (h : Ordered w (k + 1)) (hempty : w.lsu.pendingEmpty = true) : Settled w k := by
  refine ⟨fun k' hk' => ⟨fun hin => ?_, h.done k' (by omega)⟩, fun tag => h.owes.free ?_⟩
  · have := (h.mem_queue.mp hin).1
    omega
  · by_cases htag : tag < pendingSize
    · exact Option.isNone_iff_eq_none.mp (all_eq_true.mp hempty tag (mem_range.mpr htag))
    · exact h.owes.tags (Nat.le_of_not_lt htag)

theorem fenceOrder (h : Ordered w first) (htr : w.traces[k]? = some tr)
    (hfence : tr.isFence = true) : FenceOrder w k := by
  have hsent := h.sent htr hfence
  have hheld : sentCount w.outputs k = 0 → first ≤ k ∨ w.lsu.fence = some k := by
    intro hzero
    by_contra hnot
    rw [hsent, if_neg hnot] at hzero
    cases hzero
  refine ⟨?_, fun hzero k' hk' => ?_, fun t w' hcontract hw hzero => ?_⟩
  · have hlt := trace_lt htr
    simp only [hsent, h.mem_queue, hlt, and_true]
  · rcases hheld hzero with hle | hk
    · exact h.untouched (.inl (by omega))
    · have hlast := h.locked hk
      exact h.untouched (hlast ▸ (lt_or_eq_of_le hk').imp_right fun heq =>
        ⟨heq.symm, by simp [hk]⟩)
  · obtain ⟨w₁, first', hw₁, h₁, h', hkeep, hqueued, hsame, hlocked⟩ :=
      h.onTick hcontract hw
    have hsent' := h'.sent (hkeep htr) hfence
    refine ⟨w₁, hw₁, ?_⟩
    rcases hheld hzero with hle | hk
    · rw [hsent', if_pos (hqueued htr hfence hle)]
      refine ⟨⟨fun hc => (nomatch hc), fun hc => ?_⟩, fun hc => (nomatch hc)⟩
      have := h.locked hc.1
      omega
    · obtain rfl := h.locked hk
      obtain ⟨rfl, hbeats, hopen⟩ := hlocked hk
      rw [hsent', hopen]
      by_cases hrelease : (w₁.lsu.pendingEmpty && !t.outFullLater) = true
      · simp only [Bool.and_eq_true, Bool.not_eq_true'] at hrelease
        refine ⟨by simp [hk, hrelease],
          fun _ => ⟨h₁.settled hrelease.1, fun k' hk' t => ?_⟩⟩
        rw [hbeats]
        exact h₁.untouched ((lt_or_eq_of_le hk').imp_right fun heq =>
          ⟨heq.symm, by simp [hsame, hk]⟩) t
      · rw [if_neg hrelease]
        simp only [Bool.and_eq_true, Bool.not_eq_true'] at hrelease
        simp [hrelease]

end Ordered

/-- A fence is sent on once, when everything before it is done, and holds back everything after it
until then. -/
theorem fences_ordered {ticks : List Tick}
    (h : Along onTick (Contract · ·) World.reset ticks) {w : World} {bs : List Unit}
    (hrun : run onTick World.reset ticks = some (w, bs)) {k : ℕ} {tr : Trace}
    (htr : w.traces[k]? = some tr) (hfence : tr.isFence = true) : FenceOrder w k := by
  obtain ⟨first, hw⟩ := run_reaches (I := fun w => ∃ first, Ordered w first)
    (fun w t w' _ ⟨first, hw⟩ hC hstep => by
      obtain ⟨-, first', -, -, hw', -⟩ := hw.onTick hC hstep
      exact ⟨first', hw'⟩) ⟨0, Ordered.reset⟩ h hrun
  exact hw.fenceOrder htr hfence

end Fence

/-- The fence arrives behind a load of two beats and is sent on with the answer to the second one.
-/
theorem fences_ordered_load : letI := twoLanes
    let fence : Trace := { wordLoad with op := .fence }
    let ticks :=
      [arrive wordLoad, arrive fence, arrive fence, quietTick, answerBeat 1, answerBeat 0]
    Along onTick (Contract · ·) World.reset ticks ∧
    ∃ w bs, run onTick World.reset ticks = some (w, bs) ∧ w.traces.length = 2 ∧
    sentCount w.outputs 1 = 1 ∧ FenceOrder w 1 := by
  intro fence ticks
  let := twoLanes
  refine (and_iff_left_of_imp fun halong => ?_).mpr (by decide +kernel)
  have hview : (run onTick World.reset ticks).map (fun r =>
      (r.1.traces.length, r.1.traces[1]?.map Trace.isFence,
      sentCount r.1.outputs 1)) = some (2, some true, 1) := by decide +kernel
  obtain ⟨⟨w, bs⟩, hrun, hw⟩ := map_eq_some_iff.mp hview
  simp only [Prod.mk.injEq] at hw
  obtain ⟨tr, htr, hfence⟩ := map_eq_some_iff.mp hw.2.1
  exact ⟨w, bs, hrun, hw.1, hw.2.2, fences_ordered halong hrun htr hfence⟩

end VortexGpu.Lsu
