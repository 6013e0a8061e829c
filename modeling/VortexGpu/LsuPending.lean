import VortexGpu.LsuUnit

/-!
# The pending entries of the load/store unit

The beats of an instruction and their entries. The lanes that the memory owes are the ones that the
entries count, each of them is the access of one thread of one instruction, and this survives the
allocation of an entry and every packet.
-/

namespace VortexGpu.Lsu
open Function (update update_of_ne update_self)
open List Config

variable [Config]

section Beats

variable {tr : Trace}

omit [Config] in
theorem dataBytes_pos (tr : Trace) : 0 < tr.dataBytes := Nat.two_pow_pos _

theorem addrEntry_size (tr : Trace) (t : ℕ) :
    (addrEntry tr t).size = 0 ↔ tr.tmask t = false := by
  have hpos := dataBytes_pos tr
  unfold addrEntry
  split
  · rename_i h
    simp only [h, reduceCtorEq, iff_false]
    omega
  · rename_i h
    simpa using h

theorem addrEntry_tid (tr : Trace) (t : ℕ) : (addrEntry tr t).tid = t := by
  unfold addrEntry
  split <;> rfl

/-- The list of addresses: the threads in order, up to the last active one. -/
structure AddrsOf (tr : Trace) (l : List AddrEntry) : Prop where
  get : ∀ i < l.length, l[i]? = some (addrEntry tr i)
  len : l.length ≤ numThreads
  tail : ∀ t < numThreads, l.length ≤ t → tr.tmask t = false
  last : l ≠ [] → tr.tmask (l.length - 1) = true

theorem computeAddrs_spec {l : List AddrEntry} (h : computeAddrs tr = some l) : AddrsOf tr l := by
  unfold computeAddrs at h
  split at h
  · cases h
  rw [Option.some_inj] at h
  generalize hp : (fun e : AddrEntry => decide (e.size = 0)) = p at h
  obtain ⟨all, hall⟩ : ∃ all, all = (range numThreads).map (addrEntry tr) := ⟨_, rfl⟩
  have hat : ∀ t < numThreads, all[t]? = some (addrEntry tr t) := by
    intro t ht
    simp [hall, ht]
  rw [← hall] at h
  have hpre : l <+: all := h ▸ List.rdropWhile_prefix _ _
  have hlen : l.length ≤ numThreads := by simpa [hall] using hpre.length_le
  have hget : ∀ i < l.length, l[i]? = some (addrEntry tr i) := by
    intro i hi
    obtain ⟨rest, hrest⟩ := hpre
    rw [← List.getElem?_append_left hi, hrest, hat i (hi.trans_le hlen)]
  refine ⟨hget, hlen, fun t ht hge => ?_, fun hne => ?_⟩
  · have hsplit : l ++ List.rtakeWhile p all = all := h ▸ List.rdropWhile_append_rtakeWhile
    have hmem : addrEntry tr t ∈ List.rtakeWhile p all := by
      refine mem_of_getElem? (i := t - l.length) ?_
      rw [← List.getElem?_append_right hge, hsplit, hat t ht]
    have hhole := List.mem_rtakeWhile_imp hmem
    rw [← hp] at hhole
    exact (addrEntry_size tr t).mp (of_decide_eq_true hhole)
  · have hnot := List.rdropWhile_last_not p all (h ▸ hne)
    have hlast : l.getLast hne = addrEntry tr (l.length - 1) := by
      have hpos := List.length_pos_iff.mpr hne
      rw [List.getLast_eq_getElem]
      exact (List.getElem?_eq_some_iff.mp (hget (l.length - 1) (by omega))).2
    simp only [h] at hnot
    rw [hlast, ← hp] at hnot
    by_contra hinactive
    exact hnot (decide_eq_true ((addrEntry_size tr _).mpr (Bool.not_eq_true _ ▸ hinactive)))

theorem skipInactive_spec {lanes : ℕ} {l : List AddrEntry} (hl : AddrsOf tr l)
    (hlanes : 0 < lanes)
    {fuel remain r : ℕ} (hremain : remain ≤ l.length) (hfuel : remain ≤ fuel)
    (hpos : 0 < remain) (hr : skipInactive lanes l fuel remain = r) :
    0 < r ∧ r ≤ remain ∧
      (∀ i, l.length - remain ≤ i → i < l.length - r → tr.tmask i = false) ∧
      ∃ i < min lanes r, tr.tmask (l.length - r + i) = true := by
  induction fuel generalizing remain with
  | zero => omega
  | succ fuel ih =>
    rw [skipInactive] at hr
    split at hr
    · rename_i hskip
      have hall : ∀ j < min lanes remain, tr.tmask (l.length - remain + j) = false := by
        intro j hj
        have hget := hl.get (l.length - remain + j) (by omega)
        have hmem : addrEntry tr (l.length - remain + j) ∈
            (l.drop (l.length - remain)).take (min lanes remain) := by
          refine mem_of_getElem? (i := j) ?_
          rw [getElem?_take_of_lt hj, getElem?_drop, hget]
        exact (addrEntry_size tr _).mp (of_decide_eq_true (all_eq_true.mp hskip.2 _ hmem))
      -- the last thread is active, so it is not in the beat that is skipped
      have hlt : lanes < remain := by
        by_contra hle
        have hlast := hl.last (List.length_pos_iff.mp (by omega))
        have := hall (remain - 1) (by omega)
        rw [show l.length - remain + (remain - 1) = l.length - 1 by omega, hlast] at this
        cases this
      have hmin : min lanes remain = lanes := by omega
      rw [hmin] at hall hr
      obtain ⟨h1, h2, h3, h4⟩ := ih (by omega) (by omega) (by omega) hr
      refine ⟨h1, by omega, fun i hi hi' => ?_, h4⟩
      by_cases hin : i < l.length - (remain - lanes)
      · have := hall (i - (l.length - remain)) (by omega)
        rwa [show l.length - remain + (i - (l.length - remain)) = i by omega] at this
      · exact h3 i (by omega) hi'
    · rename_i hstop
      subst hr
      refine ⟨hpos, le_refl _, fun i hi hi' => absurd hi' (by omega), ?_⟩
      have hsome : ¬ ((l.drop (l.length - remain)).take (min lanes remain)).all
          (fun e => decide (e.size = 0)) = true :=
        fun h => hstop ⟨by omega, h⟩
      rw [all_eq_true] at hsome
      push Not at hsome
      obtain ⟨e, hmem, hsize⟩ := hsome
      obtain ⟨j, hj⟩ := getElem?_of_mem hmem
      have hjlt : j < min lanes remain := by
        by_contra hge
        rw [getElem?_take_eq_none (by omega)] at hj
        cases hj
      rw [getElem?_take_of_lt hjlt, getElem?_drop, hl.get _ (by omega), Option.some_inj] at hj
      refine ⟨j, hjlt, ?_⟩
      by_contra hinactive
      rw [← hj] at hsize
      exact hsize (decide_eq_true ((addrEntry_size tr _).mpr (Bool.not_eq_true _ ▸ hinactive)))

end Beats

def Trace.Tracked (tr : Trace) : Prop := tr.isWrite = false ∧ tr.isFence = false

structure Owes (pending : ℕ → Option PendingReq) (owed : ℕ → ℕ → Bool) : Prop where
  tags : ∀ {tag}, pendingSize ≤ tag → pending tag = none
  count : ∀ {tag e}, pending tag = some e → e.count = popcount (owed tag)
  free : ∀ {tag}, pending tag = none → ∀ lane, owed tag lane = false
  owed_lt : ∀ {tag lane}, owed tag lane = true → lane < numLanes

/-- The lanes that are owed are those that the entries count, and each is the access of one thread.
-/
structure Table (traces : List Trace) (pending : ℕ → Option PendingReq)
    (owed : ℕ → ℕ → Bool)
    (access : ℕ → ℕ → Access) : Prop extends Owes pending owed where
  count_pos : ∀ {tag e k}, pending tag = some e → e.owner = .trace k → 0 < e.count
  owner : ∀ {tag e k}, pending tag = some e → e.owner = .trace k →
    ∃ tr, traces[k]? = some tr ∧ tr.Tracked ∧ e.width = tr.entryWidth
  lane : ∀ {tag e k tr lane}, pending tag = some e → e.owner = .trace k →
    traces[k]? = some tr → owed tag lane = true →
    access k (e.lanes lane).tid = .requested tag lane ∧
      e.lanes lane = addrEntry tr (e.lanes lane).tid ∧
      (e.lanes lane).tid < numThreads ∧ tr.tmask (e.lanes lane).tid = true
  requested : ∀ {k t tag lane}, access k t = .requested tag lane →
    ∃ e, pending tag = some e ∧ e.owner = .trace k ∧ owed tag lane = true ∧
    (e.lanes lane).tid = t

section Tables

variable {traces : List Trace} {pending : ℕ → Option PendingReq} {owed : ℕ → ℕ → Bool}
  {access : ℕ → ℕ → Access} {rsp : LsuRsp}

/-- The lanes of the response are owed. -/
def LsuRsp.Owed (rsp : LsuRsp) (owed : ℕ → ℕ → Bool) : Prop :=
  ∀ lane < numLanes, rsp.mask lane = true → owed rsp.tag lane = true

theorem popcount_answer (hmask : rsp.Owed owed) :
    popcount (answerOwed rsp owed rsp.tag) + popcount rsp.mask = popcount (owed rsp.tag) := by
  unfold popcount
  have hall : ∀ lane ∈ List.range numLanes, rsp.mask lane = true → owed rsp.tag lane = true :=
    fun lane hlane => hmask lane (mem_range.mp hlane)
  generalize List.range numLanes = l at hall ⊢
  induction l with
  | nil => rfl
  | cons lane l ih =>
    have hrest := ih fun lane' h => hall lane' (mem_cons_of_mem _ h)
    have hhead := hall lane (mem_cons_self ..)
    rw [countP_cons, countP_cons, countP_cons]
    simp only [answerOwed, decide_true, Bool.true_and] at hrest ⊢
    cases hm : rsp.mask lane
    · simp only [Bool.not_false, Bool.and_true, Bool.false_eq_true, if_false]
      omega
    · rw [hhead hm]
      simp only [Bool.not_true, Bool.and_false, Bool.false_eq_true, if_false, if_true]
      omega

variable {mask : ℕ → Bool} {k t lane tag : ℕ} {entry : PendingReq}

theorem popcount_pos_iff : 0 < popcount mask ↔ ∃ lane < numLanes, mask lane = true := by
  simp [popcount, countP_pos_iff]

theorem answerAccess_of_mask {tr : Trace} (htr : traces[k]? = some tr)
    (h : access k t = .requested rsp.tag lane) (hm : rsp.mask lane = true) :
    answerAccess traces rsp access k t =
      .answered ((formatLoad tr tr.entryWidth (addrEntry tr t).addr (rsp.data lane)).getD 0) := by
  simp [answerAccess, h, hm, htr]

theorem answerAccess_of_not
    (h : ∀ lane, access k t = .requested rsp.tag lane → rsp.mask lane = false) :
    answerAccess traces rsp access k t = access k t := by
  unfold answerAccess
  split
  · rename_i tag lane hreq
    split
    · rename_i hboth
      obtain ⟨rfl, hm⟩ := hboth
      rw [h lane hreq] at hm
      cases hm
    · exact hreq.symm
  · rfl

theorem answerAccess_waiting : answerAccess traces rsp access k t = .waiting ↔
    access k t = .waiting := by
  cases h : access k t with
  | requested tag lane =>
    simp only [answerAccess, h, reduceCtorEq, iff_false]
    split
    · split <;> simp
    · simp
  | _ => simp only [answerAccess, h]

theorem answerAccess_requested (h : answerAccess traces rsp access k t = .requested tag lane) :
    access k t = .requested tag lane ∧
    (tag = rsp.tag ∧ rsp.mask lane = true → traces[k]? = none) := by
  unfold answerAccess at h
  split at h
  · rename_i tag' lane' hreq
    split at h
    · cases htr : traces[k]? with
      | some tr => simp only [htr, reduceCtorEq] at h
      | none =>
        rw [htr] at h
        exact ⟨hreq.trans h, fun _ => rfl⟩
    · rename_i hnot
      cases h
      exact ⟨hreq, fun hc => absurd hc hnot⟩
  · rename_i hnot
    exact absurd h (hnot tag lane)

omit [Config] in
theorem answerOwed_iff : answerOwed rsp owed tag lane = true ↔
    owed tag lane = true ∧ ¬ (tag = rsp.tag ∧ rsp.mask lane = true) := by
  simp [answerOwed, decide_eq_false_iff_not, not_and, imp_iff_not_or]

theorem entry_of_answer {e : PendingReq} (hentry : pending rsp.tag = some entry)
    (he : update pending rsp.tag (countDown entry rsp) tag = some e) :
    ∃ e', pending tag = some e' ∧ e'.owner = e.owner ∧ e'.eop = e.eop ∧
    e'.lanes = e.lanes ∧ e'.width = e.width ∧ (0 < e.count ∨ e' = e) := by
  by_cases htag : tag = rsp.tag
  · subst htag
    rw [update_self, countDown] at he
    split at he
    · cases he
    · rename_i hne
      cases he
      exact ⟨entry, hentry, rfl, rfl, rfl, rfl, .inl (pos_of_ne_zero hne)⟩
  · rw [update_of_ne htag] at he
    exact ⟨e, he, rfl, rfl, rfl, rfl, .inr rfl⟩

theorem Owes.answer (h : Owes pending owed) (hentry : pending rsp.tag = some entry)
    (hmask : rsp.Owed owed) :
    Owes (update pending rsp.tag (countDown entry rsp)) (answerOwed rsp owed) := by
  have hcount := h.count hentry
  have hpop := popcount_answer hmask
  have hother : ∀ {tag}, tag ≠ rsp.tag → answerOwed rsp owed tag = owed tag := by
    intro tag htag
    funext lane
    simp [answerOwed, htag]
  refine ⟨fun {tag} htag => ?_, fun {tag e} he => ?_, fun {tag} hnone lane => ?_,
    fun hl => h.owed_lt (answerOwed_iff.mp hl).1⟩
  · have hne : tag ≠ rsp.tag := fun heq => by
      rw [heq] at htag
      rw [h.tags htag] at hentry
      cases hentry
    rw [update_of_ne hne]
    exact h.tags htag
  · by_cases htag : tag = rsp.tag
    · subst htag
      rw [update_self, countDown] at he
      split at he
      · cases he
      · cases he
        simp only
        omega
    · rw [update_of_ne htag] at he
      rw [hother htag]
      exact h.count he
  · by_cases htag : tag = rsp.tag
    · subst htag
      rw [update_self, countDown] at hnone
      split at hnone
      · rename_i hzero
        by_contra hl
        rw [Bool.not_eq_false] at hl
        have hlt := h.owed_lt (answerOwed_iff.mp hl).1
        have := popcount_pos_iff.mpr ⟨lane, hlt, hl⟩
        omega
      · cases hnone
    · rw [update_of_ne htag] at hnone
      rw [hother htag]
      exact h.free hnone lane

theorem Table.answer (h : Table traces pending owed access) (hentry : pending rsp.tag = some entry)
    (hmask : rsp.Owed owed) :
    Table traces (update pending rsp.tag (countDown entry rsp)) (answerOwed rsp owed)
      (answerAccess traces rsp access) := by
  have hcount := h.count hentry
  have hpop := popcount_answer hmask
  refine ⟨h.toOwes.answer hentry hmask, fun {tag e k} he hk => ?_, fun {tag e k} he hk => ?_,
    fun {tag e k tr lane} he hk htr hl => ?_, fun {k t tag lane} hreq => ?_⟩
  · obtain ⟨e', he', -, -, -, -, hpos | rfl⟩ := entry_of_answer hentry he
    · exact hpos
    · exact h.count_pos he' hk
  · obtain ⟨e', he', howner, -, -, hwidth, -⟩ := entry_of_answer hentry he
    obtain ⟨tr, htr, htracked, hw⟩ := h.owner he' (howner.trans hk)
    exact ⟨tr, htr, htracked, hwidth.symm.trans hw⟩
  · obtain ⟨e', he', howner, -, hlanes, -⟩ := entry_of_answer hentry he
    obtain ⟨howed, hnot⟩ := answerOwed_iff.mp hl
    obtain ⟨hacc, haddr, hlt, hactive⟩ := h.lane he' (howner.trans hk) htr howed
    rw [hlanes] at hacc haddr hlt hactive
    refine ⟨?_, haddr, hlt, hactive⟩
    rw [answerAccess_of_not, hacc]
    intro lane' hreq
    rw [hacc] at hreq
    cases hreq
    by_contra hm
    exact hnot ⟨rfl, Bool.not_eq_false _ ▸ hm⟩
  · obtain ⟨hacc, hlost⟩ := answerAccess_requested hreq
    obtain ⟨e, he, howner, howed, htid⟩ := h.requested hacc
    have hnot : ¬ (tag = rsp.tag ∧ rsp.mask lane = true) := fun hc => by
      obtain ⟨tr, htr, -⟩ := h.owner he howner
      cases htr.symm.trans (hlost hc)
    have howed' : answerOwed rsp owed tag lane = true := answerOwed_iff.mpr ⟨howed, hnot⟩
    by_cases htag : tag = rsp.tag
    · subst htag
      rw [hentry] at he
      cases he
      have hp := popcount_pos_iff.mpr ⟨lane, h.owed_lt howed, howed'⟩
      refine ⟨{ entry with count := entry.count - popcount rsp.mask }, ?_, howner, howed', htid⟩
      rw [update_self, countDown, if_neg (by omega)]
    · exact ⟨e, by rw [update_of_ne htag, he], howner, howed', htid⟩

structure Fresh (traces : List Trace) (access : ℕ → ℕ → Access) (entry : PendingReq)
    (mask : ℕ → Bool) (k : ℕ) (tr : Trace) : Prop where
  trace : traces[k]? = some tr
  tracked : tr.Tracked
  nonempty : ∃ lane < numLanes, mask lane = true
  width : entry.width = tr.entryWidth
  thread : ∀ {lane}, mask lane = true →
    entry.lanes lane = addrEntry tr (entry.lanes lane).tid ∧
    (entry.lanes lane).tid < numThreads ∧ tr.tmask (entry.lanes lane).tid = true
  waiting : ∀ {lane}, mask lane = true → access k (entry.lanes lane).tid = .waiting
  inj : ∀ {i j}, mask i = true → mask j = true → (entry.lanes i).tid = (entry.lanes j).tid →
    i = j

theorem allocated_of_ne (h : entry.owner ≠ .trace k) :
    allocated entry mask tag access k = access k := by
  funext t
  simp only [allocated, if_neg h]

theorem allocated_cases (access : ℕ → ℕ → Access) (mask : ℕ → Bool) (tag : ℕ)
    (h : entry.owner = .trace k) (t : ℕ) :
    (∃ lane < numLanes, mask lane = true ∧ (entry.lanes lane).tid = t ∧
      allocated entry mask tag access k t = .requested tag lane) ∨
    ((∀ lane < numLanes, mask lane = true → (entry.lanes lane).tid ≠ t) ∧
      allocated entry mask tag access k t = access k t) := by
  unfold allocated
  rw [if_pos h]
  cases hfind : (List.range numLanes).find? fun lane =>
    mask lane && decide ((entry.lanes lane).tid = t) with
  | none =>
    refine .inr ⟨fun lane hlt hm htid => ?_, rfl⟩
    have := find?_eq_none.mp hfind lane (mem_range.mpr hlt)
    simp [hm, htid] at this
  | some lane =>
    have hmem := mem_range.mp (mem_of_find?_eq_some hfind)
    have hp := find?_some hfind
    simp only [Bool.and_eq_true, decide_eq_true_eq] at hp
    exact .inl ⟨lane, hmem, hp.1, hp.2, rfl⟩

omit [Config] in
theorem entry_of_allocate {tag' : ℕ} {e : PendingReq}
    (he : update pending tag (some entry) tag' = some e) :
    (tag' = tag ∧ entry = e) ∨ (tag' ≠ tag ∧ pending tag' = some e) := by
  by_cases htag : tag' = tag
  · subst htag
    rw [update_self, Option.some_inj] at he
    exact .inl ⟨rfl, he⟩
  · rw [update_of_ne htag] at he
    exact .inr ⟨htag, he⟩

theorem Owes.allocate (h : Owes pending owed) (hlt : tag < pendingSize)
    (hcount : entry.count = popcount mask) :
    Owes (update pending tag (some entry)) (update owed tag fun lane => decide (lane < numLanes) &&
      mask lane) := by
  have hnew : popcount (fun lane => decide (lane < numLanes) && mask lane) = popcount mask := by
    refine countP_congr fun lane hlane => ?_
    simp [mem_range.mp hlane]
  refine ⟨fun {tag'} htag => ?_, fun {tag' e} he => ?_, fun {tag'} hnone lane => ?_,
    fun {tag' lane} hl => ?_⟩
  · rw [update_of_ne (by omega)]
    exact h.tags htag
  · rcases entry_of_allocate he with ⟨rfl, rfl⟩ | ⟨htag, he⟩
    · rw [update_self, hnew]
      exact hcount
    · rw [update_of_ne htag]
      exact h.count he
  · have htag : tag' ≠ tag := by
      rintro rfl
      rw [update_self] at hnone
      cases hnone
    rw [update_of_ne htag] at hnone ⊢
    exact h.free hnone lane
  · by_cases htag : tag' = tag
    · subst htag
      rw [update_self, Bool.and_eq_true, decide_eq_true_eq] at hl
      exact hl.1
    · rw [update_of_ne htag] at hl
      exact h.owed_lt hl

theorem Table.allocate (h : Table traces pending owed access)
    (hlt : tag < pendingSize) (hfree : pending tag = none) (hcount : entry.count = popcount mask)
    (hfresh : ∀ k, entry.owner = .trace k → ∃ tr, Fresh traces access entry mask k tr) :
    Table traces (update pending tag (some entry))
      (update owed tag fun lane => decide (lane < numLanes) &&
        mask lane) (allocated entry mask tag access) := by
  refine ⟨h.toOwes.allocate hlt hcount, fun {tag' e k} he hk => ?_, fun {tag' e k} he hk => ?_,
    fun {tag' e k tr lane} he hk htr hl => ?_, fun {k t tag' lane} hreq => ?_⟩
  · rcases entry_of_allocate he with ⟨rfl, rfl⟩ | ⟨-, he⟩
    · obtain ⟨tr, hf⟩ := hfresh k hk
      exact hcount ▸ popcount_pos_iff.mpr hf.nonempty
    · exact h.count_pos he hk
  · rcases entry_of_allocate he with ⟨rfl, rfl⟩ | ⟨-, he⟩
    · obtain ⟨tr, hf⟩ := hfresh k hk
      exact ⟨tr, hf.trace, hf.tracked, hf.width⟩
    · exact h.owner he hk
  · rcases entry_of_allocate he with ⟨rfl, rfl⟩ | ⟨htag, he⟩
    · rw [update_self, Bool.and_eq_true, decide_eq_true_eq] at hl
      obtain ⟨tr', hf⟩ := hfresh k hk
      cases hf.trace.symm.trans htr
      refine ⟨?_, hf.thread hl.2⟩
      rcases allocated_cases access mask tag' hk (entry.lanes lane).tid with
        ⟨lane', -, hm, htid, hreq⟩ | ⟨hno, -⟩
      · rw [hreq, hf.inj hm hl.2 htid]
      · exact absurd rfl (hno lane hl.1 hl.2)
    · rw [update_of_ne htag] at hl
      obtain ⟨hacc, hrest⟩ := h.lane he hk htr hl
      refine ⟨?_, hrest⟩
      by_cases howner : entry.owner = .trace k
      · obtain ⟨tr', hf⟩ := hfresh k howner
        rcases allocated_cases access mask tag howner (e.lanes lane).tid with ⟨lane', -, hm, htid,
          -⟩ | ⟨-, hsame⟩
        · have := hf.waiting hm
          rw [htid, hacc] at this
          cases this
        · rw [hsame, hacc]
      · rw [allocated_of_ne howner, hacc]
  · have hold : access k t = .requested tag' lane → ∃ e,
        update pending tag (some entry) tag' = some e ∧ e.owner = .trace k ∧
        update owed tag (fun lane => decide (lane < numLanes) && mask lane) tag' lane = true ∧
        (e.lanes lane).tid = t := by
      intro hacc
      obtain ⟨e, he, hk, hl, htid⟩ := h.requested hacc
      have htag : tag' ≠ tag := by
        rintro rfl
        rw [hfree] at he
        cases he
      exact ⟨e, by rw [update_of_ne htag, he], hk, by rw [update_of_ne htag, hl], htid⟩
    by_cases howner : entry.owner = .trace k
    · rcases allocated_cases access mask tag howner t with ⟨lane', hlt', hm, htid, hnewreq⟩ |
        ⟨-, hsame⟩
      · rw [hnewreq] at hreq
        cases hreq
        refine ⟨entry, update_self .., howner, ?_, htid⟩
        rw [update_self, Bool.and_eq_true, decide_eq_true_eq]
        exact ⟨hlt', hm⟩
      · exact hold (hsame.symm.trans hreq)
    · rw [allocated_of_ne howner] at hreq
      exact hold hreq

end Tables

section Values

variable {tr : Trace} {entry : PendingReq} {rsp : LsuRsp}

theorem writeBack_lanes (k : ℕ) {l : List ℕ} (hnodup : l.Nodup)
    (hformat : ∀ lane ∈ l, rsp.mask lane = true →
      (formatLoad tr entry.width (entry.lanes lane).addr (rsp.data lane)).isSome = true)
    (hinj : ∀ i ∈ l, ∀ j ∈ l, rsp.mask i = true → rsp.mask j = true →
      (entry.lanes i).tid = (entry.lanes j).tid → i = j) (dst : ℕ → ℕ → ℕ) :
    ∃ dst', l.foldlM (writeLane tr k entry rsp) dst = some dst' ∧
      (∀ k' ≠ k, dst' k' = dst k') ∧
      (∀ t, (∀ lane ∈ l, rsp.mask lane = true → (entry.lanes lane).tid ≠ t) →
        dst' k t = dst k t) ∧
      ∀ lane ∈ l, rsp.mask lane = true →
        formatLoad tr entry.width (entry.lanes lane).addr (rsp.data lane) =
          some (dst' k (entry.lanes lane).tid) := by
  induction l generalizing dst with
  | nil => exact ⟨dst, rfl, fun _ _ => rfl, fun _ _ => rfl, fun _ h => absurd h not_mem_nil⟩
  | cons lane l ih =>
    rw [nodup_cons] at hnodup
    have hrest := ih hnodup.2 (fun i hi => hformat i (mem_cons_of_mem _ hi))
      (fun i hi j hj => hinj i (mem_cons_of_mem _ hi) j (mem_cons_of_mem _ hj))
    simp only [foldlM_cons, forall_mem_cons]
    by_cases hm : rsp.mask lane = true
    · obtain ⟨v, hv⟩ := Option.isSome_iff_exists.mp (hformat lane (mem_cons_self ..) hm)
      obtain ⟨dst', hfold, hother, hkeep, hset⟩ :=
        hrest (update dst k (update (dst k) (entry.lanes lane).tid v))
      refine ⟨dst', by rw [writeLane, if_pos hm, hv]; exact hfold, fun k' hk' => ?_,
        fun t ht => ?_, fun _ => ?_, hset⟩
      · rw [hother k' hk', update_of_ne hk']
      · rw [hkeep t ht.2, update_self, update_of_ne (ht.1 hm).symm]
      · have hsame : dst' k (entry.lanes lane).tid = v := by
          rw [hkeep _ fun i hi hmi heq => ?_, update_self, update_self]
          have := hinj i (mem_cons_of_mem _ hi) lane (mem_cons_self ..) hmi hm heq
          exact hnodup.1 (this ▸ hi)
        rw [hsame, hv]
    · obtain ⟨dst', hfold, hother, hkeep, hset⟩ := hrest dst
      exact ⟨dst', by rw [writeLane, if_neg hm]; exact hfold, hother, fun t ht => hkeep t ht.2,
        fun h => absurd h hm, hset⟩

theorem formatLoad_isSome {width addr : ℕ} {block : Cache.MemBlock} (hwidth : width ≤ 6)
    (hblock : addr % 64 + 2 ^ (width % 4) ≤ 64) :
    (formatLoad tr width addr block).isSome = true := by
  simp only [formatLoad]
  rw [if_neg (by omega), Option.isSome_map]
  split
  · rfl
  · split <;> rfl

end Values

end VortexGpu.Lsu
