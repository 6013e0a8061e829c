import VortexGpu.CtaClusters

/-!
# Where the CTAs of a cluster go

The invariant names the three places a CTA of the current cluster can be: still with the unit,
waiting as the first of its cluster, or admitted. While a cluster is open, the core that took
its last CTA has the rest of the slots free and its next slot is the next one of the cluster.
-/

namespace VortexGpu.Simx
open Word MixedRadix Runs
open Function (update update_apply update_of_ne update_self)
open CtaDispatcher Processor List Option Nat CoreConfig

structure WaitsAt (d : Descriptor) (p : Processor) (c : ℕ) (r : KmuReq) : Prop where
  desc : r.desc = d
  first : r.isFirstOfCluster = true
  start : p.lastPull c % d.clusterSize = 0
  taken : p.lastPull c < p.pulls
  alone : ∀ a ∈ p.admitted, a.index / d.clusterSize ≠ p.lastPull c / d.clusterSize
  latest : 1 < d.clusterSize → p.pulls = p.lastPull c + 1 ∧ p.puller = c

/-- The open cluster occupies the slots from `s` on. -/
structure Filling [CoreConfig] (d : Descriptor) (p : Processor) (s : ℕ) : Prop where
  fits : s + d.clusterSize ≤ usableSlots d.stride
  tail : (p.cores p.puller).tailSlot = s + p.pulls % d.clusterSize
  free : ∀ i, p.pulls % d.clusterSize ≤ i → i < d.clusterSize →
    (p.cores p.puller).slotRemWarps (s + i) = 0
  members : ∀ a ∈ p.admitted, a.index / d.clusterSize = p.pulls / d.clusterSize →
    a.core = p.puller ∧ a.slot = s + a.index % d.clusterSize

structure Resident [CoreConfig] (d : Descriptor) (p : Processor) : Prop where
  desc : p.kmu.desc = d
  offset : p.kmu.running = true → p.kmu.intraOffset.toList = digits d.clusterDims p.pulls
  older : ∀ a ∈ p.admitted, a.index < p.pulls
  lmem : ∀ a ∈ p.admitted, a.lmemAddr = add64 lmemBase (a.slot * d.stride)
  waiting : ∀ c r, (p.cores c).pending = some r → WaitsAt d p c r
  distinct : ∀ c c' r r', (p.cores c).pending = some r → (p.cores c').pending = some r' →
    p.lastPull c = p.lastPull c' → c = c'
  inside : p.pulls % d.clusterSize ≠ 0 → (p.cores p.puller).pending = none → ∃ s,
    Filling d p s
  together : ∀ a ∈ p.admitted, ∀ b ∈ p.admitted,
    a.index / d.clusterSize = b.index / d.clusterSize →
    a.core = b.core ∧ a.slot + b.index % d.clusterSize = b.slot + a.index % d.clusterSize

section Clusters
variable [CoreConfig] {d : Descriptor} {n : ℕ}

theorem step_offset {k k' : Kmu} {r : KmuReq}
    (hcl : Clustered d) (hdesc : k.desc = d)
    (hoffset : k.intraOffset.toList = digits d.clusterDims n) (hstep : k.step = some (k', r)) :
    k'.desc = d ∧ k'.intraOffset.toList = digits d.clusterDims (n + 1) ∧ r.desc = d ∧
      (r.isFirstOfCluster = true ↔ n % d.clusterSize = 0) := by
  unfold Kmu.step at hstep
  split_ifs at hstep with hrun
  cases hstep
  refine ⟨(advance_desc _).trans hdesc, hcl.advance_offset hdesc hoffset, hdesc, ?_⟩
  rw [← hcl.first_iff hoffset]
  exact beq_iff_eq

omit [CoreConfig] in
theorem mod_div_succ {k : ℕ} (h : n % k + 1 < k) :
    (n + 1) % k = n % k + 1 ∧ (n + 1) / k = n / k := by
  have hn : n + 1 = k * (n / k) + (n % k + 1) := by rw [← add_assoc, div_add_mod]
  obtain ⟨hmod, hdiv⟩ := block_div_mod (q := n / k) h
  rw [← hn] at hmod hdiv
  exact ⟨hmod, hdiv⟩

omit [CoreConfig] in
theorem mod_succ_lt {k : ℕ} (hk : 0 < k) (h : (n + 1) % k ≠ 0) : n % k + 1 < k := by
  have hlt := mod_lt n hk
  by_contra hge
  have hn : n + 1 = k * (n / k + 1) := by
    have hsplit := div_add_mod n k
    rw [mul_add, mul_one]
    omega
  exact h (by rw [hn, mul_mod_right])

section Steps
variable {d : Descriptor} {p : Processor} {c : ℕ}

theorem Resident.update_core (h : Resident d p) (disp : CtaDispatcher)
    (hpending : disp.pending = (p.cores c).pending)
    (htail : (p.cores c).pending = none → disp.tailSlot = (p.cores c).tailSlot)
    (hfree : ∀ s, (p.cores c).slotRemWarps s = 0 → disp.slotRemWarps s = 0) :
    Resident d { p with cores := update p.cores c disp } := by
  have hsame : ∀ c', (update p.cores c disp c').pending = (p.cores c').pending := by
    refine (Function.forall_update_iff _ fun c' (e : CtaDispatcher) => e.pending =
      (p.cores c').pending).mpr ⟨hpending, ?_⟩
    exact fun _ _ => rfl
  refine { h with waiting := ?_, distinct := ?_, inside := ?_ }
  · exact fun c' r hr => { h.waiting c' r ((hsame c').symm.trans hr) with }
  · intro c₁ c₂ r₁ r₂ h₁ h₂
    exact h.distinct c₁ c₂ r₁ r₂ ((hsame c₁).symm.trans h₁)
      ((hsame c₂).symm.trans h₂)
  · intro hopen hnone
    have hnone' := (hsame p.puller).symm.trans hnone
    obtain ⟨s, hs⟩ := h.inside hopen hnone'
    refine ⟨s, hs.fits, ?_, ?_, hs.members⟩
    · simp only [update_apply]
      split_ifs with hc
      · rw [htail (hc ▸ hnone'), ← hc, hs.tail]
      · exact hs.tail
    · intro i hle hlt
      simp only [update_apply]
      split_ifs with hc
      · apply hfree
        rw [← hc]
        exact hs.free i hle hlt
      · exact hs.free i hle hlt

theorem Resident.together_cons (h : Resident d p) {x : Admission}
    (hx : ∀ a ∈ p.admitted, a.index / d.clusterSize = x.index / d.clusterSize →
      a.core = x.core ∧ a.slot + x.index % d.clusterSize = x.slot + a.index % d.clusterSize) :
    ∀ a ∈ x :: p.admitted, ∀ b ∈ x :: p.admitted,
      a.index / d.clusterSize = b.index / d.clusterSize →
      a.core = b.core ∧ a.slot + b.index % d.clusterSize = b.slot + a.index % d.clusterSize := by
  intro a ha b hb heq
  rcases mem_cons.mp ha with rfl | ha' <;> rcases mem_cons.mp hb with rfl | hb'
  · exact ⟨rfl, rfl⟩
  · exact (hx b hb' heq.symm).imp Eq.symm Eq.symm
  · exact hx a ha' heq
  · exact h.together a ha' b hb' heq

variable {r : KmuReq}

theorem Resident.take_first (hcl : Clustered d) (h : Resident d p) {k : Kmu}
    (hnone : (p.cores c).pending = none) (hstep : p.kmu.step = some (k, r))
    (hfirst : p.pulls % d.clusterSize = 0) : Resident d { p with
      kmu := k
      cores := update p.cores c { p.cores c with pending := some r }
      pulls := p.pulls + 1
      puller := c
      lastPull := update p.lastPull c p.pulls } := by
  obtain ⟨hdesc, hoffset, hrdesc, hrfirst⟩ :=
    step_offset hcl h.desc (h.offset (step_request hstep).1) hstep
  -- another core waits only with a cluster of one CTA
  have hothers : ∀ c' r', (p.cores c').pending = some r' → ¬1 < d.clusterSize := by
    intro c' r' hr' hbig
    have hw := h.waiting c' r' hr'
    have hpulls := (hw.latest hbig).1
    have hmod : p.pulls % d.clusterSize = 1 := by
      rw [hpulls, add_mod, hw.start, zero_add, mod_mod, mod_eq_of_lt hbig]
    omega
  refine ⟨hdesc, fun _ => hoffset, fun a ha => lt_succ_of_lt (h.older a ha), h.lmem, ?_, ?_, ?_,
    h.together⟩
  · intro c' r' hr'
    by_cases hc : c' = c
    · subst hc
      simp only [update_self, some.injEq] at hr'
      subst hr'
      refine ⟨hrdesc, hrfirst.mpr hfirst, ?_, ?_, ?_, ?_⟩
      all_goals simp only [update_self]
      · exact hfirst
      · exact lt_succ_self _
      · exact fun a ha =>
          Nat.ne_of_lt (Nat.div_lt_div_of_lt_of_dvd (Nat.dvd_of_mod_eq_zero hfirst) (h.older a ha))
      · simp
    · simp only [update_of_ne hc] at hr'
      have hw := h.waiting c' r' hr'
      refine ⟨hw.desc, hw.first, ?_, ?_, ?_, fun hbig => absurd hbig (hothers c' r' hr')⟩
      all_goals simp only [update_of_ne hc]
      · exact hw.start
      · exact lt_succ_of_lt hw.taken
      · exact hw.alone
  · intro c₁ c₂ r₁ r₂ h₁ h₂ heq
    by_cases hc₁ : c₁ = c
    · by_cases hc₂ : c₂ = c
      · rw [hc₁, hc₂]
      · simp only [update_of_ne hc₂, hc₁, update_self] at h₂ heq
        exact absurd heq.symm (Nat.ne_of_lt (h.waiting c₂ r₂ h₂).taken)
    · simp only [update_of_ne hc₁] at h₁ heq
      by_cases hc₂ : c₂ = c
      · simp only [hc₂, update_self] at heq
        exact absurd heq (Nat.ne_of_lt (h.waiting c₁ r₁ h₁).taken)
      · simp only [update_of_ne hc₂] at h₂ heq
        exact h.distinct c₁ c₂ r₁ r₂ h₁ h₂ heq
  · intro _ hpend
    exact absurd hpend (by simp)

theorem Resident.admit_waiting (hcl : Clustered d) (h : Resident d p) {base : ℕ}
    (hr : (p.cores c).pending = some r) (hfit : base + d.clusterSize ≤ usableSlots d.stride)
    (hfree : ∀ i < d.clusterSize, (p.cores c).slotRemWarps (base + i) = 0) : Resident d { p with
      cores := update p.cores c ((p.cores c).place r base)
      admitted :=
        ⟨c, p.lastPull c, base, add64 lmemBase (base * d.stride)⟩ :: p.admitted } := by
  have hw := h.waiting c r hr
  have hpos := hcl.size_pos
  have hpending : ∀ c' r', (update p.cores c ((p.cores c).place r base) c').pending = some r' →
      c' ≠ c ∧ (p.cores c').pending = some r' := by
    intro c' r' hr'
    by_cases hc : c' = c
    · rw [hc, update_self] at hr'
      exact absurd hr' (by simp [place])
    · rw [update_of_ne hc] at hr'
      exact ⟨hc, hr'⟩
  refine ⟨h.desc, h.offset, ?_, ?_, ?_, ?_, ?_, ?_⟩
  · exact forall_mem_cons.mpr ⟨hw.taken, h.older⟩
  · exact forall_mem_cons.mpr ⟨rfl, h.lmem⟩
  · intro c' r' hr'
    obtain ⟨hc, hr'⟩ := hpending c' r' hr'
    have hw' := h.waiting c' r' hr'
    refine { hw' with alone := forall_mem_cons.mpr ⟨fun heq => ?_, hw'.alone⟩ }
    have hsame : p.lastPull c = p.lastPull c' := by
      rw [← div_add_mod (p.lastPull c) d.clusterSize,
        ← div_add_mod (p.lastPull c') d.clusterSize, hw.start, hw'.start]
      exact congrArg (fun n => d.clusterSize * n + 0) heq
    exact hc (h.distinct c c' r r' hr hr' hsame).symm
  · intro c₁ c₂ r₁ r₂ h₁ h₂
    exact h.distinct c₁ c₂ r₁ r₂ (hpending c₁ r₁ h₁).2 (hpending c₂ r₂ h₂).2
  · intro hopen _
    have hbig : 1 < d.clusterSize := by
      by_contra hle
      obtain hone : d.clusterSize = 1 := by omega
      exact hopen (by rw [hone]; exact mod_one _)
    obtain ⟨hpulls, rfl⟩ := hw.latest hbig
    obtain ⟨hmod, hdiv⟩ :=
      mod_div_succ (n := p.lastPull p.puller) (by rw [hw.start]; exact hbig)
    rw [← hpulls, hw.start] at hmod
    rw [← hpulls] at hdiv
    refine ⟨base, hfit, ?_, ?_, ?_⟩
    · simp only [update_self, place, hmod, KmuReq.stride, hw.desc]
      exact mod_eq_of_lt (by omega)
    · intro i hle hlt
      simp only [update_self, place]
      rw [update_of_ne (by omega)]
      exact hfree i hlt
    · intro a ha heq
      rcases mem_cons.mp ha with rfl | ha
      · exact ⟨rfl, by simp only [hw.start]; omega⟩
      · exact absurd (heq.trans hdiv) (hw.alone a ha)
  · exact h.together_cons fun a ha heq => absurd heq (hw.alone a ha)

theorem Resident.follow (hcl : Clustered d) (h : Resident d p) {k : Kmu}
    (hnone : (p.cores p.puller).pending = none) (hstep : p.kmu.step = some (k, r))
    (hopen : p.pulls % d.clusterSize ≠ 0) :
    (p.cores p.puller).admitCta r =
      some ((p.cores p.puller).place r (p.cores p.puller).tailSlot) ∧ Resident d { p with
      kmu := k
      cores := update p.cores p.puller
        ((p.cores p.puller).place r (p.cores p.puller).tailSlot)
      pulls := p.pulls + 1
      lastPull := update p.lastPull p.puller p.pulls
      admitted := ⟨p.puller, p.pulls, (p.cores p.puller).tailSlot,
        add64 lmemBase ((p.cores p.puller).tailSlot * d.stride)⟩ :: p.admitted } := by
  obtain ⟨hdesc, hoffset, hrdesc, hrfirst⟩ :=
    step_offset hcl h.desc (h.offset (step_request hstep).1) hstep
  have hpos := hcl.size_pos
  have hm := mod_lt p.pulls hpos
  obtain ⟨s, hs⟩ := h.inside hopen hnone
  have htail := hs.tail
  have hfits := hs.fits
  have hslot := hs.free _ (le_refl _) hm
  rw [← htail] at hslot
  have hstride : r.stride = d.stride := by rw [KmuReq.stride, hrdesc]
  -- nobody else waits in the middle of a cluster
  have hpending : ∀ c r', (update p.cores p.puller
      ((p.cores p.puller).place r (p.cores p.puller).tailSlot) c).pending ≠ some r' := by
    intro c r' hr'
    by_cases hc : c = p.puller
    · rw [hc, update_self] at hr'
      exact absurd hr' (by simp [place])
    · rw [update_of_ne hc] at hr'
      have hbig : 1 < d.clusterSize := by omega
      exact hc ((h.waiting c r' hr').latest hbig).2.symm
  refine ⟨?_, hdesc, fun _ => hoffset, ?_, ?_, fun c r' hr' => absurd hr' (hpending c r'),
    fun c c' r₁ r₂ h₁ => absurd h₁ (hpending c r₁), ?_, ?_⟩
  · refine admit_next ?_ ?_ hslot
    · rw [← Bool.not_eq_true, hrfirst]
      exact hopen
    · rw [hstride]
      omega
  · exact forall_mem_cons.mpr ⟨lt_succ_self _, fun a ha => lt_succ_of_lt (h.older a ha)⟩
  · exact forall_mem_cons.mpr ⟨rfl, h.lmem⟩
  · intro hopen' _
    obtain hlt := mod_succ_lt hpos hopen'
    obtain ⟨hmod, hdiv⟩ := mod_div_succ hlt
    refine ⟨s, hfits, ?_, ?_, ?_⟩
    · simp only [update_self, place, hmod, hstride, htail]
      rw [mod_eq_of_lt (by omega)]
      omega
    · intro i hle hlt'
      simp only [hmod] at hle
      simp only [update_self, place, htail]
      rw [update_of_ne (by omega)]
      exact hs.free i (by omega) hlt'
    · intro a ha heq
      rcases mem_cons.mp ha with rfl | ha
      · exact ⟨rfl, htail⟩
      · exact hs.members a ha (heq.trans hdiv)
  · refine h.together_cons fun a ha heq => ?_
    obtain ⟨hcore, hslot'⟩ := hs.members a ha heq
    exact ⟨hcore, by simp only; omega⟩

end Steps

def CtaDispatcher.issued (active : ℕ → Bool) (d : CtaDispatcher) : CtaDispatcher :=
  match d.current with
  | none => d
  | some c => (d.issue active c).1

section Calls
variable {d : Descriptor} {p : Processor} {c : ℕ} {active : ℕ → Bool}

theorem issued_keeps (active : ℕ → Bool) (disp : CtaDispatcher) :
    (disp.issued active).pending = disp.pending ∧ (disp.issued active).tailSlot =
      disp.tailSlot ∧ (disp.issued active).slotRemWarps = disp.slotRemWarps := by
  unfold CtaDispatcher.issued issue
  split
  · exact ⟨rfl, rfl, rfl⟩
  · split
    all_goals exact ⟨rfl, rfl, rfl⟩

variable {disp : CtaDispatcher}

theorem call_eq {kmu : Kmu} (hload : (p.cores c).load p.kmu = some (disp, kmu)) :
    p.step (.call c active) = some ({
      kmu := kmu
      cores := update p.cores c (disp.issued active)
      pulls := if p.takes c then p.pulls + 1 else p.pulls
      puller := if p.takes c then c else p.puller
      lastPull := if p.takes c then update p.lastPull c p.pulls else p.lastPull
      admitted := p.admission c disp ++ p.admitted }, ()) := by
  simp only [Processor.step, CtaDispatcher.step, hload, bind_eq_bind, bind_some,
    CtaDispatcher.issued]
  cases disp.current <;> rfl

theorem admit_pending {r : KmuReq} (pending : Option KmuReq) :
    { disp with pending := pending }.admitCta r = disp.admitCta r := rfl

theorem Resident.issued (h : Resident d p) (c : ℕ) (active : ℕ → Bool) :
    Resident d { p with cores := update p.cores c ((p.cores c).issued active) } := by
  obtain ⟨hpending, htail, hslots⟩ := issued_keeps active (p.cores c)
  exact h.update_core _ hpending (fun _ => htail) (fun s hs => by rw [hslots]; exact hs)

theorem Resident.after {q : Processor} (active : ℕ → Bool)
    (h : Resident d { q with cores := update q.cores c disp }) :
    Resident d { q with cores := update q.cores c (disp.issued active) } := by
  have hissued := h.issued c active
  simpa [Function.update_idem] using hissued

theorem Resident.call_waiting (hcl : Clustered d) (h : Resident d p) {r : KmuReq}
    (hr : (p.cores c).pending = some r) (hcurrent : (p.cores c).current = none)
    (active : ℕ → Bool) : ∃ disp, (p.cores c).admitCta r = some disp ∧ Resident d { p with
        cores := update p.cores c (disp.issued active)
        admitted := (match disp.current with
          | some cta => [⟨c, p.lastPull c, cta.slot, cta.lmemAddr⟩]
          | none => []) ++ p.admitted } := by
  have hw := h.waiting c r hr
  have hstride : r.stride = d.stride := by rw [KmuReq.stride, hw.desc]
  have hfits := hcl.fits
  rw [← hstride] at hfits
  rcases admit_first hw.first (hcl.clusterProduct_eq hw.desc) hcl.size_pos hfits with
    ⟨base, hadm, hbase, hfree⟩ | ⟨tail, hadm⟩
  · refine ⟨_, hadm, ?_⟩
    rw [hstride] at hbase
    have hplaced := h.admit_waiting hcl hr hbase hfree
    have hafter := Resident.after (q := { p with
      admitted :=
        ⟨c, p.lastPull c, base, add64 lmemBase (base * d.stride)⟩ :: p.admitted })
          active hplaced
    simpa only [place, CurrentCta.admitted, hstride, singleton_append] using hafter
  · refine ⟨_, hadm, ?_⟩
    have hkept :=
      h.update_core (c := c) { p.cores c with tailSlot := tail, pending := some r } hr.symm
      (fun hnone => absurd hr (by rw [hnone]; simp)) (fun s hs => hs)
    simpa [CtaDispatcher.issued, hcurrent] using hkept

theorem Resident.call_idle (h : Resident d p)
    (hload : (p.cores c).load p.kmu = some (p.cores c, p.kmu)) (htakes : p.takes c = false)
    (hadmission : p.admission c (p.cores c) = []) :
    ∃ p', p.step (.call c active) = some (p', ()) ∧ Resident d p' := by
  refine ⟨_, call_eq hload, ?_⟩
  simp only [htakes, hadmission, Bool.false_eq_true, if_false, nil_append]
  exact h.issued c active

theorem Resident.call (hcl : Clustered d) (h : Resident d p)
    (hok : p.Orderly (.call c active)) :
    ∃ p', p.step (.call c active) = some (p', ()) ∧ Resident d p' := by
  cases hcurrent : (p.cores c).current with
  | some cta =>
    refine h.call_idle ?_ ?_ ?_
    · simp [load, hcurrent]
    · simp [takes, hcurrent]
    · simp [admission, hcurrent]
  | none =>
    cases hpending : (p.cores c).pending with
    | some r =>
      obtain ⟨disp, hadm, hres⟩ := h.call_waiting hcl hpending hcurrent active
      have hload : (p.cores c).load p.kmu = some (disp, p.kmu) := by
        simp [load, hcurrent, hpending, hadm]
      have htakes : p.takes c = false := by simp [takes, hpending]
      refine ⟨_, call_eq hload, ?_⟩
      simp only [htakes, Bool.false_eq_true, if_false]
      cases hdisp : disp.current with
      | none => simpa [admission, hcurrent, hdisp] using hres
      | some cta => simpa [admission, hcurrent, hpending, hdisp] using hres
    | none =>
      cases hstep : p.kmu.step with
      | none =>
        have hrun : p.kmu.running = false := by
          by_contra hrun
          simp [Kmu.step, hrun] at hstep
        refine h.call_idle ?_ ?_ ?_
        · simp [load, hcurrent, hpending, hstep]
        · simp [takes, hrun]
        · simp [admission, hcurrent]
      | some kr =>
        obtain ⟨k, r⟩ := kr
        have hrun := (step_request hstep).1
        have htakes : p.takes c = true := by simp [takes, hcurrent, hpending, hrun]
        by_cases hfirst : p.pulls % d.clusterSize = 0
        · have hres := h.take_first hcl hpending hstep hfirst
          obtain ⟨disp, hadm, hres'⟩ := hres.call_waiting (c := c) (r := r) hcl
            (by simp) (by simpa using hcurrent) active
          simp only [update_self, Function.update_idem] at hadm hres'
          have hload : (p.cores c).load p.kmu = some (disp, k) := by
            simp only [load, hcurrent, hpending, hstep]
            rw [← admit_pending (some r), hadm]
            rfl
          refine ⟨_, call_eq hload, ?_⟩
          simp only [htakes, if_true]
          cases hdisp : disp.current with
          | none => simpa [admission, hcurrent, hdisp] using hres'
          | some cta => simpa [admission, hcurrent, hpending, hdisp] using hres'
        · have hc : c = p.puller := by
            apply hok htakes
            rw [ne_eq, hcl.first_iff (h.offset hrun)]
            exact hfirst
          subst hc
          obtain ⟨hadm, hres⟩ := h.follow hcl hpending hstep hfirst
          have hload : (p.cores p.puller).load p.kmu =
              some ((p.cores p.puller).place r (p.cores p.puller).tailSlot, k) := by
            simp [load, hcurrent, hpending, hstep, hadm]
          refine ⟨_, call_eq hload, ?_⟩
          have hstride : r.stride = d.stride := by
            rw [KmuReq.stride,
              (step_offset hcl h.desc (h.offset (step_request hstep).1) hstep).2.2.1]
          have hafter := Resident.after (q := { p with
            kmu := k
            pulls := p.pulls + 1
            lastPull := update p.lastPull p.puller p.pulls
            admitted := ⟨p.puller, p.pulls, (p.cores p.puller).tailSlot,
              add64 lmemBase ((p.cores p.puller).tailSlot * d.stride)⟩ :: p.admitted })
              active hres
          simpa [htakes, admission, hcurrent, hpending, place, CurrentCta.admitted,
            hstride] using hafter

end Calls

theorem Resident.warpDone {p p' : Processor} {c wid : ℕ}
    (h : Resident d p) (hstep : p.step (.warpDone c wid) = some (p', ())) : Resident d p' := by
  simp only [Processor.step, CtaDispatcher.warpDone] at hstep
  split_ifs at hstep with hslot hzero
  · simp only [bind_eq_bind, bind_some, some.injEq, Prod.mk.injEq, and_true] at hstep
    subst hstep
    exact h.update_core _ rfl (fun _ => rfl) (fun s hs => hs)
  · simp only [bind_eq_bind, bind_none, reduceCtorEq] at hstep
  · simp only [bind_eq_bind, bind_some, some.injEq, Prod.mk.injEq, and_true] at hstep
    subst hstep
    refine h.update_core _ rfl (fun _ => rfl) ?_
    intro s hs
    simp only [update_apply]
    split_ifs with heq
    · rw [heq] at hs
      exact absurd hs hzero
    · exact hs

theorem resident_step (hcl : Clustered d) (p : Processor)
    (a : CoreAction) (p' : Processor) (u : Unit) (h : Resident d p) (hok : p.Orderly a)
    (hstep : p.step a = some (p', u)) : Resident d p' := by
  cases a with
  | call c active =>
    obtain ⟨q, hq, hres⟩ := h.call hcl hok
    cases hq.symm.trans hstep
    exact hres
  | warpDone c wid => exact h.warpDone hstep

structure Fresh (p : Processor) : Prop where
  waiting : ∀ c, (p.cores c).pending = none
  pulls : p.pulls = 0
  admitted : p.admitted = []

theorem resident_start {p : Processor} (hfresh : Fresh p) :
    Resident p.kmu.desc { p with kmu := p.kmu.start } := by
  have hnone : ∀ c r, (p.cores c).pending ≠ some r := by
    intro c r hr
    rw [hfresh.waiting c] at hr
    exact absurd hr (by simp)
  refine ⟨start_desc _, ?_, ?_, ?_, fun c r hr => absurd hr (hnone c r),
    fun c c' r r' hr => absurd hr (hnone c r), ?_, ?_⟩
  · intro hrun
    simp only [Kmu.start] at hrun ⊢
    split_ifs at hrun ⊢
    rw [hfresh.pulls, MixedRadix.digits_zero]
    rfl
  · simp [hfresh.admitted]
  · simp [hfresh.admitted]
  · intro hopen
    simp [hfresh.pulls] at hopen
  · simp [hfresh.admitted]

/-- In every run in which nobody takes a CTA from the middle of another core's cluster, the CTAs of
a cluster are admitted by one core, each in the slot and at the local memory its place in the
cluster says, and only the first of a cluster ever waits. -/
theorem clusters_co_resident {p t : Processor} {acts : List CoreAction} {outs : List Unit}
    (hcl : Clustered p.kmu.desc) (hfresh : Fresh p)
    (hok : Along Processor.step Processor.Orderly { p with kmu := p.kmu.start } acts)
    (hrun : run Processor.step { p with kmu := p.kmu.start } acts = some (t, outs)) :
    (∀ a ∈ t.admitted, ∀ b ∈ t.admitted,
      a.index / p.kmu.desc.clusterSize = b.index / p.kmu.desc.clusterSize →
      b.core = a.core ∧ (a.index % p.kmu.desc.clusterSize = 0 →
        b.slot = a.slot + b.index % p.kmu.desc.clusterSize ∧
        b.lmemAddr = add64 a.lmemAddr (b.index % p.kmu.desc.clusterSize * p.kmu.desc.stride))) ∧
    ∀ c r, (t.cores c).pending = some r → r.isFirstOfCluster = true := by
  have hres := run_reaches (resident_step hcl) (resident_start hfresh) hok hrun
  refine ⟨?_, fun c r hr => (hres.waiting c r hr).first⟩
  intro a ha b hb heq
  obtain ⟨hcore, hslot⟩ := hres.together a ha b hb heq
  refine ⟨hcore.symm, fun hfirst => ?_⟩
  have hb_slot : b.slot = a.slot + b.index % p.kmu.desc.clusterSize := by omega
  refine ⟨hb_slot, ?_⟩
  rw [hres.lmem a ha, hres.lmem b hb, hb_slot, add64, add64, add64, mod_add_mod, add_mul, add_assoc]

instance (p : Processor) (a : CoreAction) : Decidable (p.Orderly a) :=
  match a with
  | .call core _ =>
    inferInstanceAs (Decidable (p.takes core = true → p.kmu.intraOffset ≠ ⟨0, 0, 0⟩ →
      core = p.puller))
  | .warpDone _ _ => inferInstanceAs (Decidable True)

end Clusters

def sampleProcessor : Processor where
  kmu := Kmu.idle (sampleDescriptor 8)
  cores := fun _ => @reset smallCore
  pulls := 0
  puller := 0
  lastPull := fun _ => 0
  admitted := []

def oneCoreActs : List CoreAction :=
  [.call 0 (fun _ => false), .call 0 (· < 1), .call 0 (· < 2), .call 0 (· < 3)]

theorem clusters_co_resident_sample : letI := smallCore
    ((run Processor.step { sampleProcessor with kmu := sampleProcessor.kmu.start } oneCoreActs).map
      fun r => r.1.admitted.map fun a => (a.core, a.index, a.slot)) =
      some [(0, 1, 1), (0, 0, 0)] ∧
    ∀ r, run Processor.step { sampleProcessor with kmu := sampleProcessor.kmu.start }
      oneCoreActs =
      some r → ∀ a ∈ r.1.admitted, ∀ b ∈ r.1.admitted, a.index / 2 = b.index / 2 →
      b.core = a.core := by
  refine ⟨by decide +kernel, ?_⟩
  rintro ⟨t, outs⟩ hrun a ha b hb heq
  let := smallCore
  have hcl : Clustered sampleProcessor.kmu.desc := ⟨by decide, by decide +kernel⟩
  exact ((clusters_co_resident hcl ⟨fun _ => rfl, rfl, rfl⟩ (by decide +kernel) hrun).1 a ha b
    hb heq).1

/-- With two cores the second CTA of the cluster goes to the core that asks next. -/
theorem cluster_split : letI := smallCore
    ((run Processor.step { sampleProcessor with kmu := sampleProcessor.kmu.start }
      [.call 0 (fun _ => false), .call 1 (fun _ => false)]).map
      fun r => r.1.admitted.map fun a => (a.core, a.index, a.slot)) =
      some [(1, 1, 0), (0, 0, 0)] ∧
    (sampleDescriptor 8).clusterSize = 2 ∧ usableSlots (sampleDescriptor 8).stride = 4 := by
  decide +kernel

end VortexGpu.Simx
