import VortexGpu.HostWork

/-!
# What the device calls do to the host

A device call leaves the reference counts alone and adds to the list of calls. `Submits L` says
that, and that every line it puts into the ring satisfies `L`.
-/

namespace VortexGpu.Api
open Word ByteMem Simx List

def Submits (L : Mem → Prop) (a : Action) : Prop :=
  ∀ h, (a h).2.refs = h.refs ∧ ∃ es, (a h).2.effects = h.effects ++ es ∧
    ∀ cl, Effect.submitCl cl ∈ es → L cl

namespace Submits
open Api.Action

variable {L : Mem → Prop} {a b : Action} {dev : Device}

theorem ok : Submits L ok := fun _ => ⟨rfl, [], by simp [Action.ok], by simp⟩

theorem fails (r : VxResult) : Submits L (fails r) :=
  fun _ => ⟨rfl, [], by simp [Action.fails], by simp⟩

theorem perform {e : Effect} (he : ∀ cl, e = .submitCl cl → L cl) :
    Submits L (perform dev e) := by
  intro h
  refine ⟨rfl, [e], rfl, ?_⟩
  intro cl hcl
  exact he cl (mem_singleton.mp hcl).symm

theorem trans {h : Host} {c : VxResult × Host} (ha : Submits L a)
    (hb : c.2.refs = (a h).2.refs ∧ ∃ es, c.2.effects = (a h).2.effects ++ es ∧ ∀ cl,
      Effect.submitCl cl ∈ es → L cl) :
    c.2.refs = h.refs ∧ ∃ es, c.2.effects = h.effects ++ es ∧ ∀ cl,
      Effect.submitCl cl ∈ es → L cl := by
  obtain ⟨hr, es, hes, hL⟩ := ha h
  obtain ⟨hr', es', hes', hL'⟩ := hb
  refine ⟨hr'.trans hr, es ++ es', ?_, ?_⟩
  · rw [hes', hes, append_assoc]
  · intro cl hcl
    exact (mem_append.mp hcl).elim (hL cl) (hL' cl)

theorem andThen (ha : Submits L a) (hb : Submits L b) : Submits L (andThen a b) := by
  intro h
  unfold Action.andThen
  split_ifs
  · exact ha.trans (hb _)
  · exact ha h

theorem runAll {α : Type} {step : α → Action} {as : List α}
    (hs : ∀ x ∈ as, Submits L (step x)) : Submits L (runAll step as) := by
  induction as with
  | nil => exact ok
  | cons x as ih =>
    exact (hs x mem_cons_self).andThen (ih fun y hy => hs y (mem_cons_of_mem x hy))

theorem after {e : Effect} {f : Reply → Action} (he : ∀ cl, e ≠ .submitCl cl)
    (hf : ∀ r, Submits L (f r)) :
    Submits L fun h => f (h.perform dev e).1 (h.perform dev e).2 := by
  intro h
  have hp : Submits L (Action.perform dev e) := perform fun cl hcl => absurd hcl (he cl)
  exact hp.trans (hf (h.perform dev e).1 (h.perform dev e).2)

theorem withStaging {size : ℕ} {use : ℕ → Action} (hu : ∀ cpAddr, Submits L (use cpAddr)) :
    Submits L (dev.withStaging size use) := by
  refine after (f := fun r h => if r.result ≠ .success then (r.result, h)
    else ((use r.value h).1, (use r.value h).2.notify dev (.hostMemFree r.value))) (by simp) ?_
  intro r h
  dsimp only
  split_ifs
  · exact fails r.result h
  · exact (hu r.value).trans ⟨rfl, [.hostMemFree r.value], rfl, by simp⟩

theorem cpSubmitCl {cl : Mem} (h : L cl) : Submits L (dev.cpSubmitCl cl) :=
  perform fun _ hcl => by cases hcl; exact h

theorem cpSubmitMemCopy {dst src size : ℕ}
    (h : size ≠ 0 → dst ≠ src → L (Device.cmdLine Device.opMemCopy 0 dst src size)) :
    Submits L (dev.cpSubmitMemCopy dst src size) := by
  unfold Device.cpSubmitMemCopy
  split_ifs with hc
  · exact ok
  · exact cpSubmitCl (h (fun h0 => hc (.inl h0)) (fun he => hc (.inr he)))

theorem cpSubmitMemWrite {dst size : ℕ} {src : Option Mem}
    (h : size ≠ 0 → ∀ cpAddr, L (Device.cmdLine Device.opMemWrite 0 dst cpAddr size)) :
    Submits L (dev.cpSubmitMemWrite dst src size false) := by
  unfold Device.cpSubmitMemWrite
  split_ifs with hc
  · exact ok
  cases src with
  | none => exact fails _
  | some src =>
    refine withStaging fun cpAddr => ?_
    exact after (f := fun _ => dev.cpSubmitMem Device.opMemWrite dst cpAddr size false) (by simp)
      fun _ => cpSubmitCl (h hc cpAddr)

theorem cpSubmitMemRead {src size : ℕ} {dst : Bool}
    (h : size ≠ 0 → ∀ cpAddr, L (Device.cmdLine Device.opMemRead 0 cpAddr src size)) :
    Submits L (dev.cpSubmitMemRead dst src size false) := by
  unfold Device.cpSubmitMemRead
  split_ifs with hc
  · exact ok
  · exact fails _
  · exact withStaging fun cpAddr => cpSubmitCl (h hc cpAddr)

end Submits

abbrev Quiet (a : Action) : Prop := Submits (fun _ => True) a

namespace Quiet
open Api.Action

variable {dev : Device}

theorem refs {a : Action} (ha : Quiet a) (h : Host) : (a h).2.refs = h.refs := (ha h).1

theorem call (dev : Device) (e : Effect) : Quiet (perform dev e) :=
  Submits.perform fun _ _ => trivial

theorem cpSubmitDcrWrite (addr value : ℕ) : Quiet (dev.cpSubmitDcrWrite addr value) := by
  unfold Device.cpSubmitDcrWrite
  split_ifs
  · exact Submits.fails _
  · exact call dev _

theorem cpSubmitDcrRead (addr tag : ℕ) : Quiet (dev.cpSubmitDcrRead addr tag) :=
  Submits.andThen (call dev _) (call dev _)

theorem cpSubmitCacheFlush : Quiet dev.cpSubmitCacheFlush := by
  intro h
  unfold Device.cpSubmitCacheFlush
  dsimp only
  split_ifs
  · exact call dev (.queryCaps .numCores) h
  · exact (call dev (.queryCaps .numCores)).trans ⟨rfl, [_], rfl, fun _ _ => trivial⟩
  · exact call dev _ h

theorem drainUnlessBatch : Quiet dev.drainUnlessBatch := by
  refine Submits.after (f := fun r h => if r.flag then (.success, h)
    else perform dev .drainCout h) (by simp) ?_
  intro r h
  dsimp only
  split_ifs
  · exact Submits.ok h
  · exact call dev _ h

theorem cpSubmitLaunch : Quiet dev.cpSubmitLaunch :=
  Submits.andThen (call dev _) (cpSubmitCacheFlush.andThen drainUnlessBatch)

theorem cpSubmitLaunchQmd (qmdAddr : ℕ) : Quiet (dev.cpSubmitLaunchQmd qmdAddr) :=
  Submits.andThen (call dev _) (cpSubmitCacheFlush.andThen drainUnlessBatch)

theorem cpSubmitDraw (descAddr : ℕ) : Quiet (dev.cpSubmitDraw descAddr) :=
  Submits.andThen (call dev _) drainUnlessBatch

theorem devWrite (devAddr : ℕ) (src : Option Mem) (size : ℕ) :
    Quiet (dev.devWrite devAddr src size) :=
  Submits.cpSubmitMemWrite fun _ _ => trivial

theorem devRead (dst : Bool) (devAddr size : ℕ) : Quiet (dev.devRead dst devAddr size) :=
  Submits.cpSubmitMemRead fun _ _ => trivial

theorem devCopy (dst src size : ℕ) : Quiet (dev.devCopy dst src size) :=
  Submits.cpSubmitMemCopy fun _ _ => trivial

end Quiet

end VortexGpu.Api
