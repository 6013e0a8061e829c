import VortexGpu.HostEvents

/-!
# The order in which closures run

The completion event of a command that has not been completed is fresh as long as no signal moves
it. Then a wait passes only behind a completion, and an event that has been passed with success
keeps that success, so that the events of a list are all passed when the closure is entered,
although each was looked at only once.
-/

namespace VortexGpu.Api
open Runs
open Function (update update_apply update_of_ne update_self)
open List Option

namespace EventState
variable (ev : EventState)

theorem counter_le_signal (v : ℕ) : ev.counter ≤ (ev.signal v).counter := by
  unfold signal
  split
  · exact le_rfl
  · exact (not_le.mp ‹_›).le

theorem error_signal (v : ℕ) : (ev.signal v).error = ev.error := by
  unfold signal
  split <;> rfl

theorem counter_le_complete (r : VxResult) : ev.counter ≤ (ev.complete r).counter := by
  by_cases hc : 1 ≤ ev.counter
  · simp [complete, hc]
  · simp only [complete, hc, if_false]
    omega

theorem error_complete (r : VxResult) (h : ev.error ≠ .success) :
    (ev.complete r).error = ev.error := by
  by_cases hc : 1 ≤ ev.counter
  all_goals simp [complete, hc, h]

theorem complete_fresh (r : VxResult) : fresh.complete r = ⟨1, r⟩ := by
  cases r <;> rfl

theorem waitValue_success {ev : EventState} (h : ev.waitValue 1 = some .success) :
    1 ≤ ev.counter ∧ ev.error = .success := by
  unfold waitValue at h
  split at h
  · rename_i hready
    have herror := some.inj h
    exact ⟨hready.resolve_right fun hne => hne herror, herror⟩
  · cases h

end EventState

open EventState

namespace System

namespace Grown
variable {s t u : System}

theorem of_events (h : t.events = s.events) : Grown s t :=
  ⟨fun e => by rw [h], fun e _ => by rw [h]⟩

theorem trans (h : Grown s t) (h' : Grown t u) : Grown s u :=
  ⟨fun e => (h.counter e).trans (h'.counter e), fun e he => by
    rw [h'.error e (by rwa [h.error e he]), h.error e he]⟩

theorem of_update {e : ℕ} {ev : EventState} (h : t.events = update s.events e ev)
    (hc : (s.events e).counter ≤ ev.counter)
    (he : (s.events e).error ≠ .success → ev.error = (s.events e).error) : Grown s t := by
  constructor <;> intro e' <;> rw [h, update_apply] <;> split
  · rename_i heq
    rwa [heq]
  · exact le_rfl
  · rename_i heq
    rwa [heq]
  · exact fun _ => rfl

theorem of_signal {e v : ℕ} (h : t.events = update s.events e ((s.events e).signal v)) :
    Grown s t :=
  of_update h (counter_le_signal _ v) fun _ => error_signal _ v

end Grown

theorem exec_cases {work : Work} {events events' : ℕ → EventState} {result r : VxResult}
    (h : work.exec events result = some (r, events')) : events' = events ∨
      ∃ e v, work = .signal e v ∧ events' = update events e ((events e).signal v) := by
  cases work with
  | signal e v => exact .inr ⟨e, v, rfl, (Prod.mk.inj (some.inj h)).2.symm⟩
  | waitValue e v =>
    obtain ⟨r', _, heq⟩ := map_eq_some_iff.mp h
    exact .inl (Prod.mk.inj heq).2.symm
  | _ => exact .inl (Prod.mk.inj (some.inj h)).2.symm

section Moves
variable {s t : System} {q : ℕ}

theorem of_mapped {x : Option System} {o : Unit} (h : x.map (·, ()) = some (t, o)) :
    x = some t := by
  obtain ⟨t', ht, heq⟩ := map_eq_some_iff.mp h
  rw [ht, (Prod.mk.inj heq).1]

theorem enqueue_cases {work : Work} {wa : WaitArgs} (h : s.enqueue q work wa = some t) :
    t = s ∨ (∀ o ∈ work.objs, o.existsBelow s.nextEvent = true) ∧
      t = s.createEvent.push q ⟨wa.captured, s.nextEvent, work⟩ := by
  unfold enqueue at h
  split at h
  · split at h
    · exact .inr ⟨all_eq_true.mp (‹_ ∧ _›).2, (some.inj h).symm⟩
    · exact .inl (some.inj h).symm
  · cases h

theorem pop_cases (h : s.pop q = some t) : ∃ cmd rest, (s.queues q).worker = .idle ∧
    (s.queues q).commands = cmd :: rest ∧
    t = s.setQueue q { s.queues q with
      commands := rest, worker := .waiting cmd cmd.waits .success } := by
  unfold pop at h
  split at h
  · exact ⟨_, _, ‹_›, ‹_›, (some.inj h).symm⟩
  · cases h

theorem await_cases (h : s.await q = some t) : ∃ cmd dep deps r r',
    (s.queues q).worker = .waiting cmd (dep :: deps) r ∧
    t = s.setWorker q (.waiting cmd deps r') ∧
    (r' = .success → r = .success ∧ s.Passed dep) := by
  unfold await at h
  split at h
  · split at h
    · obtain ⟨r', hwait, rfl⟩ := map_eq_some_iff.mp h
      refine ⟨_, _, _, _, r', ‹_›, rfl, ?_⟩
      rintro rfl
      exact ⟨‹_›, waitValue_success hwait⟩
    · exact ⟨_, _, _, _, _, ‹_›, (some.inj h).symm, fun hr => absurd hr ‹_›⟩
  · cases h

theorem start_cases (h : s.start q = some t) :
    ∃ cmd r, (s.queues q).worker = .waiting cmd [] r ∧
    (r = .success ∧ t = s.setQueue q { s.queues q with
        worker := .running cmd, started := (s.queues q).started ++ [cmd] } ∨
      r ≠ .success ∧ t = s.setWorker q (.completing cmd r)) := by
  unfold start at h
  split at h
  · split at h
    · exact ⟨_, _, ‹_›, .inl ⟨‹_›, (some.inj h).symm⟩⟩
    · exact ⟨_, _, ‹_›, .inr ⟨‹_›, (some.inj h).symm⟩⟩
  · cases h

theorem exec_some {result : VxResult} (h : s.exec q result = some t) : ∃ cmd r events,
    (s.queues q).worker = .running cmd ∧ cmd.work.exec s.events result = some (r, events) ∧
    t = { s.setWorker q (.completing cmd r) with events := events } := by
  unfold exec at h
  split at h
  · obtain ⟨⟨r, events⟩, hexec, rfl⟩ := map_eq_some_iff.mp h
    exact ⟨_, r, events, ‹_›, hexec, rfl⟩
  · cases h

theorem complete_cases (h : s.complete q = some t) : ∃ cmd r,
    (s.queues q).worker = .completing cmd r ∧ t = { s.setQueue q { s.queues q with
        worker := .idle, completed := (s.queues q).completed ++ [cmd] } with
      events := update s.events cmd.completion ((s.events cmd.completion).complete r),
      pending := s.pending.erase cmd.completion } := by
  unfold complete at h
  split at h
  · exact ⟨_, _, ‹_›, (some.inj h).symm⟩
  · cases h

theorem exit_cases (h : s.exit q = some t) :
    (s.queues q).worker = .idle ∧ t = s.setWorker q .exited := by
  unfold exit at h
  split at h
  · split at h
    · exact ⟨‹_›, (some.inj h).symm⟩
    · cases h
  · cases h

end Moves

variable {s : System}

theorem step_grown {t : System} {m : Move} {o : Unit} (h : s.step m = some (t, o)) : Grown s t := by
  cases m with
  | createEvent =>
    cases h
    exact .of_events rfl
  | signal e v =>
    simp only [step, ite_none_right_eq_some, some.injEq, Prod.mk.injEq] at h
    obtain ⟨_, rfl, _⟩ := h
    exact .of_signal rfl
  | shutdown q =>
    cases h
    exact .of_events rfl
  | enqueue q work wa =>
    rcases enqueue_cases (of_mapped h) with rfl | ⟨_, rfl⟩
    all_goals exact .of_events rfl
  | pop q =>
    obtain ⟨_, _, _, _, rfl⟩ := pop_cases (of_mapped h)
    exact .of_events rfl
  | await q =>
    obtain ⟨_, _, _, _, _, _, rfl, _⟩ := await_cases (of_mapped h)
    exact .of_events rfl
  | start q =>
    obtain ⟨_, _, _, ⟨_, rfl⟩ | ⟨_, rfl⟩⟩ := start_cases (of_mapped h)
    all_goals exact .of_events rfl
  | exec q result =>
    obtain ⟨cmd, r, events, _, hexec, rfl⟩ := exec_some (of_mapped h)
    rcases exec_cases hexec with rfl | ⟨e, v, _, rfl⟩
    · exact .of_events rfl
    · exact .of_signal rfl
  | complete q =>
    obtain ⟨cmd, r, _, rfl⟩ := complete_cases (of_mapped h)
    exact .of_update rfl (counter_le_complete _ r) (error_complete _ r)
  | exit q =>
    obtain ⟨_, rfl⟩ := exit_cases (of_mapped h)
    exact .of_events rfl

theorem run_grown {t : System} {moves : List Move} {out : List Unit}
    (h : run step s moves = some (t, out)) : Grown s t := by
  refine run_reaches (I := Grown s) (C := fun _ _ =>
    True) ?_ (.of_events rfl) (.of_forall fun _ _ => trivial) h
  exact fun s' m t' o hs _ hstep => hs.trans (step_grown hstep)

/-- Where a worker may be: only behind the waits that have passed, or with a failure at hand. -/
def WorkerOk (s : System) (started : List Command) : Worker → Prop
  | .waiting cmd deps r => r = .success → ∀ e ∈ cmd.waits, e ∈ deps ∨ s.Passed e
  | .running cmd => cmd ∈ started
  | .completing cmd r => cmd ∈ started ∨ r ≠ .success
  | _ => True

structure QueueOk (s : System) (Q : QueueState) : Prop where
  fifo : Q.pushed = Q.completed ++ Q.held
  nodup : (Q.held.map Command.completion).Nodup
  targets : ∀ c ∈ Q.held, ∀ o ∈ c.work.objs, o.existsBelow s.nextEvent = true
  done : ∀ c ∈ Q.completed, 1 ≤ (s.events c.completion).counter ∧
    (c ∈ Q.started ∨ (s.events c.completion).error ≠ .success)
  started : ∀ c ∈ Q.started, ∀ e ∈ c.waits, s.Passed e
  worker : s.WorkerOk Q.started Q.worker

structure Inv (s : System) : Prop where
  uncreated : ∀ e, s.nextEvent ≤ e → s.events e = .fresh
  pending : ∀ e ∈ s.pending, e < s.nextEvent ∧ s.events e = .fresh
  nodup : s.pending.Nodup
  queue : ∀ q, s.QueueOk (s.queues q)
  held : ∀ q, ∀ c ∈ (s.queues q).held, c.completion ∈ s.pending
  apart : ∀ q q', q ≠ q' → ∀ c ∈ (s.queues q).held, ∀ c' ∈ (s.queues q').held,
    c.completion ≠ c'.completion

theorem inv_init : Inv init where
  uncreated _ _ := rfl
  pending e he := by cases he
  nodup := nodup_nil
  queue q := by constructor <;>
    simp [init, QueueState.empty, QueueState.held, Worker.held, WorkerOk]
  held q c hc := by cases hc
  apart q q' _ c hc := by cases hc

theorem Inv.ordered (h : Inv s) : Ordered s where
  earlier q cmd hw := by
    have hq := h.queue q
    refine ⟨⟨(s.queues q).commands, ?_⟩, fun c hc => (hq.done c hc).1⟩
    simpa [QueueState.held, hw, Worker.held] using hq.fifo
  passed q cmd hw := by
    have hstarted := (h.queue q).worker
    rw [hw] at hstarted
    exact (h.queue q).started cmd hstarted
  failed q cmd _ hfail := by
    obtain ⟨e, he, herror⟩ := hfail
    have hnot : cmd ∉ (s.queues q).started := fun hc => herror ((h.queue q).started cmd hc e he).2
    exact ⟨hnot, fun hc => ((h.queue q).done cmd hc).2.resolve_left hnot⟩

theorem Inv.not_pending_of_passed (h : Inv s) {e : ℕ} (he : s.Passed e) : e ∉ s.pending := by
  intro hmem
  have hfresh := (h.pending e hmem).2
  have hcounter := he.1
  rw [hfresh] at hcounter
  exact absurd hcounter (by decide)

section Frame
variable {s t : System} {Q : QueueState}

variable {w : Worker}

theorem WorkerOk.mono {started : List Command} (hpassed : ∀ e, s.Passed e → t.Passed e)
    (h : s.WorkerOk started w) : t.WorkerOk started w := by
  cases w with
  | waiting cmd deps r => exact fun hr e he => (h hr e he).imp_right (hpassed e)
  | _ => exact h

theorem existsBelow_mono {m n : ℕ} (hmn : m ≤ n) {o : Obj} (h : o.existsBelow m = true) :
    o.existsBelow n = true := by
  cases o with
  | event e =>
    simp only [Obj.existsBelow, decide_eq_true_eq] at h ⊢
    omega
  | _ => rfl

theorem QueueOk.mono (h : s.QueueOk Q) (hgrown : Grown s t) (hnext : s.nextEvent ≤ t.nextEvent)
    (hpassed : ∀ e, s.Passed e → t.Passed e) : t.QueueOk Q where
  fifo := h.fifo
  nodup := h.nodup
  targets c hc o ho := existsBelow_mono hnext (h.targets c hc o ho)
  done c hc := by
    obtain ⟨hcounter, hdone⟩ := h.done c hc
    refine ⟨hcounter.trans (hgrown.counter _), hdone.imp_right fun herror => ?_⟩
    rwa [hgrown.error _ herror]
  started c hc e he := hpassed e (h.started c hc e he)
  worker := h.worker.mono hpassed

theorem QueueOk.congr (h : s.QueueOk Q) (hevents : t.events = s.events)
    (hnext : s.nextEvent ≤ t.nextEvent) : t.QueueOk Q := by
  refine h.mono (.of_events hevents) hnext fun e he => ?_
  rwa [Passed, hevents]

theorem Inv.setQueue (h : Inv s) {q : ℕ} (hheld : Q.held = (s.queues q).held)
    (hpushed : Q.pushed = (s.queues q).pushed) (hcompleted : Q.completed = (s.queues q).completed)
    (hsub : (s.queues q).started ⊆ Q.started)
    (hstarted : ∀ c ∈ Q.started, ∀ e ∈ c.waits, s.Passed e)
    (hw : s.WorkerOk Q.started Q.worker) : Inv (s.setQueue q Q) := by
  have hQ : s.QueueOk Q := by
    obtain ⟨hfifo, hnodup, htargets, hdone, -, -⟩ := h.queue q
    rw [← hheld] at hfifo hnodup htargets
    refine ⟨by rw [hpushed, hcompleted, hfifo], hnodup, htargets, ?_, hstarted, hw⟩
    rw [hcompleted]
    exact fun c hc => (hdone c hc).imp_right (.imp_left (@hsub c))
  have hsame : ∀ q', ((s.setQueue q Q).queues q').held = (s.queues q').held := by
    intro q'
    by_cases hq : q' = q
    · simp [System.setQueue, hq, hheld]
    · simp [System.setQueue, hq]
  refine ⟨h.uncreated, h.pending, h.nodup, fun q' => ?_, fun q' => ?_, fun q₁ q₂ hne => ?_⟩
  · by_cases hq : q' = q
    · simpa [System.setQueue, hq] using hQ.congr (t := s.setQueue q Q) rfl le_rfl
    · simpa [System.setQueue, hq] using (h.queue q').congr (t := s.setQueue q Q) rfl le_rfl
  · rw [hsame]
    exact h.held q'
  · rw [hsame, hsame]
    exact h.apart q₁ q₂ hne

theorem Inv.setWorker (h : Inv s) {q : ℕ} (hheld : w.held = (s.queues q).worker.held)
    (hw : s.WorkerOk (s.queues q).started w) : Inv (s.setWorker q w) :=
  h.setQueue (by simp [QueueState.held, hheld]) rfl rfl (fun _ hc => hc) (h.queue q).started hw

end Frame

section Steps
variable {s t : System} {q : ℕ}

theorem Inv.update_event (h : Inv s) {e : ℕ} {ev : EventState} (he : e < s.nextEvent)
    (hfree : e ∉ s.pending) (hgrown : Grown s { s with events := update s.events e ev })
    (hpassed : ev.error = (s.events e).error) : Inv { s with events := update s.events e ev } := by
  have hother : ∀ e', e' ≠ e → update s.events e ev e' = s.events e' :=
    fun e' hne => update_of_ne hne _ _
  refine ⟨fun e' he' => ?_, fun e' he' => ?_, h.nodup, fun q => ?_, h.held, h.apart⟩
  · exact (hother e' (he.trans_le he').ne').trans (h.uncreated e' he')
  · obtain ⟨hlt, hfresh⟩ := h.pending e' he'
    exact ⟨hlt, (hother e' (by rintro rfl; exact hfree he')).trans hfresh⟩
  · refine (h.queue q).mono hgrown le_rfl fun e' hp => ?_
    refine ⟨hp.1.trans (hgrown.counter e'), ?_⟩
    by_cases heq : e' = e
    · subst heq
      simpa [hpassed] using hp.2
    · simpa [hother e' heq] using hp.2

theorem Inv.signal (h : Inv s) {e v : ℕ} (he : e < s.nextEvent)
    (hclean : 1 ≤ v → e ∉ s.pending) : Inv (s.signal e v) := by
  rcases Nat.eq_zero_or_pos v with rfl | hv
  · have hsame : s.signal e 0 = s := by simp [System.signal, EventState.signal]
    rwa [hsame]
  · exact h.update_event he (hclean hv) (.of_signal rfl) (error_signal _ v)

theorem Inv.createEvent (h : Inv s) : Inv s.createEvent := by
  refine ⟨fun e he => h.uncreated e (Nat.le_of_succ_le he), fun e he => ?_, h.nodup, fun q => ?_,
    h.held, h.apart⟩
  · obtain ⟨hlt, hfresh⟩ := h.pending e he
    exact ⟨Nat.lt_succ_of_lt hlt, hfresh⟩
  · exact (h.queue q).congr rfl (Nat.le_succ _)

theorem Inv.completion_lt (h : Inv s) {c : Command} (hc : c ∈ (s.queues q).held) :
    c.completion < s.nextEvent := (h.pending _ (h.held q c hc)).1

variable {cmd : Command}

theorem QueueOk.push {Q : QueueState} (h : s.QueueOk Q)
    (hnew : ∀ c ∈ Q.held, c.completion ≠ cmd.completion)
    (hobjs : ∀ o ∈ cmd.work.objs, o.existsBelow s.nextEvent = true) :
    s.QueueOk { Q with commands := Q.commands ++ [cmd], pushed := Q.pushed ++ [cmd] } := by
  have hheld : QueueState.held { Q with
      commands := Q.commands ++ [cmd], pushed := Q.pushed ++ [cmd] } = Q.held ++ [cmd] :=
    (append_assoc _ _ _).symm
  refine ⟨?_, ?_, ?_, h.done, h.started, h.worker⟩
  · rw [hheld, ← append_assoc, ← h.fifo]
  · rw [hheld, map_append, nodup_append]
    refine ⟨h.nodup, nodup_singleton _, fun e he e' he' => ?_⟩
    obtain ⟨c, hc, rfl⟩ := mem_map.mp he
    rw [mem_singleton.mp he']
    exact hnew c hc
  · rw [hheld]
    exact forall_mem_append.mpr ⟨h.targets, forall_mem_singleton.mpr hobjs⟩

theorem Inv.enqueue (h : Inv s) {waits : List ℕ} {work : Work}
    (hobjs : ∀ o ∈ work.objs, o.existsBelow s.nextEvent = true) :
    Inv (s.createEvent.push q ⟨waits, s.nextEvent, work⟩) := by
  have hold : ∀ q', (s.createEvent.push q ⟨waits, s.nextEvent, work⟩).QueueOk (s.queues q') :=
    fun q' =>
    (h.createEvent.queue q').congr rfl le_rfl
  have hother : ∀ q', q' ≠ q →
      (s.createEvent.push q ⟨waits, s.nextEvent, work⟩).queues q' = s.queues q' :=
    fun q' hq => update_of_ne hq _ _
  have hself : (s.createEvent.push q ⟨waits, s.nextEvent, work⟩).queues q = { s.queues q with
      commands := (s.queues q).commands ++ [⟨waits, s.nextEvent, work⟩],
      pushed := (s.queues q).pushed ++ [⟨waits, s.nextEvent, work⟩] } := update_self _ _ _
  have hmem : ∀ q' c,
      c ∈ ((s.createEvent.push q ⟨waits, s.nextEvent, work⟩).queues q').held →
      c ∈ (s.queues q').held ∨ q' = q ∧ c.completion = s.nextEvent := by
    intro q' c hc
    by_cases hq : q' = q
    · subst hq
      rw [hself, QueueState.held, ← append_assoc] at hc
      exact (mem_append.mp hc).imp_right fun hc => ⟨rfl, by rw [mem_singleton.mp hc]⟩
    · rw [hother q' hq] at hc
      exact .inl hc
  refine ⟨h.createEvent.uncreated, fun e he => ?_, ?_, fun q' => ?_, fun q' c hc => ?_,
    fun q₁ q₂ hne c hc c' hc' => ?_⟩
  · rcases mem_cons.mp he with rfl | he
    · exact ⟨Nat.lt_succ_self _, h.uncreated _ le_rfl⟩
    · exact h.createEvent.pending e he
  · exact nodup_cons.mpr ⟨fun hmem => (h.pending _ hmem).1.ne rfl, h.nodup⟩
  · by_cases hq : q' = q
    · subst hq
      rw [hself]
      exact (hold q').push (fun c hc => (h.completion_lt hc).ne)
        fun o ho => existsBelow_mono (Nat.le_succ _) (hobjs o ho)
    · rw [hother q' hq]
      exact hold q'
  · rcases hmem q' c hc with hc | ⟨_, hnew⟩
    · exact mem_cons_of_mem _ (h.held q' c hc)
    · rw [hnew]
      exact mem_cons_self
  · rcases hmem q₁ c hc with hold₁ | ⟨rfl, hnew₁⟩ <;>
      rcases hmem q₂ c' hc' with hold₂ | ⟨rfl, hnew₂⟩
    · exact h.apart q₁ q₂ hne c hold₁ c' hold₂
    · rw [hnew₂]
      exact (h.completion_lt hold₁).ne
    · rw [hnew₁]
      exact (h.completion_lt hold₂).ne'
    · exact absurd rfl hne

theorem QueueOk.complete {Q : QueueState} (h : s.QueueOk Q) {r : VxResult}
    (hw : Q.worker = .completing cmd r) (hcounter : 1 ≤ (s.events cmd.completion).counter)
    (herror : cmd ∈ Q.started ∨ (s.events cmd.completion).error ≠ .success) :
    s.QueueOk { Q with worker := .idle, completed := Q.completed ++ [cmd] } := by
  have hheld : Q.held = cmd :: Q.commands := by simp [QueueState.held, hw, Worker.held]
  have hmem : ∀ c ∈ Q.commands, c ∈ Q.held := by
    rw [hheld]
    exact fun c => mem_cons_of_mem cmd
  refine ⟨?_, ?_, fun c hc => h.targets c (hmem c hc), ?_, h.started, trivial⟩
  · rw [h.fifo, hheld]
    simp [QueueState.held, Worker.held]
  · have hnodup := h.nodup
    rw [hheld] at hnodup
    exact (nodup_cons.mp hnodup).2
  · exact forall_mem_append.mpr ⟨h.done, forall_mem_singleton.mpr ⟨hcounter, herror⟩⟩

theorem Inv.complete (h : Inv s) (hdone : s.complete q = some t) : Inv t := by
  obtain ⟨cmd, r, hw, ht⟩ := complete_cases hdone
  have hheld : (s.queues q).held = cmd :: (s.queues q).commands := by
    simp [QueueState.held, hw, Worker.held]
  have hcmd : cmd ∈ (s.queues q).held := hheld ▸ mem_cons_self
  have hpending := h.held q cmd hcmd
  obtain ⟨hlt, hfresh⟩ := h.pending _ hpending
  rw [hfresh, complete_fresh] at ht
  have hevent : t.events cmd.completion = ⟨1, r⟩ := by
    rw [ht]
    exact update_self _ _ _
  have hother : ∀ e, e ≠ cmd.completion → t.events e = s.events e := fun e hne => by
    rw [ht]
    exact update_of_ne hne _ _
  have hkept : ∀ e, e ∈ t.pending ↔ e ≠ cmd.completion ∧ e ∈ s.pending := fun e => by
    rw [ht]
    exact h.nodup.mem_erase_iff
  have hpassed : ∀ e, s.Passed e → t.Passed e := fun e he => by
    have hne : e ≠ cmd.completion := fun heq => h.not_pending_of_passed he (heq ▸ hpending)
    rwa [Passed, hother e hne]
  have hgrown : Grown s t := by
    rw [← complete_fresh, ← hfresh] at ht
    subst ht
    exact .of_update rfl (counter_le_complete _ r) (error_complete _ r)
  have hok : ∀ q', t.QueueOk (s.queues q') :=
    fun q' => (h.queue q').mono hgrown (by rw [ht]; exact le_rfl) hpassed
  have hqueue : ∀ q', q' ≠ q → t.queues q' = s.queues q' := fun q' hne => by
    rw [ht]
    exact update_of_ne hne _ _
  have hself : t.queues q = { s.queues q with
      worker := .idle, completed := (s.queues q).completed ++ [cmd] } := by
    rw [ht]
    exact update_self _ _ _
  have hsub : ∀ q', ∀ c ∈ (t.queues q').held, c ∈ (s.queues q').held ∧
      c.completion ≠ cmd.completion := by
    intro q' c hc
    by_cases hq : q' = q
    · subst hq
      rw [hself] at hc
      have hnodup := (h.queue q').nodup
      rw [hheld] at hnodup ⊢
      refine ⟨mem_cons_of_mem _ hc, fun heq => ?_⟩
      exact (nodup_cons.mp hnodup).1 (heq ▸ mem_map_of_mem hc)
    · rw [hqueue q' hq] at hc
      exact ⟨hc, h.apart q' q hq c hc cmd hcmd⟩
  have hnext : t.nextEvent = s.nextEvent := by rw [ht]; rfl
  refine ⟨fun e he => ?_, fun e he => ?_, ?_, fun q' => ?_, fun q' c hc => ?_,
    fun q₁ q₂ hne c hc c' hc' => ?_⟩
  · rw [hnext] at he
    rw [hother e (hlt.trans_le he).ne', h.uncreated e he]
  · obtain ⟨hne, hmem⟩ := (hkept e).mp he
    rw [hnext, hother e hne]
    exact h.pending e hmem
  · rw [ht]
    exact h.nodup.erase _
  · by_cases hq : q' = q
    · subst hq
      have hworker := (h.queue q').worker
      rw [hw] at hworker
      rw [hself]
      exact (hok q').complete hw (by rw [hevent]) (by rwa [hevent])
    · rw [hqueue q' hq]
      exact hok q'
  · obtain ⟨hmem, hne⟩ := hsub q' c hc
    exact (hkept _).mpr ⟨hne, h.held q' c hmem⟩
  · exact h.apart q₁ q₂ hne c (hsub q₁ c hc).1 c' (hsub q₂ c' hc').1

theorem Inv.pop (h : Inv s) {rest : List Command} (hw : (s.queues q).worker = .idle)
    (hcmds : (s.queues q).commands = cmd :: rest) : Inv (s.setQueue q { s.queues q with
      commands := rest, worker := .waiting cmd cmd.waits .success }) := by
  refine h.setQueue ?_ rfl rfl (fun _ hc => hc) (h.queue q).started fun _ e he => .inl he
  simp [QueueState.held, hw, hcmds, Worker.held]

theorem Inv.start (h : Inv s) (hw : (s.queues q).worker = .waiting cmd [] .success) :
    Inv (s.setQueue q { s.queues q with
      worker := .running cmd, started := (s.queues q).started ++ [cmd] }) := by
  have hwaits : ∀ e ∈ cmd.waits, s.Passed e := by
    have hworker := (h.queue q).worker
    rw [hw] at hworker
    exact fun e he => (hworker rfl e he).resolve_left not_mem_nil
  refine h.setQueue ?_ rfl rfl (subset_append_left _ _) ?_ (mem_append_right _ mem_cons_self)
  · simp [QueueState.held, hw, Worker.held]
  · exact forall_mem_append.mpr ⟨(h.queue q).started, forall_mem_singleton.mpr hwaits⟩

theorem Inv.exec (h : Inv s) {result : VxResult} (hclean : s.Clean (.exec q result))
    (ht : s.exec q result = some t) : Inv t := by
  obtain ⟨cmd, r, events, hw, hexec, rfl⟩ := exec_some ht
  have hworker := (h.queue q).worker
  rw [hw] at hworker
  have hnext : Inv (s.setWorker q (.completing cmd r)) :=
    h.setWorker (by rw [hw]; rfl) (.inl hworker)
  rcases exec_cases hexec with rfl | ⟨e, v, hwork, rfl⟩
  · exact hnext
  · have hcmd : cmd ∈ (s.queues q).held := by simp [QueueState.held, hw, Worker.held]
    have htarget := (h.queue q).targets cmd hcmd (.event e) (by simp [hwork, Work.objs])
    simp only [Clean, hw, hwork] at hclean
    exact hnext.signal (of_decide_eq_true htarget) hclean

theorem step_inv {m : Move} {o : Unit} (h : Inv s) (hclean : s.Clean m)
    (ht : s.step m = some (t, o)) : Inv t := by
  cases m with
  | createEvent =>
    cases ht
    exact h.createEvent
  | signal e v =>
    simp only [step, ite_none_right_eq_some, some.injEq, Prod.mk.injEq] at ht
    obtain ⟨he, rfl, _⟩ := ht
    exact h.signal he hclean
  | shutdown q =>
    cases ht
    exact h.setQueue rfl rfl rfl (fun _ hc => hc) (h.queue q).started (h.queue q).worker
  | enqueue q work wa =>
    rcases enqueue_cases (of_mapped ht) with rfl | ⟨hobjs, rfl⟩
    · exact h
    · exact h.enqueue hobjs
  | pop q =>
    obtain ⟨cmd, rest, hw, hcmds, rfl⟩ := pop_cases (of_mapped ht)
    exact h.pop hw hcmds
  | await q =>
    obtain ⟨cmd, dep, deps, r, r', hw, rfl, hpassed⟩ := await_cases (of_mapped ht)
    have hworker := (h.queue q).worker
    rw [hw] at hworker
    refine h.setWorker (by rw [hw]; rfl) fun hr e he => ?_
    obtain ⟨hr, hdep⟩ := hpassed hr
    rcases hworker hr e he with hmem | hp
    · rcases mem_cons.mp hmem with rfl | hmem
      · exact .inr hdep
      · exact .inl hmem
    · exact .inr hp
  | start q =>
    obtain ⟨cmd, r, hw, ⟨rfl, rfl⟩ | ⟨hr, rfl⟩⟩ := start_cases (of_mapped ht)
    · exact h.start hw
    · exact h.setWorker (by rw [hw]; rfl) (.inr hr)
  | exec q result => exact h.exec hclean (of_mapped ht)
  | complete q =>
    exact h.complete (of_mapped ht)
  | exit q =>
    obtain ⟨hw, rfl⟩ := exit_cases (of_mapped ht)
    exact h.setWorker (by rw [hw]; rfl) trivial

end Steps

/-- Over every run, events only grow; over the runs in which no signal moves the completion event of
a command that is still pending, closures run in order. -/
theorem commands_ordered {s t : System} {moves more : List Move} {out out' : List Unit}
    (hrun : run step init moves = some (s, out)) (hmore : run step s more = some (t, out')) :
    Grown s t ∧ (Along step Clean init moves → Ordered s) := by
  refine ⟨run_grown hmore, fun hclean => Inv.ordered ?_⟩
  exact run_reaches (fun s m t o hs hm ht => step_inv hs hm ht) inv_init hclean hrun

/-- Queue 0 writes a device register; queue 1 waits for that command and for event 1. -/
def behindWrite : List Move :=
  [.enqueue 0 (.dcrWrite 0 0) ⟨0, none, by decide⟩, .createEvent,
    .enqueue 1 .barrier ⟨2, some some, by decide⟩, .pop 0, .start 0]

/-- The write fails, and the host signals event 1 and the completion event of the write. -/
def overtaken : List Move :=
  behindWrite ++ [.signal 0 1, .pop 1, .await 1, .exec 0 .deviceLost, .complete 0, .signal 1 1,
    .await 1, .start 1]

/-- The closure of queue 1 runs although the first event of its list carries an error. -/
theorem runs_behind_failed_event : ∃ s out cmd, run step init overtaken = some (s, out) ∧
    (s.queues 1).worker = .running cmd ∧ cmd.waits = [0, 1] ∧
    (s.events 0).error = .deviceLost ∧ ¬ Ordered s := by
  refine ⟨_, _, _, rfl, rfl, rfl, rfl, fun h => ?_⟩
  have hpassed := h.passed 1 _ rfl 0 (by decide)
  exact absurd hpassed.2 (by decide)

def inTurn : List Move :=
  behindWrite ++ [.pop 1, .exec 0 .success, .complete 0, .await 1, .signal 1 1, .await 1, .start 1]

theorem commands_ordered_inTurn : ∃ s out cmd, run step init inTurn = some (s, out) ∧
    (s.queues 1).worker = .running cmd ∧ cmd.waits = [0, 1] ∧ Ordered s := by
  refine ⟨_, _, _, rfl, rfl, rfl, (@commands_ordered _ _ inTurn [] _ _ rfl rfl).2 ?_⟩
  decide +kernel

end System

end VortexGpu.Api
