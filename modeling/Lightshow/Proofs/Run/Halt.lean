import Lightshow.Proofs.Run.Account
import Lightshow.Proofs.Run.Pausing

/-!
# Nothing begins once a run is to halt

A run is to halt from the moment at which the caller cancels or an error ends it.  Other parts
of the run may be in the midst of something at that moment, and what they are in the midst of is
seen through: a call comes to something, and this is shown.  But nothing new begins, in whatever
part of the run.

Since no operation begins anything in a world that is to halt, no entry that begins something
follows one from which a run is to halt.  What may follow is told apart by the accounts that were
kept before: each call that is shown has begun before the halt, and the pauses that are announced
belong to different branches.

## Main definitions

* `World.Calm` — nothing begins after a halt.

## Main results

* `World.Ops.calm` — operations keep a world calm.
* `Program.nothing_begins_after_halt` — what follows a halt.
-/

namespace Lightshow

open World

variable {env : Environment}

/-! ### What follows a halt -/

namespace Entry

variable {e : Entry}

theorem call?_of_starts (h : e.starts = false) : e.call? = none := by
  cases e with
  | called c => exact absurd h nofun
  | _ => rfl

theorem dispatched?_of_starts (h : e.starts = false) : e.dispatched? = none := by
  cases e with
  | dispatched path t => exact absurd h nofun
  | _ => rfl

/-- An entry from which a run is to halt tells of nothing else. -/
theorem views_of_halts (h : e.halts = true) : e.starts = false ∧ e.applied? = none ∧
    e.pause? = none := by
  cases e with
  | cancelled => exact ⟨rfl, rfl, rfl⟩
  | halted cause => exact ⟨rfl, rfl, rfl⟩
  | _ => exact absurd h nofun

end Entry

/-- No entry that begins something follows one from which the run is to halt. -/
def World.Calm (w : World) : Prop :=
  w.entries.Pairwise fun e x => e.halts = true → x.starts = false

namespace World

variable {w w' : World}

theorem Calm.append {new : List Entry} (h : w.Calm) (hentries : w'.entries = w.entries ++ new)
    (hnew : ∀ x ∈ new, x.starts = false) : w'.Calm := by
  rw [Calm, hentries, List.pairwise_append]
  refine ⟨h, ?_, fun e _ x hx _ => hnew x hx⟩
  exact List.pairwise_of_forall_mem_list fun e _ x hx _ => hnew x hx

/-- **Nothing begins in a run that is to halt.** -/
theorem Ops.calm (h : Ops w w') (hfaithful : w.Faithful) (hw : w.Calm) : w'.Calm := by
  have hstep : ∀ {v v' : World}, Op v v' → v.Faithful → v.Calm → v'.Calm := by
    intro v v' hop hfaithful hv
    cases hop with
    | @note e _ he hs =>
      rw [Calm, entries_note, List.pairwise_append]
      refine ⟨hv, List.pairwise_singleton _ _, fun x hx y hy hhalts => ?_⟩
      rw [List.mem_singleton.mp hy]
      exact hs (hfaithful.halted.mpr ⟨x, hx, hhalts⟩)
    | cancel due =>
      refine hv.append (entries_cancelIf v due) fun x hx => ?_
      rw [eq_cancelled_of_mem hx]
      rfl
    | fail cause =>
      refine hv.append (entries_note v _) fun x hx => ?_
      rw [List.mem_singleton.mp hx]
      rfl
    | _ => exact hv
  induction h with
  | refl => exact hw
  | tail hops hop ih => exact hstep hop (Ops.faithful hops hfaithful) ih

/-- The pauses after a halt are late. -/
theorem latePauses_of_split {before after : List Entry} {e : Entry}
    (hsplit : w.entries = before ++ e :: after) (he : e.halts = true) :
    ∃ old, w.latePauses = old ++ after.filterMap Entry.pause? := by
  have hdrop : (e :: after).dropWhile (fun e => !e.halts) = e :: after :=
    List.dropWhile_cons_of_neg (by simp [he])
  rw [latePauses, aftermath, hsplit, List.dropWhile_append, hdrop]
  split
  · exact ⟨[], by rw [List.filterMap_cons, (Entry.views_of_halts he).2.2]; rfl⟩
  · exact ⟨_, by rw [List.filterMap_append, List.filterMap_cons, (Entry.views_of_halts he).2.2]⟩

end World

/-! ### The beginning of a run -/

namespace Program

variable {p : Program}

/-- What is written when a run starts. -/
theorem firstWorld_entries (env : Environment) (p : Program) :
    ∃ tail, (p.firstWorld env).entries
        = (if (World.cancelOnTime env {}).cancelled then [.cancelled] else [])
          ++ .event (.started env.runId p.displayName) :: tail ∧
      ∀ x ∈ tail, x = .cancelled := by
  have hcancel : (World.cancelOnTime env {}).entries
      = if (World.cancelOnTime env {}).cancelled then [.cancelled] else [] := by
    rw [cancelOnTime, entries_cancelIf, cancelled_cancelIf]
    simp [entries, Journal.entries]
  have hemit := entries_emit env (World.cancelOnTime env {}) (.started env.runId p.displayName)
  rw [hcancel] at hemit
  exact ⟨_, hemit, fun x hx => eq_cancelled_of_mem hx⟩

theorem firstWorld_calm (env : Environment) (p : Program) : (p.firstWorld env).Calm := by
  obtain ⟨tail, hentries, htail⟩ := firstWorld_entries env p
  have hnone : ∀ x ∈ (p.firstWorld env).entries, x.starts = false := by
    rw [hentries]
    intro x hx
    rcases List.mem_append.mp hx with hx | hx
    · rw [eq_cancelled_of_mem hx]
      rfl
    · rcases List.mem_cons.mp hx with rfl | hx
      · rfl
      · rw [htail x hx]
        rfl
  exact List.pairwise_of_forall_mem_list fun _ _ x hx _ => hnone x hx

/-- Nothing begins in a run once it is to halt. -/
theorem Reaches.calm {m : Machine} (h : p.Reaches env m) : m.world.Calm :=
  h.ops.calm ((faithful_empty.cancelIf _).emit _) (firstWorld_calm env p)

variable {m : Machine} {before after : List Entry} {e : Entry}

/-- What begins something does not follow a halt. -/
theorem Reaches.starts (h : p.Reaches env m) (hsplit : m.world.entries = before ++ e :: after)
    (he : e.halts = true) : ∀ x ∈ after, x.starts = false := by
  have hcalm := h.calm
  rw [Calm, hsplit, List.pairwise_append, List.pairwise_cons] at hcalm
  exact fun x hx => hcalm.2.1.1 x hx he

/-- A halt comes after the run has started, or right before. -/
theorem Reaches.after_start (h : p.Reaches env m)
    (hsplit : m.world.entries = before ++ e :: after) (he : e.halts = true) :
    ∃ rest, (∀ x ∈ rest, x.outer = false ∨ x.halts = true) ∧
      ((∀ x ∈ after, x ∈ rest) ∨
        (before = [] ∧ after = .event (.started env.runId p.displayName) :: rest)) := by
  obtain ⟨new, hnew, hall⟩ := h.ops.entries
  obtain ⟨tail, hfirst, htail⟩ := firstWorld_entries env p
  have hrest : ∀ x ∈ tail ++ new, x.outer = false ∨ x.halts = true := by
    intro x hx
    rcases List.mem_append.mp hx with hx | hx
    · rw [htail x hx]
      exact .inr rfl
    · exact hall x hx
  -- a halt that is not right before the start comes after it
  have hlater : ∀ {before : List Entry}, .event (.started env.runId p.displayName) :: (tail ++ new)
      = before ++ e :: after → ∀ x ∈ after, x ∈ tail ++ new := by
    intro before h x hx
    cases before with
    | nil =>
      obtain ⟨rfl, -⟩ := List.cons.inj h
      exact absurd he nofun
    | cons b before =>
      rw [(List.cons.inj h).2]
      exact List.mem_append_right _ (List.mem_cons_of_mem e hx)
  refine ⟨tail ++ new, hrest, ?_⟩
  rw [hnew, hfirst, List.append_assoc] at hsplit
  cases hc : (World.cancelOnTime env {}).cancelled with
  | false =>
    rw [hc] at hsplit
    exact .inl (hlater hsplit)
  | true =>
    rw [hc] at hsplit
    cases before with
    | nil => exact .inr ⟨rfl, (List.cons.inj hsplit).2.symm⟩
    | cons b before => exact .inl (hlater (List.cons.inj hsplit).2)

/-- The events that may follow a halt: calls are shown, pauses begin, and the run starts if the
caller cancelled before it did. -/
theorem Reaches.event (h : p.Reaches env m) (hsplit : m.world.entries = before ++ e :: after)
    (he : e.halts = true) {event : Event} (hevent : .event event ∈ after) :
    (∃ path device error, event = .applied path device error) ∨
      (∃ path seconds, event = .paused path seconds) ∨
      (before = [] ∧ event = .started env.runId p.displayName) := by
  have hstarts := h.starts hsplit he _ hevent
  obtain ⟨rest, hrest, hwhere⟩ := h.after_start hsplit he
  have hinner : (Entry.event event).outer = false ∨ (before = [] ∧ event = .started env.runId
      p.displayName) := by
    rcases hwhere with hafter | ⟨hbefore, hafter⟩
    · exact .inl ((hrest _ (hafter _ hevent)).resolve_right nofun)
    · rw [hafter] at hevent
      rcases List.mem_cons.mp hevent with hevent | hevent
      · exact .inr ⟨hbefore, Entry.event.inj hevent⟩
      · exact .inl ((hrest _ hevent).resolve_right nofun)
  rcases hinner with houter | hstarted
  · cases event with
    | applied path device error => exact .inl ⟨path, device, error, rfl⟩
    | paused path seconds => exact .inr (.inl ⟨path, seconds, rfl⟩)
    | started => exact absurd houter nofun
    | stopped => exact absurd houter nofun
    | iteration => exact absurd hstarts nofun
    | transition => exact absurd hstarts nofun
  · exact .inr (.inr hstarted)

/-- The calls that are shown after a halt have begun before it, and were not shown before. -/
theorem Reaches.inFlight (h : p.Reaches env m) (hsplit : m.world.entries = before ++ e :: after)
    (he : e.halts = true) :
    ∃ done inFlight : List (Call × Option DeviceError),
      before.filterMap Entry.applied? = done.map (fun x => x.1.applied x.2) ∧
      after.filterMap Entry.applied? = inFlight.map (fun x => x.1.applied x.2) ∧
      ((done ++ inFlight).map Prod.fst).Subperm (before.filterMap Entry.call?) := by
  have haccount := Machine.Moves.accounted h (start_accounted env p)
  -- no call begins after the halt
  have hcalls : m.world.see Entry.call? = before.filterMap Entry.call? := by
    have hnone : (e :: after).filterMap Entry.call? = [] := by
      refine List.filterMap_eq_nil_iff.mpr fun x hx => ?_
      rcases List.mem_cons.mp hx with rfl | hx
      · exact Entry.call?_of_starts (Entry.views_of_halts he).1
      · exact Entry.call?_of_starts (h.starts hsplit he x hx)
    rw [see, hsplit, List.filterMap_append, hnone, List.append_nil]
  have happlied := haccount.balanced.applied
  rw [see, hsplit, List.filterMap_append, List.filterMap_cons, (Entry.views_of_halts he).2.1]
    at happlied
  obtain ⟨done, inFlight, hsettled, hdone, hinFlight⟩ := List.append_eq_map_iff.mp happlied
  refine ⟨done, inFlight, hdone.symm, hinFlight.symm, ?_⟩
  rw [← hsettled, ← hcalls]
  exact (List.sublist_append_left _ _).subperm.trans haccount.calls.symm.subperm

/-- The pauses that begin after a halt belong to different branches. -/
theorem Reaches.pauses (h : p.Reaches env m) (hsplit : m.world.entries = before ++ e :: after)
    (he : e.halts = true) :
    ∃ ps : List Path, after.filterMap Entry.pause? = ps.map Path.text ∧
      ps.Pairwise Path.Apart := by
  obtain ⟨ps, hps, hapart⟩ := h.latePauses
  obtain ⟨old, hold⟩ := latePauses_of_split hsplit he
  rw [hold] at hps
  obtain ⟨ps₁, ps₂, rfl, -, hps₂⟩ := List.append_eq_map_iff.mp hps
  exact ⟨ps₂, hps₂.symm, (List.pairwise_append.mp hapart).2.1⟩

/-- Nothing comes of a run that the caller cancelled before it started. -/
theorem Reaches.nothing (h : p.Reaches env m)
    (hcancelled : (World.cancelOnTime env {}).cancelled = true) :
    m.world.journal.calls = [] ∧ m.world.journal.failures = [] := by
  have haccount := Machine.Moves.accounted h (start_accounted env p)
  obtain ⟨new, hnew, -⟩ := h.ops.entries
  obtain ⟨tail, hfirst, -⟩ := firstWorld_entries env p
  rw [hfirst, if_pos hcancelled] at hnew
  have hsplit : m.world.entries
      = [] ++ .cancelled :: (.event (.started env.runId p.displayName) :: tail ++ new) := hnew
  -- the halt comes first, so nothing in the run begins anything
  have hstarts : ∀ x ∈ m.world.entries, x.starts = false := by
    intro x hx
    rw [hnew] at hx
    rcases List.mem_cons.mp hx with rfl | hx
    · rfl
    · exact h.starts hsplit rfl x hx
  have hcalls : m.world.see Entry.call? = [] :=
    List.filterMap_eq_nil_iff.mpr fun x hx => Entry.call?_of_starts (hstarts x hx)
  have hdispatched : m.world.see Entry.dispatched? = [] :=
    List.filterMap_eq_nil_iff.mpr fun x hx => Entry.dispatched?_of_starts (hstarts x hx)
  have hsettled : m.world.see Entry.settled? = [] := by
    have hperm := haccount.calls
    rw [hcalls] at hperm
    exact List.map_eq_nil_iff.mp (List.append_eq_nil_iff.mp hperm.symm.eq_nil).1
  have hfailures := haccount.balanced.failures
  rw [hdispatched, hsettled] at hfailures
  exact ⟨(Journal.calls_eq _).trans hcalls, (Journal.failures_eq _).trans hfailures.eq_nil⟩

/-- **Nothing begins after a halt.**  Once a run is to halt, because the caller cancels or because
of an error, no part of it calls the gateway, begins an iteration, dispatches a transition or looks
up a reference.  Of the events only those follow that show what calls came to which had begun
before, and were not shown before, and at most one pause for each branch, until the run stops.  If
the caller cancels before the run starts, there is neither a call nor a failure. -/
theorem nothing_begins_after_halt (env : Environment) (p : Program) :
    (∀ {m : Machine}, p.Reaches env m →
      (m.world.halted = true ↔ ∃ e ∈ m.world.entries, e.halts = true) ∧
      ∀ {before after : List Entry} {e : Entry},
        m.world.entries = before ++ e :: after → e.halts = true →
        (∀ x ∈ after, x.starts = false) ∧
        (∀ {event}, .event event ∈ after →
          (∃ path device error, event = .applied path device error) ∨
          (∃ path seconds, event = .paused path seconds) ∨
          (before = [] ∧ event = .started env.runId p.displayName)) ∧
        (∃ done inFlight : List (Call × Option DeviceError),
          before.filterMap Entry.applied? = done.map (fun x => x.1.applied x.2) ∧
          after.filterMap Entry.applied? = inFlight.map (fun x => x.1.applied x.2) ∧
          ((done ++ inFlight).map Prod.fst).Subperm (before.filterMap Entry.call?)) ∧
        ∃ ps : List Path, after.filterMap Entry.pause? = ps.map Path.text ∧
          ps.Pairwise Path.Apart) ∧
    (∀ {result : RunResult} {w : World}, p.Returns env result w →
      ∃ m, p.Reaches env m ∧ ∃ tail, w.entries
        = m.world.entries ++ .event (.stopped env.runId result.status) :: tail ∧
          ∀ x ∈ tail, x = .cancelled) ∧
    ((World.cancelOnTime env {}).cancelled = true → ∀ {m : Machine}, p.Reaches env m →
      m.world.journal.calls = [] ∧ m.world.journal.failures = []) := by
  refine ⟨fun h => ⟨h.faithful.halted, fun hsplit he => ?_⟩, ?_, fun hcancelled _ h =>
    h.nothing hcancelled⟩
  · exact ⟨h.starts hsplit he, h.event hsplit he, h.inFlight hsplit he, h.pauses hsplit he⟩
  · rintro result w ⟨flow, w', h, hresult⟩
    obtain ⟨rfl, rfl⟩ := Prod.mk.inj hresult
    exact ⟨_, h, _, entries_emit .., fun x hx => eq_cancelled_of_mem hx⟩

/-- The caller cancels inside the first call, that of the lamp: the call is shown, and the spot is
not called any more.  If the caller cancels at once, nothing is called. -/
theorem lamp_cancelled_within_call :
    let inCall := { Environment.plain with cancellation := { call := some 1 } }
    let atOnce := { Environment.plain with cancellation := { time := some 0 } }
    (∃ m before after, lampAndSpot.Reaches inCall m ∧
      m.world.entries = before ++ .cancelled :: after ∧
      (after.filterMap Entry.applied?).length = 1 ∧ ∀ x ∈ after, x.starts = false) ∧
    (∃ result w, lampAndSpot.run? inCall 2 = some (result, w) ∧ result.status = .cancelled ∧
      ∃ (m : Machine) (tail : List Entry), w.entries
        = m.world.entries ++ .event (.stopped "run" .cancelled) :: tail) ∧
    ∃ m, lampAndSpot.Reaches atOnce m ∧ m.activity = .ended .cancelled ∧
      m.world.journal.calls = [] := by
  intro inCall atOnce
  refine ⟨?_, ?_, ?_⟩
  · let m := Machine.after inCall 1 (.start inCall lampAndSpot)
    have hreach : lampAndSpot.Reaches inCall m := reaches_after 1
    have hsplit : m.world.entries
        = m.world.entries.take 9 ++ .cancelled :: m.world.entries.drop 10 := by decide +kernel
    have happlied : ((m.world.entries.drop 10).filterMap Entry.applied?).length = 1 := by
      decide +kernel
    have hafter := ((nothing_begins_after_halt inCall lampAndSpot).1 hreach).2 hsplit rfl
    exact ⟨m, _, _, hreach, hsplit, happlied, hafter.1⟩
  · have hstatus : (lampAndSpot.run? inCall 2).map (·.1.status) = some .cancelled := rfl
    obtain ⟨⟨result, w⟩, hrun, hstatus⟩ := Option.map_eq_some_iff.mp hstatus
    have hreturns := returns_of_run? hrun
    obtain ⟨m, -, tail, htail, -⟩ := (nothing_begins_after_halt inCall lampAndSpot).2.1 hreturns
    have hstatus : result.status = .cancelled := hstatus
    rw [hstatus] at htail
    exact ⟨result, w, hrun, hstatus, m, tail, htail⟩
  · have hreach : lampAndSpot.Reaches atOnce _ := reaches_after 2
    have hnothing := (nothing_begins_after_halt atOnce lampAndSpot).2.2 rfl hreach
    exact ⟨_, hreach, rfl, hnothing.1⟩

end Program

end Lightshow
