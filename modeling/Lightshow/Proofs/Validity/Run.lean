import Lightshow.Proofs.Run.Plain
import Lightshow.Proofs.Run.Status
import Lightshow.Proofs.Run.Uses

/-!
# Runs of programs with and without faults

The faults of a program are found before it runs, by looking at its tree.  Whether this is of any
use depends on what happens when it does run: loops are entered, pauses are made, and numbers are
drawn for both, in every iteration and in whatever order the parts of the run go on.

If there are no faults then all of this goes well, except that a deadline may name a moment that
clocks do not show, since that depends on the time zone.  If there are faults then none of it is
tried.

## Main definitions

* `Draw.WellFormed` — a request for a number that makes sense.

## Main results

* `TimeOption.WellFormed.draws`, `LoopMode.WellFormed.draws` — what well-formed parts ask for.
* `LoopMode.WellFormed.bound` — why a well-formed loop may still not be entered.
* `Program.faults_settle_runs` — **faults tell which runs can go wrong.**
-/

namespace Lightshow

open World

variable {env : Environment}

/-- A request for a number between bounds that are in order, and finite. -/
def Draw.WellFormed : Draw → Prop
  | .whole min max => min ≤ max
  | .real min max => min.isFinite = true ∧ max.isFinite = true ∧ min ≤ max

/-! ### Well-formed parts -/

theorem TimeOption.WellFormed.draws {o : TimeOption} (h : o.WellFormed) :
    ∀ d ∈ o.draws, d.WellFormed := by
  intro d hd
  obtain ⟨j, hj, rfl⟩ := Option.map_eq_some_iff.mp (Option.mem_toList.mp hd)
  exact h.2 j hj

theorem LoopMode.WellFormed.draws {mode : LoopMode} (h : mode.WellFormed) :
    ∀ d ∈ mode.draws, d.WellFormed := by
  intro d hd
  obtain ⟨range, hrange, rfl⟩ := Option.map_eq_some_iff.mp (Option.mem_toList.mp hd)
  cases mode with
  | random min max =>
    have hle : ¬max < min := UInt64.not_lt.mpr h
    rw [LoopMode.draw?, if_neg hle] at hrange
    obtain rfl := Option.some.inj hrange
    exact h
  | _ => exact absurd hrange nofun

/-- A well-formed loop is not entered only if its deadline is a moment that clocks skip. -/
theorem LoopMode.WellFormed.bound {mode : LoopMode} (h : mode.WellFormed) {zone : Zone}
    {started : Instant} {wall : UtcTime} {times : UInt64} {cause : LoopError}
    (hbound : mode.bound zone started wall times = .error cause) :
    ∃ moment, cause = .skippedDeadline moment := by
  cases mode with
  | random min max =>
    have hle : ¬max < min := UInt64.not_lt.mpr h
    rw [LoopMode.bound, if_neg hle] at hbound
    exact absurd hbound nofun
  | deadline moment =>
    rw [LoopMode.bound] at hbound
    cases hzone : zone.earliest? moment with
    | some target =>
      rw [hzone] at hbound
      exact absurd hbound nofun
    | none =>
      rw [hzone] at hbound
      exact ⟨moment, (Except.error.inj hbound).symm⟩
  | _ => exact absurd hbound nofun

/-- A well-formed step has well-formed pauses and loops. -/
theorem Step.WellFormed.uses {s : Step} (h : s.WellFormed) :
    s.Uses TimeOption.WellFormed LoopMode.WellFormed := by
  cases s with
  | transition t => exact h.2.2
  | composite order steps loop pause => exact ⟨h.2.1, h.2.2.1, h.2.2.2⟩

/-! ### Runs -/

/-- The numbers that were asked for are among the needs. -/
theorem World.mem_draws {w : World} {d : Draw} :
    d ∈ w.journal.draws ↔ .drew d ∈ w.see Entry.need? := by
  rw [Journal.draws, World.see, World.entries, Journal.entries, List.filterMap_map,
    List.mem_filterMap, List.mem_filterMap]
  refine exists_congr fun r => and_congr_right fun _ => ?_
  rw [Function.comp_apply]
  cases r.entry <;> simp [Entry.need?]

namespace Program

variable {p : Program} {m : Machine}

theorem Reaches.wellFormed (h : p.Reaches env m) (hp : p.step.faults = []) :
    m.Supplied TimeOption.WellFormed LoopMode.WellFormed :=
  h.supplied fun n hn => (p.step.faults_eq_nil_iff.mp hp n hn).uses

/-- **A run of a program without faults asks only for numbers that make sense.** -/
theorem Reaches.draws (h : p.Reaches env m) (hp : p.step.faults = []) :
    ∀ d ∈ m.world.journal.draws, d.WellFormed := by
  intro d hd
  rcases (h.wellFormed hp).met _ (mem_draws.mp hd) with ⟨o, ho, hdraw⟩ | ⟨mode, hmode, hdraw⟩
  · exact ho.draws d hdraw
  · exact hmode.draws d hdraw

/-- **A run of a program without faults does not fail to enter a loop, but for a deadline.** -/
theorem Reaches.barred (h : p.Reaches env m) (hp : p.step.faults = []) {path : Path}
    {cause : LoopError} (hbarred : .barred path cause ∈ m.world.entries) :
    ∃ moment, cause = .skippedDeadline moment := by
  have hneed : Entry.barred path cause ∈ m.world.see Entry.need? :=
    List.mem_filterMap.mpr ⟨_, hbarred, rfl⟩
  obtain ⟨mode, zone, started, wall, times, hmode, hbound⟩ := (h.wellFormed hp).met _ hneed
  exact hmode.bound hbound

/-- **A run of a program without faults ends well**, or because of the gateway or of a deadline. -/
theorem Returns.fatal {result : RunResult} {w : World} (h : p.Returns env result w)
    (hp : p.step.faults = []) {e : RunError} (he : result.fatal = some e) :
    (∃ device cause, e = .gateway device cause) ∨
      ∃ path moment, e = .loop path (.skippedDeadline moment) := by
  obtain ⟨flow, w', hreach, hresult⟩ := h
  obtain ⟨rfl, rfl⟩ := Prod.mk.inj hresult
  have hflow : flow = .fatal e := by
    cases flow with
    | fatal e' => exact congrArg Flow.fatal (Option.some.inj he)
    | _ => exact absurd he nofun
  cases (flow_of_reaches hreach).2.1 e hflow with
  | invalid hfaults => exact absurd hp hfaults
  | loop hbarred =>
    obtain ⟨moment, rfl⟩ := hreach.barred hp hbarred
    exact .inr ⟨_, moment, rfl⟩
  | gateway => exact .inl ⟨_, _, rfl⟩

/-- **A run of a program with faults only starts and stops.** -/
theorem Returns.faulty {result : RunResult} {w : World} (h : p.Returns env result w)
    (hp : p.step.faults ≠ []) :
    result = ⟨.fatal, [], some (.invalidProgram p.step.faults)⟩ ∧
      ∀ e ∈ w.entries, e = .event (.started env.runId p.displayName) ∨
        e = .event (.stopped env.runId .fatal) ∨ e = .cancelled := by
  obtain ⟨flow, w', hreach, hresult⟩ := h
  obtain ⟨rfl, rfl⟩ := Prod.mk.inj hresult
  rw [Reaches, start_of_faults hp] at hreach
  obtain ⟨hended, hsee⟩ := hreach.of_ended
  obtain rfl : flow = _ := Activity.ended.inj hended
  -- a view that sees all but the caller sees nothing but the start
  let view : Entry → Option Entry := fun e => if e = .cancelled then none else some e
  have hstarted : w'.see view = [.event (.started env.runId p.displayName)] := by
    have hview : view .cancelled = none := rfl
    rw [hsee hview, see_firstWorld hview]
    rfl
  have hentry : ∀ e ∈ w'.entries,
      e = .event (.started env.runId p.displayName) ∨ e = .cancelled := by
    intro e he
    by_cases hc : e = .cancelled
    · exact .inr hc
    · have hmem : e ∈ w'.see view := List.mem_filterMap.mpr ⟨e, he, if_neg hc⟩
      rw [hstarted] at hmem
      exact .inl (List.mem_singleton.mp hmem)
  refine ⟨?_, fun e he => ?_⟩
  · have hfailures : w'.journal.failures = [] := by
      rw [Journal.failures_eq]
      refine List.filterMap_eq_nil_iff.mpr fun e he => ?_
      rcases hentry e he with rfl | rfl <;> rfl
    show RunResult.mk _ w'.journal.failures _ = _
    rw [hfailures]
    rfl
  · rcases List.mem_append.mp (entries_emit .. ▸ he) with he | he
    · exact (hentry e he).imp_right .inr
    · rcases List.mem_cons.mp he with rfl | he
      · exact .inr (.inl rfl)
      · exact .inr (.inr (eq_cancelled_of_mem he))

/-- A run of a program with faults ends at once. -/
theorem run?_of_faults (env : Environment) (hp : p.step.faults ≠ []) (fuel : ℕ) :
    ∃ result w, p.run? env fuel = some (result, w) := by
  rw [run?, start_of_faults hp]
  cases fuel <;> exact ⟨_, _, rfl⟩

/-- **Faults tell which runs can go wrong.**  A program has no faults just if each of its steps is
well formed on its own.  Then none of its runs, whatever the world does, ends with faults, or with
a loop that cannot be entered for any reason but a deadline that clocks skip, and whenever a run
asks for a random number it names finite bounds that are in order.  If there are faults then each
run ends with just these, and all that happens is that it starts and stops, and that the caller
cancels. -/
theorem faults_settle_runs (p : Program) :
    (p.step.faults = [] ↔ ∀ s ∈ p.step.nodes, s.WellFormed) ∧
    (p.step.faults = [] → ∀ env : Environment,
      (∀ {m : Machine}, p.Reaches env m → ∀ d ∈ m.world.journal.draws, d.WellFormed) ∧
      ∀ {result : RunResult} {w : World}, p.Returns env result w →
        (∀ d ∈ w.journal.draws, d.WellFormed) ∧
        (∀ faults, result.fatal ≠ some (.invalidProgram faults)) ∧
        ∀ path cause, result.fatal = some (.loop path cause) →
          ∃ moment, cause = .skippedDeadline moment) ∧
    (p.step.faults ≠ [] → ∀ env : Environment,
      (∀ fuel, ∃ w, p.run? env fuel
        = some (⟨.fatal, [], some (.invalidProgram p.step.faults)⟩, w)) ∧
      ∀ {result : RunResult} {w : World}, p.Returns env result w →
        result = ⟨.fatal, [], some (.invalidProgram p.step.faults)⟩ ∧
        ∀ e ∈ w.entries, e = .event (.started env.runId p.displayName) ∨
          e = .event (.stopped env.runId .fatal) ∨ e = .cancelled) := by
  refine ⟨p.step.faults_eq_nil_iff, fun hp env => ⟨fun h => h.draws hp, fun {result w} h => ?_⟩,
    fun hp env => ⟨fun fuel => ?_, fun h => h.faulty hp⟩⟩
  · refine ⟨fun d hd => ?_, fun faults he => ?_, fun path cause he => ?_⟩
    · obtain ⟨flow, w', hreach, hresult⟩ := h
      obtain ⟨-, rfl⟩ := Prod.mk.inj hresult
      refine hreach.draws hp d (mem_draws.mpr ?_)
      -- the last event asks for no number
      rw [mem_draws, see_emit_none _ _ rfl rfl] at hd
      exact hd
    · rcases h.fatal hp he with ⟨device, cause, h⟩ | ⟨path, moment, h⟩ <;> cases h
    · rcases h.fatal hp he with ⟨device, cause', h⟩ | ⟨path', moment, h⟩
      · cases h
      · cases h
        exact ⟨moment, rfl⟩
  · obtain ⟨result, w, hrun⟩ := run?_of_faults env hp fuel
    obtain ⟨rfl, -⟩ := (returns_of_run? hrun).faulty hp
    exact ⟨w, hrun⟩

/-- A loop draws how often it serves the lamp if its range is in order.  If it is not, the program
has one fault, and nobody calls the lamp. -/
theorem lamp_random_runs :
    let good := lamp (.random 1 2)
    let bad := lamp (.random 2 1)
    (∃ result w, good.run? .plain 5 = some (result, w) ∧ w.journal.draws = [.whole 1 2] ∧
      (∀ d ∈ w.journal.draws, d.WellFormed) ∧
      ∀ faults, result.fatal ≠ some (.invalidProgram faults)) ∧
    bad.step.faults.length = 1 ∧
    ∃ w, bad.run? .plain 5
        = some (⟨.fatal, [], some (.invalidProgram bad.step.faults)⟩, w) ∧
      ∀ e ∈ w.entries, e = .event (.started "run" bad.displayName) ∨
        e = .event (.stopped "run" .fatal) ∨ e = .cancelled := by
  intro good bad
  have hgood : good.step.faults = [] := rfl
  have hlength : bad.step.faults.length = 1 := rfl
  have hbad : bad.step.faults ≠ [] := List.ne_nil_of_length_pos (by rw [hlength]; exact Nat.one_pos)
  refine ⟨?_, hlength, ?_⟩
  · have hdraws : (good.run? .plain 5).map (·.2.journal.draws) = some [.whole 1 2] := rfl
    obtain ⟨⟨result, w⟩, hrun, hdraws⟩ := Option.map_eq_some_iff.mp hdraws
    obtain ⟨hwell, hfaults, -⟩ :=
      ((faults_settle_runs good).2.1 hgood .plain).2 (returns_of_run? hrun)
    exact ⟨result, w, hrun, hdraws, hwell, hfaults⟩
  · obtain ⟨hends, hreturns⟩ := (faults_settle_runs bad).2.2 hbad .plain
    obtain ⟨w, hrun⟩ := hends 5
    exact ⟨w, hrun, (hreturns (returns_of_run? hrun)).2⟩

end Program

end Lightshow
