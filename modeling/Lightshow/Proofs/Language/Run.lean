import Lightshow.Proofs.Language.Live
import Lightshow.Proofs.Run.Plain
import Lightshow.Proofs.Run.Uses

/-!
# What a run shows

An activity is what is left to do of a step, and so it has a language as well: what it may
still show.  Before anything is done this is the language of the step.  A move of the activity
shows some events, and after these what remains is the language of the activity that is left.
So what a run shows begins a word of the language of its program, and it is a word of it if
everything was done.

What is given up, because the run is to halt, has the language without words.  It may still be
followed by nothing, which is why the beginnings are kept apart from the words.

## Main definitions

* `Bound.times` — how often a loop may be repeated once it is entered.
* `Queue.language`, `Activity.language` — what an activity may still show.

## Main results

* `Step.activity_language` — a step of which nothing is done has the language of the step.
* `Queue.Move.shows`, `Activity.Move.shows` — one move.
* `Machine.Moves.shows` — a run.
-/

namespace Lightshow

open EventLanguage World

variable {env : Environment}

/-! ### Devices -/

namespace Activity

/-- The first device is counted apart from the others. -/
theorem foldl_count_cons (ds : List Device) : ∀ (e : Device) (n : ℕ) (rest : List (Device × ℕ)),
    ds.foldl count ((e, n) :: rest)
      = (e, n + ds.count e) :: (ds.filter fun d => !d == e).foldl count rest := by
  induction ds with
  | nil => exact fun e n rest => rfl
  | cons d ds ih =>
    intro e n rest
    rw [List.foldl_cons, count]
    by_cases hd : e = d
    · subst hd
      rw [if_pos rfl, ih, List.count_cons_self, Nat.add_assoc, Nat.add_comm 1]
      simp
    · have hd' : (d == e) = false := beq_eq_false_iff_ne.mpr (Ne.symm hd)
      rw [if_neg hd, ih, List.count_cons, List.filter_cons]
      simp [hd']

/-- Each device is served as often as it was named. -/
theorem foldl_count (ds : List Device) :
    ds.foldl count [] = ds.eraseDups.map fun d => (d, ds.count d) := by
  match ds with
  | [] => rfl
  | d :: ds =>
    have hrest := foldl_count (ds.filter fun e => !e == d)
    rw [List.foldl_cons, count, foldl_count_cons, hrest, List.eraseDups_cons, List.map_cons,
      List.count_cons_self, Nat.add_comm 1]
    refine congrArg _ (List.map_congr_left fun e he => ?_)
    have hne : (!e == d) = true := (List.mem_filter.mp (List.mem_eraseDups.mp he)).2
    have hde : ¬d = e := by
      rintro rfl
      simp at hne
    rw [List.count_filter (p := fun e => !e == d) hne, List.count_cons_of_ne hde]
termination_by ds.length
decreasing_by exact Nat.lt_succ_of_le (List.length_filter_le _ _)

end Activity

/-! ### Bounds -/

/-- How often a loop may be repeated, if it has a bound and `k` iterations have begun. -/
def Bound.times (b : Bound) (k : ℕ) (n : ℕ∞) : Prop :=
  match b with
  | .endless => n = ⊤
  | .count t => n = ↑(max t.toNat k)
  | .stop _ => n ≠ ⊤

namespace Bound

variable {b : Bound} {k : ℕ} {now : Instant}

/-- There may always be as many iterations as there were. -/
theorem exists_times (b : Bound) (k : ℕ) : ∃ n, b.times k n ∧ ↑k ≤ n := by
  cases b with
  | endless => exact ⟨⊤, rfl, le_top⟩
  | count t => exact ⟨_, rfl, ENat.natCast_le_natCast.mpr (Nat.le_max_right _ k)⟩
  | stop t => exact ⟨k, ENat.natCast_ne_top k, le_rfl⟩

/-- A loop that does not go on has been repeated as often as it may be. -/
theorem times_of_not_continues (h : b.continues k now = false) : b.times k k := by
  cases b with
  | endless => exact absurd h nofun
  | count t =>
    have ht : t.toNat ≤ k := by simpa [continues] using h
    rw [times, Nat.max_eq_right ht]
  | stop t => exact ENat.natCast_ne_top k

/-- A loop that goes on is repeated as often as before, and at least once more. -/
theorem times_succ_of_continues (h : b.continues k now = true) : b.times (k + 1) = b.times k := by
  cases b with
  | count t =>
    have ht : k < t.toNat := by simpa [continues] using h
    funext n
    rw [times, times, Nat.max_eq_left ht, Nat.max_eq_left ht.le]
  | _ => rfl

end Bound

/-- A number is drawn only between bounds that are in order. -/
theorem LoopMode.le_of_draw? {mode : LoopMode} {min max : UInt64}
    (h : mode.draw? = some (min, max)) : min ≤ max := by
  cases mode with
  | random a b =>
    by_cases hle : b < a
    · simp [draw?, hle] at h
    · obtain ⟨rfl, rfl⟩ : a = min ∧ b = max := by simpa [draw?, hle] using h
      exact UInt64.not_lt.mp hle
  | _ => exact absurd h nofun

/-- Numbers that are drawn for a mode keep to its bounds. -/
def LoopMode.Bounded (source : RandomSource) (mode : LoopMode) : Prop :=
  ∀ k min max, mode.draw? = some (min, max) →
    min ≤ source.whole k min max ∧ source.whole k min max ≤ max

theorem LoopMode.bounded_of_fair {source : RandomSource} (hfair : source.Fair) (mode : LoopMode) :
    mode.Bounded source :=
  fun k min max hdraw => hfair.whole_bounds k min max (LoopMode.le_of_draw? hdraw)

/-- The bound of a loop allows what its mode allows. -/
theorem LoopMode.narrow {mode : LoopMode} {zone : Zone} {started : Instant} {wall : UtcTime}
    {drawn : UInt64} {b : Bound}
    (hdrawn : ∀ min max, mode.draw? = some (min, max) → min ≤ drawn ∧ drawn ≤ max)
    (hb : mode.bound zone started wall drawn = .ok b) :
    (∀ n : ℕ, b.times 0 n → mode.times n) ∧
      ∀ m : ℕ, (∃ n, b.times 0 n ∧ ↑m ≤ n) → ∃ n, mode.times n ∧ ↑m ≤ n := by
  have hclock : ∀ m : ℕ, ∃ n : ℕ∞, n ≠ ⊤ ∧ ↑m ≤ n := fun m => ⟨m, ENat.natCast_ne_top m, le_rfl⟩
  cases mode with
  | infinite =>
    cases hb
    exact ⟨fun n hn => hn, fun m hm => hm⟩
  | counted t =>
    cases hb
    have ht : ∀ n, (Bound.count t).times 0 n ↔ n = ↑t.toNat := fun n => by
      rw [Bound.times, Nat.max_zero]
    exact ⟨fun n hn => (ht n).mp hn, fun m ⟨n, hn, hm⟩ => ⟨n, (ht n).mp hn, hm⟩⟩
  | random min max =>
    by_cases hle : max < min
    · simp [bound, hle] at hb
    · simp only [bound, hle, if_false, Except.ok.injEq] at hb
      subst hb
      obtain ⟨hmin, hmax⟩ := hdrawn min max (by simp [draw?, hle])
      have ht : ∀ n, (Bound.count drawn).times 0 n → (LoopMode.random min max).times n := by
        intro n hn
        rw [Bound.times, Nat.max_zero] at hn
        subst hn
        exact ⟨ENat.natCast_le_natCast.mpr hmin, ENat.natCast_le_natCast.mpr hmax⟩
      exact ⟨fun n hn => ht n hn, fun m ⟨n, hn, hm⟩ => ⟨n, ht n hn, hm⟩⟩
  | timer t => exact ⟨fun n _ => ENat.natCast_ne_top n, fun m _ => hclock m⟩
  | deadline m => exact ⟨fun n _ => ENat.natCast_ne_top n, fun m _ => hclock m⟩

/-! ### Parts that have ended, and queues -/

/-- What may still be shown by a part that has ended: nothing, and that is all there is to
show, or the rest has been given up. -/
def Flow.language : Flow → EventLanguage
  | .completed => done
  | _ => stuck

/-- Parts that ended side by side have nothing to show as a whole. -/
theorem Flow.merge_language (flows : List Flow) :
    (shuffle (flows.map Flow.language)).After [] (Flow.merge flows).language := by
  cases h : Flow.merge flows with
  | completed =>
    refine shuffle_done_after fun L hL => ?_
    obtain ⟨flow, hflow, rfl⟩ := List.mem_map.mp hL
    rw [Flow.eq_completed_of_merge h flow hflow]
    rfl
  | _ => exact after_stuck _

/-- What a queue may still show. -/
def Queue.language : Queue → EventLanguage
  | .ready call left => served call.path call.device left
  | .calling call left _ _ | .awaiting call left _ => served call.path call.device (left + 1)
  | .ended flow => flow.language

namespace Queue

/-- A call that has come to something is shown, and the calls that are left may follow. -/
theorem settle_language (env : Environment) (call : Call) (left : ℕ)
    (result : Except DeviceError Unit) (w : World) :
    ∃ u, (settle env call result w).2.see Entry.event? = w.see Entry.event? ++ u ∧
      (served call.path call.device (left + 1)).After u
        (next call left (settle env call result w).1).language := by
  refine ⟨[call.applied (error? result)], ?_, ?_⟩
  · rw [see_settle rfl]
    simp [Entry.event?]
  · have hone : (served call.path call.device (left + 1)).After [call.applied (error? result)]
        (served call.path call.device left) := letter_seq_after ⟨_, rfl⟩ _
    rw [settle_flow]
    cases call.fatal? (error? result) with
    | none => exact hone
    | some cause => exact hone.trans (v := []) (after_stuck _)

/-- **After a move of a queue, what it may still show follows what it showed.** -/
theorem Move.shows {q q' : Queue} {w w' : World} (h : Move env q w q' w') :
    ∃ u, w'.see Entry.event? = w.see Entry.event? ++ u ∧ q.language.After u q'.language := by
  cases h with
  | finish => exact ⟨[], (List.append_nil _).symm, .refl _⟩
  | halt => exact ⟨[], (List.append_nil _).symm, after_stuck _⟩
  | call _ hc =>
    subst hc
    exact ⟨[], see_call _ _ rfl _, .refl _⟩
  | await => exact ⟨[], see_note .., .refl _⟩
  | @answer call left _ _ result w =>
    obtain ⟨u, hu, hafter⟩ := settle_language env call left result (w.note (.returned call))
    refine ⟨u, ?_, hafter⟩
    rw [hu, see_note_none _ rfl]
  | acknowledge => exact settle_language ..

end Queue

/-! ### Activities -/

mutual

/-- What an activity may still show. -/
def Activity.language (env : Environment) : Activity → EventLanguage
  | .ended flow => flow.language
  | .pause path o => paused path o
  | .sleeping _ => done
  | .dispatch path t => dispatched env.resolve path t
  | .applying queues => shuffle (queues.map Queue.language)
  | .seq first rest => (Activity.language env first).seq (Activity.language env rest)
  | .join branches => shuffle (Activity.languages env branches)
  | .enter block before body after =>
    (paused block.path before).seq
      ((repeated block.mode.times
        (iteration block.order block.path block.mode (Activity.language env body)) 0).seq
          (paused block.path after))
  | .rounds block bound completed body =>
    repeated (bound.times completed)
      (iteration block.order block.path block.mode (Activity.language env body)) completed
  | .within block bound completed body current =>
    (Activity.language env current).seq
      (repeated (bound.times (completed + 1))
        (iteration block.order block.path block.mode (Activity.language env body))
          (completed + 1))

/-- What some activities may still show. -/
def Activity.languages (env : Environment) : List Activity → List EventLanguage
  | [] => []
  | a :: rest => Activity.language env a :: Activity.languages env rest

end

namespace Activity

theorem languages_eq_map (branches : List Activity) :
    languages env branches = branches.map (language env) := by
  induction branches with
  | nil => rfl
  | cons a branches ih => rw [languages, ih, List.map_cons]

/-- A pause shows one event. -/
theorem beginPause_language (path : Path) (o : TimeOption) (w : World) :
    ∃ u, (beginPause env path (some o) w).2.see Entry.event? = w.see Entry.event? ++ u ∧
      (paused path (some o)).After u (language env (beginPause env path (some o) w).1) := by
  obtain ⟨draws, span, h⟩ := beginPause_eq env path o w
  have hletter : (paused path (some o)).After [.paused path.text span.toSeconds] done :=
    letter_after ⟨_, rfl⟩
  refine ⟨[.paused path.text span.toSeconds], ?_, ?_⟩
  · rw [h, beginSleep_world, see_emit _ _ rfl, see_draws _ fun _ => rfl]
    rfl
  · rw [h, beginSleep, pollSleep]
    split
    · exact hletter.trans (v := []) (after_stuck _)
    · split
      · exact hletter
      · exact hletter

/-- A transition that is dispatched shows its devices. -/
theorem announce_language (path : Path) (t : Transition) (w : World) :
    ∃ u, (announce env path t w).2.see Entry.event? = w.see Entry.event? ++ u ∧
      (dispatched env.resolve path t).After u (language env
        (.applying (newQueues (announce env path t w).2.now path t (announce env path t w).1))) := by
  have hdevices : announced env t
      = (t.devicesSeen env.resolve).map fun d => (d, (t.named env.resolve).count d) := foldl_count _
  have hseen : (announced env t).map (·.1.label)
      = (t.devicesSeen env.resolve).map Device.label := by
    rw [hdevices, List.map_map]
    rfl
  refine ⟨[.transition path.text ((t.devicesSeen env.resolve).map Device.label)], ?_, ?_⟩
  · rw [see_announce_blind rfl (fun _ => rfl) fun _ => rfl, hseen]
    rfl
  · have hqueues : (newQueues (announce env path t w).2.now path t (announced env t)).map
        Queue.language = (t.devicesSeen env.resolve).map fun d =>
          served path d ((t.named env.resolve).count d) := by
      rw [newQueues, hdevices, List.map_map, List.map_map]
      rfl
    rw [language, announce_devices, hqueues, dispatched]
    refine letter_seq_after ?_ _
    rfl

/-- An iteration that begins shows one event, and then its body. -/
theorem begin_language {block : Block} {bound : Bound} {k : ℕ} {now : Instant}
    (hb : bound.continues k now = true) (body : EventLanguage) :
    (repeated (bound.times k) (iteration block.order block.path block.mode body) k).After
      [.iteration block.order block.path.text (k + 1) block.mode.word]
      (body.seq (repeated (bound.times (k + 1))
        (iteration block.order block.path block.mode body) (k + 1))) := by
  rw [Bound.times_succ_of_continues hb]
  have hone : (iteration block.order block.path block.mode body (k + 1)).After
      [.iteration block.order block.path.text (k + 1) block.mode.word] body := by
    refine letter_seq_after ?_ body
    rfl
  have hmore : ∃ n, bound.times k n ∧ ↑(k + 1) ≤ n := by
    rw [← Bound.times_succ_of_continues hb]
    exact bound.exists_times (k + 1)
  exact (repeated_begin hmore).trans (hone.seq _)

/-- A part that did not complete has nothing more to show. -/
theorem language_ended {flow : Flow} (h : flow ≠ .completed) :
    language env (.ended flow) = stuck := by
  cases flow with
  | completed => exact absurd rfl h
  | _ => rfl

/-- **After a move of an activity, what it may still show follows what it showed.** -/
theorem Move.shows {a a' : Activity} {w w' : World} (h : Move env a w a' w')
    (ha : a.Uses (fun _ => True) (LoopMode.Bounded env.random)) :
    ∃ u, w'.see Entry.event? = w.see Entry.event? ++ u ∧
      (Activity.language env a).After u (Activity.language env a') := by
  induction h with
  | rest => exact ⟨[], (List.append_nil _).symm, .refl _⟩
  | pause => exact beginPause_language ..
  | @wake instant w =>
    refine ⟨[], (List.append_nil _).symm, ?_⟩
    unfold pollSleep
    split
    · exact after_stuck _
    · split <;> exact .refl _
  | withhold => exact ⟨[], (List.append_nil _).symm, after_stuck _⟩
  | dispatch => exact announce_language ..
  | serve before after hq =>
    obtain ⟨u, hu, hafter⟩ := hq.shows
    refine ⟨u, hu, ?_⟩
    simp only [Activity.language, List.map_append, List.map_cons]
    exact shuffle_after hafter _ _
  | @served flows w =>
    refine ⟨[], (List.append_nil _).symm, ?_⟩
    simp only [Activity.language, List.map_map]
    exact Flow.merge_language flows
  | first _ ih =>
    cases ha with
    | seq hfirst _ =>
      obtain ⟨u, hu, hafter⟩ := ih hfirst
      exact ⟨u, hu, hafter.seq _⟩
  | @second rest w =>
    refine ⟨[], (List.append_nil _).symm, ?_⟩
    simp only [Activity.language, Flow.language, done_seq]
    exact .refl _
  | skip hf =>
    rw [language_ended hf]
    exact ⟨[], (List.append_nil _).symm, after_stuck _⟩
  | branch before after _ ih =>
    cases ha with
    | join hbranches =>
      obtain ⟨u, hu, hafter⟩ := ih (hbranches _ (List.mem_append_right _ List.mem_cons_self))
      refine ⟨u, hu, ?_⟩
      simp only [Activity.language, languages_eq_map, List.map_append, List.map_cons]
      exact shuffle_after hafter _ _
  | @joined flows w =>
    refine ⟨[], (List.append_nil _).symm, ?_⟩
    simp only [Activity.language, languages_eq_map, List.map_map]
    have hflows : language env ∘ ended = Flow.language := by
      funext flow
      simp only [Function.comp, Activity.language]
    rw [hflows]
    exact Flow.merge_language flows
  | bar he =>
    refine ⟨[], ?_, after_stuck _⟩
    rw [see_fail_none _ rfl, see_note_none _ rfl, see_enterLoop (fun _ => rfl) he,
      List.append_nil]
  | @enter block before after body bound w w' he =>
    obtain ⟨draws, drawn, hdrawn, h⟩ := enterLoop_eq env block.mode w
    rw [h] at he
    obtain ⟨hbound, rfl⟩ := Prod.mk.inj he
    refine ⟨[], ?_, ?_⟩
    · rw [see_note, see_draws _ fun _ => rfl]
      rfl
    · have hmode : block.mode.Bounded env.random := by
        cases ha with
        | enter hmode _ _ _ => exact hmode
      have hrange : ∀ min max, block.mode.draw? = some (min, max) →
          min ≤ drawn ∧ drawn ≤ max := by
        intro min max hdraw
        obtain ⟨n, rfl⟩ := hdrawn min max hdraw
        exact hmode n min max hdraw
      obtain ⟨hfin, hinf⟩ := LoopMode.narrow hrange hbound
      exact After.seq_right ((repeated_narrow hfin hinf).seq _) _
  | expire hb =>
    exact ⟨[], see_note _ _ _, repeated_over (Bound.times_of_not_continues hb)⟩
  | stop => exact ⟨[], (List.append_nil _).symm, after_stuck _⟩
  | begin hb _ => exact ⟨_, see_emit _ _ rfl _, begin_language hb _⟩
  | inside _ ih =>
    cases ha with
    | within _ _ _ _ hcurrent =>
      obtain ⟨u, hu, hafter⟩ := ih hcurrent
      exact ⟨u, hu, hafter.seq _⟩
  | @again block bound completed body w =>
    refine ⟨[], (List.append_nil _).symm, ?_⟩
    simp only [Activity.language, Flow.language, done_seq]
    exact .refl _
  | leave hf =>
    rw [language_ended hf]
    exact ⟨[], (List.append_nil _).symm, after_stuck _⟩

theorem chain_language (as : List Activity) :
    language env (chain as) = concat (languages env as) := by
  induction as with
  | nil => rfl
  | cons a as ih =>
    rw [languages, concat, List.foldr_cons, ← concat, ← ih]
    rfl

end Activity

mutual

/-- **A step of which nothing is done has the language of the step.** -/
theorem Step.activity_language (scope : PauseScope) : ∀ (s : Step) (path : Path),
    (Step.activity scope path s).language env = s.language env.resolve scope path
  | .transition t, path => by
    rw [Step.activity, Step.language]
    rfl
  | .composite order steps loop pause, path => by
    have hchildren := Step.activities_language scope steps path 0
    cases scope <;> cases order <;>
      simp only [Step.activity, Step.language, Activity.language, Activity.chain_language,
        hchildren, paused, done_seq, seq_done]

theorem Step.activities_language (scope : PauseScope) : ∀ (steps : List Step) (path : Path)
    (index : ℕ), Activity.languages env (Step.activities scope path index steps)
      = Step.languages env.resolve scope path index steps
  | [], path, index => by
    rw [Step.activities, Step.languages, Activity.languages]
  | s :: rest, path, index => by
    rw [Step.activities, Step.languages, Activity.languages, Step.activity_language,
      Step.activities_language]

end

/-! ### Runs -/

/-- **What a run may still show follows what it showed.** -/
theorem Machine.Moves.shows {m m' : Machine} (h : Machine.Moves env m m')
    (hm : m.activity.Uses (fun _ => True) (LoopMode.Bounded env.random)) :
    m'.activity.Uses (fun _ => True) (LoopMode.Bounded env.random) ∧
      ∃ u, m'.world.see Entry.event? = m.world.see Entry.event? ++ u ∧
        (m.activity.language env).After u (m'.activity.language env) := by
  induction h with
  | refl => exact ⟨hm, [], (List.append_nil _).symm, .refl _⟩
  | tail _ hmove ih =>
    obtain ⟨huses, u, hu, hafter⟩ := ih
    cases hmove with
    | act ha =>
      obtain ⟨v, hv, hafter'⟩ := ha.shows huses
      exact ⟨ha.uses huses, u ++ v, by rw [hv, hu, List.append_assoc], hafter.trans hafter'⟩
    | wait a w t => exact ⟨huses, u, hu, hafter⟩
    | turn a w => exact ⟨huses, u, hu, hafter⟩
    | cancel a w due => exact ⟨huses, u, (see_cancelIf _ rfl due).trans hu, hafter⟩

namespace Program

variable {p : Program}

/-- The language of a program. -/
def language (env : Environment) (p : Program) : EventLanguage :=
  p.step.language env.resolve env.scope p.step.rootPath

/-- What a run of a program without faults has shown can be carried through, if the numbers that
are drawn for its loops keep to their bounds. -/
theorem shows_of_bounded
    (hmodes : ∀ n ∈ p.step.nodes, n.Uses (fun _ => True) (LoopMode.Bounded env.random))
    (hp : p.step.faults = []) {flow : Flow} {w : World} (h : p.Reaches env ⟨.ended flow, w⟩) :
    ∃ u, w.see Entry.event? = .started env.runId p.displayName :: u ∧
      (p.language env).Begins u ∧ (flow = .completed → (p.language env).whole u) := by
  rw [Reaches, start_of_valid hp] at h
  obtain ⟨-, u, hu, hafter⟩ :=
    Machine.Moves.shows h (Step.activity_uses env.scope p.step _ hmodes)
  rw [Step.activity_language] at hafter
  have hopening : (p.language env).opening u := by
    have hu := hafter.opening (EventLanguage.opening_nil _)
    rwa [List.append_nil] at hu
  refine ⟨u, ?_, Step.language_live _ _ hp hopening, ?_⟩
  · rw [hu, see_firstWorld rfl]
    rfl
  · rintro rfl
    have hu := hafter.whole (v := []) rfl
    rwa [List.append_nil] at hu

/-- What a run of a program without faults has shown can be carried through. -/
theorem shows_of_valid (hfair : env.random.Fair) (hp : p.step.faults = []) {flow : Flow}
    {w : World} (h : p.Reaches env ⟨.ended flow, w⟩) :
    ∃ u, w.see Entry.event? = .started env.runId p.displayName :: u ∧
      (p.language env).Begins u ∧ (flow = .completed → (p.language env).whole u) :=
  shows_of_bounded (fun n _ => n.uses_of_forall (LoopMode.bounded_of_fair hfair)) hp h

/-- A run of a program with faults shows nothing. -/
theorem shows_of_faults (hp : p.step.faults ≠ []) {flow : Flow} {w : World}
    (h : p.Reaches env ⟨.ended flow, w⟩) :
    w.see Entry.event? = [.started env.runId p.displayName] ∧ flow ≠ .completed := by
  rw [Reaches, start_of_faults hp] at h
  obtain ⟨hended, hsee⟩ := Machine.Moves.of_ended h
  refine ⟨(hsee rfl).trans (see_firstWorld rfl), ?_⟩
  rintro rfl
  exact absurd hended nofun

/-- **The events of a run.**  A run tells that it starts and that it stops, and what it shows in
between begins a word of the language of its program; it is a whole word if the run completed.
A loop with its bounds the wrong way round may be repeated no number of times.  If there is no
word at all for this reason, the run shows nothing. -/
theorem events_of_returns (hfair : env.random.Fair) {result : RunResult} {w : World}
    (h : p.Returns env result w) :
    ∃ u, w.journal.events.map Prod.snd
        = .started env.runId p.displayName :: u ++ [.stopped env.runId result.status] ∧
      ((p.language env).Begins u ∨
        p.step.faults ≠ [] ∧ u = [] ∧ ∀ v, ¬(p.language env).Begins v) ∧
      (result.status = .completed → (p.language env).whole u) := by
  obtain ⟨flow, w', hreach, hresult⟩ := h
  obtain ⟨rfl, rfl⟩ := Prod.mk.inj hresult
  have hstopped : ∀ u, w'.see Entry.event? = .started env.runId p.displayName :: u →
      (w'.emit env (.stopped env.runId flow.status)).journal.events.map Prod.snd
        = .started env.runId p.displayName :: u ++ [.stopped env.runId flow.status] := by
    intro u hu
    rw [Journal.map_events]
    refine (see_emit env w' rfl _).trans ?_
    rw [hu]
    rfl
  by_cases hp : p.step.faults = []
  · obtain ⟨u, hu, hbegins, hwhole⟩ := shows_of_valid hfair hp hreach
    refine ⟨u, hstopped u hu, .inl hbegins, fun hstatus => hwhole ?_⟩
    cases flow with
    | completed => rfl
    | _ => exact absurd hstatus nofun
  · obtain ⟨hu, hflow⟩ := shows_of_faults hp hreach
    refine ⟨[], hstopped [] hu, ?_, fun hstatus => ?_⟩
    · by_cases hnil : (p.language env).Begins []
      · exact .inl hnil
      · exact .inr ⟨hp, rfl, fun v hv => hnil (hv.of_append (u := []))⟩
    · cases flow with
      | completed => exact absurd rfl hflow
      | _ => exact absurd hstatus nofun

/-- A lamp that is served twice makes a whole word. -/
theorem lamp_twice_word : ∃ result w, (lamp (.counted 2)).run? .plain 5 = some (result, w) ∧
    ∃ u, w.journal.events.map Prod.snd
        = .started "run" "unnamed" :: u ++ [.stopped "run" .completed] ∧
      ((lamp (.counted 2)).language .plain).whole u := by
  have hstatus : ((lamp (.counted 2)).run? .plain 5).map (·.1.status) = some .completed := rfl
  obtain ⟨⟨result, w⟩, hrun, hstatus⟩ := Option.map_eq_some_iff.mp hstatus
  obtain ⟨u, hu, -, hwhole⟩ :=
    events_of_returns RandomSource.least_fair (returns_of_run? hrun)
  rw [hstatus] at hu
  exact ⟨result, w, hrun, u, hu, hwhole hstatus⟩

end Program

end Lightshow
