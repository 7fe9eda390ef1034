import Lightshow.Proofs.Device.Listed
import Lightshow.Proofs.Language.Run
import Lightshow.Proofs.Run.Serving

/-!
# The calls of a transition

A transition *owes* a call for each time that it names a device.  As long as a run goes on, the
calls that were made for the transition at a place and those that are still owed there make up
what was named there; when a run halts, some that are owed are not made, and nothing else changes.
Nothing is owed at a place any more when its transition is dispatched once again.  So each time
that it is dispatched can be looked at on its own.

That two calls to one device are never in flight for the same transition is another matter.  It
holds since the queues that are served differ in their places or in their devices.

## Main definitions

* `Entry.callAt?`, `Entry.settledAt?`, `Entry.namedAt` — what is written about one place.
* `Activity.owed` — the calls that are still to be made for the transition at a place.
* `Tallies` — how calls are made that were owed.
* `Ledger` — the invariants.

## Main results

* `Activity.Serves.tallies`, `Activity.Serves.distinct` — single moves.
* `Program.Reaches.ledger` — the invariants hold in a run.
* `Program.Reaches.alone` — **no device is served twice at once for one transition.**
* `Program.Reaches.calls_since`, `Program.Reaches.calls_between` — **devices are called as they were
  named.**
-/

namespace Lightshow

open World

variable {env : Environment}

/-! ### What is written about a place -/

/-- The device of a call that is made for the transition at a place. -/
def Call.at? (path : Path) (c : Call) : Option Device :=
  if c.path = path then some c.device else none

/-- The device that is called for the transition at a place. -/
def Entry.callAt? (path : Path) : Entry → Option Device
  | .called c => c.at? path
  | _ => none

/-- The device that was called for the transition at a place, when it is known what this came to. -/
def Entry.settledAt? (path : Path) : Entry → Option Device
  | .settled c _ => c.at? path
  | _ => none

/-- The devices that the transition at a place names when it is dispatched. -/
def Entry.namedAt (env : Environment) (path : Path) : Entry → List Device
  | .dispatched p t => if p = path then t.named env.resolve else []
  | _ => []

namespace Queue

/-- The devices that a queue is still to call for the transition at a place, each as often as it is
to be called. -/
def owed (path : Path) : Queue → List Device
  | .ready call left | .calling call left _ _ | .awaiting call left _ =>
    if call.path = path then List.replicate left call.device else []
  | .ended _ => []

theorem owed_live (path : Path) (q : Queue) : q.live.flatMap (owed path) = q.owed path := by
  cases q <;> simp [live, owed]

/-- A queue that serves elsewhere owes nothing here. -/
theorem owed_eq_nil {path : Path} {q : Queue} (h : q.place? ≠ some path) : q.owed path = [] := by
  cases q with
  | ended => rfl
  | _ => exact if_neg fun hpath => h (congrArg some hpath)

end Queue

/-- The devices that are still to be called for the transition at a place. -/
def Activity.owed (path : Path) (a : Activity) : List Device := a.serving.flatMap (Queue.owed path)

/-- From one world to another at most one thing is done.  Calls are made if they were owed, and all
that are owed are made or remain, unless the run is to halt.  Nothing was owed at a place where a
transition is dispatched. -/
def Tallies (env : Environment) (w w' : World) (x y : List Queue) : Prop :=
  ∃ new : List Entry, w'.see Entry.work? = w.see Entry.work? ++ new ∧ new.length ≤ 1 ∧
    ∀ path, (∀ d, (new.filterMap (Entry.callAt? path)).count d
        + (y.flatMap (Queue.owed path)).count d
          ≤ (x.flatMap (Queue.owed path)).count d
            + (new.flatMap (Entry.namedAt env path)).count d) ∧
      (w'.halted = false → ∀ d, (new.filterMap (Entry.callAt? path)).count d
        + (y.flatMap (Queue.owed path)).count d
          = (x.flatMap (Queue.owed path)).count d
            + (new.flatMap (Entry.namedAt env path)).count d) ∧
      ∀ t, .dispatched path t ∈ new → w.halted = false ∧ x.flatMap (Queue.owed path) = []

/-! ### Queues -/

namespace Queue

/-- What a move of a queue does to what it owes: at most one thing is written, which dispatches no
transition, and the queue calls a device that it owed, or it owes the same as before unless the run
is to halt. -/
def Pays (w w' : World) (q q' : Queue) : Prop :=
  ∃ new : List Entry, w'.see Entry.work? = w.see Entry.work? ++ new ∧ new.length ≤ 1 ∧
    (∀ path t, .dispatched path t ∉ new) ∧ ∀ path,
      (new.filterMap (Entry.callAt? path) ++ q'.owed path).Sublist (q.owed path) ∧
      (w'.halted = false → new.filterMap (Entry.callAt? path) ++ q'.owed path = q.owed path)

/-- Nothing is written. -/
theorem Pays.silent {q q' : Queue} {w w' : World} (hsee : w'.see Entry.work? = w.see Entry.work?)
    (hle : ∀ path, (q'.owed path).Sublist (q.owed path))
    (heq : w'.halted = false → ∀ path, q'.owed path = q.owed path) : Pays w w' q q' :=
  ⟨[], hsee.trans (List.append_nil _).symm, Nat.zero_le 1, fun _ _ => List.not_mem_nil,
    fun path => ⟨hle path, fun hw => heq hw path⟩⟩

/-- When a call is settled the queue goes on, or the run is to halt. -/
theorem settle_pays {q : Queue} {call : Call} {left : ℕ} {result : Except DeviceError Unit}
    {w v : World} (hq : ∀ path, q.owed path = (Queue.ready call left).owed path)
    (hsee : v.see Entry.work? = w.see Entry.work?) :
    Pays w (settle env call result v).2 q (next call left (settle env call result v).1) := by
  refine ⟨[.settled call (error? result)], ?_, Nat.le_refl 1, fun _ _ => by simp, fun path =>
    ⟨?_, fun hw => ?_⟩⟩
  · rw [see_settle rfl, hsee]
    simp [Entry.work?]
  · rw [hq]
    cases (settle env call result v).1 with
    | none => exact List.Sublist.refl _
    | some flow => exact List.nil_sublist _
  · rw [hq]
    -- a queue that ends here makes the run halt
    rcases settle_cases env call result v with ⟨-, h⟩ | ⟨e, -, -, h⟩ | ⟨cause, -, -, h⟩
    · rw [h]
      rfl
    · rw [h]
      rfl
    · rw [h] at hw
      exact absurd hw (by simp [World.halted, World.fail])

/-- **A queue makes the calls that it owes**, unless the run is to halt. -/
theorem Move.pays {q q' : Queue} {w w' : World} (h : Move env q w q' w') : Pays w w' q q' := by
  cases h with
  | finish call w =>
    have howed : ∀ path, (Queue.ready call 0).owed path = [] := fun path => ite_self _
    exact .silent rfl (fun _ => List.nil_sublist _) fun _ path => (howed path).symm
  | halt hw =>
    exact .silent rfl (fun _ => List.nil_sublist _) fun hw' =>
      absurd hw (not_halted_of_going hw')
  | @call call c left w hw hc =>
    have howed : ∀ path, [Entry.called c].filterMap (Entry.callAt? path)
        ++ (Queue.ready c left).owed path = (Queue.ready call (left + 1)).owed path := by
      intro path
      subst hc
      by_cases hpath : call.path = path
      · simp [owed, Entry.callAt?, Call.at?, hpath, List.replicate_succ]
      · simp [owed, Entry.callAt?, Call.at?, hpath]
    refine ⟨[.called c], see_call _ _ rfl c, Nat.le_refl 1, fun _ _ => by simp, fun path =>
      ⟨howed path ▸ List.Sublist.refl _, fun _ => howed path⟩⟩
  | await =>
    exact .silent (see_note_none _ rfl) (fun _ => List.Sublist.refl _) fun _ _ => rfl
  | answer => exact settle_pays (fun _ => rfl) (see_note_none _ rfl)
  | acknowledge => exact settle_pays (fun _ => rfl) rfl

/-- A queue does not change what it serves. -/
theorem Move.serves?_sublist {q q' : Queue} {w w' : World} (h : Move env q w q' w') :
    q'.serves?.toList.Sublist q.serves?.toList := by
  have hnext : ∀ (call : Call) (left : ℕ) (flow : Option Flow),
      (next call left flow).serves?.toList.Sublist [(call.path, call.device)] := by
    intro call left flow
    cases flow with
    | none => exact List.Sublist.refl _
    | some flow => exact List.nil_sublist _
  cases h with
  | finish => exact List.nil_sublist _
  | halt => exact List.nil_sublist _
  | call hw hc =>
    subst hc
    exact List.Sublist.refl _
  | await => exact List.Sublist.refl _
  | answer => exact hnext _ _ _
  | acknowledge => exact hnext _ _ _

end Queue

/-! ### Transitions -/

namespace Activity

/-- Counting devices one by one counts all of them. -/
theorem count_perm (queues : List (Device × ℕ)) (d : Device) :
    ((count queues d).flatMap fun x => List.replicate x.2 x.1).Perm
      ((queues.flatMap fun x => List.replicate x.2 x.1) ++ [d]) := by
  induction queues with
  | nil => exact List.Perm.refl _
  | cons x rest ih =>
    obtain ⟨e, n⟩ := x
    rw [count]
    split
    · next h =>
      subst h
      rw [List.flatMap_cons, List.flatMap_cons, List.replicate_succ, List.append_assoc]
      exact (List.perm_append_singleton e _).symm.trans (by simp)
    · rw [List.flatMap_cons, List.flatMap_cons, List.append_assoc]
      exact ih.append_left _

theorem foldl_count_perm (ds : List Device) : ∀ queues : List (Device × ℕ),
    ((ds.foldl count queues).flatMap fun x => List.replicate x.2 x.1).Perm
      ((queues.flatMap fun x => List.replicate x.2 x.1) ++ ds) := by
  induction ds with
  | nil => exact fun queues => List.Perm.of_eq (List.append_nil _).symm
  | cons d ds ih =>
    intro queues
    rw [List.foldl_cons]
    refine (ih (count queues d)).trans (((count_perm queues d).append_right ds).trans ?_)
    rw [List.append_assoc]
    exact List.Perm.refl _

/-- **A transition that is dispatched owes a call for each time that it names a device.** -/
theorem newQueues_owed (env : Environment) (now : Instant) (path p : Path) (t : Transition) :
    ((newQueues now p t (announced env t)).flatMap (Queue.owed path)).Perm
      (if p = path then t.named env.resolve else []) := by
  rw [newQueues, List.flatMap_map]
  by_cases hp : p = path
  · simp only [Queue.owed, hp, if_true]
    exact foldl_count_perm (t.named env.resolve) []
  · simp [Queue.owed, hp]

theorem announced_nodup (env : Environment) (t : Transition) :
    ((announced env t).map Prod.fst).Nodup := by
  rw [announced, foldl_count, List.map_map]
  exact (List.map_id _).symm ▸ eraseDups_nodup _

theorem newQueues_serves (now : Instant) (path : Path) (t : Transition)
    (devices : List (Device × ℕ)) : (newQueues now path t devices).filterMap Queue.serves?
      = (devices.map Prod.fst).map (Prod.mk path) := by
  rw [newQueues, List.filterMap_map, List.map_map]
  exact List.filterMap_eq_map (f := Prod.mk path ∘ Prod.fst) ▸ rfl

variable {places : List Path} {w w' : World} {x y : List Queue}

/-- **What is owed is called, and what is named is owed.** -/
theorem Serves.tallies (h : Serves env places w w' x y) :
    Tallies env w w' x y := by
  cases h with
  | rests hwork hy =>
    subst hy
    refine ⟨[], hwork.trans (List.append_nil _).symm, Nat.zero_le 1, fun path =>
      ⟨fun d => ?_, fun _ d => ?_, fun t ht => absurd ht List.not_mem_nil⟩⟩
    · exact Nat.le_of_eq (Nat.zero_add _)
    · exact Nat.zero_add _
  | @serves q q' before after hq hx hy =>
    obtain ⟨new, hsee, hlength, hnever, hpays⟩ := hq.pays
    have hnamed : ∀ path, new.flatMap (Entry.namedAt env path) = [] := by
      intro path
      refine List.flatMap_eq_nil_iff.mpr fun e he => ?_
      cases e with
      | dispatched p t => exact absurd he (hnever p t)
      | _ => rfl
    refine ⟨new, hsee, hlength, fun path => ⟨fun d => ?_, fun hw d => ?_, fun t ht =>
      absurd ht (hnever path t)⟩⟩
    · have hcount := (hpays path).1.count_le d
      rw [List.count_append] at hcount
      simp only [hx, hy, hnamed, List.flatMap_append, List.flatMap_cons, List.count_append,
        Queue.owed_live]
      omega
    · have hcount := congrArg (List.count d) ((hpays path).2 hw)
      rw [List.count_append] at hcount
      simp only [hx, hy, hnamed, List.flatMap_append, List.flatMap_cons, List.count_append,
        Queue.owed_live, List.count_nil]
      omega
  | @begins path t before after hw hpath hx hfree hy hw' =>
    have hsee : w'.see Entry.work? = w.see Entry.work? ++ [.dispatched path t] := by
      rw [hw', see_announce_blind rfl (fun _ => rfl) fun _ => rfl]
      rfl
    have hnone : x.flatMap (Queue.owed path) = [] :=
      List.flatMap_eq_nil_iff.mpr fun q hq => Queue.owed_eq_nil (hfree q hq)
    have hcount : ∀ p d, (y.flatMap (Queue.owed p)).count d = (x.flatMap (Queue.owed p)).count d
        + ([Entry.dispatched path t].flatMap (Entry.namedAt env p)).count d := by
      intro p d
      have hnew := (newQueues_owed env (announce env path t w).2.now p path t).count_eq d
      subst hx hy
      simp only [List.flatMap_append, List.count_append, List.flatMap_cons, List.flatMap_nil,
        List.append_nil, Entry.namedAt, hnew]
      omega
    refine ⟨_, hsee, Nat.le_refl 1, fun p => ⟨fun d => ?_, fun _ d => ?_, fun t' ht => ?_⟩⟩
    · exact Nat.le_of_eq ((Nat.zero_add _).trans (hcount p d))
    · exact (Nat.zero_add _).trans (hcount p d)
    · cases List.mem_singleton.mp ht
      exact ⟨hw, hnone⟩

/-- **The queues that are served go on to differ in their places or in their devices.** -/
theorem Serves.distinct (h : Serves env places w w' x y) (hx : (x.filterMap Queue.serves?).Nodup) :
    (y.filterMap Queue.serves?).Nodup := by
  cases h with
  | rests _ hy =>
    rw [hy]
    exact hx
  | @serves q q' before after hq hx' hy =>
    refine hx.sublist ?_
    subst hx' hy
    have hq' : (q'.live.filterMap Queue.serves?).Sublist ([q].filterMap Queue.serves?) := by
      rw [Queue.filterMap_live]
      refine hq.serves?_sublist.trans ?_
      cases q <;> exact List.Sublist.refl _
    rw [← List.singleton_append, List.filterMap_append, List.filterMap_append,
      List.filterMap_append, List.filterMap_append]
    exact (hq'.append_right _).append_left _
  | @begins path t before after _ _ hx' hfree hy _ =>
    subst hx' hy
    -- the new queues come first, and serve where nothing was served
    refine ((List.perm_append_comm_assoc _ _ _).filterMap Queue.serves?).nodup_iff.mpr ?_
    rw [List.filterMap_append, newQueues_serves, List.nodup_append]
    refine ⟨?_, hx, fun k hk l hl => ?_⟩
    · exact (announced_nodup env t).map (Prod.mk_right_injective path)
    · rintro rfl
      obtain ⟨d, -, rfl⟩ := List.mem_map.mp hk
      obtain ⟨q, hq, hserves⟩ := List.mem_filterMap.mp hl
      refine hfree q hq ?_
      rw [Queue.place?_eq, hserves]
      rfl

end Activity

/-! ### Runs -/

/-- What a list begins with, if one thing at most was added to it. -/
theorem prefix_append_short {α : Type} {l new before : List α} (hlength : new.length ≤ 1)
    (h : before <+: l ++ new) : before <+: l ∨ ∃ e, new = [e] ∧ before = l ++ [e] := by
  cases new with
  | nil =>
    rw [List.append_nil] at h
    exact .inl h
  | cons e rest =>
    obtain rfl : rest = [] := List.eq_nil_of_length_eq_zero (by simpa using hlength)
    exact (List.prefix_concat_iff.mp h).symm.imp_right fun heq => ⟨e, rfl, heq⟩

/-- What a run that serves some queues has done for the transitions at their places. -/
structure Ledger (env : Environment) (w : World) (x : List Queue) : Prop where
  /-- The queues differ in their places or in their devices. -/
  distinct : (x.filterMap Queue.serves?).Nodup
  /-- No more calls are made and owed than were named. -/
  le : ∀ path d, ((w.see Entry.work?).filterMap (Entry.callAt? path)).count d
    + (x.flatMap (Queue.owed path)).count d
      ≤ ((w.see Entry.work?).flatMap (Entry.namedAt env path)).count d
  /-- No fewer are, as long as the run goes on. -/
  eq : w.halted = false → ∀ path d, ((w.see Entry.work?).filterMap (Entry.callAt? path)).count d
    + (x.flatMap (Queue.owed path)).count d
      = ((w.see Entry.work?).flatMap (Entry.namedAt env path)).count d
  /-- When a transition is dispatched, all calls were made that were named at its place before. -/
  closed : ∀ before path t, before ++ [.dispatched path t] <+: w.see Entry.work? →
    ∀ d, (before.filterMap (Entry.callAt? path)).count d
      = (before.flatMap (Entry.namedAt env path)).count d

namespace Ledger

variable {places : List Path} {w w' : World} {x y : List Queue}

/-- Nothing is done for a transition. -/
theorem of_see (h : Ledger env w x) (hsee : w'.see Entry.work? = w.see Entry.work?)
    (hgoes : w'.halted = false → w.halted = false) : Ledger env w' x where
  distinct := h.distinct
  le := by
    rw [hsee]
    exact h.le
  eq := by
    rw [hsee]
    exact fun hw => h.eq (hgoes hw)
  closed := by
    rw [hsee]
    exact h.closed

/-- **A move keeps the ledger.** -/
theorem step (h : Ledger env w x) (hserves : Activity.Serves env places w w' x y)
    (hgoes : w'.halted = false → w.halted = false) : Ledger env w' y := by
  obtain ⟨new, hsee, hlength, hnew⟩ := hserves.tallies
  refine ⟨hserves.distinct h.distinct, fun path d => ?_, fun hw path d => ?_, ?_⟩
  · have hold := h.le path d
    have hadd := (hnew path).1 d
    simp only [hsee, List.filterMap_append, List.flatMap_append, List.count_append]
    omega
  · have hold := h.eq (hgoes hw) path d
    have hadd := (hnew path).2.1 hw d
    simp only [hsee, List.filterMap_append, List.flatMap_append, List.count_append]
    omega
  · intro before path t hprefix
    rw [hsee] at hprefix
    rcases prefix_append_short hlength hprefix with hprefix | ⟨e, rfl, heq⟩
    · exact h.closed before path t hprefix
    · -- the transition is dispatched now, and nothing is owed at its place
      obtain ⟨rfl, hlast⟩ := List.append_inj' heq rfl
      obtain ⟨hw, howed⟩ := (hnew path).2.2 t (List.mem_singleton.mpr (List.cons.inj hlast).1)
      intro d
      have hold := h.eq hw path d
      rw [howed] at hold
      exact hold

end Ledger

namespace Program

variable {p : Program} {m : Machine}

/-- Nothing is served in the beginning. -/
theorem start_serving (env : Environment) (p : Program) :
    (Machine.start env p).activity.serving = [] := by
  by_cases hp : p.step.faults = []
  · rw [start_of_valid hp]
    exact (Step.activity_idle env.scope p.step _).serving
  · rw [start_of_faults hp]
    rfl

theorem start_ledger (env : Environment) (p : Program) :
    Ledger env (Machine.start env p).world (Machine.start env p).activity.serving := by
  have hsee : (Machine.start env p).world.see Entry.work? = [] := by
    rw [start_world, see_firstWorld rfl]
    rfl
  rw [start_serving]
  refine ⟨List.nodup_nil, ?_, ?_, ?_⟩
  · rw [hsee]
    exact fun _ _ => Nat.le_refl 0
  · rw [hsee]
    exact fun _ _ _ => rfl
  · rw [hsee]
    intro before path t hprefix
    exact absurd (List.prefix_nil.mp hprefix) (List.append_ne_nil_of_right_ne_nil _ nofun)

/-- **The ledger of a run.** -/
theorem Reaches.ledger (h : p.Reaches env m) : Ledger env m.world m.activity.serving := by
  induction h with
  | refl => exact start_ledger env p
  | tail hprev hmove ih =>
    have hready := (Machine.Moves.accounted hprev (start_accounted env p)).ready
    cases hmove with
    | act ha =>
      exact ih.step (ha.serving hready (Reaches.arranged hprev)) ha.ops.going
    | wait a w t => exact ih.of_see rfl id
    | turn a w => exact ih.of_see rfl id
    | cancel a w due =>
      exact ih.of_see (see_cancelIf w rfl due) (Ops.going (.single (.cancel due w)))

end Program

/-! ### One call at a time -/

mutual

/-- Calls are in flight in the queues that are served. -/
theorem Activity.inFlight_eq : ∀ a : Activity, a.inFlight = a.serving.flatMap Queue.inFlight
  | .applying queues => by
    have hlive : ∀ q : Queue, q.live.flatMap Queue.inFlight = q.inFlight := by
      intro q
      cases q <;> rfl
    rw [Activity.inFlight, Activity.serving, List.flatMap_assoc]
    simp only [hlive]
  | .seq first rest => Activity.inFlight_eq first
  | .join branches => Activity.inFlightAll_eq branches
  | .within _ _ _ body current => Activity.inFlight_eq current
  | .ended _ | .pause .. | .sleeping _ | .dispatch .. | .enter .. | .rounds .. => rfl

theorem Activity.inFlightAll_eq : ∀ branches : List Activity,
    Activity.inFlightAll branches = (Activity.servingAll branches).flatMap Queue.inFlight
  | [] => rfl
  | a :: rest => by
    rw [Activity.inFlightAll, Activity.servingAll, List.flatMap_append, Activity.inFlight_eq a,
      Activity.inFlightAll_eq rest]

end

/-- Each call that is in flight belongs to a queue that is served. -/
theorem Queue.count_inFlight (x : List Queue) (path : Path) (d : Device) :
    ((x.flatMap Queue.inFlight).filterMap (Call.at? path)).count d
      ≤ (x.filterMap Queue.serves?).count (path, d) := by
  have hcall : ∀ c : Call, ([c].filterMap (Call.at? path)).count d
      ≤ [(c.path, c.device)].count (path, d) := by
    intro c
    by_cases hpath : c.path = path
    · by_cases hd : c.device = d
      · simp [Call.at?, hpath, hd]
      · simp [Call.at?, hpath, hd]
    · simp [Call.at?, hpath]
  induction x with
  | nil => exact Nat.le_refl 0
  | cons q x ih =>
    rw [List.flatMap_cons, List.filterMap_append, List.count_append, ← List.singleton_append,
      List.filterMap_append, List.count_append]
    refine Nat.add_le_add ?_ ih
    cases q with
    | ready => exact Nat.zero_le _
    | ended => exact Nat.le_refl 0
    | calling c => exact hcall c
    | awaiting c => exact hcall c

namespace World

variable (w : World) (path : Path)

theorem work_callAt : (w.see Entry.work?).filterMap (Entry.callAt? path)
    = (w.see Entry.call?).filterMap (Call.at? path) := by
  rw [see, see, List.filterMap_filterMap, List.filterMap_filterMap]
  refine congrArg (List.filterMap · w.entries) (funext fun e => ?_)
  cases e <;> rfl

theorem work_settledAt : (w.see Entry.work?).filterMap (Entry.settledAt? path)
    = ((w.see Entry.settled?).map Prod.fst).filterMap (Call.at? path) := by
  rw [see, see, List.filterMap_filterMap, List.filterMap_map, List.filterMap_filterMap]
  refine congrArg (List.filterMap · w.entries) (funext fun e => ?_)
  cases e <;> rfl

end World

/-- A move does at most one thing for the transitions. -/
theorem Activity.Move.work {a a' : Activity} {w w' : World} (h : Activity.Move env a w a' w')
    (hready : a.Ready) (harranged : a.Arranged) :
    ∃ new : List Entry, w'.see Entry.work? = w.see Entry.work? ++ new ∧ new.length ≤ 1 := by
  obtain ⟨new, hsee, hlength, -⟩ := (h.serving hready harranged).tallies
  exact ⟨new, hsee, hlength⟩

namespace Program

variable {p : Program} {m : Machine}

/-- Calls that are not settled are in flight, and so there is one at most for each device. -/
theorem Reaches.unsettled (h : p.Reaches env m) (path : Path) (d : Device) :
    ((m.world.see Entry.work?).filterMap (Entry.callAt? path)).count d
      ≤ ((m.world.see Entry.work?).filterMap (Entry.settledAt? path)).count d + 1 := by
  have hcalls := (Machine.Moves.accounted h (start_accounted env p)).calls
  have hflight : ((m.activity.serving.flatMap Queue.inFlight).filterMap (Call.at? path)).count d
      ≤ 1 := (Queue.count_inFlight _ path d).trans (List.nodup_iff_count_le_one.mp
        h.ledger.distinct _)
  have hcount := (hcalls.filterMap (Call.at? path)).count_eq d
  rw [List.filterMap_append, List.count_append, Activity.inFlight_eq] at hcount
  rw [work_callAt, work_settledAt, hcount]
  exact Nat.add_le_add_left hflight _

/-- **No device is called for a transition while it is being called for it already**, at any time
of a run. -/
theorem Reaches.alone (h : p.Reaches env m) : ∀ before, before <+: m.world.see Entry.work? →
    ∀ path d, (before.filterMap (Entry.callAt? path)).count d
      ≤ (before.filterMap (Entry.settledAt? path)).count d + 1 := by
  have hnow := @Reaches.unsettled env p
  induction h with
  | refl =>
    intro before hprefix
    have hsee : (Machine.start env p).world.see Entry.work? = [] := by
      rw [start_world, see_firstWorld rfl]
      rfl
    rw [hsee] at hprefix
    rw [List.prefix_nil.mp hprefix]
    exact fun _ _ => Nat.zero_le _
  | @tail m m' hprev hmove ih =>
    intro before hprefix
    have hnew : ∃ new : List Entry, m'.world.see Entry.work? = m.world.see Entry.work? ++ new ∧
        new.length ≤ 1 := by
      cases hmove with
      | act ha =>
        exact ha.work (Machine.Moves.accounted hprev (start_accounted env p)).ready
          (Reaches.arranged hprev)
      | cancel a w due =>
        exact ⟨[], (see_cancelIf w rfl due).trans (List.append_nil _).symm, Nat.zero_le 1⟩
      | _ => exact ⟨[], (List.append_nil _).symm, Nat.zero_le 1⟩
    obtain ⟨new, hsee, hlength⟩ := hnew
    have hall : p.Reaches env m' := Relation.ReflTransGen.tail hprev hmove
    rw [hsee] at hprefix
    rcases prefix_append_short hlength hprefix with hprefix | ⟨e, rfl, rfl⟩
    · exact ih before hprefix
    · rw [← hsee]
      exact hnow hall

end Program

/-! ### One time that a transition is dispatched -/

/-- Views of what is done for transitions see nothing else. -/
theorem callAt?_work (path : Path) (e : Entry) :
    e.callAt? path = e.work?.bind (Entry.callAt? path) := by cases e <;> rfl

theorem settledAt?_work (path : Path) (e : Entry) :
    e.settledAt? path = e.work?.bind (Entry.settledAt? path) := by cases e <;> rfl

theorem filterMap_callAt (path : Path) (es : List Entry) :
    (es.filterMap Entry.work?).filterMap (Entry.callAt? path)
      = es.filterMap (Entry.callAt? path) := by
  rw [List.filterMap_filterMap]
  exact congrArg (List.filterMap · es) (funext fun e => (callAt?_work path e).symm)

theorem filterMap_settledAt (path : Path) (es : List Entry) :
    (es.filterMap Entry.work?).filterMap (Entry.settledAt? path)
      = es.filterMap (Entry.settledAt? path) := by
  rw [List.filterMap_filterMap]
  exact congrArg (List.filterMap · es) (funext fun e => (settledAt?_work path e).symm)

/-- Nothing is named at a place where nothing is dispatched. -/
theorem flatMap_namedAt {path : Path} {es : List Entry} (h : ∀ t, .dispatched path t ∉ es) :
    (es.filterMap Entry.work?).flatMap (Entry.namedAt env path) = [] := by
  refine List.flatMap_eq_nil_iff.mpr fun e he => ?_
  obtain ⟨e', he', hwork⟩ := List.mem_filterMap.mp he
  cases e' with
  | dispatched p t =>
    obtain rfl := Option.some.inj hwork
    refine if_neg ?_
    rintro rfl
    exact h t he'
  | called c =>
    obtain rfl := Option.some.inj hwork
    rfl
  | settled c error =>
    obtain rfl := Option.some.inj hwork
    rfl
  | _ => exact absurd hwork nofun

namespace Program

variable {p : Program} {m : Machine} {before since : List Entry} {path : Path} {t : Transition}

/-- The calls that are made once a transition is dispatched, and those that it still owes, are those
of the devices that it names. -/
theorem Reaches.count_since (h : p.Reaches env m)
    (hsplit : m.world.entries = before ++ .dispatched path t :: since)
    (hlast : ∀ t', .dispatched path t' ∉ since) (d : Device) :
    (since.filterMap (Entry.callAt? path)).count d + (m.activity.owed path).count d
        ≤ (t.named env.resolve).count d ∧
      (m.world.halted = false →
        (since.filterMap (Entry.callAt? path)).count d + (m.activity.owed path).count d
          = (t.named env.resolve).count d) := by
  have hsee : m.world.see Entry.work? = before.filterMap Entry.work?
      ++ .dispatched path t :: since.filterMap Entry.work? := by
    rw [see, hsplit, List.filterMap_append]
    rfl
  have hclosed := h.ledger.closed (before.filterMap Entry.work?) path t
    ⟨since.filterMap Entry.work?, by rw [hsee, List.append_assoc]; rfl⟩ d
  have hnamed : (Entry.dispatched path t).namedAt env path = t.named env.resolve := if_pos rfl
  have hnone : (Entry.dispatched path t).callAt? path = none := rfl
  have hcalls : ((m.world.see Entry.work?).filterMap (Entry.callAt? path)).count d
      = ((before.filterMap Entry.work?).filterMap (Entry.callAt? path)).count d
        + (since.filterMap (Entry.callAt? path)).count d := by
    rw [hsee, List.filterMap_append, List.count_append, List.filterMap_cons_none hnone,
      filterMap_callAt path since]
  have hnames : ((m.world.see Entry.work?).flatMap (Entry.namedAt env path)).count d
      = ((before.filterMap Entry.work?).flatMap (Entry.namedAt env path)).count d
        + (t.named env.resolve).count d := by
    rw [hsee, List.flatMap_append, List.count_append, List.flatMap_cons, hnamed,
      flatMap_namedAt hlast, List.append_nil]
  have hle := h.ledger.le path d
  have heq := fun hw => h.ledger.eq hw path d
  rw [hcalls, hnames] at hle heq
  refine ⟨?_, fun hw => ?_⟩
  · show _ + (m.activity.serving.flatMap (Queue.owed path)).count d ≤ _
    omega
  · have heq := heq hw
    show _ + (m.activity.serving.flatMap (Queue.owed path)).count d = _
    omega

/-- **A transition that is dispatched calls no device more often than it names it**, and as often
as that when it is no more served and the run goes on. -/
theorem Reaches.calls_since (h : p.Reaches env m)
    (hsplit : m.world.entries = before ++ .dispatched path t :: since)
    (hlast : ∀ t', .dispatched path t' ∉ since) :
    (since.filterMap (Entry.callAt? path)).Subperm (t.named env.resolve) ∧
      (m.world.halted = false → (∀ q ∈ m.activity.serving, q.place? ≠ some path) →
        (since.filterMap (Entry.callAt? path)).Perm (t.named env.resolve)) := by
  refine ⟨List.subperm_ext_iff.mpr fun d _ => ?_,
    fun hw hover => List.perm_iff_count.mpr fun d => ?_⟩
  · have hcount := (h.count_since hsplit hlast d).1
    omega
  · have hcount := (h.count_since hsplit hlast d).2 hw
    have howed : m.activity.owed path = [] :=
      List.flatMap_eq_nil_iff.mpr fun q hq => Queue.owed_eq_nil (hover q hq)
    rw [howed] at hcount
    exact hcount

/-- **All devices that a transition names have been called before it is dispatched again.** -/
theorem Reaches.calls_between (h : p.Reaches env m) {after : List Entry} {t' : Transition}
    (hsplit : m.world.entries
      = before ++ .dispatched path t :: (since ++ .dispatched path t' :: after))
    (hlast : ∀ t', .dispatched path t' ∉ since) :
    (since.filterMap (Entry.callAt? path)).Perm (t.named env.resolve) := by
  have hsee : m.world.see Entry.work? = before.filterMap Entry.work?
      ++ .dispatched path t :: (since.filterMap Entry.work?
        ++ .dispatched path t' :: after.filterMap Entry.work?) := by
    rw [see, hsplit, List.filterMap_append, List.filterMap_cons, List.filterMap_append]
    rfl
  refine List.perm_iff_count.mpr fun d => ?_
  have hclosed := h.ledger.closed (before.filterMap Entry.work?) path t ⟨_, by
    rw [hsee, List.append_assoc]; rfl⟩ d
  have hclosed' := h.ledger.closed
    (before.filterMap Entry.work? ++ .dispatched path t :: since.filterMap Entry.work?) path t'
    ⟨after.filterMap Entry.work?, by rw [hsee]; simp⟩ d
  have hnamed : (Entry.dispatched path t).namedAt env path = t.named env.resolve := if_pos rfl
  have hnone : (Entry.dispatched path t).callAt? path = none := rfl
  rw [List.filterMap_append, List.count_append, List.flatMap_append, List.count_append,
    List.flatMap_cons, hnamed, flatMap_namedAt hlast, List.append_nil,
    List.filterMap_cons_none hnone, filterMap_callAt path since] at hclosed'
  omega

end Program

end Lightshow
