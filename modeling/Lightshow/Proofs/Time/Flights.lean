import Lightshow.Proofs.Run.Owing
import Lightshow.Proofs.Time.Punctual
import Lightshow.Proofs.Time.Work

/-!
# Calls in flight

A call is in flight from the moment at which the gateway is called until it is known what the call
came to.  Which calls are in flight, and when each of them is to complete, can be read off the
journal, since the gateway's reply follows from what happened before the call.

A run that the caller cancels waits for nothing but the calls that are in flight then.  No calls are
made any more, and each of the others completes when it was expected to; so the latest of these
instants is fixed at the moment of the cancellation, and this is when the run ends.

## Main definitions

* `Journal.flights` — the calls in flight, each with the instant at which it completes.
* `latest` — the last of some instants.
* `World.Seals` — what is done after the caller cancels does not concern calls.
* `Machine.Lands` — what a cancelled run waits for.

## Main results

* `Program.Runs.flights` — what is in flight is what queues wait for.
* `Program.Runs.lands` — **a run that is cancelled ends with the calls in flight.**
* `Program.cancelled_returns` — runs that are cancelled.
-/

namespace Lightshow

open Relation World

variable {env : Environment}

/-! ### Journals -/

/-- The calls that are in flight after what happened so far, each with the instant at which it
completes. -/
def Journal.flights (env : Environment) : Journal → List (Call × Instant)
  | [] => []
  | r :: earlier =>
    match r.entry with
    | .called c => (c, c.completes env (env.gateway earlier c)) :: Journal.flights env earlier
    | .settled c _ => (Journal.flights env earlier).filter (·.1 ≠ c)
    | _ => Journal.flights env earlier

/-- The entries that tell of calls. -/
def Entry.flight? : Entry → Option Entry
  | .called c => some (.called c)
  | .settled c error => some (.settled c error)
  | _ => none

/-- The last of some instants, or `now` if none is later. -/
def latest (now : Instant) (flights : List (Call × Instant)) : Instant :=
  (flights.map Prod.snd).foldr max now

theorem latest_le_iff {now t : Instant} {flights : List (Call × Instant)} :
    latest now flights ≤ t ↔ now ≤ t ∧ ∀ f ∈ flights, f.2 ≤ t :=
  foldr_max_le_iff.trans (and_congr_right' List.forall_mem_map)

/-- Whether the last instant is the same can be told by what is no later than some instant. -/
theorem latest_congr {now now' : Instant} {flights flights' : List (Call × Instant)}
    (h : ∀ t, (now ≤ t ∧ ∀ f ∈ flights, f.2 ≤ t) ↔ (now' ≤ t ∧ ∀ f ∈ flights', f.2 ≤ t)) :
    latest now flights = latest now' flights' :=
  Nat.le_antisymm (latest_le_iff.mpr ((h _).mpr (latest_le_iff.mp (Nat.le_refl _))))
    (latest_le_iff.mpr ((h _).mp (latest_le_iff.mp (Nat.le_refl _))))

theorem latest_perm {now : Instant} {flights flights' : List (Call × Instant)}
    (h : flights.Perm flights') : latest now flights = latest now flights' :=
  latest_congr fun _ => and_congr_right fun _ =>
    ⟨fun hall f hf => hall f (h.mem_iff.mpr hf), fun hall f hf => hall f (h.mem_iff.mp hf)⟩

namespace Journal

/-- What does not concern calls leaves them in flight. -/
theorem flights_append {new old : Journal} (h : ∀ r ∈ new, r.entry.flight? = none) :
    (new ++ old).flights env = old.flights env := by
  induction new with
  | nil => rfl
  | cons r new ih =>
    rw [List.forall_mem_cons] at h
    obtain ⟨hr, hnew⟩ := h
    obtain ⟨time, entry⟩ := r
    rw [List.cons_append, flights]
    cases entry with
    | called c => exact absurd hr nofun
    | settled c error => exact absurd hr nofun
    | _ => exact ih hnew

/-- What is in flight after more happened, but no calls, was in flight before. -/
theorem mem_of_flights {new old : Journal} (h : ∀ r ∈ new, r.entry.call? = none)
    {f : Call × Instant} (hf : f ∈ (new ++ old).flights env) : f ∈ old.flights env := by
  induction new with
  | nil => exact hf
  | cons r new ih =>
    rw [List.forall_mem_cons] at h
    obtain ⟨hr, hnew⟩ := h
    obtain ⟨time, entry⟩ := r
    rw [List.cons_append, flights] at hf
    cases entry with
    | called c => exact absurd hr nofun
    | settled c error => exact ih hnew (List.mem_filter.mp hf).1
    | _ => exact ih hnew hf

/-- When it is known what a call came to it is no more in flight. -/
theorem flights_settled {new old : Journal} {c : Call} {error : Option DeviceError}
    (h : (entries new).filterMap Entry.flight? = [.settled c error]) :
    (new ++ old).flights env = (old.flights env).filter (·.1 ≠ c) := by
  induction new with
  | nil => exact absurd h nofun
  | cons r new ih =>
    obtain ⟨time, entry⟩ := r
    have hentries : entries (⟨time, entry⟩ :: new) = entries new ++ [entry] := by simp [entries]
    rw [hentries, List.filterMap_append] at h
    cases hwork : entry.flight? with
    | none =>
      rw [List.filterMap_cons_none hwork, List.filterMap_nil, List.append_nil] at h
      have hquiet : ∀ r ∈ ([⟨time, entry⟩] : Journal), r.entry.flight? = none := fun r hr => by
        rw [List.mem_singleton.mp hr]
        exact hwork
      exact (flights_append hquiet).trans (ih h)
    | some e =>
      -- this is the only entry that tells of calls
      rw [List.filterMap_cons_some hwork] at h
      obtain ⟨hnew, hlast⟩ := List.append_inj' (h.trans (List.nil_append _).symm) rfl
      have hquiet : ∀ r ∈ new, r.entry.flight? = none := fun r hr =>
        List.filterMap_eq_nil_iff.mp hnew _
          (List.mem_map.mpr ⟨r, List.mem_reverse.mpr hr, rfl⟩)
      obtain rfl : e = .settled c error := (List.cons.inj hlast).1
      obtain rfl : entry = .settled c error := by
        cases entry <;> simp_all [Entry.flight?]
      exact congrArg (List.filter _) (flights_append hquiet)

/-- A call that is made is in flight. -/
theorem flights_call (w : World) (c : Call) : (w.call env c).journal.flights env
    = (c, c.completes env (env.gateway w.journal c)) :: w.journal.flights env := by
  rw [World.call]
  unfold World.cancelIf
  split <;> rfl

end Journal

/-! ### Queues -/

/-- What is in flight can be told from what is done for transitions. -/
theorem Entry.flight?_work (e : Entry) : e.flight? = e.work?.bind Entry.flight? := by
  cases e <;> rfl

namespace Queue

/-- The call of a queue that is in flight, with the instant at which it completes. -/
def flight? (env : Environment) : Queue → Option (Call × Instant)
  | .calling c _ outcome returns => some (c, outcome.finishes env c returns)
  | .awaiting c _ window => some (c, window.due)
  | .ready .. | .ended _ => none

/-- What is due of a queue is due no later than its call completes. -/
theorem due_le_flight (env : Environment) {q : Queue} {t : Instant} (h : q.due = some t) :
    ∃ f, q.flight? env = some f ∧ t ≤ f.2 := by
  cases q with
  | calling c left outcome returns =>
    obtain rfl := Option.some.inj h
    exact ⟨_, rfl, le_finishes ..⟩
  | awaiting c left window =>
    obtain rfl := Option.some.inj h
    exact ⟨_, rfl, Nat.le_refl _⟩
  | _ => exact absurd h nofun

theorem flight?_serves {q : Queue} {f : Call × Instant} (h : q.flight? env = some f) :
    q.serves? = some (f.1.path, f.1.device) := by
  cases q with
  | calling => exact (Option.some.inj h) ▸ rfl
  | awaiting => exact (Option.some.inj h) ▸ rfl
  | _ => exact absurd h nofun

/-- What a move of a queue does to what is in flight.  Nothing; or a call is made, if the run goes
on; or a call has completed. -/
inductive Flies (env : Environment) (q q' : Queue) (w w' : World) : Prop
  | rests (hsee : w'.see Entry.flight? = w.see Entry.flight?)
      (hq : q'.flight? env = q.flight? env)
  | departs (c : Call) (hw : w.halted = false)
      (hw' : w' = w.call env c) (hq : q.flight? env = none)
      (hq' : q'.flight? env = some (c, c.completes env (env.gateway w.journal c)))
  | lands (c : Call)
      (hsee : ∃ error, w'.see Entry.flight? = w.see Entry.flight? ++ [.settled c error])
      (hq : q.flight? env = some (c, w.now)) (hq' : q'.flight? env = none)

/-- **Calls complete when they are expected to.** -/
theorem Move.flies {q q' : Queue} {w w' : World} (h : Move env q w q' w')
    (hpunctual : ∀ t ∈ q.due, w.now ≤ t) : Flies env q q' w w' := by
  have hnext : ∀ (call : Call) (left : ℕ) (flow : Option Flow),
      (next call left flow).flight? env = none := by
    intro call left flow
    cases flow <;> rfl
  have hsettle : ∀ (call : Call) (result : Except DeviceError Unit) (v : World),
      (settle env call result v).2.see Entry.flight?
        = v.see Entry.flight? ++ [.settled call (error? result)] := by
    intro call result v
    rw [see_settle rfl]
    simp [Entry.flight?]
  cases h with
  | finish => exact .rests rfl rfl
  | halt => exact .rests rfl rfl
  | @call call c left w hw hc =>
    have htime : c.time = w.now := by rw [hc]
    refine .departs c hw rfl rfl ?_
    rw [Call.completes, htime]
    rfl
  | @await call left outcome returns window w hr ha =>
    obtain rfl : returns = w.now := Nat.le_antisymm hr (hpunctual returns rfl)
    refine .rests (see_note_none _ rfl) ?_
    rw [flight?, flight?, finishes_of_window ha]
  | @answer call left outcome returns result w hr ha =>
    obtain rfl : returns = w.now := Nat.le_antisymm hr (hpunctual returns rfl)
    refine .lands call ⟨_, (hsettle ..).trans (by rw [see_note_none _ rfl])⟩ ?_ (hnext ..)
    rw [flight?, finishes_of_answer ha]
  | @acknowledge call left window result w ha =>
    have hdue : window.due = w.now :=
      Nat.le_antisymm (Window.due_le_of_result ha) (hpunctual _ rfl)
    refine .lands call ⟨_, hsettle ..⟩ ?_ (hnext ..)
    rw [flight?, hdue]

end Queue

/-! ### What is served -/

/-- The calls of some queues that are in flight. -/
def aloft (env : Environment) (x : List Queue) : List (Call × Instant) :=
  x.filterMap (Queue.flight? env)

theorem aloft_append (x y : List Queue) : aloft env (x ++ y) = aloft env x ++ aloft env y :=
  List.filterMap_append

theorem aloft_cons (q : Queue) (x : List Queue) :
    aloft env (q :: x) = (q.flight? env).toList ++ aloft env x := by
  rw [aloft, List.filterMap_cons, aloft]
  cases q.flight? env <;> rfl

/-- A queue that has ended has nothing in flight. -/
theorem aloft_live (q : Queue) : aloft env q.live = (q.flight? env).toList := by
  cases q <;> rfl

/-- Queues that differ in their places or in their devices have different calls in flight. -/
theorem aloft_nodup (env : Environment) {x : List Queue}
    (hx : (x.filterMap Queue.serves?).Nodup) :
    ((aloft env x).map Prod.fst).Nodup := by
  have hsub : ((aloft env x).map fun f => (f.1.path, f.1.device)).Sublist
      (x.filterMap Queue.serves?) := by
    clear hx
    induction x with
    | nil => exact List.Sublist.refl _
    | cons q x ih =>
      rw [aloft_cons, List.filterMap_cons]
      cases hq : q.flight? env with
      | some f =>
        rw [Queue.flight?_serves hq]
        exact ih.cons_cons _
      | none =>
        cases q.serves? with
        | none => exact ih
        | some k => exact ih.cons k
  have hkeys : (((aloft env x).map Prod.fst).map fun c => (c.path, c.device)).Nodup := by
    rw [List.map_map]
    exact hx.sublist hsub
  exact hkeys.of_map _

/-- All calls but one. -/
theorem filter_others {before after : List (Call × Instant)} {f : Call × Instant}
    (h : ((before ++ ((some f).toList ++ after)).map Prod.fst).Nodup) :
    (before ++ ((some f).toList ++ after)).filter (·.1 ≠ f.1)
      = before ++ ((none : Option (Call × Instant)).toList ++ after) := by
  simp only [Option.toList_some, Option.toList_none, List.singleton_append, List.nil_append,
    List.map_append, List.map_cons] at h ⊢
  obtain ⟨-, hafter, hbefore⟩ := List.nodup_append.mp h
  have hleft : before.filter (·.1 ≠ f.1) = before := by
    refine List.filter_eq_self.mpr fun g hg => ?_
    exact decide_eq_true (hbefore g.1 (List.mem_map_of_mem hg) f.1 List.mem_cons_self)
  have hright : after.filter (·.1 ≠ f.1) = after := by
    refine List.filter_eq_self.mpr fun g hg => decide_eq_true fun heq => ?_
    exact (List.nodup_cons.mp hafter).1 (heq ▸ List.mem_map_of_mem hg)
  rw [List.filter_append, List.filter_cons_of_neg (by simp), hleft, hright]

namespace Activity

variable {places : List Path} {w w' : World} {x y : List Queue}

/-- New queues have no calls in flight. -/
theorem newQueues_aloft (now : Instant) (path : Path) (t : Transition)
    (devices : List (Device × ℕ)) : aloft env (newQueues now path t devices) = [] := by
  refine List.filterMap_eq_nil_iff.mpr fun q hq => ?_
  obtain ⟨d, -, rfl⟩ := List.mem_map.mp hq
  rfl

/-- **What is in flight is what queues wait for**, after a move of an activity. -/
theorem Serves.flights (h : Serves env places w w' x y) (hgrows : w.Grows w')
    (hpunctual : ∀ q ∈ x, ∀ t ∈ q.due, w.now ≤ t) (hx : (x.filterMap Queue.serves?).Nodup)
    (hflights : (w.journal.flights env).Perm (aloft env x)) :
    (w'.journal.flights env).Perm (aloft env y) := by
  obtain ⟨-, new, hnew, -⟩ := hgrows
  have hsilent : w'.see Entry.flight? = w.see Entry.flight? →
      w'.journal.flights env = w.journal.flights env := fun hsee => by
    rw [hnew]
    exact Journal.flights_append (view_eq_none hnew hsee)
  cases h with
  | rests hwork hy => rwa [hsilent (see_of_base Entry.flight?_work hwork), hy]
  | @begins path t before after _ _ hx' _ hy hw' =>
    have hsee : w'.see Entry.flight? = w.see Entry.flight? := by
      rw [hw']
      exact see_announce_none rfl (fun _ => rfl) (fun _ => rfl) (fun _ _ => rfl)
        (fun _ _ => rfl) t w
    subst hx' hy
    rw [aloft_append] at hflights
    rw [hsilent hsee, aloft_append, aloft_append, newQueues_aloft, List.nil_append]
    exact hflights
  | @serves q q' before after hq hx' hy =>
    have hmem : q ∈ x := hx' ▸ List.mem_append_right _ List.mem_cons_self
    have hdistinct := aloft_nodup env hx
    subst hx' hy
    rw [aloft_append, aloft_cons] at hflights hdistinct
    rw [aloft_append, aloft_append, aloft_live]
    cases hq.flies (hpunctual q hmem) with
    | rests hsee hsame => rwa [hsilent hsee, hsame]
    | departs c _ hw' hnone hsome =>
      rw [hnone] at hflights
      rw [hw', Journal.flights_call, hsome]
      exact (hflights.cons _).trans List.perm_middle.symm
    | lands c hsee hsome hnone =>
      obtain ⟨error, hsee⟩ := hsee
      have hsettled : new.entries.filterMap Entry.flight? = [.settled c error] := by
        rw [see_of_journal hnew] at hsee
        exact List.append_cancel_left hsee
      rw [hsome] at hflights hdistinct
      rw [hnew, Journal.flights_settled hsettled, hnone]
      -- no other queue has this call in flight
      rw [← filter_others hdistinct]
      exact hflights.filter _

/-- **The last of the calls in flight does not change** while a run is to halt, and no calls are
made. -/
theorem Serves.latest (h : Serves env places w w' x y) (hw : w.halted = true)
    (hpunctual : ∀ q ∈ x, ∀ t ∈ q.due, w.now ≤ t) :
    latest w.now (aloft env y) = latest w.now (aloft env x) ∧
      w'.see Entry.call? = w.see Entry.call? := by
  have hcalls : ∀ e : Entry, e.call? = e.flight?.bind Entry.call? := fun e => by
    cases e <;> rfl
  cases h with
  | rests hwork hy =>
    rw [hy]
    exact ⟨rfl, see_of_base hcalls (see_of_base Entry.flight?_work hwork)⟩
  | begins _ _ hgoing => exact absurd hw (not_halted_of_going hgoing)
  | @serves q q' before after hq hx hy =>
    have hmem : q ∈ x := hx ▸ List.mem_append_right _ List.mem_cons_self
    subst hx hy
    rw [aloft_append, aloft_append, aloft_live, aloft_append, aloft_cons]
    cases hq.flies (hpunctual q hmem) with
    | rests hsee hsame =>
      rw [hsame]
      exact ⟨rfl, see_of_base hcalls hsee⟩
    | departs c hgoing => exact absurd hw (not_halted_of_going hgoing)
    | lands c hsee hsome hnone =>
      obtain ⟨error, hsee⟩ := hsee
      rw [hsome, hnone]
      refine ⟨latest_congr fun t => and_congr_right fun ht => ?_, ?_⟩
      · -- the call completes now
        simp only [Option.toList_some, Option.toList_none, List.nil_append, List.forall_mem_append,
          List.forall_mem_singleton, ht, true_and]
      · rw [see_factor _ hcalls, hsee, List.filterMap_append, ← see_factor _ hcalls]
        exact List.append_nil _

end Activity

/-! ### The moment of the cancellation -/

namespace World

/-- From one world to another no call is made or comes to something after the caller cancels. -/
def Seals (w w' : World) : Prop :=
  ∃ new : Journal, w'.journal = new ++ w.journal ∧
    ∀ later t earlier, new = later ++ ⟨t, .cancelled⟩ :: earlier →
      ∀ r ∈ later, r.entry.flight? = none

variable {u v w : World}

theorem Seals.refl (w : World) : w.Seals w := by
  refine ⟨[], rfl, fun later t earlier h => ?_⟩
  exact absurd h.symm (List.append_ne_nil_of_right_ne_nil _ (List.cons_ne_nil _ _))

/-- Anything may be done before, but for a cancellation. -/
theorem Seals.note_first {e : Entry} (h : (w.note e).Seals v) (he : e ≠ .cancelled) :
    w.Seals v := by
  obtain ⟨new, hnew, hseals⟩ := h
  refine ⟨new ++ [⟨w.now, e⟩], hnew.trans (List.append_cons _ _ _),
    fun later t earlier hsplit => ?_⟩
  rcases List.eq_nil_or_concat earlier with rfl | ⟨before, last, rfl⟩
  · obtain ⟨-, hlast⟩ := List.append_inj' hsplit rfl
    exact absurd (Record.mk.inj (List.cons.inj hlast).1).2 he
  · refine hseals later t before ?_
    have hconcat : new ++ [⟨w.now, e⟩] = (later ++ ⟨t, .cancelled⟩ :: before) ++ [last] := by
      rw [hsplit]
      simp
    exact (List.append_inj' hconcat rfl).1

/-- Anything may be done afterwards that does not concern calls. -/
theorem Seals.note_last {e : Entry} (h : w.Seals v) (he : e.flight? = none) :
    w.Seals (v.note e) := by
  obtain ⟨new, hnew, hseals⟩ := h
  refine ⟨⟨v.now, e⟩ :: new, congrArg (List.cons _) hnew, fun later t earlier hsplit r hr => ?_⟩
  cases later with
  | nil => exact absurd hr List.not_mem_nil
  | cons r' later =>
    obtain ⟨rfl, hrest⟩ := List.cons.inj hsplit
    rcases List.mem_cons.mp hr with rfl | hr
    · exact he
    · exact hseals later t earlier hrest r hr

theorem Seals.notes_first {es : List Entry} (hes : ∀ e ∈ es, e ≠ .cancelled) :
    ∀ {w : World}, (w.notes es).Seals v → w.Seals v := by
  induction es with
  | nil => exact id
  | cons e es ih =>
    intro w h
    rw [List.forall_mem_cons] at hes
    exact (ih hes.2 (w := w.note e) h).note_first hes.1

theorem Seals.draws_first {draws : List Draw} (h : (w.notes (draws.map Entry.drew)).Seals v) :
    w.Seals v := by
  refine Seals.notes_first (fun e he => ?_) h
  obtain ⟨d, -, rfl⟩ := List.mem_map.mp he
  exact nofun

theorem cancelIf_seals (due : Bool) (w : World) : w.Seals (w.cancelIf due) := by
  unfold cancelIf
  split
  · exact (Seals.refl w).note_last rfl
  · exact .refl w

theorem emit_seals (env : Environment) (e : Event) (w : World) : w.Seals (w.emit env e) :=
  Seals.note_first (cancelIf_seals _ _) nofun

end World

theorem Queue.settle_seals (c : Call) (result : Except DeviceError Unit) (w : World) :
    w.Seals (settle env c result w).2 := by
  have hshown : ∀ error, w.Seals (shown env c error w) := fun error =>
    Seals.note_first (emit_seals env _ _) nofun
  rcases settle_cases env c result w with ⟨-, h⟩ | ⟨e, -, -, h⟩ | ⟨cause, -, -, h⟩
  · rw [h]
    exact hshown none
  · rw [h]
    exact (hshown (some e)).note_last rfl
  · rw [h]
    exact (hshown (some (.gateway cause))).note_last rfl

theorem Queue.Move.seals {q q' : Queue} {w w' : World} (h : Queue.Move env q w q' w') :
    w.Seals w' := by
  cases h with
  | finish => exact .refl w
  | halt => exact .refl w
  | call => exact Seals.note_first (cancelIf_seals _ _) nofun
  | await => exact (Seals.refl w).note_last rfl
  | answer => exact Seals.note_first (settle_seals ..) nofun
  | acknowledge => exact settle_seals ..

/-- **What a move does after the caller cancels inside it does not concern calls.** -/
theorem Activity.Move.seals {a a' : Activity} {w w' : World} (h : Move env a w a' w') :
    w.Seals w' := by
  induction h with
  | @pause path o w =>
    obtain ⟨draws, span, h⟩ := beginPause_eq env path o w
    rw [h, beginSleep_world]
    exact Seals.draws_first (emit_seals env _ _)
  | @dispatch path t w =>
    rw [announce_eq]
    refine Seals.note_first (Seals.notes_first (fun e he => ?_) (emit_seals env _ _)) nofun
    obtain ⟨r, -, he⟩ := List.mem_flatMap.mp he
    rcases List.mem_cons.mp he with rfl | he
    · exact nofun
    · obtain ⟨f, -, rfl⟩ := Option.map_eq_some_iff.mp (Option.mem_toList.mp he)
      exact nofun
  | serve _ _ hq => exact hq.seals
  | first _ ih => exact ih
  | branch _ _ _ ih => exact ih
  | inside _ ih => exact ih
  | @bar block _ _ _ _ w w' he =>
    obtain ⟨draws, times, -, heq⟩ := enterLoop_eq env block.mode w
    rw [heq] at he
    obtain ⟨-, rfl⟩ := Prod.mk.inj he
    exact Seals.draws_first (((Seals.refl _).note_last rfl).note_last rfl)
  | @enter block _ _ _ _ w w' he =>
    obtain ⟨draws, times, -, heq⟩ := enterLoop_eq env block.mode w
    rw [heq] at he
    obtain ⟨-, rfl⟩ := Prod.mk.inj he
    exact Seals.draws_first ((Seals.refl _).note_last rfl)
  | expire => exact (Seals.refl _).note_last rfl
  | begin => exact emit_seals env _ _
  | _ => exact .refl _

/-! ### Runs that are cancelled -/

/-- What a run waits for once the caller has cancelled: of the calls that were in flight then, those
that are so still, and the last of all of them. -/
def Machine.Lands (env : Environment) (m : Machine) : Prop :=
  ∀ (later : Journal) (t : Instant) (earlier : Journal),
    m.world.journal = later ++ ⟨t, .cancelled⟩ :: earlier →
      t ≤ m.world.now ∧
        latest m.world.now (aloft env m.activity.serving) = latest t (earlier.flights env) ∧
        ∀ f ∈ m.world.journal.flights env, f ∈ earlier.flights env

namespace World

/-- In a journal that tells of a cancellation it can be seen that the run is to halt. -/
theorem Faithful.cancelled_of_split {w : World} (h : w.Faithful) {later earlier : Journal}
    {t : Instant} (hsplit : w.journal = later ++ ⟨t, .cancelled⟩ :: earlier) :
    w.cancelled = true := by
  refine h.cancelled.mpr (List.mem_map.mpr ⟨⟨t, .cancelled⟩, List.mem_reverse.mpr ?_, rfl⟩)
  rw [hsplit]
  exact List.mem_append_right _ List.mem_cons_self

theorem halted_of_cancelled {w : World} (h : w.cancelled = true) : w.halted = true := by
  rw [halted, h, Bool.true_or]

end World

namespace Machine

variable {a a' : Activity} {w w' : World}

/-- **What a cancelled run waits for stays the same** while its parts go on. -/
theorem Lands.step {places : List Path} (h : Lands env ⟨a, w⟩) (hfaithful : w.Faithful)
    (hserves : Activity.Serves env places w w' a.serving a'.serving) (hgrows : w.Grows w')
    (hseals : w.Seals w') (hpunctual : ∀ q ∈ a.serving, ∀ t ∈ q.due, w.now ≤ t)
    (hflights : (w'.journal.flights env).Perm (aloft env a'.serving)) : Lands env ⟨a', w'⟩ := by
  intro later t earlier hsplit
  obtain ⟨hnow, new, hnew, htimes⟩ := hgrows
  obtain ⟨new', hnew', hsealed⟩ := hseals
  obtain rfl : new' = new := List.append_cancel_right (hnew'.symm.trans hnew)
  have hbefore : ∀ l, w.journal = l ++ ⟨t, .cancelled⟩ :: earlier → t ≤ w'.now ∧
      latest w'.now (aloft env a'.serving) = latest t (earlier.flights env) ∧
      ∀ f ∈ w'.journal.flights env, f ∈ earlier.flights env := by
    intro l hl
    obtain ⟨hle, hlatest, hmem⟩ := h l t earlier hl
    have hhalted := halted_of_cancelled (hfaithful.cancelled_of_split hl)
    obtain ⟨hsame, hsee⟩ := hserves.latest hhalted hpunctual
    refine ⟨hnow ▸ hle, by rw [hnow]; exact hsame.trans hlatest, fun f hf => hmem f ?_⟩
    rw [hnew] at hf
    exact Journal.mem_of_flights (view_eq_none hnew hsee) hf
  have hthis : w'.journal = later ++ ⟨t, .cancelled⟩ :: earlier := hsplit
  rw [hnew] at hthis
  rcases List.append_eq_append_iff.mp hthis with ⟨l, -, hl⟩ | ⟨l, hl, hr⟩
  · exact hbefore l hl
  · cases l with
    | nil => exact hbefore [] hr.symm
    | cons r l =>
      -- the caller cancels now
      obtain ⟨rfl, hearlier⟩ := List.cons.inj hr
      have htime : t = w.now := htimes ⟨t, .cancelled⟩ (by
        rw [hl]
        exact List.mem_append_right _ List.mem_cons_self)
      have hsame : w'.journal.flights env = earlier.flights env := by
        rw [show w'.journal = later ++ ⟨t, .cancelled⟩ :: earlier from hsplit]
        exact Journal.flights_append (hsealed later t l hl)
      refine ⟨Nat.le_of_eq (htime.trans hnow.symm), ?_, fun f hf => hsame ▸ hf⟩
      show latest w'.now (aloft env a'.serving) = _
      rw [htime, ← hnow, ← hsame]
      exact (latest_perm hflights).symm

/-- What a run waits for that is to halt, when the clock moves. -/
theorem waits_flight (env : Environment) (hwaits : a.Waits w.halted w.now)
    (hcancelled : w.cancelled = true) :
    w.now < nextInstant env a w ∧ ∃ f ∈ aloft env a.serving, nextInstant env a w ≤ f.2 := by
  obtain ⟨hdues, hlater⟩ := hwaits.dues
  have hmem : nextInstant env a w ∈ a.dues := nextInstant_mem (.inl hcancelled) hdues
  rw [halted_of_cancelled hcancelled] at hwaits
  obtain ⟨q, hq, hdue⟩ := hwaits.serving _ hmem
  obtain ⟨f, hf, hle⟩ := Queue.due_le_flight env hdue
  exact ⟨hlater _ hmem, f, List.mem_filterMap.mpr ⟨q, hq, hf⟩, hle⟩

/-- So it does when the clock moves. -/
theorem Lands.wait (h : Lands env ⟨a, w⟩) (hfaithful : w.Faithful)
    (hwaits : a.Waits w.halted w.now) :
    Lands env ⟨a, { w with now := nextInstant env a w }⟩ := by
  intro later t earlier hsplit
  obtain ⟨hle, hlatest, hmem⟩ := h later t earlier hsplit
  obtain ⟨hmoves, f, hf, hlate⟩ := waits_flight env hwaits (hfaithful.cancelled_of_split hsplit)
  refine ⟨Nat.le_trans hle (Nat.le_of_lt hmoves), ?_, hmem⟩
  rw [← hlatest]
  refine latest_congr fun u => and_congr_left fun hall => ?_
  exact ⟨Nat.le_trans (Nat.le_of_lt hmoves), fun _ => Nat.le_trans hlate (hall f hf)⟩

end Machine

namespace Program

variable {p : Program} {m : Machine}

/-- In the beginning nothing is written about calls, and no time has passed. -/
theorem start_journal (env : Environment) (p : Program) :
    ∀ r ∈ (Machine.start env p).world.journal, r.entry.flight? = none ∧ r.time = 0 := by
  obtain ⟨-, new, hnew, htimes⟩ : World.Grows {} (p.firstWorld env) :=
    (cancelOnTime_grows env {}).trans (emit_grows _ _)
  have hnothing : (p.firstWorld env).see Entry.flight? = World.see {} Entry.flight? := by
    rw [see_firstWorld rfl]
    rfl
  intro r hr
  rw [start_world, hnew, List.append_nil] at hr
  exact ⟨view_eq_none hnew hnothing r hr, htimes r hr⟩

/-- **What is in flight is what queues wait for.** -/
theorem Runs.flights (h : p.Runs env m) :
    (m.world.journal.flights env).Perm (aloft env m.activity.serving) := by
  induction h with
  | refl =>
    have hquiet : ∀ r ∈ (Machine.start env p).world.journal, r.entry.flight? = none :=
      fun r hr => (start_journal env p r hr).1
    have hnone : (Machine.start env p).world.journal.flights env = [] := by
      rw [← List.append_nil (Machine.start env p).world.journal, Journal.flights_append hquiet]
      rfl
    rw [start_serving, hnone]
    exact List.Perm.refl _
  | tail hprev htick ih =>
    have hruns : p.Runs env _ := hprev
    cases htick with
    | act ha =>
      have hserves := ha.serving hruns.reaches.ready hruns.reaches.arranged
      exact hserves.flights ha.grows hruns.serving_punctual hruns.reaches.ledger.distinct ih
    | turn => exact ih
    | cancel a w =>
      have hserves : Activity.Serves env [] w (w.cancelOnTime env) a.serving a.serving :=
        .rests (see_cancelIf w rfl _) rfl
      exact hserves.flights (cancelOnTime_grows env w) hruns.serving_punctual
        hruns.reaches.ledger.distinct ih
    | wait => exact ih

theorem start_lands (env : Environment) (p : Program) : (Machine.start env p).Lands env := by
  intro later t earlier hsplit
  have hall := start_journal env p
  have hquiet : ∀ l : Journal, l <:+ (Machine.start env p).world.journal →
      l.flights env = [] := by
    intro l hl
    rw [← List.append_nil l, Journal.flights_append fun r hr => (hall r (hl.subset hr)).1]
    rfl
  have hearlier : earlier <:+ (Machine.start env p).world.journal :=
    ⟨later ++ [⟨t, .cancelled⟩], by rw [hsplit]; simp⟩
  have htime : t = 0 := (hall ⟨t, .cancelled⟩ (by
    rw [hsplit]
    exact List.mem_append_right _ List.mem_cons_self)).2
  have hnow : (Machine.start env p).world.now = 0 := by
    rw [start_world]
    exact ((cancelOnTime_grows env {}).trans (emit_grows _ _)).1
  rw [hquiet earlier hearlier, hquiet _ (List.suffix_refl _), start_serving, hnow, htime]
  exact ⟨Nat.le_refl 0, rfl, fun f hf => hf⟩

/-- **A run that is cancelled ends with the calls in flight.** -/
theorem Runs.lands (h : p.Runs env m) : m.Lands env := by
  induction h with
  | refl => exact start_lands env p
  | tail hprev htick ih =>
    have hruns : p.Runs env _ := hprev
    have hruns' : p.Runs env _ := hruns.tail htick
    have hfaithful := hruns.reaches.faithful
    cases htick with
    | act ha =>
      have hserves := ha.serving hruns.reaches.ready hruns.reaches.arranged
      exact ih.step hfaithful hserves ha.grows ha.seals hruns.serving_punctual hruns'.flights
    | turn => exact ih
    | cancel a w =>
      have hserves : Activity.Serves env [] w (w.cancelOnTime env) a.serving a.serving :=
        .rests (see_cancelIf w rfl _) rfl
      exact ih.step hfaithful hserves (cancelOnTime_grows env w) (cancelIf_seals _ w)
        hruns.serving_punctual hruns'.flights
    | wait hwaits => exact ih.wait hfaithful hwaits

end Program

end Lightshow
