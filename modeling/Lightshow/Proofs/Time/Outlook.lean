import Lightshow.Proofs.Run.Planned
import Lightshow.Proofs.Time.Span

/-!
# What is to be expected of an activity

At any time of a run it can be told when each part of it is going to end and which steps are going
to start in the meantime, from what is left to do and from how often devices were called.  This is
the *outlook* of an activity.  What a queue has in flight completes when it has to, and what has not
begun takes as long as the step that it belongs to.

The outlook of an activity that waits does not depend on the instant at which one looks, as long as
nothing happens; and the outlook of an activity of which nothing is done yet is that of its step.

## Main definitions

* `Activity.calls` — the calls that are still to be made.
* `Outlook`, `Activity.outlook` — when an activity ends, and what starts in it.

## Main results

* `Activity.le_outlook` — an activity does not end before the present.
* `Activity.outlook_congr` — only calls for the transitions of an activity matter.
* `Activity.Waits.outlook` — **the outlook while an activity waits.**
* `Step.activity_outlook` — **the outlook in the beginning.**
-/

namespace Lightshow

variable (env : Environment) (cost : Call → ℕ → Duration)

/-! ### Outlooks -/

/-- When something ends, and which steps start in it. -/
@[ext] structure Outlook where
  ends : Instant
  starts : List Record

namespace Outlook

/-- First one thing, and then what follows from the instant at which it ends. -/
def andThen (first : Outlook) (rest : Instant → Outlook) : Outlook :=
  ⟨(rest first.ends).ends, first.starts ++ (rest first.ends).starts⟩

/-- Several things side by side. -/
def together (now : Instant) (parts : List Outlook) : Outlook :=
  ⟨(parts.map ends).foldr max now, parts.flatMap starts⟩

/-- A number of iterations one after the other. -/
def repeated : ℕ → (ℕ → Instant → Outlook) → Instant → Outlook
  | 0, _, now => ⟨now, []⟩
  | n + 1, lap, now => (lap 0 now).andThen (repeated n fun i => lap (i + 1))

end Outlook

/-- How many iterations a counted loop still makes after some of them. -/
def Bound.left : Bound → ℕ → ℕ
  | .count n, completed => n.toNat - completed
  | _, _ => 0

mutual

/-- How often devices are still to be called in an activity. -/
def Activity.calls : Activity → Tally
  | .dispatch path t => fun p d => if path = p then (t.named env.resolve).count d else 0
  | .applying queues => fun p d => (queues.flatMap (Queue.owed p)).count d
  | .seq first rest => fun p d => Activity.calls first p d + Activity.calls rest p d
  | .join branches => Activity.callsAll branches
  | .enter block _ body _ => fun p d => block.mode.number.toNat * Activity.calls body p d
  | .rounds _ bound completed body => fun p d => bound.left completed * Activity.calls body p d
  | .within _ bound completed body current => fun p d =>
    bound.left (completed + 1) * Activity.calls body p d + Activity.calls current p d
  | .ended _ | .pause .. | .sleeping _ => fun _ _ => 0

/-- How often devices are still to be called in some activities. -/
def Activity.callsAll : List Activity → Tally
  | [] => fun _ _ => 0
  | a :: rest => fun p d => Activity.calls a p d + Activity.callsAll rest p d

end

/-- When a queue ends. -/
def Queue.ends (tally : Tally) (now : Instant) : Queue → Instant
  | .ready c left => now + Call.spans cost { c with time := 0 } (tally c.path c.device) left
  | .calling c left outcome returns => outcome.finishes env c returns
    + Call.spans cost { c with time := 0, turn := c.turn + 1 } (tally c.path c.device) left
  | .awaiting c left window => window.due
    + Call.spans cost { c with time := 0, turn := c.turn + 1 } (tally c.path c.device) left
  | .ended _ => now

mutual

/-- When an activity ends, and what starts in it, after certain calls and from an instant on. -/
def Activity.outlook : Activity → Tally → Instant → Outlook
  | .ended _, _, now => ⟨now, []⟩
  | .pause _ o, _, now => ⟨now + pauseSpan o, []⟩
  | .sleeping wake, _, now => ⟨max wake now, []⟩
  | .dispatch path t, tally, now =>
    ⟨now + t.span env cost path tally, [⟨now, .dispatched path t⟩]⟩
  | .applying queues, tally, now =>
    ⟨(queues.map (Queue.ends env cost tally now)).foldr max now, []⟩
  | .seq first rest, tally, now =>
    (Activity.outlook first tally now).andThen (Activity.outlook rest tally)
  | .join branches, tally, now => .together now (Activity.outlookAll branches tally now)
  | .enter block before body after, tally, now =>
    Outlook.andThen
      ⟨now + pauseSpan before, [⟨now, .entered block.path (.count block.mode.number)⟩]⟩
      fun t => (Outlook.repeated block.mode.number.toNat
        (fun i => Activity.outlook body (tally.after (Activity.calls env body) i)) t).andThen
          fun t => ⟨t + pauseSpan after, []⟩
  | .rounds _ bound completed body, tally, now =>
    Outlook.repeated (bound.left completed)
      (fun i => Activity.outlook body (tally.after (Activity.calls env body) i)) now
  | .within _ bound completed body current, tally, now =>
    (Activity.outlook current tally now).andThen (Outlook.repeated (bound.left (completed + 1))
      fun i => Activity.outlook body
        ((tally.after (Activity.calls env current) 1).after (Activity.calls env body) i))

/-- The same for each of some activities. -/
def Activity.outlookAll : List Activity → Tally → Instant → List Outlook
  | [], _, _ => []
  | a :: rest, tally, now => Activity.outlook a tally now :: Activity.outlookAll rest tally now

end

variable {env cost}

/-! ### Calls that were made -/

namespace Tally

theorem after_zero (tally calls : Tally) : tally.after calls 0 = tally := by
  funext p d
  show tally p d + 0 * calls p d = tally p d
  rw [Nat.zero_mul, Nat.add_zero]

/-- One time, and then several times more. -/
theorem after_succ (tally calls : Tally) (n : ℕ) :
    tally.after calls (n + 1) = (tally.after calls 1).after calls n := by
  funext p d
  show tally p d + (n + 1) * calls p d = tally p d + 1 * calls p d + n * calls p d
  rw [Nat.succ_mul, Nat.one_mul, Nat.add_assoc, Nat.add_comm (n * calls p d)]

/-- What is still to be called may have been called. -/
theorem after_congr {tally tally' calls calls' : Tally}
    (h : ∀ p d, tally' p d + calls' p d = tally p d + calls p d) :
    tally'.after calls' 1 = tally.after calls 1 := by
  funext p d
  show tally' p d + 1 * calls' p d = tally p d + 1 * calls p d
  rw [Nat.one_mul, Nat.one_mul, h]

/-- Tallies that agree on some places go on to do so after the same calls. -/
theorem after_agree {tally tally' : Tally} {places : List Path}
    (h : ∀ p ∈ places, tally p = tally' p) (calls : Tally) (n : ℕ) :
    ∀ p ∈ places, tally.after calls n p = tally'.after calls n p := by
  intro p hp
  funext d
  show tally p d + _ = tally' p d + _
  rw [h p hp]

end Tally

/-! ### The order of time -/

/-- What ends no later than at present ends at present. -/
theorem foldr_max_eq {now : ℕ} {ts : List ℕ} (h : ∀ u ∈ ts, u ≤ now) : ts.foldr max now = now :=
  Nat.le_antisymm (foldr_max_le_iff.mpr ⟨Nat.le_refl now, h⟩)
    (foldr_max_le_iff.mp (Nat.le_refl _)).1

/-- Where all has ended side by side nothing is to be expected. -/
theorem Outlook.together_ended {now : Instant} {parts : List Outlook}
    (h : ∀ o ∈ parts, o = ⟨now, []⟩) : Outlook.together now parts = ⟨now, []⟩ := by
  refine Outlook.ext (foldr_max_eq fun t ht => ?_) (List.flatMap_eq_nil_iff.mpr fun o ho => ?_)
  · obtain ⟨o, ho, rfl⟩ := List.mem_map.mp ht
    rw [h o ho]
  · rw [h o ho]

/-- Some spans side by side. -/
theorem foldr_max_add (now : ℕ) (spans : List ℕ) :
    (spans.map (now + ·)).foldr max now = now + longest spans := by
  induction spans with
  | nil => rfl
  | cons d spans ih =>
    rw [List.map_cons, List.foldr_cons, ih, longest, longest, List.foldr_cons, Nat.add_max_add_left]

/-- The last of some instants is no later when some of them become the present, if one of them is no
earlier than that. -/
theorem foldr_max_le {α : Type} {f f' : α → ℕ} {now now' : ℕ} {xs : List α}
    (h : ∀ x ∈ xs, f' x = f x ∨ f' x = now') (hlive : ∃ x ∈ xs, now' ≤ f x) :
    (xs.map f').foldr max now' ≤ (xs.map f).foldr max now := by
  have hbound : ∀ x ∈ xs, f x ≤ (xs.map f).foldr max now := fun x hx =>
    (foldr_max_le_iff.mp (Nat.le_refl _)).2 (f x) (List.mem_map_of_mem hx)
  obtain ⟨x, hx, hlate⟩ := hlive
  have hnow' : now' ≤ (xs.map f).foldr max now := Nat.le_trans hlate (hbound x hx)
  refine foldr_max_le_iff.mpr ⟨hnow', List.forall_mem_map.mpr fun y hy => ?_⟩
  rcases h y hy with hsame | hpresent
  · rw [hsame]
    exact hbound y hy
  · rwa [hpresent]

namespace Outlook

theorem le_together (now : Instant) (parts : List Outlook) : now ≤ (together now parts).ends :=
  (foldr_max_le_iff.mp (Nat.le_refl _)).1

theorem le_repeated (n : ℕ) : ∀ {lap : ℕ → Instant → Outlook}, (∀ i t, t ≤ (lap i t).ends) →
    ∀ now : ℕ, now ≤ (repeated n lap now).ends := by
  induction n with
  | zero => exact fun _ now => Nat.le_refl now
  | succ n ih => exact fun h now => Nat.le_trans (h 0 now) (ih (fun i => h (i + 1)) _)

/-- The end of what is done side by side does not depend on the present, and is not passed, if this
is true of each part that has not ended, and one has not. -/
theorem together_wait {α : Type} {f f' : α → Outlook} {now now' : ℕ} {xs : List α} (live : α → Prop)
    (hlive : ∀ x ∈ xs, live x → f' x = f x ∧ now ≤ (f x).ends ∧ now' ≤ (f x).ends)
    (hended : ∀ x ∈ xs, ¬live x → f x = ⟨now, []⟩ ∧ f' x = ⟨now', []⟩)
    (hexists : ∃ x ∈ xs, live x) :
    together now' (xs.map f') = together now (xs.map f) ∧
      now' ≤ (together now (xs.map f)).ends := by
  obtain ⟨b, hb, hlives⟩ := hexists
  obtain ⟨hsame, hnow, hnow'⟩ := hlive b hb hlives
  have hcases : ∀ x ∈ xs, f' x = f x ∨ f x = ⟨now, []⟩ ∧ f' x = ⟨now', []⟩ := fun x hx =>
    (Classical.em (live x)).imp (fun h => (hlive x hx h).1) (hended x hx)
  -- one part ends after both instants, so neither of them is the last
  have hends : (xs.map fun x => (f' x).ends).foldr max now'
      = (xs.map fun x => (f x).ends).foldr max now := by
    refine Nat.le_antisymm (foldr_max_le (fun x hx => ?_) ⟨b, hb, hnow'⟩)
      (foldr_max_le (fun x hx => ?_) ⟨b, hb, hsame ▸ hnow⟩)
    · exact (hcases x hx).imp (congrArg _) fun h => congrArg _ h.2
    · exact (hcases x hx).imp (fun h => congrArg _ h.symm) fun h => congrArg _ h.1
  have hstarts : ∀ x ∈ xs, (f' x).starts = (f x).starts := by
    intro x hx
    rcases hcases x hx with h | ⟨h, h'⟩
    · rw [h]
    · rw [h, h']
  refine ⟨Outlook.ext ?_ ?_, ?_⟩
  · simp only [Outlook.together, List.map_map]
    exact hends
  · simp only [Outlook.together, List.flatMap_map]
    exact List.flatMap_congr hstarts
  · refine Nat.le_trans hnow' ?_
    simp only [Outlook.together, List.map_map]
    exact (foldr_max_le_iff.mp (Nat.le_refl _)).2 _ (List.mem_map_of_mem hb)

end Outlook

namespace Queue

/-- Only calls of its device matter for a queue. -/
theorem ends_congr {q : Queue} {tally tally' : Tally}
    (h : ∀ path d, q.serves? = some (path, d) → tally path d = tally' path d) (now : Instant) :
    q.ends env cost tally now = q.ends env cost tally' now := by
  cases q with
  | ended => rfl
  | ready c left => rw [ends, ends, h _ _ rfl]
  | calling c left outcome returns => rw [ends, ends, h _ _ rfl]
  | awaiting c left window => rw [ends, ends, h _ _ rfl]

/-- A queue does not end before something is due. -/
theorem le_ends {q : Queue} {t : Instant} (h : q.due = some t) (tally : Tally)
    (now : Instant) : t ≤ q.ends env cost tally now := by
  cases q with
  | calling c left outcome returns =>
    obtain rfl := Option.some.inj h
    exact Nat.le_trans (le_finishes env c _ outcome) (Nat.le_add_right _ _)
  | awaiting c left window =>
    obtain rfl := Option.some.inj h
    exact Nat.le_add_right _ _
  | _ => exact absurd h nofun

end Queue

namespace Activity

theorem outlookAll_eq_map (branches : List Activity) (tally : Tally) (now : Instant) :
    outlookAll env cost branches tally now
      = branches.map fun a => a.outlook env cost tally now := by
  induction branches with
  | nil => rfl
  | cons a branches ih => rw [outlookAll, ih, List.map_cons]

theorem callsAll_eq_sum (branches : List Activity) (p : Path) (d : Device) :
    callsAll env branches p d = (branches.map fun a => a.calls env p d).sum := by
  induction branches with
  | nil => rfl
  | cons a branches ih =>
    rw [List.map_cons, List.sum_cons, ← ih]
    rfl

/-- **An activity does not end before the present.** -/
theorem le_outlook : ∀ (a : Activity) (tally : Tally) (now : ℕ),
    now ≤ (a.outlook env cost tally now).ends
  | .ended _, _, now => Nat.le_refl now
  | .pause .., _, now => Nat.le_add_right now _
  | .sleeping wake, _, now => Nat.le_max_right wake now
  | .dispatch .., _, now => Nat.le_add_right now _
  | .applying _, _, _ => (foldr_max_le_iff.mp (Nat.le_refl _)).1
  | .seq first rest, tally, now =>
    Nat.le_trans (le_outlook first tally now) (le_outlook rest tally _)
  | .join _, _, now => Outlook.le_together now _
  | .enter _ before body _, _, now =>
    Nat.le_trans (Nat.le_add_right now (pauseSpan before)) (Nat.le_trans
      (Outlook.le_repeated _ (fun _ t => le_outlook body _ t) _) (Nat.le_add_right _ _))
  | .rounds _ _ _ body, _, now => Outlook.le_repeated _ (fun _ t => le_outlook body _ t) now
  | .within _ _ _ body current, tally, now =>
    Nat.le_trans (le_outlook current tally now)
      (Outlook.le_repeated _ (fun _ t => le_outlook body _ t) _)

/-! ### What the outlook depends on -/

mutual

/-- Devices are only called for the transitions of an activity. -/
theorem calls_eq_zero {p : Path} (d : Device) : ∀ a : Activity, p ∉ a.places → a.calls env p d = 0
  | .dispatch path t => fun h => if_neg fun hpath => h (List.mem_singleton.mpr hpath.symm)
  | .applying queues => by
    intro h
    have howed : queues.flatMap (Queue.owed p) = [] :=
      List.flatMap_eq_nil_iff.mpr fun q hq => Queue.owed_eq_nil fun hplace =>
        h (List.mem_filterMap.mpr ⟨q, hq, hplace⟩)
    show (queues.flatMap (Queue.owed p)).count d = 0
    rw [howed]
    rfl
  | .seq first rest => by
    intro h
    obtain ⟨hfirst, hrest⟩ := not_or.mp (mt List.mem_append.mpr h)
    exact Nat.add_eq_zero_iff.mpr ⟨calls_eq_zero d first hfirst, calls_eq_zero d rest hrest⟩
  | .join branches => fun h => callsAll_eq_zero d branches h
  | .enter _ _ body _ => fun h =>
    mul_eq_zero_of_right _ (calls_eq_zero d body (mt (List.mem_cons_of_mem _) h))
  | .rounds _ _ _ body => fun h =>
    mul_eq_zero_of_right _ (calls_eq_zero d body (mt (List.mem_cons_of_mem _) h))
  | .within _ _ _ body current => by
    intro h
    obtain ⟨hbody, hcurrent⟩ := not_or.mp (mt List.mem_append.mpr (mt (List.mem_cons_of_mem _) h))
    exact Nat.add_eq_zero_iff.mpr
      ⟨mul_eq_zero_of_right _ (calls_eq_zero d body hbody), calls_eq_zero d current hcurrent⟩
  | .ended _ | .pause .. | .sleeping _ => fun _ => rfl

theorem callsAll_eq_zero {p : Path} (d : Device) :
    ∀ branches : List Activity, p ∉ placesAll branches → callsAll env branches p d = 0
  | [] => fun _ => rfl
  | a :: rest => by
    intro h
    obtain ⟨hfirst, hrest⟩ := not_or.mp (mt List.mem_append.mpr h)
    exact Nat.add_eq_zero_iff.mpr ⟨calls_eq_zero d a hfirst, callsAll_eq_zero d rest hrest⟩

end

mutual

/-- **Only calls for the transitions of an activity matter for its outlook.** -/
theorem outlook_congr : ∀ (a : Activity) {tally tally' : Tally},
    (∀ p ∈ a.places, tally p = tally' p) →
      a.outlook env cost tally = a.outlook env cost tally'
  | .ended _, _, _ | .pause .., _, _ | .sleeping _, _, _ => fun _ => rfl
  | .dispatch path t, tally, tally' => by
    intro h
    funext now
    rw [outlook, outlook, Transition.span, Transition.span, h path (List.mem_singleton_self path)]
  | .applying queues, tally, tally' => by
    intro h
    have hends : ∀ now, queues.map (Queue.ends env cost tally now)
        = queues.map (Queue.ends env cost tally' now) := by
      refine fun now => List.map_congr_left fun q hq => ?_
      refine Queue.ends_congr (fun path d hserves => ?_) now
      have hplace : q.place? = some path := by rw [Queue.place?_eq, hserves]; rfl
      rw [h path (List.mem_filterMap.mpr ⟨q, hq, hplace⟩)]
    funext now
    rw [outlook, outlook, hends]
  | .seq first rest, tally, tally' => by
    intro h
    funext now
    rw [outlook, outlook, outlook_congr first fun p hp => h p (List.mem_append_left _ hp),
      outlook_congr rest fun p hp => h p (List.mem_append_right _ hp)]
  | .join branches, tally, tally' => by
    intro h
    funext now
    rw [outlook, outlook, outlookAll_congr branches h]
  | .enter block before body after, tally, tally' => by
    intro h
    obtain ⟨-, hbody⟩ := List.forall_mem_cons.mp h
    have hlaps := fun i => outlook_congr body (Tally.after_agree hbody (body.calls env) i)
    funext now
    simp only [outlook, hlaps]
  | .rounds block bound completed body, tally, tally' => by
    intro h
    obtain ⟨-, hbody⟩ := List.forall_mem_cons.mp h
    have hlaps := fun i => outlook_congr body (Tally.after_agree hbody (body.calls env) i)
    funext now
    simp only [outlook, hlaps]
  | .within block bound completed body current, tally, tally' => by
    intro h
    obtain ⟨-, hparts⟩ := List.forall_mem_cons.mp h
    obtain ⟨hbody, hcurrent⟩ := List.forall_mem_append.mp hparts
    have hcurrent := outlook_congr current hcurrent
    have hlaps := fun i => outlook_congr body
      (Tally.after_agree (Tally.after_agree hbody (current.calls env) 1) (body.calls env) i)
    funext now
    simp only [outlook, hcurrent, hlaps]

theorem outlookAll_congr : ∀ (branches : List Activity) {tally tally' : Tally},
    (∀ p ∈ placesAll branches, tally p = tally' p) →
      outlookAll env cost branches tally = outlookAll env cost branches tally'
  | [], _, _ => fun _ => rfl
  | a :: rest, tally, tally' => by
    intro h
    funext now
    rw [outlookAll, outlookAll, outlook_congr a fun p hp => h p (List.mem_append_left _ hp),
      outlookAll_congr rest fun p hp => h p (List.mem_append_right _ hp)]

end

/-! ### While time passes -/

/-- Queues end side by side, and nothing starts in them. -/
theorem applying_outlook (queues : List Queue) (tally : Tally) (now : Instant) :
    (applying queues).outlook env cost tally now
      = .together now (queues.map fun q => ⟨q.ends env cost tally now, []⟩) := by
  refine Outlook.ext ?_ ?_
  · simp only [Activity.outlook, Outlook.together, List.map_map]
    rfl
  · simp only [Activity.outlook, Outlook.together, List.flatMap_map]
    exact (List.flatMap_eq_nil_iff.mpr fun _ _ => rfl).symm

/-- **The outlook of an activity that waits stays what it is**, as long as nothing is due. -/
theorem Waits.outlook {a : Activity} {halted : Bool} {now now' : Instant} (h : a.Waits halted now)
    (hle : now ≤ now') (tally : Tally) (hdues : ∀ t ∈ a.dues, now' ≤ t) :
    a.outlook env cost tally now' = a.outlook env cost tally now ∧
      now' ≤ (a.outlook env cost tally now).ends := by
  induction h with
  | @sleeping wake _ h =>
    have hwake : now' ≤ wake := hdues wake (List.mem_singleton_self wake)
    simp only [Activity.outlook]
    rw [Nat.max_eq_left hwake, Nat.max_eq_left (Nat.le_of_lt h)]
    exact ⟨rfl, hwake⟩
  | @applying queues h hlive =>
    rw [applying_outlook, applying_outlook]
    refine Outlook.together_wait (fun q : Queue => q.flow? = none) (fun q hq hflow => ?_)
      (fun q hq hflow => ?_) hlive
    · have hwaits := h q hq
      have hdue : ∀ t, q.due = some t → now' ≤ q.ends env cost tally now := fun t ht =>
        Nat.le_trans (hdues t (List.mem_filterMap.mpr ⟨q, hq, ht⟩)) (Queue.le_ends ht tally now)
      cases q with
      | ready => exact hwaits.elim
      | calling => exact ⟨rfl, Nat.le_trans hle (hdue _ rfl), hdue _ rfl⟩
      | awaiting => exact ⟨rfl, Nat.le_trans hle (hdue _ rfl), hdue _ rfl⟩
      | ended => exact absurd hflow nofun
    · obtain ⟨flow, hflow⟩ := Option.ne_none_iff_exists'.mp hflow
      rw [Queue.eq_ended_of_flow? hflow]
      exact ⟨rfl, rfl⟩
  | first rest _ ih =>
    obtain ⟨hsame, hlate⟩ := ih hdues
    simp only [Activity.outlook, hsame]
    exact ⟨trivial, Nat.le_trans hlate (le_outlook rest tally _)⟩
  | @join branches h hlive ih =>
    simp only [Activity.outlook, outlookAll_eq_map]
    refine Outlook.together_wait (fun a : Activity => a.flow? = none) (fun a ha hflow => ?_)
      (fun a ha hflow => ?_) hlive
    · obtain ⟨hsame, hlate⟩ := ih a ha hflow fun t ht => hdues t (by
        rw [Activity.dues, duesAll_eq_flatMap]
        exact List.mem_flatMap.mpr ⟨a, ha, ht⟩)
      exact ⟨hsame, Nat.le_trans hle hlate, hlate⟩
    · obtain ⟨flow, hflow⟩ := Option.ne_none_iff_exists'.mp hflow
      rw [eq_ended_of_flow? hflow]
      exact ⟨rfl, rfl⟩
  | within _ _ _ body _ ih =>
    obtain ⟨hsame, hlate⟩ := ih hdues
    simp only [Activity.outlook, hsame]
    exact ⟨trivial, Nat.le_trans hlate (Outlook.le_repeated _ (fun _ t => le_outlook body _ t) _)⟩

end Activity

/-! ### In the beginning -/

/-- Iterations of which it is known how long each takes. -/
theorem Outlook.repeated_eq (n : ℕ) : ∀ {lap : ℕ → Instant → Outlook} {d : ℕ → Duration}
    {r : ℕ → Instant → List Record}, (∀ i t, lap i t = ⟨t + d i, r i t⟩) → ∀ now,
      repeated n lap now
        = ⟨now + laps d n, (List.range n).flatMap fun i => r i (now + laps d i)⟩ := by
  induction n with
  | zero => exact fun _ _ => rfl
  | succ n ih =>
    intro lap d r h now
    have hlaps : ∀ i, laps d (i + 1) = d 0 + laps (fun i => d (i + 1)) i := by
      intro i
      rw [laps, List.range_succ_eq_map, List.map_cons, List.sum_cons, List.map_map]
      rfl
    have hrest := ih (fun i t => h (i + 1) t) (now + d 0)
    rw [repeated, h, andThen, hrest, List.range_succ_eq_map, List.flatMap_cons, List.flatMap_map]
    simp only [hlaps, Nat.add_assoc]
    rfl

theorem Step.around_calls (scope : PauseScope) (path : Path) (order : Order) (loop : Loop)
    (pause : Pause) (once : Activity) :
    (Step.around scope path order loop pause once).calls env
      = fun p d => loop.mode.number.toNat * once.calls env p d := by
  funext p d
  cases scope with
  | perIteration =>
    show _ * (0 + (once.calls env p d + 0)) = _
    rw [Nat.zero_add, Nat.add_zero]
  | aroundLoop =>
    show _ * (once.calls env p d + 0) = _
    rw [Nat.add_zero]

/-- The outlook of a composite is that of its steps, repeated and with pauses around them. -/
theorem Step.around_outlook {path : Path} {order : Order} {steps : List Step} {once : Activity}
    (hcalls : once.calls env = Step.callsAll env path 0 steps)
    (honce : ∀ tally now, once.outlook env cost tally now
      = ⟨now + order.span (Step.spans env cost path 0 steps tally),
        Step.startsAll env cost order path 0 steps tally now⟩)
    (loop : Loop) (pause : Pause) (tally : Tally) (now : Instant) :
    (Step.around env.scope path order loop pause once).outlook env cost tally now
      = ⟨now + Step.span env cost path (.composite order steps loop pause) tally,
        Step.starts env cost path (.composite order steps loop pause) tally now⟩ := by
  rw [Step.span, Step.starts]
  unfold Step.around
  cases env.scope with
  | perIteration =>
    have hlap : ∀ i t, (Activity.seq (.pause path pause.before) (.seq once
        (.seq (.pause path pause.after) (.pause path loop.pause)))).outlook env cost
          (tally.after (Step.callsAll env path 0 steps) i) t
        = ⟨t + (pauseSpan pause.before + order.span (Step.spans env cost path 0 steps
              (tally.after (Step.callsAll env path 0 steps) i))
            + pauseSpan pause.after + pauseSpan loop.pause),
          Step.startsAll env cost order path 0 steps
            (tally.after (Step.callsAll env path 0 steps) i) (t + pauseSpan pause.before)⟩ := by
      intro i t
      simp only [Activity.outlook, Outlook.andThen, honce, List.nil_append, List.append_nil,
        Nat.add_assoc]
    have hbody : (Activity.seq (.pause path pause.before) (.seq once
        (.seq (.pause path pause.after) (.pause path loop.pause)))).calls env
          = Step.callsAll env path 0 steps := by
      funext p d
      show 0 + (once.calls env p d + 0) = _
      rw [hcalls, Nat.zero_add, Nat.add_zero]
    rw [Activity.outlook, hbody, Outlook.andThen, Outlook.repeated_eq _ hlap]
    exact Outlook.ext rfl (congrArg (List.cons _) (List.append_nil _))
  | aroundLoop =>
    have hbody : (Activity.seq once (.pause path loop.pause)).calls env
        = Step.callsAll env path 0 steps := by
      funext p d
      show once.calls env p d + 0 = _
      rw [hcalls, Nat.add_zero]
    have hlap : ∀ i t, (Activity.seq once (.pause path loop.pause)).outlook env cost
          (tally.after (Step.callsAll env path 0 steps) i) t
        = ⟨t + (order.span (Step.spans env cost path 0 steps
              (tally.after (Step.callsAll env path 0 steps) i)) + pauseSpan loop.pause),
          Step.startsAll env cost order path 0 steps
            (tally.after (Step.callsAll env path 0 steps) i) t⟩ := by
      intro i t
      simp only [Activity.outlook, Outlook.andThen, honce, List.append_nil, Nat.add_assoc]
    rw [Activity.outlook, hbody, Outlook.andThen, Outlook.repeated_eq _ hlap]
    refine Outlook.ext ?_ (congrArg (List.cons _) (List.append_nil _))
    show now + pauseSpan pause.before + _ + pauseSpan pause.after = now + (_ + _ + _)
    rw [Nat.add_assoc, Nat.add_assoc, Nat.add_assoc]

mutual

theorem Step.activity_calls (scope : PauseScope) : ∀ (s : Step) (path : Path),
    (Step.activity scope path s).calls env = s.calls env path
  | .transition t, path => by
    rw [Step.activity, Step.calls]
    funext p d
    exact Nat.zero_add _
  | .composite order steps loop pause, path => by
    obtain ⟨hserial, hparallel⟩ := Step.activities_calls scope steps path 0
    rw [Step.activity_composite, Step.around_calls, Step.calls]
    cases order with
    | serial => exact hserial ▸ rfl
    | parallel => exact hparallel ▸ rfl

theorem Step.activities_calls (scope : PauseScope) : ∀ (steps : List Step) (path : Path)
    (index : ℕ),
    (Activity.chain (Step.activities scope path index steps)).calls env
        = Step.callsAll env path index steps ∧
      Activity.callsAll env (Step.activities scope path index steps)
        = Step.callsAll env path index steps
  | [], path, index => by
    rw [Step.activities]
    exact ⟨rfl, rfl⟩
  | s :: rest, path, index => by
    have hfirst := Step.activity_calls scope s (.child path index s.kind)
    obtain ⟨hserial, hparallel⟩ := Step.activities_calls scope rest path (index + 1)
    rw [Step.activities, Step.callsAll, ← hfirst]
    refine ⟨?_, ?_⟩
    · rw [← hserial]
      rfl
    · rw [← hparallel]
      rfl

end

theorem Step.arrange_calls (scope : PauseScope) (order : Order) (steps : List Step) (path : Path) :
    (order.arrange (Step.activities scope path 0 steps)).calls env
      = Step.callsAll env path 0 steps := by
  cases order with
  | serial => exact (Step.activities_calls scope steps path 0).1
  | parallel => exact (Step.activities_calls scope steps path 0).2

mutual

/-- **The outlook of a step of which nothing is done yet.** -/
theorem Step.activity_outlook : ∀ (s : Step) (path : Path) (tally : Tally) (now : Instant),
    (Step.activity env.scope path s).outlook env cost tally now
      = ⟨now + s.span env cost path tally, s.starts env cost path tally now⟩
  | .transition t, path, tally, now => by
    rw [Step.activity, Step.span, Step.starts, ← Nat.add_assoc, ← Nat.add_assoc]
    rfl
  | .composite order steps loop pause, path, tally, now => by
    have hsteps := Step.activities_outlook steps path 0
    rw [Step.activity_composite]
    refine Step.around_outlook (Step.arrange_calls env.scope order steps path)
      (fun tally now => ?_) loop pause tally now
    obtain ⟨hserial, hends, hstarts⟩ := hsteps tally now
    cases order with
    | serial => exact hserial
    | parallel =>
      refine Outlook.ext ?_ hstarts
      show ((Activity.outlookAll env cost _ tally now).map Outlook.ends).foldr max now = _
      rw [hends]
      exact foldr_max_add now _

theorem Step.activities_outlook : ∀ (steps : List Step) (path : Path) (index : ℕ) (tally : Tally)
    (now : Instant),
    (Activity.chain (Step.activities env.scope path index steps)).outlook env cost tally now
        = ⟨now + (Step.spans env cost path index steps tally).sum,
          Step.startsAll env cost .serial path index steps tally now⟩ ∧
      (Activity.outlookAll env cost (Step.activities env.scope path index steps) tally now).map
          Outlook.ends = (Step.spans env cost path index steps tally).map (now + ·) ∧
      (Activity.outlookAll env cost (Step.activities env.scope path index steps) tally now).flatMap
          Outlook.starts = Step.startsAll env cost .parallel path index steps tally now
  | [], path, index, tally, now => by
    rw [Step.activities]
    exact ⟨rfl, rfl, rfl⟩
  | s :: rest, path, index, tally, now => by
    have hfirst := Step.activity_outlook s (.child path index s.kind) tally now
    obtain ⟨hserial, -, -⟩ := Step.activities_outlook rest path (index + 1) tally
      (now + s.span env cost (.child path index s.kind) tally)
    obtain ⟨-, hends, hstarts⟩ := Step.activities_outlook rest path (index + 1) tally now
    rw [Step.activities, Step.spans, Step.startsAll, Step.startsAll]
    refine ⟨?_, ?_, ?_⟩
    · rw [Activity.chain, List.foldr_cons, ← Activity.chain, Activity.outlook, Outlook.andThen,
        hfirst, hserial, List.sum_cons, Nat.add_assoc]
    · rw [Activity.outlookAll, List.map_cons, List.map_cons, hends, hfirst]
    · rw [Activity.outlookAll, List.flatMap_cons, hstarts, hfirst]

end

end Lightshow
