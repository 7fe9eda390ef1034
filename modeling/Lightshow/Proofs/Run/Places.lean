import Lightshow.Proofs.Run.Pausing
import Mathlib.Data.List.Basic

/-!
# Where transitions and loops stand

Each transition and each loop of a program stands at a place of its own in the tree.  An activity
keeps this: parts that are done side by side, or one after the other, have no place in common, none
of them stands where a loop around it does, and only the iterations of a loop come back to the same
places.  So while one part serves devices for the transition at a place, no other part of the
activity does so, now or before the loop around the place comes round again, and a loop that has
been entered is not entered once more before it is left.

## Main definitions

* `Activity.places` — where the transitions and the loops of an activity stand, those to come among
  them.
* `Activity.Arranged` — different parts of an activity stand at different places.

## Main results

* `Activity.Move.places`, `Activity.Move.arranged` — single moves.
* `Activity.Planned.places`, `Step.activity_arranged` — the beginning.
* `Program.Reaches.arranged` — **the parts of a run stand at different places.**
-/

namespace Lightshow

open World

variable {env : Environment}

/-! ### Places -/

/-- Where the transition stands that a queue serves a device for. -/
def Queue.place? : Queue → Option Path
  | .ready call _ | .calling call _ _ _ | .awaiting call _ _ => some call.path
  | .ended _ => none

mutual

/-- Where the transitions and the loops of an activity stand, those to come among them. -/
def Activity.places : Activity → List Path
  | .dispatch path _ => [path]
  | .applying queues => queues.filterMap Queue.place?
  | .seq first rest => Activity.places first ++ Activity.places rest
  | .join branches => Activity.placesAll branches
  | .enter block _ body _ => block.path :: Activity.places body
  | .rounds block _ _ body => block.path :: Activity.places body
  | .within block _ _ body current =>
    block.path :: (Activity.places body ++ Activity.places current)
  | _ => []

/-- Where the transitions and the loops of some activities stand. -/
def Activity.placesAll : List Activity → List Path
  | [] => []
  | a :: rest => Activity.places a ++ Activity.placesAll rest

end

/-- Different parts of an activity stand at different places, and none where a loop around it
does. -/
inductive Activity.Arranged : Activity → Prop
  | ended (flow : Flow) : Arranged (.ended flow)
  | pause (path : Path) (o : Option TimeOption) : Arranged (.pause path o)
  | sleeping (wake : Instant) : Arranged (.sleeping wake)
  | dispatch (path : Path) (t : Transition) : Arranged (.dispatch path t)
  | applying (queues : List Queue) : Arranged (.applying queues)
  | seq {first rest : Activity} (hfirst : Arranged first) (hrest : Arranged rest)
      (h : first.places.Disjoint rest.places) : Arranged (.seq first rest)
  | join {branches : List Activity} (hbranches : ∀ a ∈ branches, Arranged a)
      (h : branches.Pairwise fun a b => a.places.Disjoint b.places) : Arranged (.join branches)
  | enter {block : Block} (before after : Option TimeOption) {body : Activity}
      (hbody : Arranged body) (h : block.path ∉ body.places) :
      Arranged (.enter block before body after)
  | rounds {block : Block} (bound : Bound) (completed : ℕ) {body : Activity}
      (hbody : Arranged body) (h : block.path ∉ body.places) :
      Arranged (.rounds block bound completed body)
  | within {block : Block} (bound : Bound) (completed : ℕ) {body current : Activity}
      (hbody : Arranged body) (hcurrent : Arranged current) (h : block.path ∉ body.places)
      (h' : block.path ∉ current.places) : Arranged (.within block bound completed body current)

/-- A queue goes on to serve for the same transition. -/
theorem Queue.Move.place {q q' : Queue} {w w' : World} (h : Queue.Move env q w q' w') :
    ∀ path ∈ q'.place?, path ∈ q.place? := by
  have hnext : ∀ (call : Call) (left : ℕ) (flow : Option Flow),
      ∀ path ∈ (next call left flow).place?, path ∈ some call.path := by
    intro call left flow path hpath
    cases flow with
    | none => exact hpath
    | some flow => exact absurd hpath nofun
  cases h with
  | finish => exact nofun
  | halt => exact nofun
  | call hw hc =>
    subst hc
    exact fun path hpath => hpath
  | await => exact fun path hpath => hpath
  | answer => exact hnext _ _ _
  | acknowledge => exact hnext _ _ _

namespace Activity

theorem placesAll_eq_flatMap (branches : List Activity) :
    placesAll branches = branches.flatMap places := by
  induction branches with
  | nil => rfl
  | cons a branches ih => rw [placesAll, ih, List.flatMap_cons]

/-- **A move comes to no new places.** -/
theorem Move.places {a a' : Activity} {w w' : World} (h : Move env a w a' w') :
    a'.places ⊆ a.places := by
  induction h with
  | pause =>
    rw [beginPause_nil Activity.places (fun _ => rfl) fun _ => rfl]
    exact List.nil_subset _
  | wake =>
    rw [pollSleep_nil Activity.places (fun _ => rfl) fun _ => rfl]
    exact List.nil_subset _
  | dispatch =>
    intro path hpath
    obtain ⟨q, hq, hplace⟩ := List.mem_filterMap.mp hpath
    obtain ⟨d, -, rfl⟩ := List.mem_map.mp hq
    rw [← Option.some.inj hplace]
    exact List.mem_singleton_self _
  | serve before after hq =>
    intro path hpath
    obtain ⟨r, hr, hplace⟩ := List.mem_filterMap.mp hpath
    rcases mem_replace hr with rfl | hr
    · exact List.mem_filterMap.mpr
        ⟨_, List.mem_append_right _ List.mem_cons_self, hq.place path hplace⟩
    · exact List.mem_filterMap.mpr ⟨r, hr, hplace⟩
  | first _ ih =>
    exact List.append_subset.mpr
      ⟨List.subset_append_of_subset_left _ ih, List.subset_append_right _ _⟩
  | second => exact List.subset_append_right _ _
  | branch before after _ ih =>
    intro path hpath
    simp only [Activity.places, placesAll_eq_flatMap, List.flatMap_append, List.flatMap_cons,
      List.mem_append] at hpath ⊢
    exact hpath.imp_right fun h => h.imp_left fun h => ih h
  | enter => simp [Activity.places]
  | begin => simp [Activity.places]
  | inside _ ih =>
    refine List.cons_subset_cons _ (List.append_subset.mpr ⟨?_, ?_⟩)
    · exact List.subset_append_left _ _
    · exact List.subset_append_of_subset_right _ ih
  | again => exact List.cons_subset_cons _ (List.subset_append_left _ _)
  | _ => exact List.nil_subset _

/-- **Parts stay at different places.** -/
theorem Move.arranged {a a' : Activity} {w w' : World} (h : Move env a w a' w')
    (ha : Arranged a) : Arranged a' := by
  induction h with
  | pause =>
    exact beginPause_activity _ _ _ _ (fun _ => .ended _) (fun _ => .ended _) fun _ => .sleeping
  | wake => exact pollSleep_activity _ _ (fun _ => .ended _) (fun _ => .ended _) fun _ => .sleeping
  | dispatch => exact .applying _
  | serve => exact .applying _
  | first hmove ih =>
    cases ha with
    | seq hfirst hrest h =>
      exact .seq (ih hfirst) hrest (List.disjoint_of_subset_left hmove.places h)
  | second =>
    cases ha with
    | seq _ hrest _ => exact hrest
  | branch before after hmove ih =>
    cases ha with
    | join hbranches h =>
      rw [List.forall_mem_append, List.forall_mem_cons] at hbranches
      rw [List.pairwise_append, List.pairwise_cons] at h
      obtain ⟨hbefore, ⟨hright, hafter⟩, hleft⟩ := h
      refine .join ?_ ?_
      · rw [List.forall_mem_append, List.forall_mem_cons]
        exact ⟨hbranches.1, ih hbranches.2.1, hbranches.2.2⟩
      · rw [List.pairwise_append, List.pairwise_cons]
        refine ⟨hbefore, ⟨fun b hb => ?_, hafter⟩, fun b hb c hc => ?_⟩
        · exact List.disjoint_of_subset_left hmove.places (hright b hb)
        · rcases List.mem_cons.mp hc with rfl | hc
          · exact List.disjoint_of_subset_right hmove.places (hleft b hb _ List.mem_cons_self)
          · exact hleft b hb c (List.mem_cons_of_mem _ hc)
  | enter =>
    cases ha with
    | enter _ _ hbody h =>
      refine .seq (.pause _ _) (.seq (.rounds _ _ hbody h) (.pause _ _) ?_) ?_
      · exact List.disjoint_nil_right _
      · exact List.disjoint_nil_left _
  | begin =>
    cases ha with
    | rounds _ _ hbody h => exact .within _ _ hbody hbody h h
  | inside hmove ih =>
    cases ha with
    | within _ _ hbody hcurrent h h' =>
      exact .within _ _ hbody (ih hcurrent) h fun hpath => h' (hmove.places hpath)
  | again =>
    cases ha with
    | within _ _ hbody _ h _ => exact .rounds _ _ hbody h
  | _ => exact .ended _

theorem chain_places (as : List Activity) : (chain as).places = placesAll as := by
  induction as with
  | nil => rfl
  | cons a as ih =>
    rw [placesAll, ← ih]
    rfl

theorem chain_arranged {as : List Activity} (has : ∀ a ∈ as, Arranged a)
    (h : as.Pairwise fun a b => a.places.Disjoint b.places) : Arranged (chain as) := by
  induction as with
  | nil => exact .ended _
  | cons a as ih =>
    rw [List.forall_mem_cons] at has
    rw [List.pairwise_cons] at h
    refine .seq has.1 (ih has.2 h.2) ?_
    show a.places.Disjoint (chain as).places
    rw [chain_places, placesAll_eq_flatMap]
    intro q hqa hq
    obtain ⟨b, hb, hqb⟩ := List.mem_flatMap.mp hq
    exact h.1 b hb hqa hqb

end Activity

theorem Order.arrange_places (order : Order) (as : List Activity) :
    (order.arrange as).places = Activity.placesAll as := by
  cases order with
  | serial => exact Activity.chain_places as
  | parallel => rfl

/-! ### The beginning -/

/-- What is planned for some steps stands where they do. -/
theorem Activity.Planned.places {N : Path × Step → Prop} {a : Activity} (h : a.Planned N) :
    ∀ q ∈ a.places, ∃ s, N (q, s) := by
  induction h with
  | nothing | pause => exact fun q hq => absurd hq List.not_mem_nil
  | @dispatch path t h =>
    intro q hq
    rw [List.mem_singleton.mp hq]
    exact ⟨_, h⟩
  | seq _ _ hfirst hrest =>
    intro q hq
    exact (List.mem_append.mp hq).elim (hfirst q) (hrest q)
  | join _ ih =>
    intro q hq
    rw [Activity.places, placesAll_eq_flatMap] at hq
    obtain ⟨a, ha, hq⟩ := List.mem_flatMap.mp hq
    exact ih a ha q hq
  | enter hs _ _ hbody =>
    intro q hq
    rcases List.mem_cons.mp hq with rfl | hq
    · exact ⟨_, hs⟩
    · exact hbody q hq

namespace Step

/-- The transitions and the loops of a step stand below it. -/
theorem activity_places (scope : PauseScope) (s : Step) (path : Path) :
    ∀ q ∈ (s.activity scope path).places, path.Under q := by
  intro q hq
  obtain ⟨s', hs⟩ := (s.activity_planned scope path).places q hq
  exact stepsAt_under hs

/-- No step of a composite stands where the composite does. -/
theorem activities_places (scope : PauseScope) (steps : List Step) (path : Path) :
    path ∉ Activity.placesAll (activities scope path 0 steps) := by
  rw [Activity.placesAll_eq_flatMap]
  intro hpath
  obtain ⟨a, ha, hpath⟩ := List.mem_flatMap.mp hpath
  obtain ⟨i, s, -, rfl⟩ := exists_of_mem_activities ha
  exact Path.not_child_under (s.activity_places scope _ path hpath)

/-- Different steps of a composite stand at different places. -/
theorem activities_disjoint (scope : PauseScope) (steps : List Step) (path : Path) (index : ℕ) :
    (activities scope path index steps).Pairwise fun a b => a.places.Disjoint b.places := by
  rw [List.pairwise_iff_getElem]
  intro i j hi hj hlt q hqi hqj
  obtain ⟨s, -, hs⟩ := exists_of_getElem?_activities (List.getElem?_eq_getElem hi)
  obtain ⟨s', -, hs'⟩ := exists_of_getElem?_activities (List.getElem?_eq_getElem hj)
  rw [hs] at hqi
  rw [hs'] at hqj
  have hindex := (s.activity_places scope _ q hqi).index_eq (s'.activity_places scope _ q hqj)
  omega

theorem activity_arranged (scope : PauseScope) (s : Step) (path : Path) :
    (s.activity scope path).Arranged := by
  induction s using Step.induction generalizing path with
  | transition t =>
    rw [activity]
    refine .seq (.pause _ _) (.seq (.dispatch _ _) (.pause _ _) ?_) ?_
    · exact List.disjoint_nil_right _
    · exact List.disjoint_nil_left _
  | composite order steps loop pause ih =>
    have hsteps : ∀ a ∈ activities scope path 0 steps, a.Arranged := by
      intro a ha
      obtain ⟨i, s, hs, rfl⟩ := exists_of_mem_activities ha
      exact ih s (List.mem_of_getElem? hs) _
    have hdisjoint := activities_disjoint scope steps path 0
    have honce : Activity.Arranged (order.arrange (activities scope path 0 steps)) := by
      cases order with
      | serial => exact Activity.chain_arranged hsteps hdisjoint
      | parallel => exact .join hsteps hdisjoint
    have hplaces : path ∉ (order.arrange (activities scope path 0 steps)).places := by
      rw [Order.arrange_places]
      exact activities_places scope steps path
    rw [activity_composite]
    cases scope with
    | perIteration =>
      refine .enter _ _
        (.seq (.pause _ _) (.seq honce (.seq (.pause _ _) (.pause _ _) ?_) ?_) ?_) ?_
      · exact List.disjoint_nil_left _
      · exact List.disjoint_nil_right _
      · exact List.disjoint_nil_left _
      · simpa [Activity.places] using hplaces
    | aroundLoop =>
      refine .enter _ _ (.seq honce (.pause _ _) (List.disjoint_nil_right _)) ?_
      simpa [Activity.places] using hplaces

end Step

/-- **The parts of a run stand at different places.** -/
theorem Program.Reaches.arranged {p : Program} {m : Machine} (h : p.Reaches env m) :
    m.activity.Arranged := by
  refine Machine.Moves.keep (fun m => m.activity.Arranged) h (fun hmove hm => ?_) ?_
  · cases hmove with
    | act ha => exact ha.arranged hm
    | wait => exact hm
    | turn => exact hm
    | cancel => exact hm
  · by_cases hp : p.step.faults = []
    · rw [start_of_valid hp]
      exact Step.activity_arranged env.scope p.step _
    · rw [start_of_faults hp]
      exact .ended _

end Lightshow
