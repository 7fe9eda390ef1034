import Lightshow.Proofs.Run.Account
import Lightshow.Proofs.Run.Places

/-!
# Serving devices

Only the queues that are *served* matter for what the gateway is asked: those of the parts that
have begun, as far as they have not ended.  A move of an activity leaves them alone, or one of
them moves, or a transition is dispatched and new ones begin; and in the last case no other part
is serving devices for the same transition.  With this said once, what happens to calls can be
told by lists of queues, and the tree of the activity may be forgotten.

## Main definitions

* `Activity.serving` — the queues that are served.
* `Entry.work?` — the entries that tell of calls and transitions.
* `Activity.Serves` — what a move does to the queues that are served.

## Main results

* `Activity.Move.serving` — **a move of an activity, told by the queues that are served.**
-/

namespace Lightshow

open World

variable {env : Environment}

/-! ### Queues that are served -/

namespace Queue

/-- The place and the device that a queue serves. -/
def serves? : Queue → Option (Path × Device)
  | .ready call _ | .calling call _ _ _ | .awaiting call _ _ => some (call.path, call.device)
  | .ended _ => none

/-- A queue, unless it has ended. -/
def live : Queue → List Queue
  | .ended _ => []
  | q => [q]

theorem place?_eq (q : Queue) : q.place? = q.serves?.map Prod.fst := by cases q <;> rfl

/-- A queue that has not ended is the only one of its list. -/
theorem eq_of_mem_live {q r : Queue} (h : r ∈ q.live) : r = q := by
  cases q with
  | ended => exact absurd h List.not_mem_nil
  | _ => exact List.mem_singleton.mp h

/-- A queue that has ended serves nothing. -/
theorem filterMap_live (q : Queue) : q.live.filterMap serves? = q.serves?.toList := by
  cases q <;> rfl

end Queue

mutual

/-- The queues of an activity that are served. -/
def Activity.serving : Activity → List Queue
  | .applying queues => queues.flatMap Queue.live
  | .seq first _ => Activity.serving first
  | .join branches => Activity.servingAll branches
  | .within _ _ _ _ current => Activity.serving current
  | _ => []

/-- The queues of some activities that are served. -/
def Activity.servingAll : List Activity → List Queue
  | [] => []
  | a :: rest => Activity.serving a ++ Activity.servingAll rest

end

/-! ### Works -/

/-- The entries that tell of calls and transitions. -/
def Entry.work? : Entry → Option Entry
  | .called c => some (.called c)
  | .settled c e => some (.settled c e)
  | .dispatched p t => some (.dispatched p t)
  | _ => none

/-- Calls can be told from what is done for transitions. -/
theorem Entry.call?_work (e : Entry) : e.call? = e.work?.bind Entry.call? := by cases e <;> rfl

theorem Entry.settled?_work (e : Entry) : e.settled? = e.work?.bind Entry.settled? := by
  cases e <;> rfl

/-- From one world to another, by a move of an activity with certain places, the queues that are
served stay the same; or one of them moves; or those of a transition are added, for which no
device was served. -/
inductive Activity.Serves (env : Environment) (places : List Path) (w w' : World)
    (x y : List Queue) : Prop
  | rests (hwork : w'.see Entry.work? = w.see Entry.work?) (hy : y = x)
  | serves {q q' : Queue} (before after : List Queue) (hq : Queue.Move env q w q' w')
      (hx : x = before ++ q :: after) (hy : y = before ++ (q'.live ++ after))
  | begins {path : Path} {t : Transition} (before after : List Queue) (hw : w.halted = false)
      (hpath : path ∈ places) (hx : x = before ++ after) (hfree : ∀ q ∈ x, q.place? ≠ some path)
      (hy : y = before ++
        (newQueues (announce env path t w).2.now path t (announced env t) ++ after))
      (hw' : w' = (announce env path t w).2)

namespace Activity

theorem servingAll_eq_flatMap (branches : List Activity) :
    servingAll branches = branches.flatMap serving := by
  induction branches with
  | nil => rfl
  | cons a branches ih => rw [servingAll, ih, List.flatMap_cons]

/-- Nothing is served for what has not begun. -/
theorem Idle.serving {a : Activity} (h : Idle a) : a.serving = [] := by
  induction h with
  | seq _ _ ih => exact ih
  | join _ ih =>
    rw [Activity.serving, servingAll_eq_flatMap]
    exact List.flatMap_eq_nil_iff.mpr ih
  | _ => rfl

mutual

/-- What is served has its place in the activity. -/
theorem place_mem_places {q : Queue} {path : Path} (hplace : q.place? = some path) :
    ∀ a : Activity, q ∈ a.serving → path ∈ a.places
  | .applying queues => by
    intro hq
    obtain ⟨r, hr, hq⟩ := List.mem_flatMap.mp hq
    exact List.mem_filterMap.mpr ⟨q, Queue.eq_of_mem_live hq ▸ hr, hplace⟩
  | .seq first rest => fun hq => List.mem_append_left _ (place_mem_places hplace first hq)
  | .join branches => fun hq => place_mem_placesAll hplace branches hq
  | .within _ _ _ body current => fun hq =>
    List.mem_cons_of_mem _ (List.mem_append_right _ (place_mem_places hplace current hq))
  | .ended _ | .pause .. | .sleeping _ | .dispatch .. | .enter .. | .rounds .. =>
    fun hq => absurd hq List.not_mem_nil

theorem place_mem_placesAll {q : Queue} {path : Path} (hplace : q.place? = some path) :
    ∀ branches : List Activity, q ∈ servingAll branches → path ∈ placesAll branches
  | [] => fun hq => absurd hq List.not_mem_nil
  | a :: rest => by
    intro hq
    rcases List.mem_append.mp hq with hq | hq
    · exact List.mem_append_left _ (place_mem_places hplace a hq)
    · exact List.mem_append_right _ (place_mem_placesAll hplace rest hq)

end

/-- New queues are served. -/
theorem newQueues_live (now : Instant) (path : Path) (t : Transition)
    (devices : List (Device × ℕ)) :
    (newQueues now path t devices).flatMap Queue.live = newQueues now path t devices := by
  induction devices with
  | nil => rfl
  | cons d devices ih =>
    rw [newQueues, List.map_cons, List.flatMap_cons, ← newQueues, ih]
    rfl

variable {places : List Path} {w w' : World} {x y : List Queue}

/-- There may be more places. -/
theorem Serves.widen {places' : List Path} (h : Serves env places w w' x y)
    (hplaces : places ⊆ places') : Serves env places' w w' x y := by
  cases h with
  | rests hwork hy => exact .rests hwork hy
  | serves b a hq hx hy => exact .serves b a hq hx hy
  | begins b a hw hpath hx hnew hy hw' => exact .begins b a hw (hplaces hpath) hx hnew hy hw'

/-- Queues that stand by stay what they are, if they serve at other places. -/
theorem Serves.frame (h : Serves env places w w' x y) (before after : List Queue)
    (hfree : ∀ q, q ∈ before ∨ q ∈ after → ∀ path ∈ q.place?, path ∉ places) :
    Serves env places w w' (before ++ (x ++ after)) (before ++ (y ++ after)) := by
  cases h with
  | rests hwork hy => exact .rests hwork (by rw [hy])
  | serves b a hq hx hy =>
    refine .serves (before ++ b) (a ++ after) hq ?_ ?_
    · rw [hx]
      simp only [List.append_assoc, List.cons_append]
    · rw [hy]
      simp only [List.append_assoc]
  | @begins path t b a hw hpath hx hnew hy hw' =>
    refine .begins (before ++ b) (a ++ after) hw hpath ?_ ?_ ?_ hw'
    · rw [hx]
      simp only [List.append_assoc]
    · intro q hq hplace
      rcases List.mem_append.mp hq with hq | hq
      · exact hfree q (.inl hq) path hplace hpath
      · rcases List.mem_append.mp hq with hq | hq
        · exact hnew q hq hplace
        · exact hfree q (.inr hq) path hplace hpath
    · rw [hy]
      simp only [List.append_assoc]

/-- What is true of the queues that stay what they are, of those that move and of those that begin
is true of all that are served. -/
theorem Serves.forall {P : Queue → Prop} (h : Serves env places w w' x y) (hstay : ∀ q ∈ x, P q)
    (hmove : ∀ q ∈ x, ∀ q', Queue.Move env q w q' w' → P q')
    (hbegin : ∀ path t, w' = (announce env path t w).2 →
      ∀ q ∈ newQueues w'.now path t (announced env t), P q) : ∀ q ∈ y, P q := by
  cases h with
  | rests _ hy =>
    rw [hy]
    exact hstay
  | @serves q q' before after hq hx hy =>
    subst hx hy
    intro r hr
    rcases List.mem_append.mp hr with hr | hr
    · exact hstay r (List.mem_append_left _ hr)
    · rcases List.mem_append.mp hr with hr | hr
      · rw [Queue.eq_of_mem_live hr]
        exact hmove q (List.mem_append_right _ List.mem_cons_self) q' hq
      · exact hstay r (List.mem_append_right _ (List.mem_cons_of_mem q hr))
  | @begins path t before after _ _ hx _ hy hw' =>
    rw [← hw'] at hy
    subst hx hy
    intro r hr
    rcases List.mem_append.mp hr with hr | hr
    · exact hstay r (List.mem_append_left _ hr)
    · rcases List.mem_append.mp hr with hr | hr
      · exact hbegin path t hw' r hr
      · exact hstay r (List.mem_append_right _ hr)

/-- **A move of an activity, told by the queues that are served.** -/
theorem Move.serving {a a' : Activity} (h : Move env a w a' w') (hready : Ready a)
    (harranged : Arranged a) : Serves env a.places w w' a.serving a'.serving := by
  induction h with
  | pause =>
    rw [beginPause_nil Activity.serving (fun _ => rfl) fun _ => rfl]
    exact .rests (see_beginPause_none rfl (fun _ => rfl) (fun _ _ => rfl) _ _) rfl
  | wake =>
    rw [pollSleep_nil Activity.serving (fun _ => rfl) fun _ => rfl]
    exact .rests rfl rfl
  | @dispatch path t w hw =>
    refine .begins [] [] hw (List.mem_singleton_self path) rfl
      (fun q hq => absurd hq List.not_mem_nil) ?_ rfl
    rw [Activity.serving, announce_devices, newQueues_live, List.append_nil, List.nil_append]
  | @serve q q' w w' before after hq =>
    have hlive : q.live = [q] := by cases hq <;> rfl
    simp only [Activity.serving, List.flatMap_append, List.flatMap_cons, hlive]
    exact .serves _ _ hq rfl rfl
  | @served flows w =>
    have hserving : (applying (flows.map .ended)).serving = [] :=
      List.flatMap_eq_nil_iff.mpr fun q hq => by
        obtain ⟨flow, -, rfl⟩ := List.mem_map.mp hq
        rfl
    rw [hserving]
    exact .rests rfl rfl
  | first _ ih =>
    cases hready with
    | seq hfirst _ =>
      cases harranged with
      | seq hfirst' _ _ =>
        exact (ih hfirst hfirst').widen (List.subset_append_left _ _)
  | second =>
    cases hready with
    | seq _ hrest =>
      rw [hrest.serving]
      exact .rests rfl rfl
  | @branch a a' w w' before after hmove ih =>
    cases hready with
    | join hready =>
      cases harranged with
      | join harranged hdisjoint =>
        have hmem : a ∈ before ++ a :: after := List.mem_append_right _ List.mem_cons_self
        have h := ih (hready a hmem) (harranged a hmem)
        rw [List.pairwise_append, List.pairwise_cons] at hdisjoint
        obtain ⟨-, ⟨hright, -⟩, hleft⟩ := hdisjoint
        simp only [Activity.serving, servingAll_eq_flatMap, List.flatMap_append,
          List.flatMap_cons]
        refine (h.frame _ _ ?_).widen ?_
        · -- what stands by serves at places of the other branches
          rintro q (hq | hq) path hplace hpath
          · obtain ⟨b, hb, hq⟩ := List.mem_flatMap.mp hq
            exact hleft b hb a List.mem_cons_self (place_mem_places hplace b hq) hpath
          · obtain ⟨b, hb, hq⟩ := List.mem_flatMap.mp hq
            exact hright b hb hpath (place_mem_places hplace b hq)
        · intro path hpath
          rw [Activity.places, placesAll_eq_flatMap]
          exact List.mem_flatMap.mpr ⟨a, hmem, hpath⟩
  | @joined flows w =>
    have hserving : (join (flows.map .ended)).serving = [] := by
      rw [Activity.serving, servingAll_eq_flatMap]
      exact List.flatMap_eq_nil_iff.mpr fun q hq => by
        obtain ⟨flow, -, rfl⟩ := List.mem_map.mp hq
        rfl
    rw [hserving]
    exact .rests rfl rfl
  | bar he =>
    refine .rests ?_ rfl
    rw [see_fail_none _ rfl, see_note_none _ rfl, see_enterLoop (fun _ => rfl) he]
  | enter he =>
    refine .rests ?_ rfl
    rw [see_note_none _ rfl, see_enterLoop (fun _ => rfl) he]
  | expire => exact .rests (see_note_none _ rfl) rfl
  | begin =>
    cases hready with
    | rounds _ _ _ hbody =>
      refine .rests (see_emit_none _ _ rfl rfl) ?_
      exact hbody.serving
  | inside _ ih =>
    cases hready with
    | within _ _ _ _ hcurrent =>
      cases harranged with
      | within _ _ _ hcurrent' _ _ =>
        exact (ih hcurrent hcurrent').widen
          (List.subset_cons_of_subset _ (List.subset_append_right _ _))
  | _ => exact .rests rfl rfl

end Activity

end Lightshow
