import Lightshow.Proofs.Language.Step
import Lightshow.Proofs.Run.Uses
import Lightshow.Proofs.Time.Pace
import Lightshow.Proofs.Written.Paths
import Mathlib.Data.List.Perm.Basic

/-!
# Words of counted steps

A language leaves open in which order branches go on.  If all loops are counted it leaves nothing
else open: two words of it consist of the same events, but for the lengths of pauses and for what
calls came to.  So whatever is *kept* of the iterations and transitions, what is kept of one word
is what is kept of the other, in some order.  If it all belongs to steps that are done one after
the other then the order is the same as well, whatever goes on beside them.

That nothing is kept, that the same is kept, and that the same is kept in some order are relations
of one form: they pass to words one after the other.  So one induction on the tree serves for all
three.  What singles out a step among the others is a second one, which follows the path to it.

## Main definitions

* `EventLanguage.Determines` — what is kept of any two words is related.
* `Event.step?` — the step that begins an iteration or is dispatched.

## Main results

* `Step.language_determines` — what the words of counted steps have in common.
* `Step.language_perm` — counted steps show the same iterations and transitions in some order.
* `Step.language_within` — in the same order, at and below a step in which none is parallel.
-/

namespace Lightshow

/-! ### Shuffles -/

namespace Shuffle

variable {α : Type} {xs ys zs : List α}

theorem perm (h : Shuffle xs ys zs) : zs.Perm (xs ++ ys) := by
  induction h with
  | nil => exact .refl _
  | left _ ih => exact ih.cons _
  | right _ ih => exact (ih.cons _).trans List.perm_middle.symm

theorem filter (keep : α → Bool) (h : Shuffle xs ys zs) :
    Shuffle (xs.filter keep) (ys.filter keep) (zs.filter keep) := by
  induction h with
  | nil => exact .nil
  | @left x _ _ _ _ ih =>
    cases hx : keep x with
    | true => simpa only [List.filter_cons_of_pos hx] using ih.left
    | false => simpa [hx] using ih
  | @right y _ _ _ _ ih =>
    cases hy : keep y with
    | true => simpa only [List.filter_cons_of_pos hy] using ih.right
    | false => simpa [hy] using ih

theorem eq_left (h : Shuffle xs [] zs) : zs = xs := by
  generalize hys : ([] : List α) = ys at h
  induction h with
  | nil => rfl
  | left _ ih => rw [ih hys]
  | right => cases hys

theorem eq_right (h : Shuffle [] ys zs) : zs = ys := by
  generalize hxs : ([] : List α) = xs at h
  induction h with
  | nil => rfl
  | left => cases hxs
  | right _ ih => rw [ih hxs]

end Shuffle

/-! ### What is kept of words -/

namespace EventLanguage

/-- A relation between lists of events that passes to lists one after the other. -/
structure Congruence (R : List Event → List Event → Prop) : Prop where
  nil : R [] []
  append : ∀ {a b c d}, R a b → R c d → R (a ++ c) (b ++ d)

theorem eq_congruence : Congruence Eq := ⟨rfl, fun h h' => by rw [h, h']⟩

theorem perm_congruence : Congruence List.Perm := ⟨.nil, List.Perm.append⟩

/-- Both lists are empty. -/
def BothNil (a b : List Event) : Prop := a = [] ∧ b = []

theorem bothNil_congruence : Congruence BothNil :=
  ⟨⟨rfl, rfl⟩, fun ⟨ha, hb⟩ ⟨hc, hd⟩ => ⟨by rw [ha, hc]; rfl, by rw [hb, hd]; rfl⟩⟩

variable {R : List Event → List Event → Prop} {keep : Event → Bool} {A B : EventLanguage}

/-- What is kept of any two words is related. -/
def Determines (R : List Event → List Event → Prop) (keep : Event → Bool) (A : EventLanguage) :
    Prop :=
  ∀ u v, A.whole u → A.whole v → R (u.filter keep) (v.filter keep)

/-- Nothing is kept of any word. -/
def Silent (keep : Event → Bool) (A : EventLanguage) : Prop := Determines BothNil keep A

theorem Silent.filter_eq_nil (h : A.Silent keep) {u : List Event} (hu : A.whole u) :
    u.filter keep = [] := (h u u hu hu).1

/-- If nothing is kept then nothing differs. -/
theorem Silent.determines (hR : Congruence R) (h : A.Silent keep) : A.Determines R keep := by
  intro u v hu hv
  rw [h.filter_eq_nil hu, h.filter_eq_nil hv]
  exact hR.nil

theorem determines_done (hR : Congruence R) : done.Determines R keep := by
  rintro _ _ rfl rfl
  exact hR.nil

/-- A single event of which nothing is kept. -/
theorem silent_letter {form : Event → Prop} (h : ∀ e, form e → keep e = false) :
    (letter form).Silent keep := by
  rintro _ _ ⟨e, he, rfl⟩ ⟨e', he', rfl⟩
  exact ⟨by simp [h e he], by simp [h e' he']⟩

/-- A single event that is known. -/
theorem determines_letter {e : Event} (h : R ([e].filter keep) ([e].filter keep)) :
    (letter (· = e)).Determines R keep := by
  rintro _ _ ⟨_, rfl, rfl⟩ ⟨_, rfl, rfl⟩
  exact h

theorem Determines.seq (hR : Congruence R) (hA : A.Determines R keep)
    (hB : B.Determines R keep) : (A.seq B).Determines R keep := by
  rintro _ _ ⟨a, b, ha, hb, rfl⟩ ⟨a', b', ha', hb', rfl⟩
  rw [List.filter_append, List.filter_append]
  exact hR.append (hA a a' ha ha') (hB b b' hb hb')

theorem determines_concat (hR : Congruence R) {Ls : List EventLanguage}
    (h : ∀ L ∈ Ls, L.Determines R keep) : (concat Ls).Determines R keep := by
  induction Ls with
  | nil => exact determines_done hR
  | cons L Ls ih =>
    exact (h L List.mem_cons_self).seq hR (ih fun M hM => h M (List.mem_cons_of_mem L hM))

/-- Side by side, what is kept comes in some order. -/
theorem Determines.par (hA : A.Determines List.Perm keep) (hB : B.Determines List.Perm keep) :
    (A.par B).Determines List.Perm keep := by
  rintro u v ⟨a, b, ha, hb, hu⟩ ⟨a', b', ha', hb', hv⟩
  have hkept := (hA a a' ha ha').append (hB b b' hb hb')
  exact ((hu.filter keep).perm.trans hkept).trans (hv.filter keep).perm.symm

/-- If nothing is kept of the other branch the order is that of the branch. -/
theorem Determines.par_silent (hA : A.Determines R keep) (hB : B.Silent keep) :
    (A.par B).Determines R keep := by
  rintro u v ⟨a, b, ha, hb, hu⟩ ⟨a', b', ha', hb', hv⟩
  have hleft := hu.filter keep
  have hleft' := hv.filter keep
  rw [hB.filter_eq_nil hb] at hleft
  rw [hB.filter_eq_nil hb'] at hleft'
  rw [hleft.eq_left, hleft'.eq_left]
  exact hA a a' ha ha'

theorem Silent.par_determines (hA : A.Silent keep) (hB : B.Determines R keep) :
    (A.par B).Determines R keep := by
  rintro u v ⟨a, b, ha, hb, hu⟩ ⟨a', b', ha', hb', hv⟩
  have hright := hu.filter keep
  have hright' := hv.filter keep
  rw [hA.filter_eq_nil ha] at hright
  rw [hA.filter_eq_nil ha'] at hright'
  rw [hright.eq_right, hright'.eq_right]
  exact hB b b' hb hb'

theorem silent_shuffle {Ls : List EventLanguage} (h : ∀ L ∈ Ls, L.Silent keep) :
    (shuffle Ls).Silent keep := by
  induction Ls with
  | nil => exact determines_done bothNil_congruence
  | cons L Ls ih =>
    exact (h L List.mem_cons_self).par_silent (ih fun M hM => h M (List.mem_cons_of_mem L hM))

theorem determines_iterations (hR : Congruence R) {it : ℕ → EventLanguage}
    (h : ∀ n, (it n).Determines R keep) (m : ℕ) :
    ∀ k, (iterations it k m).Determines R keep := by
  induction m with
  | zero => exact fun _ => determines_done hR
  | succ m ih => exact fun k => (h (k + 1)).seq hR (ih (k + 1))

/-- A counted loop makes as many iterations in every word. -/
theorem determines_repeated (hR : Congruence R) {mode : LoopMode} (hmode : mode.Counted)
    {it : ℕ → EventLanguage} (h : ∀ n, (it n).Determines R keep) :
    (repeated mode.times it 0).Determines R keep := by
  have htimes : ∀ m : ℕ, mode.times ↑(0 + m) → m = mode.number.toNat := by
    intro m hm
    rw [hmode, Nat.zero_add] at hm
    exact ENat.natCast_inj.mp hm
  rintro u v ⟨m, hm, hu⟩ ⟨m', hm', hv⟩
  -- both words have as many iterations as the mode has
  obtain rfl := htimes m hm
  obtain rfl := htimes m' hm'
  exact determines_iterations hR h _ 0 u v hu hv

/-- The relation passes to words side by side. -/
def Mixes (R : List Event → List Event → Prop) (keep : Event → Bool) : Prop :=
  ∀ Ls : List EventLanguage, (∀ L ∈ Ls, L.Determines R keep) → (shuffle Ls).Determines R keep

theorem perm_mixes : Mixes List.Perm keep := by
  intro Ls h
  induction Ls with
  | nil => exact determines_done perm_congruence
  | cons L Ls ih =>
    exact (h L List.mem_cons_self).par (ih fun M hM => h M (List.mem_cons_of_mem L hM))

theorem bothNil_mixes : Mixes BothNil keep := fun _ h => silent_shuffle h

end EventLanguage

/-! ### Steps -/

/-- The text of the path of the step that begins an iteration or is dispatched. -/
def Event.step? : Event → Option String
  | .iteration _ path _ _ => some path
  | .transition path _ => some path
  | _ => none

namespace Step

open EventLanguage

variable {R : List Event → List Event → Prop} {keep : Event → Bool}
  {resolve : DeviceRef → Except Unmapped (List Device)} {scope : PauseScope}

/-- Nothing is kept of pauses. -/
theorem silent_paused (hkeep : ∀ e, e.step? = none → keep e = false) (path : Path)
    (o : Option TimeOption) : (paused path o).Silent keep := by
  cases o with
  | none => exact determines_done bothNil_congruence
  | some o =>
    refine silent_letter fun e he => ?_
    obtain ⟨seconds, rfl⟩ := he
    exact hkeep _ rfl

/-- Nothing is kept of what calls came to. -/
theorem silent_served (hkeep : ∀ e, e.step? = none → keep e = false) (path : Path) (d : Device)
    (n : ℕ) : (served path d n).Silent keep := by
  refine determines_concat bothNil_congruence fun L hL => ?_
  rw [List.eq_of_mem_replicate hL]
  refine silent_letter fun e he => ?_
  obtain ⟨error, rfl⟩ := he
  exact hkeep _ rfl

/-- What is kept of a transition is that it is dispatched. -/
theorem determines_transition (hR : Congruence R) (hkeep : ∀ e, e.step? = none → keep e = false)
    {path : Path} {t : Transition}
    (hself : ∀ e, e.step? = some path.text → R ([e].filter keep) ([e].filter keep)) :
    (Step.language resolve scope path (.transition t)).Determines R keep := by
  have hpaused := fun o => (silent_paused hkeep path o).determines hR
  have hserved : (shuffle ((t.devicesSeen resolve).map fun d =>
      served path d ((t.named resolve).count d))).Silent keep := by
    refine silent_shuffle fun L hL => ?_
    obtain ⟨d, -, rfl⟩ := List.mem_map.mp hL
    exact silent_served hkeep path d _
  have hdispatched : (dispatched resolve path t).Determines R keep :=
    (determines_letter (hself _ rfl)).seq hR (hserved.determines hR)
  rw [Step.language]
  exact (hpaused _).seq hR (hdispatched.seq hR (hpaused _))

/-- What is kept of a composite is that its iterations begin, and what is kept of its steps. -/
theorem determines_composite (hR : Congruence R) (hkeep : ∀ e, e.step? = none → keep e = false)
    {path : Path} {order : Order} {steps : List Step} {loop : Loop} {pause : Pause}
    (hmode : loop.mode.Counted)
    (hself : ∀ e, e.step? = some path.text → R ([e].filter keep) ([e].filter keep))
    (hserial : order = .serial →
      (concat (Step.languages resolve scope path 0 steps)).Determines R keep)
    (hparallel : order = .parallel →
      (shuffle (Step.languages resolve scope path 0 steps)).Determines R keep) :
    (Step.language resolve scope path (.composite order steps loop pause)).Determines R keep := by
  have hpaused := fun o => (silent_paused hkeep path o).determines hR
  have hrepeated : ∀ body : EventLanguage, body.Determines R keep →
      (repeated loop.mode.times (iteration order path loop.mode body) 0).Determines R keep :=
    fun body hbody => determines_repeated hR hmode fun n =>
      (determines_letter (hself _ rfl)).seq hR hbody
  cases scope with
  | perIteration =>
    have hwhole := fun (once : EventLanguage) (honce : once.Determines R keep) =>
      hrepeated _ ((hpaused pause.before).seq hR
        (honce.seq hR ((hpaused pause.after).seq hR (hpaused loop.pause))))
    cases order with
    | serial => exact hwhole _ (hserial rfl)
    | parallel => exact hwhole _ (hparallel rfl)
  | aroundLoop =>
    have hwhole := fun (once : EventLanguage) (honce : once.Determines R keep) =>
      (hpaused pause.before).seq hR
        ((hrepeated _ (honce.seq hR (hpaused loop.pause))).seq hR (hpaused pause.after))
    cases order with
    | serial => exact hwhole _ (hserial rfl)
    | parallel => exact hwhole _ (hparallel rfl)

/-- The languages of the steps of a composite are those of its steps at their places. -/
theorem exists_of_mem_languages {steps : List Step} {path : Path} {index : ℕ} {L : EventLanguage}
    (h : L ∈ languages resolve scope path index steps) :
    ∃ (i : ℕ) (s : Step), steps[i]? = some s ∧
      L = s.language resolve scope (.child path (index + i) s.kind) := by
  induction steps generalizing index with
  | nil =>
    rw [languages] at h
    exact absurd h List.not_mem_nil
  | cons s rest ih =>
    rw [languages] at h
    rcases List.mem_cons.mp h with rfl | h
    · exact ⟨0, s, rfl, rfl⟩
    · obtain ⟨i, s', hs', rfl⟩ := ih h
      exact ⟨i + 1, s', hs', by rw [Nat.add_right_comm]; rfl⟩

/-- **What the words of a counted step have in common.**  A relation that passes to words one after
the other, and to words side by side if some step is parallel, holds of what is kept of any two
words if it holds of what is kept of single events. -/
theorem language_determines (hR : Congruence R) (hkeep : ∀ e, e.step? = none → keep e = false)
    (s : Step) (path : Path) (hcounted : ∀ n ∈ s.nodes, n.Counted)
    (hmixes : ∀ n ∈ s.nodes, n.kind = .parallel → Mixes R keep)
    (hself : ∀ x ∈ s.stepsAt path, ∀ e, e.step? = some x.1.text →
      R ([e].filter keep) ([e].filter keep)) :
    (s.language resolve scope path).Determines R keep := by
  induction s using Step.induction generalizing path with
  | transition t => exact determines_transition hR hkeep (hself _ (self_mem_stepsAt path _))
  | composite order steps loop pause ih =>
    rw [Step.nodes] at hcounted hmixes
    have hsteps : ∀ L ∈ languages resolve scope path 0 steps, L.Determines R keep := by
      intro L hL
      obtain ⟨i, s, hs, rfl⟩ := exists_of_mem_languages hL
      have hnodes : ∀ n ∈ s.nodes, n ∈ nodesAll steps := fun n hn =>
        mem_nodesAll.mpr ⟨s, List.mem_of_getElem? hs, hn⟩
      refine ih s (List.mem_of_getElem? hs) _
        (fun n hn => hcounted n (List.mem_cons_of_mem _ (hnodes n hn)))
        (fun n hn => hmixes n (List.mem_cons_of_mem _ (hnodes n hn))) fun x hx => hself x ?_
      rw [stepsAt]
      exact List.mem_cons_of_mem _ (mem_stepsFrom.mpr ⟨i, s, hs, hx⟩)
    refine determines_composite hR hkeep (hcounted _ List.mem_cons_self).1
      (hself _ (self_mem_stepsAt path _)) (fun _ => determines_concat hR hsteps) fun horder => ?_
    subst horder
    exact hmixes _ List.mem_cons_self rfl _ hsteps

/-- **Counted steps show the same iterations and transitions in some order.** -/
theorem language_perm (hkeep : ∀ e, e.step? = none → keep e = false) {s : Step} {path : Path}
    (hcounted : ∀ n ∈ s.nodes, n.Counted) :
    (s.language resolve scope path).Determines List.Perm keep :=
  language_determines perm_congruence hkeep s path hcounted (fun _ _ _ => perm_mixes)
    fun _ _ _ _ => List.Perm.refl _

/-- They show them in the same order if no step is parallel. -/
theorem language_eq (hkeep : ∀ e, e.step? = none → keep e = false) {s : Step} {path : Path}
    (hcounted : ∀ n ∈ s.nodes, n.Counted) (hserial : ∀ n ∈ s.nodes, n.kind ≠ .parallel) :
    (s.language resolve scope path).Determines Eq keep :=
  language_determines eq_congruence hkeep s path hcounted
    (fun n hn hkind => absurd hkind (hserial n hn)) fun _ _ _ _ => rfl

/-- An event that is not kept. -/
theorem bothNil_singleton {e : Event} (he : keep e = false) :
    BothNil ([e].filter keep) ([e].filter keep) := by
  have hnone : [e].filter keep = [] := by
    rw [List.filter_singleton, he]
    rfl
  exact ⟨hnone, hnone⟩

/-- Nothing is kept of a step if nothing is kept that names it or a step below it. -/
theorem language_silent (hkeep : ∀ e, e.step? = none → keep e = false) {s : Step} {path : Path}
    (hcounted : ∀ n ∈ s.nodes, n.Counted)
    (hout : ∀ x ∈ s.stepsAt path, ∀ e, e.step? = some x.1.text → keep e = false) :
    (s.language resolve scope path).Silent keep :=
  language_determines bothNil_congruence hkeep s path hcounted (fun _ _ _ => bothNil_mixes)
    fun x hx e he => bothNil_singleton (hout x hx e he)

theorem languages_silent (hkeep : ∀ e, e.step? = none → keep e = false) {steps : List Step}
    {path : Path} {index : ℕ} (hcounted : ∀ n ∈ Step.nodesAll steps, n.Counted)
    (hout : ∀ x ∈ Step.stepsFrom path index steps, ∀ e, e.step? = some x.1.text → keep e = false) :
    ∀ L ∈ Step.languages resolve scope path index steps, L.Silent keep := by
  intro L hL
  obtain ⟨i, s, hs, rfl⟩ := exists_of_mem_languages hL
  exact language_silent hkeep
    (fun n hn => hcounted n (mem_nodesAll.mpr ⟨s, List.mem_of_getElem? hs, hn⟩))
    fun x hx => hout x (mem_stepsFrom.mpr ⟨i, s, hs, hx⟩)

/-! ### A step among the others -/

/-- Whatever is kept names one of some steps. -/
def Names (keep : Event → Bool) (steps : List (Path × Step)) : Prop :=
  ∀ e, keep e = true → ∃ x ∈ steps, e.step? = some x.1.text

/-- What is kept names one of some steps, so it is nothing that names others. -/
theorem Names.keep_eq_false {steps : List (Path × Step)} (h : Names keep steps) {path : Path}
    (hpath : ∀ x ∈ steps, x.1 ≠ path) : ∀ e, e.step? = some path.text → keep e = false := by
  intro e he
  refine Bool.eq_false_iff.mpr fun hkept => ?_
  obtain ⟨x, hx, hstep⟩ := h e hkept
  exact hpath x hx (Path.text_injective (Option.some.inj (hstep.symm.trans he)))

theorem Names.blind {steps : List (Path × Step)} (h : Names keep steps) :
    ∀ e, e.step? = none → keep e = false := by
  intro e he
  refine Bool.eq_false_iff.mpr fun hkept => ?_
  obtain ⟨x, -, hstep⟩ := h e hkept
  rw [he] at hstep
  exact absurd hstep nofun

variable {q : Path} {target : Step}

mutual

/-- **A step in which none is parallel shows its iterations and transitions in one order**, whatever
goes on beside it. -/
theorem language_within (hserial : ∀ n ∈ target.nodes, n.kind ≠ .parallel)
    (hnames : Names keep (target.stepsAt q)) : ∀ (s : Step) (path : Path),
      (q, target) ∈ s.stepsAt path → (∀ n ∈ s.nodes, n.Counted) →
        (s.language resolve scope path).Determines Eq keep
  | .transition t, path => by
    intro hmem hcounted
    rw [stepsAt] at hmem
    obtain ⟨rfl, rfl⟩ := Prod.mk.inj (List.mem_singleton.mp hmem)
    exact language_eq hnames.blind hcounted hserial
  | .composite order steps loop pause, path => by
    intro hmem hcounted
    rw [stepsAt] at hmem
    rcases List.mem_cons.mp hmem with heq | hmem
    · obtain ⟨rfl, rfl⟩ := Prod.mk.inj heq
      exact language_eq hnames.blind hcounted hserial
    · rw [Step.nodes] at hcounted
      obtain ⟨hconcat, hshuffle⟩ := languages_within hserial hnames steps path 0 hmem
        fun n hn => hcounted n (List.mem_cons_of_mem _ hn)
      exact determines_composite eq_congruence hnames.blind (hcounted _ List.mem_cons_self).1
        (fun _ _ => rfl) (fun _ => hconcat) fun _ => hshuffle

/-- Among the steps of a composite it is below one of them, and nothing is kept of the others. -/
theorem languages_within (hserial : ∀ n ∈ target.nodes, n.kind ≠ .parallel)
    (hnames : Names keep (target.stepsAt q)) : ∀ (steps : List Step) (path : Path) (index : ℕ),
      (q, target) ∈ Step.stepsFrom path index steps → (∀ n ∈ Step.nodesAll steps, n.Counted) →
        (concat (Step.languages resolve scope path index steps)).Determines Eq keep ∧
          (shuffle (Step.languages resolve scope path index steps)).Determines Eq keep
  | [], path, index => by
    intro hmem
    rw [stepsFrom] at hmem
    exact absurd hmem List.not_mem_nil
  | s :: rest, path, index => by
    intro hmem hcounted
    rw [stepsFrom] at hmem
    rw [Step.nodesAll] at hcounted
    have hcounted' := fun n hn => hcounted n (List.mem_append_right _ hn)
    rw [Step.languages]
    rcases List.mem_append.mp hmem with hmem | hmem
    -- the steps of the others are not below the target, since paths tell steps apart
    · have hfirst := language_within hserial hnames s _ hmem fun n hn =>
        hcounted n (List.mem_append_left _ hn)
      have hothers : ∀ L ∈ Step.languages resolve scope path (index + 1) rest, L.Silent keep :=
        languages_silent hnames.blind hcounted' fun x hx => hnames.keep_eq_false fun y hy =>
          ne_of_mem_stepsFrom_later (stepsAt_trans hy hmem) hx
      exact ⟨hfirst.seq eq_congruence (determines_concat eq_congruence fun L hL =>
        (hothers L hL).determines eq_congruence), hfirst.par_silent (silent_shuffle hothers)⟩
    · have hothers : (s.language resolve scope (.child path index s.kind)).Silent keep :=
        language_silent hnames.blind (fun n hn => hcounted n (List.mem_append_left _ hn))
          fun x hx => hnames.keep_eq_false fun y hy =>
            (ne_of_mem_stepsFrom_later hx (stepsFrom_trans hy hmem)).symm
      obtain ⟨hconcat, hshuffle⟩ := languages_within hserial hnames rest path (index + 1) hmem
        hcounted'
      exact ⟨(hothers.determines eq_congruence).seq eq_congruence hconcat,
        hothers.par_determines hshuffle⟩

end

end Step

end Lightshow
