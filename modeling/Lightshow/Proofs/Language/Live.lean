import Lightshow.Program.Fault
import Lightshow.Proofs.Language.Step

/-!
# Beginnings are carried through

The beginnings in a language of events are built up without regard to what may follow.  Here we
show that in the language of a step without faults nothing leads into a dead end: every
beginning begins a word, finite or infinite.  Such a language is *live*.

A language that is live has a word.  So one part of a sequence can be followed by the next, and
what is missing of the iterations of a loop can be made up, unless one of them does not end.
What goes on side by side for ever goes on by turns.  The one thing that can stand in the way is
a random loop with its bounds the wrong way round, which may be repeated no number of times; but
that is a fault.

## Main definitions

* `EventLanguage.Live` — every beginning begins a word.

## Main results

* `Live.seq`, `Live.par`, `Live.repeated` — languages made of live ones are live.
* `Step.language_live` — the language of a step without faults is live.
-/

namespace Lightshow

/-! ### Fair shuffles -/

namespace FairShuffle

open Stream'

variable {α : Type} {a b s : Stream' α}

theorem symm (h : FairShuffle a b s) : FairShuffle b a s := by
  obtain ⟨i, j, hi, hj, hstep, hgrow⟩ := h
  refine ⟨j, i, hj, hi, fun n => ?_, fun k => ?_⟩
  · rcases hstep n with ⟨h₁, h₂, hget⟩ | ⟨h₁, h₂, hget⟩
    · exact .inr ⟨h₂, h₁, hget⟩
    · exact .inl ⟨h₂, h₁, hget⟩
  · obtain ⟨n, h₁, h₂⟩ := hgrow k
    exact ⟨n, h₂, h₁⟩

theorem cons_left (x : α) (h : FairShuffle a b s) : FairShuffle (cons x a) b (cons x s) := by
  obtain ⟨i, j, hi, hj, hstep, hgrow⟩ := h
  -- all counts come one letter later
  refine ⟨cons 0 fun n => i n + 1, cons 0 j, rfl, rfl, ?_, ?_⟩
  · rintro (_ | n)
    · exact .inl ⟨congrArg (· + 1) hi, hj, rfl⟩
    · rcases hstep n with ⟨h₁, h₂, hget⟩ | ⟨h₁, h₂, hget⟩
      · exact .inl ⟨congrArg (· + 1) h₁, h₂, hget⟩
      · exact .inr ⟨congrArg (· + 1) h₁, h₂, hget⟩
  · intro k
    obtain ⟨n, h₁, h₂⟩ := hgrow k
    exact ⟨n + 1, Nat.le_succ_of_le h₁, h₂⟩

theorem cons_right (x : α) (h : FairShuffle a b s) : FairShuffle a (cons x b) (cons x s) :=
  (h.symm.cons_left x).symm

/-- A shuffle of finite words may come first. -/
theorem append {us vs ws : List α} (hs : Shuffle us vs ws) (h : FairShuffle a b s) :
    FairShuffle (us ++ₛ a) (vs ++ₛ b) (ws ++ₛ s) := by
  induction hs with
  | nil => exact h
  | left _ ih => exact ih.cons_left _
  | right _ ih => exact ih.cons_right _

/-- Any two infinite words can be shuffled, letter by letter. -/
theorem exists_fair (a b : Stream' α) : ∃ s, FairShuffle a b s := by
  refine ⟨fun n => if n % 2 = 0 then a.get (n / 2) else b.get (n / 2),
    fun n => (n + 1) / 2, fun n => n / 2, rfl, rfl, ?_, ?_⟩
  · intro n
    simp only [Stream'.get]
    by_cases hn : n % 2 = 0
    · have hi : (n + 1) / 2 = n / 2 := by omega
      exact .inl ⟨by omega, by omega, by rw [if_pos hn, hi]⟩
    · exact .inr ⟨by omega, by omega, by rw [if_neg hn]⟩
  · intro k
    refine ⟨2 * k, ?_, ?_⟩
    · show k ≤ (2 * k + 1) / 2
      omega
    · show k ≤ 2 * k / 2
      omega

end FairShuffle

/-! ### Infinitely many words -/

section Words

open Stream'

variable {α : Type} {word : ℕ → List α}

theorem firstWords_succ (word : ℕ → List α) (n : ℕ) :
    firstWords word (n + 1) = firstWords word n ++ word n := by
  rw [firstWords, List.range_succ, List.map_append, List.flatten_append, firstWords]
  simp

theorem firstWords_succ' (word : ℕ → List α) (n : ℕ) :
    firstWords word (n + 1) = word 0 ++ firstWords (fun i => word (i + 1)) n := by
  rw [firstWords, List.range_succ_eq_map, List.map_cons, List.map_map, List.flatten_cons]
  rfl

theorem firstWords_mono {m n : ℕ} (h : m ≤ n) : firstWords word m <+: firstWords word n := by
  induction h with
  | refl => exact List.prefix_rfl
  | step _ ih =>
    rw [firstWords_succ]
    exact ih.trans (List.prefix_append _ _)

theorem le_length_firstWords (hne : ∀ i, word i ≠ []) (n : ℕ) :
    n ≤ (firstWords word n).length := by
  induction n with
  | zero => exact Nat.zero_le _
  | succ n ih =>
    have hlen := List.length_pos_iff.mpr (hne n)
    rw [firstWords_succ, List.length_append]
    omega

/-- Words that are not empty make up an infinite word. -/
theorem exists_stream_of_words (hne : ∀ i, word i ≠ []) :
    ∃ s : Stream' α, ∀ n, ∃ t, s = firstWords word n ++ₛ t := by
  obtain ⟨s, hs⟩ : ∃ s : Stream' α, ∀ i, (firstWords word (i + 1))[i]? = some (s.get i) :=
    ⟨fun i => (firstWords word (i + 1)).get ⟨i, le_length_firstWords hne (i + 1)⟩,
      fun i => List.getElem?_eq_getElem (le_length_firstWords hne (i + 1))⟩
  refine ⟨s, fun n => ⟨s.drop (firstWords word n).length, ?_⟩⟩
  have htake : s.take (firstWords word n).length = firstWords word n := by
    apply List.ext_getElem?
    intro i
    by_cases hi : i < (firstWords word n).length
    · -- the first `n` words and the first `i + 1` words agree where both have a letter
      rw [getElem?_take hi, ← hs]
      rcases Nat.le_total (i + 1) n with hin | hin
      · have hi' : i < (firstWords word (i + 1)).length := le_length_firstWords hne (i + 1)
        rw [List.getElem?_eq_getElem hi',
          List.prefix_iff_getElem?.mp (firstWords_mono hin) i hi']
      · rw [List.getElem?_eq_getElem hi,
          List.prefix_iff_getElem?.mp (firstWords_mono hin) i hi]
    · rw [List.getElem?_eq_none (by rw [length_take]; omega), List.getElem?_eq_none (by omega)]
  calc s = s.take (firstWords word n).length ++ₛ s.drop (firstWords word n).length :=
        (append_take_drop _ s).symm
    _ = firstWords word n ++ₛ s.drop (firstWords word n).length := by rw [htake]

end Words

/-! ### Live languages -/

namespace EventLanguage

open Stream'

/-- Every beginning begins a word. -/
def Live (A : EventLanguage) : Prop := ∀ ⦃w⦄, A.opening w → A.Begins w

variable {A B : EventLanguage}

theorem done_live : done.Live := by
  rintro w rfl
  exact .inl ⟨[], rfl⟩

theorem letter_live {form : Event → Prop} (h : ∃ e, form e) : (letter form).Live := by
  rintro w (rfl | ⟨e, he, rfl⟩)
  · obtain ⟨e, he⟩ := h
    exact .inl ⟨[e], e, he, rfl⟩
  · exact .inl ⟨[], e, he, rfl⟩

theorem Live.seq (hA : A.Live) (hB : B.Live) : (A.seq B).Live := by
  rintro w (hw | ⟨u, v, hu, hv, rfl⟩)
  · rcases hA hw with ⟨v, hv⟩ | ⟨s, hs⟩
    · rcases hB B.opening_nil with ⟨x, hx⟩ | ⟨s, hs⟩
      · exact .inl ⟨v ++ x, w ++ v, x, hv, hx, (List.append_assoc ..).symm⟩
      · exact .inr ⟨v ++ₛ s, .inr ⟨w ++ v, s, hv, hs, (append_append_stream ..).symm⟩⟩
    · exact .inr ⟨s, .inl hs⟩
  · rcases hB hv with ⟨x, hx⟩ | ⟨s, hs⟩
    · exact .inl ⟨x, u, v ++ x, hu, hx, List.append_assoc ..⟩
    · exact .inr ⟨s, .inr ⟨u, v ++ₛ s, hu, hs, append_append_stream ..⟩⟩

theorem Live.par (hA : A.Live) (hB : B.Live) : (A.par B).Live := by
  rintro w ⟨a, b, ha, hb, hw⟩
  rcases hA ha with ⟨x, hx⟩ | ⟨s, hs⟩
  · rcases hB hb with ⟨y, hy⟩ | ⟨t, ht⟩
    · exact .inl ⟨x ++ y, a ++ x, b ++ y, hx, hy, hw.append (.of_append x y)⟩
    · refine .inr ⟨x ++ₛ t, .inl ⟨a ++ x, b, t, w ++ x, hx, ht, ?_, ?_⟩⟩
      · simpa using hw.append (.self_left x)
      · exact (append_append_stream ..).symm
  · rcases hB hb with ⟨y, hy⟩ | ⟨t, ht⟩
    · refine .inr ⟨y ++ₛ s, .inr (.inl ⟨a, b ++ y, s, w ++ y, hs, hy, ?_, ?_⟩)⟩
      · simpa using hw.append (.self_right y)
      · exact (append_append_stream ..).symm
    · obtain ⟨z, hz⟩ := FairShuffle.exists_fair s t
      exact .inr ⟨z, .inr (.inr ⟨a ++ₛ s, b ++ₛ t, hs, ht, hz.append hw⟩)⟩

theorem concat_live {Ls : List EventLanguage} (h : ∀ L ∈ Ls, L.Live) : (concat Ls).Live := by
  induction Ls with
  | nil => exact done_live
  | cons L Ls ih =>
    have hLs := ih fun B hB => h B (List.mem_cons_of_mem _ hB)
    exact Live.seq (h L List.mem_cons_self) hLs

theorem shuffle_live {Ls : List EventLanguage} (h : ∀ L ∈ Ls, L.Live) : (shuffle Ls).Live := by
  induction Ls with
  | nil => exact done_live
  | cons L Ls ih =>
    have hLs := ih fun B hB => h B (List.mem_cons_of_mem _ hB)
    exact Live.par (h L List.mem_cons_self) hLs

/-! #### Iterations -/

variable {it : ℕ → EventLanguage} {k m : ℕ}

theorem iterations_live (hit : ∀ n, (it n).Live) (k m : ℕ) : (iterations it k m).Live := by
  induction m generalizing k with
  | zero => exact done_live
  | succ m ih => exact Live.seq (hit (k + 1)) (ih (k + 1))

theorem iterations_add (it : ℕ → EventLanguage) (k m r : ℕ) :
    iterations it k (m + r) = (iterations it k m).seq (iterations it (k + m) r) := by
  induction m generalizing k with
  | zero =>
    rw [Nat.zero_add, iterations, done_seq]
    rfl
  | succ m ih =>
    rw [Nat.add_right_comm, iterations, ih, iterations, seq_assoc, Nat.add_right_comm k 1 m]
    rfl

theorem iterations_whole_iff {w : List Event} : (iterations it k m).whole w ↔
    ∃ word : ℕ → List Event,
      (∀ i < m, (it (k + i + 1)).whole (word i)) ∧ w = firstWords word m := by
  induction m generalizing k w with
  | zero =>
    exact ⟨fun h => ⟨fun _ => [], fun i hi => absurd hi (Nat.not_lt_zero i), h⟩, fun ⟨_, _, h⟩ => h⟩
  | succ m ih =>
    constructor
    · rintro ⟨u, v, hu, hv, rfl⟩
      obtain ⟨word, hword, rfl⟩ := ih.mp hv
      refine ⟨Stream'.cons u word, ?_, ?_⟩
      · rintro (_ | i) hi
        · exact hu
        · have h := hword i (Nat.lt_of_succ_lt_succ hi)
          rwa [Nat.add_right_comm k 1 i] at h
      · exact (firstWords_succ' (Stream'.cons u word) m).symm
    · rintro ⟨word, hword, rfl⟩
      refine ⟨_, _, hword 0 (Nat.succ_pos m), ih.mpr ⟨_, fun i hi => ?_, rfl⟩,
        firstWords_succ' word m⟩
      rw [Nat.add_right_comm k 1 i]
      exact hword (i + 1) (Nat.succ_lt_succ hi)

section Repeated

variable {times : ℕ∞ → Prop} {n : ℕ∞} {x : List Event}

/-- What is missing can be made up, if the number of iterations is finite. -/
theorem repeated_begins_finite {n : ℕ} (hit : ∀ n, (it n).Live) (hn : times n) (hm : k + m ≤ n)
    (hx : (iterations it k m).whole x) : (repeated times it k).Begins x := by
  obtain ⟨r, rfl⟩ := Nat.exists_eq_add_of_le hm
  rw [Nat.add_assoc] at hn
  rcases iterations_live hit (k + m) r (opening_nil _) with ⟨y, hy⟩ | ⟨s, hs⟩
  · refine .inl ⟨y, m + r, hn, ?_⟩
    rw [iterations_add]
    exact ⟨x, y, hx, hy, rfl⟩
  · refine .inr ⟨s, .inl ⟨m + r, ⟨_, hn, le_rfl⟩, ?_⟩⟩
    rw [iterations_add]
    exact .inr ⟨x, s, hx, hs, rfl⟩

/-- Iterations without end follow each other for ever, unless one of them does not end. -/
theorem repeated_begins_infinite (hit : ∀ n, (it n).Live) (hne : ∀ {n w}, (it n).whole w → w ≠ [])
    (hn : times ⊤) (hx : (iterations it k m).whole x) : (repeated times it k).Begins x := by
  by_cases hend : ∃ r s, (iterations it (k + m) r).endless s
  · obtain ⟨r, s, hs⟩ := hend
    refine .inr ⟨s, .inl ⟨m + r, ⟨⊤, hn, le_top⟩, ?_⟩⟩
    rw [iterations_add]
    exact .inr ⟨x, s, hx, hs, rfl⟩
  · obtain ⟨word, hword, rfl⟩ := iterations_whole_iff.mp hx
    have hmore : ∀ i, ∃ y, (it (k + m + i + 1)).whole y := by
      intro i
      rcases iterations_live hit (k + m) (i + 1) (opening_nil _) with ⟨y, hy⟩ | ⟨s, hs⟩
      · obtain ⟨word, hword, -⟩ := iterations_whole_iff.mp hy
        exact ⟨word i, hword i (Nat.lt_succ_self i)⟩
      · exact absurd ⟨_, _, hs⟩ hend
    choose more hmore using hmore
    -- the words that there are, and then those that follow
    obtain ⟨all, hall, hfirst⟩ : ∃ all : ℕ → List Event,
        (∀ i, (it (k + i + 1)).whole (all i)) ∧ firstWords all m = firstWords word m := by
      refine ⟨fun i => if i < m then word i else more (i - m), fun i => ?_, ?_⟩
      · by_cases hi : i < m
        · simpa only [if_pos hi] using hword i hi
        · have h := hmore (i - m)
          rw [Nat.add_assoc k m, Nat.add_sub_cancel' (Nat.le_of_not_lt hi)] at h
          simpa only [if_neg hi] using h
      · refine congrArg List.flatten (List.map_congr_left fun i hi => ?_)
        exact if_pos (List.mem_range.mp hi)
    obtain ⟨s, hs⟩ := exists_stream_of_words fun i => hne (hall i)
    obtain ⟨t, ht⟩ := hs m
    refine .inr ⟨t, .inr ⟨hn, all, hall, ?_⟩⟩
    rw [← hfirst, ← ht]
    exact hs

theorem Live.repeated (hk : ∃ n, times n ∧ ↑k ≤ n) (hit : ∀ n, (it n).Live)
    (hne : ∀ {n w}, (it n).whole w → w ≠ []) : (repeated times it k).Live := by
  have hmany : ∀ {m w}, (∃ n, times n ∧ ↑(k + m) ≤ n) → (iterations it k m).opening w →
      (EventLanguage.repeated times it k).Begins w := by
    rintro m w ⟨n, hn, hm⟩ hw
    rcases iterations_live hit k m hw with ⟨v, hv⟩ | ⟨s, hs⟩
    · cases n using ENat.recTopCoe with
      | top => exact (repeated_begins_infinite hit hne hn hv).of_append
      | coe n => exact (repeated_begins_finite hit hn (ENat.natCast_le_natCast.mp hm) hv).of_append
    · exact .inr ⟨s, .inl ⟨m, ⟨n, hn, hm⟩, hs⟩⟩
  rintro w (rfl | ⟨m, hm, hw⟩)
  · exact hmany (m := 0) hk rfl
  · exact hmany hm hw

end Repeated

/-! ### The parts of steps -/

theorem paused_live (path : Path) (o : Option TimeOption) : (paused path o).Live := by
  cases o with
  | none => exact done_live
  | some o => exact letter_live ⟨_, 0, rfl⟩

theorem served_live (path : Path) (d : Device) (n : ℕ) : (served path d n).Live := by
  refine concat_live fun L hL => ?_
  rw [List.eq_of_mem_replicate hL]
  exact letter_live ⟨_, none, rfl⟩

theorem dispatched_live (resolve : DeviceRef → Except Unmapped (List Device)) (path : Path)
    (t : Transition) : (dispatched resolve path t).Live := by
  refine Live.seq (letter_live ⟨_, rfl⟩) (shuffle_live fun L hL => ?_)
  obtain ⟨d, -, rfl⟩ := List.mem_map.mp hL
  exact served_live path d _

section Iteration

variable {order : Order} {path : Path} {mode : LoopMode} {body : EventLanguage}

theorem iteration_live (hbody : body.Live) (n : ℕ) : (iteration order path mode body n).Live :=
  Live.seq (letter_live ⟨_, rfl⟩) hbody

/-- An iteration begins with an event of its own. -/
theorem iteration_ne_nil {n : ℕ} {w : List Event}
    (h : (iteration order path mode body n).whole w) : w ≠ [] := by
  obtain ⟨_, v, ⟨e, -, rfl⟩, -, rfl⟩ := h
  exact List.cons_ne_nil e v

theorem loop_live (hmode : mode.fault? path = none) (hbody : body.Live) :
    (repeated mode.times (iteration order path mode body) 0).Live := by
  refine Live.repeated ?_ (iteration_live hbody) iteration_ne_nil
  cases mode with
  | infinite => exact ⟨⊤, rfl, le_top⟩
  | counted n => exact ⟨_, rfl, zero_le⟩
  | random min max =>
    have hle : ¬max < min := by simpa [LoopMode.fault?] using hmode
    exact ⟨min.toNat, ⟨le_rfl, ENat.natCast_le_natCast.mpr (UInt64.not_lt.mp hle)⟩, zero_le⟩
  | timer t => exact ⟨0, ENat.zero_ne_top, le_rfl⟩
  | deadline m => exact ⟨0, ENat.zero_ne_top, le_rfl⟩

end Iteration

end EventLanguage

/-! ### Steps -/

open EventLanguage

variable {resolve : DeviceRef → Except Unmapped (List Device)} {scope : PauseScope}

mutual

/-- **Nothing in a step without faults leads into a dead end.** -/
theorem Step.language_live : ∀ (s : Step) (path : Path), s.faultsAt path = [] →
    (s.language resolve scope path).Live
  | .transition t, path, _ => by
    rw [Step.language]
    exact Live.seq (paused_live ..) (Live.seq (dispatched_live ..) (paused_live ..))
  | .composite order steps loop pause, path, h => by
    simp only [Step.faultsAt, List.append_eq_nil_iff, Option.toList_eq_nil_iff] at h
    obtain ⟨⟨⟨-, hloop⟩, -⟩, hsteps⟩ := h
    have hmode : loop.mode.fault? path = none := (Option.or_eq_none_iff.mp hloop).1
    have hchildren := Step.languages_live steps path 0 hsteps
    simp only [Step.language]
    generalize Step.languages resolve scope path 0 steps = children at hchildren
    have honce : EventLanguage.Live (match order with
        | .serial => concat children
        | .parallel => shuffle children) := by
      cases order with
      | serial => exact concat_live hchildren
      | parallel => exact shuffle_live hchildren
    cases scope with
    | perIteration =>
      refine loop_live hmode (Live.seq (paused_live ..) (Live.seq honce ?_))
      exact Live.seq (paused_live ..) (paused_live ..)
    | aroundLoop =>
      refine Live.seq (paused_live ..) (Live.seq (loop_live hmode ?_) (paused_live ..))
      exact Live.seq honce (paused_live ..)

theorem Step.languages_live : ∀ (steps : List Step) (path : Path) (index : ℕ),
    Step.faultsFrom path index steps = [] →
    ∀ L ∈ Step.languages resolve scope path index steps, L.Live
  | [], path, index, _ => by
    rw [Step.languages]
    exact fun L hL => absurd hL List.not_mem_nil
  | s :: rest, path, index, h => by
    rw [Step.faultsFrom, List.append_eq_nil_iff] at h
    rw [Step.languages]
    intro L hL
    rcases List.mem_cons.mp hL with rfl | hL
    · exact Step.language_live s _ h.1
    · exact Step.languages_live rest path (index + 1) h.2 L hL

end

end Lightshow
