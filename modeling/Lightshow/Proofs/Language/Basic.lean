import Lightshow.Run.Event
import Mathlib.Data.ENat.Basic
import Mathlib.Data.Stream.Init

/-!
# Languages of events

What may be observed of a step is a language: a set of words over events.  A word is finite if
the step ends, and infinite if some loop in it goes on for ever.  Languages are put together
from single events, one after the other, side by side, and over and over again.

Side by side, two words are shuffled: the letters of each keep their order.  A shuffle of two
infinite words is *fair*: every letter of both comes at some time.

While a step goes on only a beginning of a word has been observed.  The beginnings are built up
along with the words.  `EventLanguage.After A u B` says that after `u` all that `B` may still
show is in the language `A`, which is what a run has to keep up from one move to the next.

## Main definitions

* `Shuffle`, `FairShuffle` — shuffles of finite and of infinite words.
* `EventLanguage` — finite words, infinite words, and beginnings.
* `EventLanguage.seq`, `par`, `shuffle`, `repeated` — languages made of others.
* `EventLanguage.After` — what remains of a language after a beginning.

## Main results

* `After.seq`, `shuffle_after`, `repeated_begin`, `repeated_over` — what remains of a compound
  language after one of its parts went on.
-/

namespace Lightshow

open Stream'

/-! ### Shuffles -/

/-- `zs` consists of the letters of `xs` and of `ys`, both in their order. -/
inductive Shuffle {α : Type} : List α → List α → List α → Prop
  | nil : Shuffle [] [] []
  | left {x : α} {xs ys zs : List α} (h : Shuffle xs ys zs) : Shuffle (x :: xs) ys (x :: zs)
  | right {y : α} {xs ys zs : List α} (h : Shuffle xs ys zs) : Shuffle xs (y :: ys) (y :: zs)

namespace Shuffle

variable {α : Type} {xs ys zs : List α}

theorem append_left (us : List α) (h : Shuffle xs ys zs) :
    Shuffle (us ++ xs) ys (us ++ zs) := by
  induction us with
  | nil => exact h
  | cons u us ih => exact ih.left

theorem append_right (us : List α) (h : Shuffle xs ys zs) :
    Shuffle xs (us ++ ys) (us ++ zs) := by
  induction us with
  | nil => exact h
  | cons u us ih => exact ih.right

theorem self_left (xs : List α) : Shuffle xs [] xs := by
  induction xs with
  | nil => exact nil
  | cons x xs ih => exact ih.left

theorem self_right (ys : List α) : Shuffle [] ys ys := by
  induction ys with
  | nil => exact nil
  | cons y ys ih => exact ih.right

/-- Shuffles can be put after each other. -/
theorem append {us vs ws : List α} (h : Shuffle us vs ws) (h' : Shuffle xs ys zs) :
    Shuffle (us ++ xs) (vs ++ ys) (ws ++ zs) := by
  induction h with
  | nil => exact h'
  | left _ ih => exact ih.left
  | right _ ih => exact ih.right

/-- All of one word may come before the other. -/
theorem of_append (xs ys : List α) : Shuffle xs ys (xs ++ ys) := by
  simpa using (self_left xs).append (self_right ys)

end Shuffle

/-- `s` consists of the letters of `a` and of `b`, both in their order, and all of them: of the
first `n` letters, `i n` are those of `a` and `j n` are those of `b`, and both numbers grow
beyond all bounds. -/
def FairShuffle {α : Type} (a b s : Stream' α) : Prop :=
  ∃ i j : ℕ → ℕ, i 0 = 0 ∧ j 0 = 0 ∧
    (∀ n, (i (n + 1) = i n + 1 ∧ j (n + 1) = j n ∧ s.get n = a.get (i n)) ∨
      (i (n + 1) = i n ∧ j (n + 1) = j n + 1 ∧ s.get n = b.get (j n))) ∧
    ∀ k, ∃ n, k ≤ i n ∧ k ≤ j n

/-- The first `n` of infinitely many words, one after the other. -/
def firstWords {α : Type} (word : ℕ → List α) (n : ℕ) : List α :=
  ((List.range n).map word).flatten

/-! ### Languages -/

/-- A language of events. -/
@[ext]
structure EventLanguage where
  /-- The finite words. -/
  whole : List Event → Prop
  /-- The infinite words. -/
  endless : Stream' Event → Prop
  /-- The beginnings. -/
  opening : List Event → Prop
  /-- Nothing is a beginning. -/
  opening_nil : opening []
  /-- A finite word begins itself. -/
  opening_of_whole : ∀ {w}, whole w → opening w

namespace EventLanguage

/-- The only word is the empty one. -/
def done : EventLanguage where
  whole w := w = []
  endless _ := False
  opening w := w = []
  opening_nil := rfl
  opening_of_whole := id

/-- There is no word; all that was to come has been given up. -/
def stuck : EventLanguage where
  whole _ := False
  endless _ := False
  opening w := w = []
  opening_nil := rfl
  opening_of_whole := False.elim

/-- The words are the single events of some form. -/
def letter (form : Event → Prop) : EventLanguage where
  whole w := ∃ e, form e ∧ w = [e]
  endless _ := False
  opening w := w = [] ∨ ∃ e, form e ∧ w = [e]
  opening_nil := .inl rfl
  opening_of_whole := .inr

/-- A word of `A`, and then one of `B`. -/
def seq (A B : EventLanguage) : EventLanguage where
  whole w := ∃ u v, A.whole u ∧ B.whole v ∧ w = u ++ v
  endless s := A.endless s ∨ ∃ u t, A.whole u ∧ B.endless t ∧ s = u ++ₛ t
  opening w := A.opening w ∨ ∃ u v, A.whole u ∧ B.opening v ∧ w = u ++ v
  opening_nil := .inl A.opening_nil
  opening_of_whole := fun ⟨u, v, hu, hv, hw⟩ => .inr ⟨u, v, hu, B.opening_of_whole hv, hw⟩

/-- A word of `A` and one of `B`, shuffled.  If only one of them is finite, what remains of the
other one when it is used up comes last. -/
def par (A B : EventLanguage) : EventLanguage where
  whole w := ∃ a b, A.whole a ∧ B.whole b ∧ Shuffle a b w
  endless s :=
    (∃ a b t w, A.whole a ∧ B.endless (b ++ₛ t) ∧ Shuffle a b w ∧ s = w ++ₛ t) ∨
      (∃ a b t w, A.endless (a ++ₛ t) ∧ B.whole b ∧ Shuffle a b w ∧ s = w ++ₛ t) ∨
      ∃ a b, A.endless a ∧ B.endless b ∧ FairShuffle a b s
  opening w := ∃ a b, A.opening a ∧ B.opening b ∧ Shuffle a b w
  opening_nil := ⟨[], [], A.opening_nil, B.opening_nil, .nil⟩
  opening_of_whole := fun ⟨a, b, ha, hb, hs⟩ =>
    ⟨a, b, A.opening_of_whole ha, B.opening_of_whole hb, hs⟩

/-- Words of some languages, one after the other. -/
def concat (Ls : List EventLanguage) : EventLanguage := Ls.foldr seq done

/-- Words of some languages, shuffled. -/
def shuffle (Ls : List EventLanguage) : EventLanguage := Ls.foldr par done

/-- `m` iterations, the first of which has number `k + 1`. -/
def iterations (iteration : ℕ → EventLanguage) (k : ℕ) : ℕ → EventLanguage
  | 0 => done
  | m + 1 => seq (iteration (k + 1)) (iterations iteration (k + 1) m)

/-- The iterations after the first `k`, if `times n` says whether there may be `n` of them in
all.  An infinite word belongs to an iteration that does not end, or to iterations without
end. -/
def repeated (times : ℕ∞ → Prop) (iteration : ℕ → EventLanguage) (k : ℕ) : EventLanguage where
  whole w := ∃ m : ℕ, times ↑(k + m) ∧ (iterations iteration k m).whole w
  endless s :=
    (∃ m : ℕ, (∃ n, times n ∧ ↑(k + m) ≤ n) ∧ (iterations iteration k m).endless s) ∨
      (times ⊤ ∧ ∃ word : ℕ → List Event, (∀ i, (iteration (k + i + 1)).whole (word i)) ∧
        ∀ n, ∃ t, s = firstWords word n ++ₛ t)
  opening w :=
    w = [] ∨ ∃ m : ℕ, (∃ n, times n ∧ ↑(k + m) ≤ n) ∧ (iterations iteration k m).opening w
  opening_nil := .inl rfl
  opening_of_whole := fun ⟨m, hm, hw⟩ =>
    .inr ⟨m, ⟨_, hm, le_rfl⟩, (iterations iteration k m).opening_of_whole hw⟩

/-- `w` begins a word of a language. -/
def Begins (A : EventLanguage) (w : List Event) : Prop :=
  (∃ v, A.whole (w ++ v)) ∨ ∃ s, A.endless (w ++ₛ s)

@[simp] theorem done_seq (A : EventLanguage) : done.seq A = A := by
  ext w
  · constructor
    · rintro ⟨_, v, rfl, hv, rfl⟩
      exact hv
    · exact fun hw => ⟨[], w, rfl, hw, rfl⟩
  · constructor
    · rintro (h | ⟨_, t, rfl, ht, rfl⟩)
      · exact h.elim
      · exact ht
    · exact fun hs => .inr ⟨[], _, rfl, hs, rfl⟩
  · constructor
    · rintro (rfl | ⟨_, v, rfl, hv, rfl⟩)
      · exact A.opening_nil
      · exact hv
    · exact fun hw => .inr ⟨[], w, rfl, hw, rfl⟩

@[simp] theorem seq_done (A : EventLanguage) : A.seq done = A := by
  ext w
  · constructor
    · rintro ⟨u, _, hu, rfl, rfl⟩
      rwa [List.append_nil]
    · exact fun hw => ⟨w, [], hw, rfl, (List.append_nil w).symm⟩
  · constructor
    · rintro (h | ⟨_, _, _, h, _⟩)
      · exact h
      · exact h.elim
    · exact .inl
  · constructor
    · rintro (h | ⟨u, _, hu, rfl, rfl⟩)
      · exact h
      · rw [List.append_nil]
        exact A.opening_of_whole hu
    · exact .inl

theorem seq_assoc (A B C : EventLanguage) : (A.seq B).seq C = A.seq (B.seq C) := by
  ext w
  · constructor
    · rintro ⟨_, w, ⟨u, v, hu, hv, rfl⟩, hw, rfl⟩
      exact ⟨u, v ++ w, hu, ⟨v, w, hv, hw, rfl⟩, List.append_assoc ..⟩
    · rintro ⟨u, _, hu, ⟨v, w, hv, hw, rfl⟩, rfl⟩
      exact ⟨u ++ v, w, ⟨u, v, hu, hv, rfl⟩, hw, (List.append_assoc ..).symm⟩
  · constructor
    · rintro ((hs | ⟨u, t, hu, ht, rfl⟩) | ⟨_, t, ⟨u, v, hu, hv, rfl⟩, ht, rfl⟩)
      · exact .inl hs
      · exact .inr ⟨u, t, hu, .inl ht, rfl⟩
      · exact .inr ⟨u, v ++ₛ t, hu, .inr ⟨v, t, hv, ht, rfl⟩, append_append_stream ..⟩
    · rintro (hs | ⟨u, _, hu, ht | ⟨v, t, hv, ht, rfl⟩, rfl⟩)
      · exact .inl (.inl hs)
      · exact .inl (.inr ⟨u, _, hu, ht, rfl⟩)
      · exact .inr ⟨u ++ v, t, ⟨u, v, hu, hv, rfl⟩, ht, (append_append_stream ..).symm⟩
  · constructor
    · rintro ((hw | ⟨u, v, hu, hv, rfl⟩) | ⟨_, w, ⟨u, v, hu, hv, rfl⟩, hw, rfl⟩)
      · exact .inl hw
      · exact .inr ⟨u, v, hu, .inl hv, rfl⟩
      · exact .inr ⟨u, v ++ w, hu, .inr ⟨v, w, hv, hw, rfl⟩, List.append_assoc ..⟩
    · rintro (hw | ⟨u, _, hu, hv | ⟨v, w, hv, hw, rfl⟩, rfl⟩)
      · exact .inl (.inl hw)
      · exact .inl (.inr ⟨u, _, hu, hv, rfl⟩)
      · exact .inr ⟨u ++ v, w, ⟨u, v, hu, hv, rfl⟩, hw, (List.append_assoc ..).symm⟩

/-- What begins a beginning of a word begins the word. -/
theorem Begins.of_append {A : EventLanguage} {u v : List Event} (h : A.Begins (u ++ v)) :
    A.Begins u := by
  rcases h with ⟨x, hx⟩ | ⟨s, hs⟩
  · exact .inl ⟨v ++ x, by rwa [← List.append_assoc]⟩
  · exact .inr ⟨v ++ₛ s, by rwa [← append_append_stream]⟩

/-! ### What remains -/

/-- After `u`, whatever `B` may still show is in `A`. -/
structure After (A : EventLanguage) (u : List Event) (B : EventLanguage) : Prop where
  whole : ∀ {v}, B.whole v → A.whole (u ++ v)
  opening : ∀ {v}, B.opening v → A.opening (u ++ v)

variable {A A' B B' : EventLanguage} {u v : List Event}

theorem After.refl (A : EventLanguage) : A.After [] A := ⟨id, id⟩

theorem After.trans {C : EventLanguage} (h : A.After u B) (h' : B.After v C) :
    A.After (u ++ v) C where
  whole hw := by
    rw [List.append_assoc]
    exact h.whole (h'.whole hw)
  opening hw := by
    rw [List.append_assoc]
    exact h.opening (h'.opening hw)

/-- Whatever was to come may be given up. -/
theorem after_stuck (A : EventLanguage) : A.After [] stuck where
  whole := False.elim
  opening hv := by
    rw [hv]
    exact A.opening_nil

theorem letter_after {form : Event → Prop} {e : Event} (h : form e) :
    (letter form).After [e] done where
  whole hv := ⟨e, h, by rw [hv, List.append_nil]⟩
  opening hv := .inr ⟨e, h, by rw [hv, List.append_nil]⟩

theorem After.seq (h : A.After u A') (B : EventLanguage) : (A.seq B).After u (A'.seq B) where
  whole := by
    rintro _ ⟨v, w, hv, hw, rfl⟩
    exact ⟨u ++ v, w, h.whole hv, hw, (List.append_assoc ..).symm⟩
  opening := by
    rintro _ (hv | ⟨v, w, hv, hw, rfl⟩)
    · exact .inl (h.opening hv)
    · exact .inr ⟨u ++ v, w, h.whole hv, hw, (List.append_assoc ..).symm⟩

/-- A single event comes first, and then the rest remains. -/
theorem letter_seq_after {form : Event → Prop} {e : Event} (h : form e) (A : EventLanguage) :
    ((letter form).seq A).After [e] A := by
  have hseq := (letter_after h).seq A
  rwa [done_seq] at hseq

/-- What comes later may be narrowed down beforehand. -/
theorem After.seq_right (h : B.After [] B') (A : EventLanguage) :
    (A.seq B).After [] (A.seq B') where
  whole := by
    rintro _ ⟨v, w, hv, hw, rfl⟩
    exact ⟨v, w, hv, h.whole hw, rfl⟩
  opening := by
    rintro _ (hv | ⟨v, w, hv, hw, rfl⟩)
    · exact .inl hv
    · exact .inr ⟨v, w, hv, h.opening hw, rfl⟩

theorem After.par (h : A.After u A') (B : EventLanguage) : (A.par B).After u (A'.par B) where
  whole := by
    rintro _ ⟨a, b, ha, hb, hs⟩
    exact ⟨u ++ a, b, h.whole ha, hb, hs.append_left u⟩
  opening := by
    rintro _ ⟨a, b, ha, hb, hs⟩
    exact ⟨u ++ a, b, h.opening ha, hb, hs.append_left u⟩

theorem After.par_right (h : B.After u B') (A : EventLanguage) :
    (A.par B).After u (A.par B') where
  whole := by
    rintro _ ⟨a, b, ha, hb, hs⟩
    exact ⟨a, u ++ b, ha, h.whole hb, hs.append_right u⟩
  opening := by
    rintro _ ⟨a, b, ha, hb, hs⟩
    exact ⟨a, u ++ b, ha, h.opening hb, hs.append_right u⟩

theorem shuffle_after (h : A.After u A') (before after : List EventLanguage) :
    (shuffle (before ++ A :: after)).After u (shuffle (before ++ A' :: after)) := by
  induction before with
  | nil => exact h.par _
  | cons B before ih => exact ih.par_right B

/-- Parts that are all done are done as a whole. -/
theorem shuffle_done_after : ∀ {Ls : List EventLanguage}, (∀ A ∈ Ls, A = done) →
    (shuffle Ls).After [] done := by
  intro Ls
  induction Ls with
  | nil => exact fun _ => .refl done
  | cons A Ls ih =>
    intro h
    have hA : A = done := h A List.mem_cons_self
    have hLs := ih fun B hB => h B (List.mem_cons_of_mem _ hB)
    subst hA
    refine (After.par_right hLs done).trans (v := []) ⟨?_, ?_⟩
    · rintro _ rfl
      exact ⟨[], [], rfl, rfl, .nil⟩
    · rintro _ rfl
      exact ⟨[], [], rfl, rfl, .nil⟩

/-! #### Iterations -/

section Iterations

variable {times times' : ℕ∞ → Prop} {it : ℕ → EventLanguage} {k : ℕ}

/-- Another iteration may begin. -/
theorem repeated_begin (hk : ∃ n, times n ∧ ↑(k + 1) ≤ n) :
    (repeated times it k).After [] ((it (k + 1)).seq (repeated times it (k + 1))) where
  whole := by
    rintro _ ⟨u, v, hu, ⟨m, hm, hv⟩, rfl⟩
    refine ⟨m + 1, ?_, u, v, hu, hv, rfl⟩
    rwa [Nat.add_right_comm] at hm
  opening := by
    rintro _ (hu | ⟨u, v, hu, rfl | ⟨m, ⟨n, hn, hm⟩, hv⟩, rfl⟩)
    · exact .inr ⟨1, hk, .inl hu⟩
    · exact .inr ⟨1, hk, .inr ⟨u, [], hu, rfl, rfl⟩⟩
    · refine .inr ⟨m + 1, ⟨n, hn, ?_⟩, .inr ⟨u, v, hu, hv, rfl⟩⟩
      rwa [Nat.add_right_comm] at hm

/-- There may be enough iterations. -/
theorem repeated_over (hk : times k) : (repeated times it k).After [] done where
  whole := by
    rintro _ rfl
    exact ⟨0, hk, rfl⟩
  opening := by
    rintro _ rfl
    exact .inl rfl

/-- It may become known how many iterations there will be. -/
theorem repeated_narrow (hfin : ∀ n : ℕ, times' n → times n)
    (hinf : ∀ m : ℕ, (∃ n, times' n ∧ ↑m ≤ n) → ∃ n, times n ∧ ↑m ≤ n) :
    (repeated times it k).After [] (repeated times' it k) where
  whole := fun ⟨m, hm, hv⟩ => ⟨m, hfin _ hm, hv⟩
  opening := by
    rintro _ (rfl | ⟨m, hm, hv⟩)
    · exact .inl rfl
    · exact .inr ⟨m, hinf _ hm, hv⟩

end Iterations

end EventLanguage

end Lightshow
