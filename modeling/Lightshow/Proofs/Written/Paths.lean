import Lightshow.Proofs.Program.Tree
import Lightshow.Proofs.Run.Places
import Lightshow.Proofs.Written.Text
import Mathlib.Data.List.Nodup

/-!
# Paths that are told apart

Events name steps by the texts of their paths.  Different paths have different texts: a path is
written component by component, a dot stands between them and in none of them, and the digits of
an index stand for one number only.  Within a tree a path belongs to one step, so an event says
which step it is about.

Faults name parts of steps, and what follows the path of the step then is a word that no step is
called by.  So the texts of places can be told apart too, from each other and from those of steps.

## Main results

* `Path.text_injective` — **a path can be told from its text.**
* `Place.text_injective` — so can a place.
* `Step.nodup_stepsAt` — no two steps of a tree stand at one place.
* `Step.stepsAt_unique` — a step of a tree can be told from its path.
-/

namespace Lightshow

/-! ### Texts -/

namespace Path

/-- What stands before the last dot of a text, and what after it. -/
theorem split_last {s s' t t' : List Char} (ht : '.' ∉ t) (ht' : '.' ∉ t')
    (h : s ++ '.' :: t = s' ++ '.' :: t') : s = s' ∧ t = t' := by
  -- if one text had more before its last dot, the other one would have a dot after its own
  have hmore : ∀ {u v more : List Char}, '.' ∉ u → '.' :: u = more ++ '.' :: v → more = [] := by
    intro u v more hu heq
    cases more with
    | nil => rfl
    | cons c more =>
      rw [(List.cons.inj heq).2] at hu
      exact absurd (List.mem_append_right more List.mem_cons_self) hu
  have hsame : s = s' := by
    rcases List.append_eq_append_iff.mp h with ⟨more, rfl, heq⟩ | ⟨more, rfl, heq⟩
    · rw [hmore ht heq, List.append_nil]
    · rw [hmore ht' heq, List.append_nil]
  subst hsame
  exact ⟨rfl, (List.cons.inj (List.append_cancel_left h)).2⟩

/-- The place of a step among the steps of a composite, as it is written. -/
def indexText (index : ℕ) : List Char :=
  ['s', 't', 'e', 'p', 's', '['] ++ (Nat.toDigits 10 index ++ [']'])

theorem dot_notMem_word (kind : StepKind) : '.' ∉ kind.word.toList := by
  cases kind <;> decide

theorem dot_notMem_index (index : ℕ) : '.' ∉ indexText index := by
  have hdigits : '.' ∉ Nat.toDigits 10 index := fun h =>
    absurd (Nat.isDigit_of_mem_toDigits (by decide) le_rfl h) (by decide)
  simp only [indexText, List.mem_append, not_or]
  exact ⟨by decide, hdigits, by decide⟩

theorem word_injective {k l : StepKind} (h : k.word = l.word) : k = l := by
  cases k <;> cases l <;> first | rfl | exact absurd h (by decide)

theorem indexText_injective {i j : ℕ} (h : indexText i = indexText j) : i = j := by
  have hdigits : Nat.toDigits 10 i = Nat.toDigits 10 j :=
    List.append_cancel_right (List.append_cancel_left h)
  have hi := Text.natural?_toDigits i
  rw [hdigits, Text.natural?_toDigits] at hi
  exact (Option.some.inj hi).symm

/-- The components of the text of a child stand between dots. -/
theorem text_child (parent : Path) (index : ℕ) (kind : StepKind) :
    (Path.child parent index kind).text.toList
      = (parent.text.toList ++ '.' :: indexText index) ++ '.' :: kind.word.toList := by
  have hdot : ".steps[".toList = '.' :: ['s', 't', 'e', 'p', 's', '['] := by decide
  have hclose : "].".toList = [']', '.'] := by decide
  rw [text, String.toList_append, String.toList_append, String.toList_append,
    String.toList_append, Text.toList_toString, hdot, hclose, indexText]
  simp only [List.append_assoc, List.cons_append, List.nil_append]

/-- A root has no dot in its text, and so it is not written like a child. -/
theorem text_root_ne_child (k : StepKind) (parent : Path) (index : ℕ) (kind : StepKind) :
    (Path.root k).text ≠ (Path.child parent index kind).text := by
  intro h
  have hchild := text_child parent index kind
  rw [← h] at hchild
  refine dot_notMem_word k ?_
  rw [show k.word.toList = _ from hchild]
  exact List.mem_append_right _ List.mem_cons_self

/-- **A path can be told from its text.** -/
theorem text_injective {p q : Path} (h : p.text = q.text) : p = q := by
  induction p generalizing q with
  | root k =>
    cases q with
    | root l => rw [word_injective h]
    | child q j l => exact absurd h (text_root_ne_child k q j l)
  | child p i k ih =>
    cases q with
    | root l => exact absurd h.symm (text_root_ne_child l p i k)
    | child q j l =>
      have hchild := congrArg String.toList h
      rw [text_child, text_child] at hchild
      obtain ⟨hrest, hkind⟩ := split_last (dot_notMem_word k) (dot_notMem_word l) hchild
      obtain ⟨hparent, hindex⟩ := split_last (dot_notMem_index i) (dot_notMem_index j) hrest
      rw [ih (String.toList_inj.mp hparent), indexText_injective hindex,
        word_injective (String.toList_inj.mp hkind)]

/-- What follows the last dot of a text. -/
def lastPart (s : List Char) : List Char := (s.reverse.takeWhile (· ≠ '.')).reverse

theorem no_dot_reverse {t : List Char} (ht : '.' ∉ t) :
    ∀ c ∈ t.reverse, decide (c ≠ '.') = true := by
  intro c hc
  apply decide_eq_true
  rintro rfl
  exact ht (List.mem_reverse.mp hc)

theorem lastPart_of_notMem {t : List Char} (ht : '.' ∉ t) : lastPart t = t := by
  rw [lastPart, List.takeWhile_eq_self_iff.mpr (no_dot_reverse ht), List.reverse_reverse]

theorem lastPart_append {s t : List Char} (ht : '.' ∉ t) : lastPart (s ++ '.' :: t) = t := by
  rw [lastPart, List.reverse_append, List.reverse_cons, List.append_assoc,
    List.takeWhile_append_of_pos (no_dot_reverse ht)]
  simp

/-- The text of a path ends in the word for the kind of its step. -/
theorem lastPart_text (p : Path) : lastPart p.text.toList = p.kind.word.toList := by
  cases p with
  | root kind => exact lastPart_of_notMem (dot_notMem_word kind)
  | child parent index kind =>
    rw [text_child]
    exact lastPart_append (dot_notMem_word kind)

end Path

/-! ### Places -/

namespace Place

/-- The word at the end of the text of a place, given the kind of the step. -/
def lastWord (kind : StepKind) : Part → String
  | .whole => kind.word
  | .pauseBefore => "before"
  | .pauseAfter => "after"
  | .loopRandom => "random"
  | .loopPause => "pause"

/-- The part whose places end in a word. -/
def partOf (word : String) : Part :=
  if word = "before" then .pauseBefore
  else if word = "after" then .pauseAfter
  else if word = "random" then .loopRandom
  else if word = "pause" then .loopPause
  else .whole

theorem partOf_lastWord (kind : StepKind) (part : Part) : partOf (lastWord kind part) = part := by
  cases part <;> cases kind <;> decide

/-- What follows the path of the step in a place ends in the word after a dot. -/
theorem suffix_dotted (kind : StepKind) {part : Part} (h : part ≠ .whole) :
    ∃ stem, part.suffix.toList = stem ++ '.' :: (lastWord kind part).toList ∧
      '.' ∉ (lastWord kind part).toList := by
  cases part with
  | whole => exact absurd rfl h
  | pauseBefore | pauseAfter =>
    refine ⟨".pause".toList, ?_⟩
    cases kind <;> decide
  | loopRandom | loopPause =>
    refine ⟨".loop".toList, ?_⟩
    cases kind <;> decide

theorem lastPart_text (p : Place) :
    Path.lastPart p.text.toList = (lastWord p.step.kind p.part).toList := by
  obtain ⟨step, part⟩ := p
  rw [text, String.toList_append]
  by_cases hpart : part = .whole
  · subst hpart
    exact (congrArg _ (List.append_nil _)).trans step.lastPart_text
  · obtain ⟨stem, hsuffix, hdot⟩ := suffix_dotted step.kind hpart
    rw [hsuffix, ← List.append_assoc]
    exact Path.lastPart_append hdot

/-- The part of a place can be told from the end of its text. -/
theorem part_eq {p q : Place} (h : p.text = q.text) : p.part = q.part := by
  have hlast := congrArg (fun t : String => Path.lastPart t.toList) h
  simp only [lastPart_text] at hlast
  rw [← partOf_lastWord p.step.kind p.part, String.toList_inj.mp hlast, partOf_lastWord]

/-- **A place can be told from its text.** -/
theorem text_injective {p q : Place} (h : p.text = q.text) : p = q := by
  obtain ⟨step, part⟩ := p
  obtain ⟨step', part'⟩ := q
  obtain rfl : part = part' := part_eq h
  have hstep : step.text.toList = step'.text.toList := by
    have hchars := congrArg String.toList h
    rw [text, text, String.toList_append, String.toList_append] at hchars
    exact List.append_cancel_right hchars
  rw [Path.text_injective (String.toList_inj.mp hstep)]

end Place

/-! ### Steps -/

namespace Step

/-- A step of a composite is not the composite, and stands elsewhere. -/
theorem ne_of_mem_stepsFrom {steps : List Step} {path : Path} {index : ℕ} {x : Path × Step}
    (hx : x ∈ Step.stepsFrom path index steps) : ∀ {q}, q.Under path → x.1 ≠ q := by
  rintro q hq rfl
  obtain ⟨j, kind, -, hunder⟩ := stepsFrom_under hx
  exact Path.not_child_under (hunder.trans hq)

/-- The steps of different children of a composite stand at different places. -/
theorem ne_of_mem_stepsFrom_later {s : Step} {steps : List Step} {path : Path} {index : ℕ}
    {x y : Path × Step} (hx : x ∈ s.stepsAt (.child path index s.kind))
    (hy : y ∈ Step.stepsFrom path (index + 1) steps) : x.1 ≠ y.1 := by
  intro heq
  obtain ⟨j, kind, hle, hunder⟩ := stepsFrom_under hy
  have hindex := (heq ▸ stepsAt_under hx).index_eq hunder
  omega

mutual

/-- No two steps of a tree stand at one place. -/
theorem nodup_stepsAt : ∀ (s : Step) (path : Path), ((s.stepsAt path).map Prod.fst).Nodup
  | .transition t, path => by
    rw [stepsAt]
    exact List.nodup_cons.mpr ⟨List.not_mem_nil, List.nodup_nil⟩
  | .composite order steps loop pause, path => by
    rw [stepsAt, List.map_cons, List.nodup_cons]
    refine ⟨fun h => ?_, nodup_stepsFrom steps path 0⟩
    obtain ⟨x, hx, hpath⟩ := List.mem_map.mp h
    exact ne_of_mem_stepsFrom hx .self hpath

theorem nodup_stepsFrom : ∀ (steps : List Step) (path : Path) (index : ℕ),
    ((Step.stepsFrom path index steps).map Prod.fst).Nodup
  | [], path, index => by
    rw [stepsFrom]
    exact List.nodup_nil
  | s :: rest, path, index => by
    rw [stepsFrom, List.map_append]
    refine List.nodup_append.mpr ⟨nodup_stepsAt s _, nodup_stepsFrom rest path (index + 1), ?_⟩
    intro q hq q' hq'
    obtain ⟨x, hx, rfl⟩ := List.mem_map.mp hq
    obtain ⟨y, hy, rfl⟩ := List.mem_map.mp hq'
    exact ne_of_mem_stepsFrom_later hx hy

end

/-- **A step of a tree can be told from its path.** -/
theorem stepsAt_unique (s : Step) (path : Path) :
    ∀ x ∈ s.stepsAt path, ∀ y ∈ s.stepsAt path, x.1 = y.1 → x = y :=
  fun _ hx _ hy => List.inj_on_of_nodup_map (nodup_stepsAt s path) hx hy

end Step

end Lightshow
