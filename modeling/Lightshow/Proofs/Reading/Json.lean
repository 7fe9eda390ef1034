import Lightshow.Proofs.Reading.Order
import Lightshow.Document.Json

/-!
# What JSON texts denote

A JSON text that is read to its end denotes a document of JSON: what is missing or broken is
found only where reading breaks off.  The readers of values, items and entries call each other,
so this is shown of all of them at once, by induction on the number of steps that they may take.

## Main definitions

* `Json.Spells` — texts that are JSON for a document.
* `Json.Sound` — readings that break off, or are of JSON.

## Main results

* `Json.soundWithin` — the readers of JSON are sound.
* `Json.Spells.isJson` — **what JSON texts denote are documents of JSON.**
* `Json.Spells.readJson` — a text is read as its document is.
-/

namespace Lightshow.Json

open Document

/-- A text is JSON for a document, with nothing but blanks after it. -/
def Spells (s : String) (d : Document) : Prop :=
  ∃ r, Document.ofJson s = (d, some r) ∧ (skip r).isEmpty

/-- What reads JSON breaks off, or has read what is of JSON. -/
def Sound {α : Type} (good : α → Prop) (x : Reading α) : Prop :=
  x.2.isSome → good x.1

theorem sound_none {α : Type} {good : α → Prop} (a : α) : Sound good (a, none) :=
  fun h => absurd h (by simp)

theorem sound_word (w : List Char) (d : Document) (hd : d.IsJson) (s : List Char) :
    Sound IsJson (word w d s) := by
  unfold word
  split
  · exact fun _ => hd
  · exact sound_none _

theorem Numeral.isJson_document {n : Numeral} (h : ∀ e, n.document = .broken e → False) :
    n.document.IsJson := by
  revert h
  unfold Numeral.document
  split
  · exact fun _ => trivial
  · split
    · exact fun _ => trivial
    · exact fun h => (h _ rfl).elim

/-! ### Values, items and entries -/

/-- The readers of JSON, with fuel for a number of steps, are sound. -/
structure SoundWithin (fuel : ℕ) : Prop where
  value : ∀ levels s, Sound IsJson (Json.value fuel levels s)
  items : ∀ levels first s, Sound AreJson (Json.items fuel levels first s)
  item : ∀ levels s, Sound AreJson (Json.item fuel levels s)
  entries : ∀ levels first s, Sound HoldJson (Json.entries fuel levels first s)
  entry : ∀ levels s, Sound HoldJson (Json.entry fuel levels s)

theorem sound_value {fuel : ℕ} (h : SoundWithin fuel) (levels : ℕ) (s : List Char) :
    Sound IsJson (Json.value (fuel + 1) levels s) := by
  unfold Json.value
  split
  · exact sound_word _ .null trivial _
  · exact sound_word _ (.bool true) trivial _
  · exact sound_word _ (.bool false) trivial _
  · split
    · exact fun _ => trivial
    · exact sound_none _
  · split
    · exact sound_none _
    · exact fun hr => ⟨trivial, h.items _ _ _ hr⟩
  · split
    · exact sound_none _
    · exact fun hr => ⟨trivial, h.entries _ _ _ hr⟩
  · split
    · split
      · exact sound_none _
      · next h => exact fun _ => Numeral.isJson_document h
    · exact sound_none _

theorem sound_items {fuel : ℕ} (h : SoundWithin fuel) (levels : ℕ) (first : Bool) (s : List Char) :
    Sound AreJson (Json.items (fuel + 1) levels first s) := by
  unfold Json.items
  split
  · exact fun _ => trivial
  · split
    · exact sound_none _
    · split
      · exact sound_none _
      · exact h.item _ _
  · split
    · exact h.item _ _
    · exact sound_none _

theorem sound_item {fuel : ℕ} (h : SoundWithin fuel) (levels : ℕ) (s : List Char) :
    Sound AreJson (Json.item (fuel + 1) levels s) := by
  unfold Json.item
  have hvalue := h.value levels s
  split
  · exact sound_none _
  · next d r heq =>
    rw [heq] at hvalue
    exact fun hr => ⟨hvalue rfl, h.items _ _ _ hr⟩

theorem sound_entries {fuel : ℕ} (h : SoundWithin fuel) (levels : ℕ) (first : Bool)
    (s : List Char) : Sound HoldJson (Json.entries (fuel + 1) levels first s) := by
  unfold Json.entries
  split
  · exact fun _ => trivial
  · split
    · exact sound_none _
    · exact h.entry _ _
  · split
    · exact h.entry _ _
    · exact sound_none _

theorem sound_entry {fuel : ℕ} (h : SoundWithin fuel) (levels : ℕ) (s : List Char) :
    Sound HoldJson (Json.entry (fuel + 1) levels s) := by
  unfold Json.entry
  split
  · split
    · exact sound_none _
    · split
      · next r _ =>
        have hvalue := h.value levels r
        split
        · exact sound_none _
        · next d r heq =>
          rw [heq] at hvalue
          exact fun hr => ⟨⟨_, rfl⟩, hvalue rfl, h.entries _ _ _ hr⟩
      · exact sound_none _
  · exact sound_none _

theorem soundWithin : ∀ fuel, SoundWithin fuel
  | 0 => by
    constructor <;> intros
    · rw [Json.value]
      exact sound_none _
    · rw [Json.items]
      exact sound_none _
    · rw [Json.item]
      exact sound_none _
    · rw [Json.entries]
      exact sound_none _
    · rw [Json.entry]
      exact sound_none _
  | fuel + 1 =>
    have h := soundWithin fuel
    ⟨sound_value h, sound_items h, sound_item h, sound_entries h, sound_entry h⟩

/-! ### Texts -/

/-- **What JSON texts denote are documents of JSON.** -/
theorem Spells.isJson {s : String} {d : Document} (h : Spells s d) : d.IsJson := by
  obtain ⟨r, hread, -⟩ := h
  have hsound := (soundWithin (3 * s.toList.length + 3)).value maxLevels s.toList
  rw [← Document.ofJson, hread] at hsound
  exact hsound rfl

/-- A text is read as its document is. -/
theorem Spells.readJson {α : Type} {s : String} {d : Document} (h : Spells s d)
    (read : Document → Except ReadError α) : readJson read s = read d := by
  obtain ⟨r, hread, hblank⟩ := h
  rw [Lightshow.readJson, hread]
  simp only [hblank, if_true]
  exact bind_pure _

end Lightshow.Json
