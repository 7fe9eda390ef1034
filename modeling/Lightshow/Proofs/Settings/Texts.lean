import Lightshow.Proofs.Reading.Settings
import Lightshow.Proofs.Settings.Entries

/-!
# Settings that are texts

The address of a bridge and the name of its user are texts, and either may be a variable.  What is
found in the environment is given a type before anybody knows what it is for: what reads as a truth
value or as a number becomes one, and all else stays as it is.  A truth value or a number is then
refused where a text is asked for.  So **a user whose name is a number cannot come from the
environment**, while any other text arrives just as it is, blanks and all, unless it is blank.

To see this we leave the value of one entry open.  What becomes of the rest of a record depends on
the key of that entry, but not on its value: neither while the record is put together again, unless
a later entry takes the place over, nor while its fields are read.

## Main definitions

* `Document.Frame` — a record in which the value of one entry is open.
* `Document.Frame.Names` — what becomes of the entry's key.
* `Settings.ofValue` — the settings of a value with variables.
* `TextSetting` — the settings of a bridge that are texts.

## Main results

* `Document.Frame.substitute_fill` — the rest of a record does not depend on the value.
* `RecordFormat.table_change` — neither do the other fields that are read.
* `Settings.ofDocument_change` — other values for one setting.
* `Settings.text_of_variable` — **which texts of the environment arrive.**
* `Settings.number_refused` — one that does not.
-/

namespace Lightshow

namespace Document

/-! ### Records with an open value -/

/-- A record in which the value of one entry is open. -/
structure Frame where
  form : Form
  before : List (Document × Document)
  key : Document
  after : List (Document × Document)

/-- The record with a value for the entry. -/
def Frame.fill (c : Frame) (x : Document) : Document :=
  record c.form (c.before ++ (c.key, x) :: c.after)

/-- The entry stands for a name: its key becomes the name, and that of no later entry does, which
would take its place over. -/
structure Frame.Names (c : Frame) (vars : Variables) (name : String) : Prop where
  key : c.key.substitute vars = .ok (text name)
  after : ∀ e ∈ c.after, e.1.substitute vars ≠ .ok (text name)

/-- Only a text is equal to a text. -/
theorem eq_text_of_same {k : Document} {s : String} (h : same k (text s) = true) : k = text s := by
  cases k with
  | text t => exact congrArg text (of_decide_eq_true h)
  | _ => exact absurd h Bool.false_ne_true

theorem eq_text_of_text_same {k : Document} {s : String} (h : same (text s) k = true) :
    k = text s := by
  cases k with
  | text t => exact congrArg text (of_decide_eq_true h).symm
  | _ => exact absurd h Bool.false_ne_true

section Gathering

variable {name : String} {es : List (Document × Document)}

/-- An entry is put at a place that its value has no say in. -/
theorem putEntry_text (name : String) (es : List (Document × Document)) :
    ∃ a b, ∀ y, putEntry (text name) y es = a ++ (text name, y) :: b := by
  induction es with
  | nil => exact ⟨[], [], fun y => rfl⟩
  | cons e es ih =>
    obtain ⟨k, x⟩ := e
    by_cases hk : same k (text name) = true
    · refine ⟨[], es, fun y => ?_⟩
      rw [putEntry, if_pos hk, eq_text_of_same hk, List.nil_append]
    · obtain ⟨a, b, hput⟩ := ih
      refine ⟨(k, x) :: a, b, fun y => ?_⟩
      rw [putEntry, if_neg hk, hput, List.cons_append]

/-- An entry with another key leaves the value alone. -/
theorem putEntry_beside {k : Document} (hk : k ≠ text name) (d : Document)
    (a b : List (Document × Document)) :
    ∃ a' b', ∀ y, putEntry k d (a ++ (text name, y) :: b) = a' ++ (text name, y) :: b' := by
  induction a with
  | nil =>
    have hother : ¬same (text name) k = true := fun h => hk (eq_text_of_text_same h)
    refine ⟨[], putEntry k d b, fun y => ?_⟩
    rw [List.nil_append, putEntry, if_neg hother, List.nil_append]
  | cons e a ih =>
    obtain ⟨k', x⟩ := e
    by_cases hsame : same k' k = true
    · refine ⟨(k', d) :: a, b, fun y => ?_⟩
      rw [List.cons_append, putEntry, if_pos hsame, List.cons_append]
    · obtain ⟨a', b', hput⟩ := ih
      refine ⟨(k', x) :: a', b', fun y => ?_⟩
      rw [List.cons_append, putEntry, if_neg hsame, hput, List.cons_append]

theorem gather_beside (hes : ∀ e ∈ es, e.1 ≠ text name) (a b : List (Document × Document)) :
    ∃ a' b', ∀ y, gather (a ++ (text name, y) :: b) es = a' ++ (text name, y) :: b' := by
  induction es generalizing a b with
  | nil => exact ⟨a, b, fun y => rfl⟩
  | cons e es ih =>
    obtain ⟨he, hes⟩ := List.forall_mem_cons.mp hes
    obtain ⟨a', b', hput⟩ := putEntry_beside he e.2 a b
    obtain ⟨a'', b'', hgather⟩ := ih hes a' b'
    refine ⟨a'', b'', fun y => ?_⟩
    rw [gather_cons, hput, hgather]

/-- **Entries are put together alike whatever the value of one of them is**, if no later entry has
its key. -/
theorem gather_open (ds : List (Document × Document)) (hes : ∀ e ∈ es, e.1 ≠ text name) :
    ∃ a b, ∀ y, gather [] (ds ++ (text name, y) :: es) = a ++ (text name, y) :: b := by
  obtain ⟨a, b, hput⟩ := putEntry_text name (gather [] ds)
  obtain ⟨a', b', hgather⟩ := gather_beside hes a b
  refine ⟨a', b', fun y => ?_⟩
  have happend : gather [] (ds ++ (text name, y) :: es)
      = gather (gather [] ds) ((text name, y) :: es) := List.foldl_append
  rw [happend, gather_cons, hput, hgather]

end Gathering

section Filling

variable {vars : Variables}

theorem filledEntries_append {es fs rs : List (Document × Document)} :
    FilledEntries vars (es ++ fs) rs ↔
      ∃ es' fs', rs = es' ++ fs' ∧ FilledEntries vars es es' ∧ FilledEntries vars fs fs' := by
  induction es generalizing rs with
  | nil =>
    constructor
    · exact fun h => ⟨[], rs, rfl, .nil, h⟩
    · rintro ⟨_, fs', rfl, ⟨⟩, h⟩
      exact h
  | cons e es ih =>
    constructor
    · rintro (_ | ⟨hk, hd, hrest⟩)
      obtain ⟨es', fs', rfl, hes, hfs⟩ := ih.mp hrest
      exact ⟨_ :: es', fs', rfl, .cons hk hd hes, hfs⟩
    · rintro ⟨_, fs', rfl, _ | ⟨hk, hd, hes⟩, hfs⟩
      exact .cons hk hd (ih.mpr ⟨_, fs', rfl, hes, hfs⟩)

/-- What was a key is what becomes of one that was given. -/
theorem FilledEntries.exists_key {es rs : List (Document × Document)}
    (h : FilledEntries vars es rs) : ∀ r ∈ rs, ∃ e ∈ es, e.1.substitute vars = .ok r.1 := by
  induction es generalizing rs with
  | nil =>
    cases h
    nofun
  | cons e es ih =>
    cases h with
    | cons hk _ hrest =>
      intro r hr
      rcases List.mem_cons.mp hr with rfl | hr
      · exact ⟨_, List.mem_cons_self, (substitute_eq_ok_iff _).mpr hk⟩
      · obtain ⟨e', he, hkey⟩ := ih hrest r hr
        exact ⟨e', List.mem_cons_of_mem _ he, hkey⟩

/-- **The rest of a record does not depend on the value of one entry.** -/
theorem Frame.substitute_fill {c : Frame} {name : String} (hc : c.Names vars name)
    {x r : Document} (h : (c.fill x).substitute vars = .ok r) :
    ∃ a b x', x.substitute vars = .ok x' ∧ r = record c.form (a ++ (text name, x') :: b) ∧
      ∀ y y', y.substitute vars = .ok y' →
        (c.fill y).substitute vars = .ok (record c.form (a ++ (text name, y') :: b)) := by
  obtain ⟨rs, hrs, rfl⟩ : ∃ rs, FilledEntries vars (c.before ++ (c.key, x) :: c.after) rs ∧
      r = record c.form (gather [] rs) := by
    cases (substitute_eq_ok_iff _).mp h with
    | leaf hleaf => exact hleaf.elim
    | record _ hes => exact ⟨_, hes, rfl⟩
  obtain ⟨bs, _, rfl, hbefore, hrest⟩ := filledEntries_append.mp hrs
  cases hrest with
  | @cons _ k' _ x' _ as hkey hx hafter =>
  obtain rfl : k' = text name := by
    have hbecome := (substitute_eq_ok_iff c.key).mpr hkey
    rw [hc.key] at hbecome
    exact (Except.ok.inj hbecome).symm
  -- no later entry takes the place over, so it stays open
  have hlater : ∀ e ∈ as, e.1 ≠ text name := by
    intro e he heq
    obtain ⟨e', he', hbecome⟩ := hafter.exists_key e he
    exact hc.after e' he' (heq ▸ hbecome)
  obtain ⟨a, b, hgather⟩ := gather_open bs hlater
  refine ⟨a, b, x', (substitute_eq_ok_iff x).mpr hx, by rw [hgather], fun y y' hy => ?_⟩
  have hfilled : FilledEntries vars (c.before ++ (c.key, y) :: c.after)
      (bs ++ (text name, y') :: as) :=
    filledEntries_append.mpr
      ⟨bs, _, rfl, hbefore, .cons hkey ((substitute_eq_ok_iff y).mp hy) hafter⟩
  rw [← hgather]
  exact (substitute_eq_ok_iff (c.fill y)).mpr (.record c.form hfilled)

end Filling

end Document

/-! ### Fields with other values -/

namespace RecordFormat

open Document

variable {φ : Type} [DecidableEq φ] {format : RecordFormat φ}

theorem Table.insert_insert (t : format.Table) (f : φ) (v u : format.Value f) :
    (t.insert f v).insert f u = t.insert f u := by
  funext g
  by_cases h : f = g
  · subst h
    rw [insert_self, insert_self]
  · rw [insert_of_ne _ _ h, insert_of_ne _ _ h, insert_of_ne _ _ h]

/-- Entries are read one part after the other. -/
theorem readEntries_append (form : Form) (es fs : List (Document × Document)) (t : format.Table) :
    format.readEntries form t (es ++ fs)
      = format.readEntries form t es >>= fun t => format.readEntries form t fs := by
  induction es generalizing t with
  | nil => rfl
  | cons e es ih =>
    obtain ⟨key, d⟩ := e
    rw [List.cons_append, readEntries, readEntries]
    cases format.fieldOfKey form key with
    | error => rfl
    | ok f =>
      show (if (t f).isSome then _ else format.read f d >>= _)
        = (if (t f).isSome then _ else format.read f d >>= _) >>= _
      split
      · rfl
      · cases format.read f d with
        | error => rfl
        | ok v => exact ih (t.insert f v)

/-- What a field holds has no say in how the entries after it are read. -/
theorem readEntries_change {form : Form} {f : φ} {es : List (Document × Document)} :
    ∀ {t t' : format.Table} {v : format.Value f}, format.readEntries form (t.insert f v) es = .ok t' →
      t' f = some v ∧ ∀ u, format.readEntries form (t.insert f u) es = .ok (t'.insert f u) := by
  induction es with
  | nil =>
    intro t t' v h
    obtain rfl := Except.ok.inj h
    refine ⟨t.insert_self f v, fun u => ?_⟩
    rw [Table.insert_insert]
    rfl
  | cons e es ih =>
    obtain ⟨key, d⟩ := e
    intro t t' v h
    rw [readEntries] at h
    obtain ⟨g, hkey, h⟩ := bind_eq_ok.mp h
    split at h
    · cases h
    · next hfree =>
      obtain ⟨w, hw, h⟩ := bind_eq_ok.mp h
      -- the field is taken, so this entry is for another one
      have hne : f ≠ g := by
        rintro rfl
        rw [Table.insert_self] at hfree
        exact hfree rfl
      rw [Table.insert_comm t hne] at h
      rw [Table.insert_of_ne _ _ hne] at hfree
      obtain ⟨hvalue, hchange⟩ := ih h
      refine ⟨hvalue, fun u => ?_⟩
      rw [readEntries, hkey]
      show (if ((t.insert f u) g).isSome then _ else format.read g d >>= _) = _
      rw [Table.insert_of_ne _ _ hne, if_neg hfree, hw]
      show format.readEntries form ((t.insert f u).insert g w) es = _
      rw [Table.insert_comm t hne]
      exact hchange u

theorem complete_insert {t t' : format.Table} (h : format.complete t = .ok t') (f : φ)
    (v : format.Value f) : format.complete (t.insert f v) = .ok (t.insert f v) := by
  have hnone : format.fields.find? (fun g => format.required g && (t g).isNone) = none := by
    unfold complete at h
    split at h
    · cases h
    · assumption
  have hnone' : format.fields.find? (fun g => format.required g && (t.insert f v g).isNone)
      = none := by
    rw [List.find?_eq_none] at hnone ⊢
    intro g hg
    by_cases hfg : f = g
    · subst hfg
      simp [Table.insert_self]
    · rw [Table.insert_of_ne _ _ hfg]
      exact hnone g hg
  rw [complete, hnone']

/-- **If one entry of a record has another value, its field is read of that, and the other fields
stay as they are.** -/
theorem table_change {form : Form} {a b : List (Document × Document)} {key x : Document} {f : φ}
    {t : format.Table} (h : format.table (.record form (a ++ (key, x) :: b)) = .ok t)
    (hkey : format.fieldOfKey form key = .ok f) :
    (∃ v, format.read f x = .ok v ∧ t f = some v) ∧
      ∀ y, format.table (.record form (a ++ (key, y) :: b)) = t.insert f <$> format.read f y := by
  obtain ⟨t', h, hcomplete⟩ := bind_eq_ok.mp h
  obtain rfl := complete_inv hcomplete
  rw [readEntries_append] at h
  obtain ⟨found, hbefore, h⟩ := bind_eq_ok.mp h
  rw [readEntries, hkey] at h
  obtain ⟨g, hg, h⟩ := bind_eq_ok.mp h
  obtain rfl := Except.ok.inj hg
  split at h
  · cases h
  · next hfree =>
    obtain ⟨v, hv, h⟩ := bind_eq_ok.mp h
    obtain ⟨hvalue, hchange⟩ := readEntries_change h
    refine ⟨⟨v, hv, hvalue⟩, fun y => ?_⟩
    show format.readEntries form format.noField _ >>= format.complete = _
    rw [readEntries_append, hbefore]
    show format.readEntries form found ((key, y) :: b) >>= format.complete = _
    rw [readEntries, hkey]
    show (if (found f).isSome then _ else format.read f y >>= _) >>= format.complete = _
    rw [if_neg hfree]
    cases format.read f y with
    | error => rfl
    | ok u =>
      show format.readEntries form (found.insert f u) b >>= format.complete = _
      rw [hchange u]
      exact complete_insert hcomplete f u

end RecordFormat

/-! ### Settings of a bridge that are texts -/

/-- The settings of a bridge that are texts. -/
inductive TextSetting where
  | address
  | username
  deriving DecidableEq, Repr

namespace TextSetting

/-- What a setting is called in a file. -/
def word : TextSetting → String
  | address => "address"
  | username => "username"

/-- The settings of a bridge with a text for one of them. -/
def put : TextSetting → String → BridgeSettings → BridgeSettings
  | address, t, b => { b with address := t }
  | username, t, b => { b with username := t }

/-- A text that is not blank passes the check where another one has passed it. -/
theorem check_put {field : TextSetting} {t : String} {b : BridgeSettings} (h : b.check = .ok ())
    (ht : isBlankText t = false) : (field.put t b).check = .ok () := by
  have hcheck (key : String) : checkText key t = .ok () := by
    rw [checkText, ht]
    rfl
  obtain ⟨_, haddress, h⟩ := bind_eq_ok.mp h
  obtain ⟨_, husername, h⟩ := bind_eq_ok.mp h
  cases field with
  | address => exact bind_eq_ok.mpr ⟨_, hcheck _, bind_eq_ok.mpr ⟨_, husername, h⟩⟩
  | username => exact bind_eq_ok.mpr ⟨_, haddress, bind_eq_ok.mpr ⟨_, hcheck _, h⟩⟩

end TextSetting

open Document

namespace BridgeSettings

/-- A table holds the settings of a bridge: both texts, and the timeout unless it is the standard
one. -/
structure InTable (t : BridgeSettings.format.Table) (b : BridgeSettings) : Prop where
  address : t .address = some b.address
  username : t .username = some b.username
  timeout : (t .requestTimeout).getD (Duration.seconds 5) = b.requestTimeout

theorem ofDocument_eq_ok_iff {d : Document} {b : BridgeSettings} : ofDocument d = .ok b ↔
    ∃ t, BridgeSettings.format.table (recordOrNothing d) = .ok t ∧ b.InTable t := by
  rw [ofDocument, bind_eq_ok]
  refine exists_congr fun t => and_congr_right fun _ => ?_
  constructor
  · intro h
    split at h
    · next haddress husername =>
      obtain rfl := Except.ok.inj h
      exact ⟨haddress, husername, rfl⟩
    · cases h
  · rintro ⟨haddress, husername, htimeout⟩
    rw [haddress, husername]
    exact congrArg (fun span => Except.ok { b with requestTimeout := span }) htimeout

/-- What becomes of a table becomes of the settings in it. -/
theorem ofDocument_map {α : Type} {d : Document} {found : Except ReadError α}
    {t : α → BridgeSettings.format.Table} {b : α → BridgeSettings}
    (h : BridgeSettings.format.table (recordOrNothing d) = t <$> found)
    (hb : ∀ x, (b x).InTable (t x)) : ofDocument d = b <$> found := by
  cases found with
  | error e =>
    rw [ofDocument, h]
    rfl
  | ok x => exact ofDocument_eq_ok_iff.mpr ⟨t x, h, hb x⟩

/-- **Another value for a text of a bridge** is read as a text, and all else stays as it is. -/
theorem ofDocument_change {field : TextSetting} {form : Form}
    {es es' : List (Document × Document)} {x : Document} {b : BridgeSettings}
    (h : ofDocument (.record form (es ++ (.text field.word, x) :: es')) = .ok b) (y : Document) :
    ofDocument (.record form (es ++ (.text field.word, y) :: es'))
      = (field.put · b) <$> y.asText := by
  obtain ⟨t, ht, hb⟩ := ofDocument_eq_ok_iff.mp h
  cases field with
  | address =>
    have hkey : BridgeSettings.format.fieldOfKey form (.text "address") = .ok .address := rfl
    exact ofDocument_map ((RecordFormat.table_change ht hkey).2 y)
      fun _ => ⟨rfl, hb.username, hb.timeout⟩
  | username =>
    have hkey : BridgeSettings.format.fieldOfKey form (.text "username") = .ok .username := rfl
    exact ofDocument_map ((RecordFormat.table_change ht hkey).2 y)
      fun _ => ⟨hb.address, rfl, hb.timeout⟩

end BridgeSettings

namespace Settings

/-- **Another record for the bridge** is read as the settings of a bridge, and all else stays as it
is. -/
theorem ofDocument_change {form f : Form} {es es' ds : List (Document × Document)} {s : Settings}
    (h : ofDocument (.record form (es ++ (.text "bridge", .record f ds) :: es')) = .ok s) :
    ∃ b, BridgeSettings.ofDocument (.record f ds) = .ok b ∧ s.bridge = some b ∧
      ∀ f' ds', ofDocument (.record form (es ++ (.text "bridge", .record f' ds') :: es'))
        = (fun b => { s with bridge := some b }) <$> BridgeSettings.ofDocument (.record f' ds') := by
  obtain ⟨t, ht, h⟩ := bind_eq_ok.mp h
  have hkey : Settings.format.fieldOfKey form (.text "bridge") = .ok .bridge := rfl
  obtain ⟨⟨v, hv, hvalue⟩, hchange⟩ := RecordFormat.table_change ht hkey
  obtain ⟨b, hb, hv⟩ := bind_eq_ok.mp hv
  obtain rfl := Except.ok.inj hv
  obtain rfl := Except.ok.inj h
  refine ⟨b, hb, congrArg Option.join hvalue, fun f' ds' => ?_⟩
  have htable : Settings.format.table
      (recordOrNothing (.record form (es ++ (.text "bridge", .record f' ds') :: es')))
        = t.insert .bridge <$> (do return some (← BridgeSettings.ofDocument (.record f' ds'))) :=
    hchange _
  rw [ofDocument, htable]
  cases BridgeSettings.ofDocument (.record f' ds') <;> rfl

/-- The settings of a value with variables. -/
def ofValue (vars : Variables) (d : Document) : Except SettingsError Settings := do
  let settings ← documentResult (Settings.ofDocument (← d.substitute vars))
  settings.check
  return settings

theorem ofText_of_read {vars : Variables} {text : String} {d : Document}
    (h : readYaml value text = .ok d) : ofText vars text = ofValue vars d := by
  rw [ofText, tree, h]
  rfl

/-- Settings pass the check with other settings of the bridge that do. -/
theorem check_bridge {s : Settings} {b b' : BridgeSettings} (hs : s.bridge = some b)
    (h : s.check = .ok ()) (hb : b.check = .ok () → b'.check = .ok ()) :
    Settings.check { s with bridge := some b' } = .ok () := by
  obtain ⟨_, hrun, h⟩ := bind_eq_ok.mp h
  rw [hs] at h
  exact bind_eq_ok.mpr ⟨_, hrun, hb h⟩

variable {vars : Variables} {outer inner : Frame} {field : TextSetting} {w : String} {s : Settings}

/-- **Settings with a text of the bridge left open.**  If they can be used with some text, any other
value is read as a text, and all else stays as it is. -/
theorem ofValue_fill (houter : outer.Names vars "bridge") (hinner : inner.Names vars field.word)
    (h : ofValue vars (outer.fill (inner.fill (.text w))) = .ok s) :
    ∃ b, s.bridge = some b ∧ s.check = .ok () ∧ ∀ y y', y.substitute vars = .ok y' →
      ofValue vars (outer.fill (inner.fill y)) = (do
        let t ← documentResult y'.asText
        let settings := { s with bridge := some (field.put t b) }
        settings.check
        return settings) := by
  obtain ⟨r, hr, h⟩ := bind_eq_ok.mp h
  obtain ⟨_, hread, h⟩ := bind_eq_ok.mp h
  obtain ⟨_, hcheck, h⟩ := bind_eq_ok.mp h
  obtain rfl := Except.ok.inj h
  obtain ⟨as, bs, x, hx, rfl, houter⟩ := Frame.substitute_fill houter hr
  obtain ⟨cs, ds, x', hx', rfl, hinner⟩ := Frame.substitute_fill hinner hx
  obtain ⟨b, hb, hbridge, hsettings⟩ := ofDocument_change (documentResult_eq_ok.mp hread)
  refine ⟨b, hbridge, hcheck, fun y y' hy => ?_⟩
  rw [ofValue, houter _ _ (hinner _ _ hy)]
  show documentResult (ofDocument _) >>= _ = _
  rw [hsettings, BridgeSettings.ofDocument_change hb]
  cases y'.asText <;> rfl

/-- **Which texts of the environment arrive.**  Where a text of the bridge is a variable, in settings
that can be used with some text, a text of the environment that is not blank arrives just as it is,
unless it reads as a truth value or as a number: then it is refused. -/
theorem text_of_variable {text spec t : String}
    (hread : readYaml value text
      = .ok (outer.fill (inner.fill (tagged variableTag (.text spec)))))
    (houter : outer.Names vars "bridge") (hinner : inner.Names vars field.word)
    (hothers : ofValue vars (outer.fill (inner.fill (.text w))) = .ok s)
    (ht : vars.lookup spec = some t) (hblank : isBlankText t = false) :
    ∃ b, s.bridge = some b ∧
      ((∀ d, readYaml value t = .ok d → ¬d.IsTyped) →
        ofText vars text = .ok { s with bridge := some (field.put t b) }) ∧
      ((∃ d, readYaml value t = .ok d ∧ d.IsTyped) →
        ofText vars text = .error (.document .wrongType)) := by
  obtain ⟨b, hbridge, hcheck, hfill⟩ := ofValue_fill houter hinner hothers
  have hfound {d : Document} (hd : Reads t d) :
      (tagged variableTag (.text spec)).substitute vars = .ok d :=
    (substitute_eq_ok_iff _).mpr (.found ht hd)
  refine ⟨b, hbridge, fun hverbatim => ?_, fun ⟨d, hd, htyped⟩ => ?_⟩
  · rw [ofText_of_read hread, hfill _ _ (hfound (.verbatim hverbatim))]
    show Settings.check _ >>= _ = _
    rw [check_bridge hbridge hcheck fun hb => TextSetting.check_put hb hblank]
    rfl
  · rw [ofText_of_read hread, hfill _ _ (hfound (.typed hd htyped))]
    cases d with
    | bool | int | float => rfl
    | _ => exact htyped.elim

/-- A text in which the user of the bridge is a variable. -/
def userText : String := "bridge:\n  address: 10.0.0.4\n  username: !env_var HUE_USER\n"

/-- Settings in which those of the bridge are left open. -/
def bridgeFrame : Frame where
  form := .yaml none
  before := []
  key := .text "bridge"
  after := []

/-- Settings of a bridge in which the user is left open. -/
def userFrame : Frame where
  form := .yaml none
  before := [(.text "address", .text "10.0.0.4")]
  key := .text "username"
  after := []

/-- An environment in which the user has some name. -/
def user (name : String) : Variables
  | "HUE_USER" => some name
  | _ => none

/-- The settings of a user. -/
def ofUser (name : String) : Settings :=
  { bridge := some { address := "10.0.0.4", username := name } }

theorem userText_read : readYaml value userText
    = .ok (bridgeFrame.fill (userFrame.fill (tagged variableTag (.text "HUE_USER")))) := by
  rfl

theorem bridgeFrame_names (name : String) : bridgeFrame.Names (user name) "bridge" := ⟨rfl, nofun⟩

theorem userFrame_names (name : String) :
    userFrame.Names (user name) TextSetting.username.word :=
  ⟨rfl, nofun⟩

theorem ofValue_user (name : String) :
    ofValue (user name) (bridgeFrame.fill (userFrame.fill (.text "abc"))) = .ok (ofUser "abc") := by
  rfl

/-- The blanks and the zeros of a name are part of it. -/
theorem zeros_arrive : ofText (user " 007 ") userText = .ok (ofUser " 007 ") := by
  have hread : readYaml value " 007 " = .ok (.text "007") := by rfl
  have hverbatim : ∀ d, readYaml value " 007 " = .ok d → ¬d.IsTyped := by
    intro d hd htyped
    rw [hread] at hd
    cases hd
    exact htyped
  obtain ⟨b, hb, harrives, -⟩ := text_of_variable userText_read (bridgeFrame_names " 007 ")
    (userFrame_names " 007 ") (ofValue_user " 007 ") rfl (by decide +kernel)
  cases hb
  exact harrives hverbatim

/-- A name of digits is taken for a number and refused. -/
theorem number_refused :
    ofText (user "12345") userText = .error (.document .wrongType) ∧
      ¬∀ name, isBlankText name = false → ofText (user name) userText = .ok (ofUser name) := by
  have hrefused : ofText (user "12345") userText = .error (.document .wrongType) := by
    rw [ofText_of_read userText_read]
    rfl
  refine ⟨hrefused, fun h => ?_⟩
  have harrives := h "12345" (by decide +kernel)
  rw [hrefused] at harrives
  cases harrives

end Settings

end Lightshow
