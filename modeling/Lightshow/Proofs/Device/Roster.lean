import Lightshow.Proofs.Device.Missing
import Lightshow.Proofs.Device.Reference
import Lightshow.Proofs.Reading.Order

/-!
# What a roster makes of a list of devices

A roster is filled device by device, and each device takes the place of those with its number and
of those with its name.  Two devices may share a name and not a number, so a device may be lost
under one and found under the other.  Still nothing of the roster has to be known to tell what a
key means, since it can be told from the list: **the last device with the number that the key is a
numeral of, or, if no device has it, the last device with the key as its name.**  That is what we
keep while the list grows at its end.

Devices of the other kind count for nothing in this.  They are in a directory of their own, and
what is kept is kept for either directory.

## Main definitions

* `lastWith` — the last device of a list with a kind and a property.
* `Means` — the device that a key means in a list of devices.
* `Directory.Indexes` — a directory holds the devices of one kind in a list.
* `Roster.Follows` — what each reference means, told from a list of devices and the inputs.

## Main results

* `Roster.indexes_ofDevices` — the directories of a roster hold the devices that it is made of.
* `Directory.Indexes.find?_eq_some_iff` — what is found under a key is what the key means.
* `Roster.follows_list` — **a roster follows its list of devices, and the inputs bound to it.**
-/

namespace Lightshow

open Text

/-! ### Keys in a list of devices -/

/-- The last device of a kind with a property. -/
def lastWith (devices : List Device) (kind : DeviceKind) (p : Device → Bool) : Option Device :=
  (devices.filter fun d => d.kind = kind && p d).getLast?

/-- The device that a key means in a list of devices.  A numeral means the device with its number,
if there is one, whatever the devices are called. -/
inductive Means (devices : List Device) (kind : DeviceKind) (key : String) : Device → Prop
  | number {id : UInt32} {d : Device} (hkey : PlusNumeral key.toList id.toNat)
      (hd : lastWith devices kind (·.id = id) = some d) : Means devices kind key d
  | name {d : Device} (hnone : ∀ id : UInt32, PlusNumeral key.toList id.toNat →
        lastWith devices kind (·.id = id) = none)
      (hd : lastWith devices kind (·.name = key) = some d) : Means devices kind key d

/-- A new device comes after all others. -/
theorem lastWith_append_singleton (devices : List Device) (d : Device) (kind : DeviceKind)
    (p : Device → Bool) : lastWith (devices ++ [d]) kind p
      = if d.kind = kind ∧ p d then some d else lastWith devices kind p := by
  rw [lastWith, List.filter_append, List.filter_singleton]
  by_cases h : d.kind = kind ∧ p d
  · have hkept : (decide (d.kind = kind) && p d) = true := by simpa using h
    rw [if_pos h, hkept]
    exact List.getLast?_concat
  · have hleft : (decide (d.kind = kind) && p d) = false := by simpa using h
    rw [if_neg h, hleft]
    exact congrArg List.getLast? (List.append_nil _)

/-! ### Directories -/

namespace Directory

/-- A directory holds the devices of a kind in a list: under each number and under each name the
last device that has it. -/
structure Indexes (dir : Directory) (devices : List Device) (kind : DeviceKind) : Prop where
  byId (id : UInt32) : dir.byId[id]? = lastWith devices kind (·.id = id)
  byName (name : String) : dir.byName[name]? = lastWith devices kind (·.name = name)

variable {dir : Directory} {devices : List Device} {kind : DeviceKind}

theorem indexes_empty (kind : DeviceKind) : Indexes {} [] kind :=
  ⟨fun _ => Std.HashMap.getElem?_empty, fun _ => Std.HashMap.getElem?_empty⟩

/-- A device that is inserted comes last. -/
theorem Indexes.insert (h : dir.Indexes devices kind) {d : Device} (hd : d.kind = kind) :
    (dir.insert d).Indexes (devices ++ [d]) kind where
  byId id := by
    rw [Directory.insert, lastWith_append_singleton, Std.HashMap.getElem?_insert, h.byId]
    simp [hd]
  byName name := by
    rw [Directory.insert, lastWith_append_singleton, Std.HashMap.getElem?_insert, h.byName]
    simp [hd]

/-- A device of the other kind is none of those that count. -/
theorem Indexes.skip (h : dir.Indexes devices kind) {d : Device} (hd : d.kind ≠ kind) :
    dir.Indexes (devices ++ [d]) kind where
  byId id := by rw [lastWith_append_singleton, if_neg fun hp => hd hp.1, h.byId]
  byName name := by rw [lastWith_append_singleton, if_neg fun hp => hd hp.1, h.byName]

/-- A key is a number if it is a numeral of it. -/
theorem number?_eq_some_iff {key : String} {id : UInt32} :
    number? key = some id ↔ PlusNumeral key.toList id.toNat := by
  rw [number?, Option.map_eq_some_iff]
  constructor
  · rintro ⟨n, hn, rfl⟩
    obtain ⟨hlt, hkey⟩ := word?_eq_some_iff.mp hn
    rwa [UInt32.toNat_ofNat_of_lt' hlt]
  · intro hkey
    exact ⟨id.toNat, word?_eq_some_iff.mpr ⟨id.toNat_lt, hkey⟩, UInt32.ofNat_toNat⟩

/-- **What is found under a key is what the key means.** -/
theorem Indexes.find?_eq_some_iff (h : dir.Indexes devices kind) {key : String} {d : Device} :
    dir.find? key = some d ↔ Means devices kind key d := by
  have hnumber : ((number? key).bind fun id => dir.byId[id]?) = some d ↔
      ∃ id : UInt32, PlusNumeral key.toList id.toNat ∧
        lastWith devices kind (·.id = id) = some d := by
    simp only [Option.bind_eq_some_iff, number?_eq_some_iff, h.byId]
  have hnone : ((number? key).bind fun id => dir.byId[id]?) = none ↔
      ∀ id : UInt32, PlusNumeral key.toList id.toNat →
        lastWith devices kind (·.id = id) = none := by
    simp only [Option.bind_eq_none_iff, number?_eq_some_iff, h.byId]
  -- the name is looked up only if no number has been found
  rw [find?, Option.or_eq_some_iff, hnumber, hnone, h.byName]
  constructor
  · rintro (⟨id, hkey, hd⟩ | ⟨hid, hd⟩)
    · exact .number hkey hd
    · exact .name hid hd
  · rintro (⟨hkey, hd⟩ | ⟨hid, hd⟩)
    · exact .inl ⟨_, hkey, hd⟩
    · exact .inr ⟨hid, hd⟩

end Directory

/-- The failure of a key of a kind. -/
def Unmapped.ofKind : DeviceKind → String → Unmapped
  | .light => .light
  | .group => .group

namespace Roster

/-! ### Rosters -/

/-- The devices of a kind. -/
def directory (r : Roster) : DeviceKind → Directory
  | .light => r.lights
  | .group => r.groups

/-- A device is inserted among those of its kind. -/
theorem directory_insert (r : Roster) (d : Device) (kind : DeviceKind) :
    (r.insert d).directory kind
      = if d.kind = kind then (r.directory kind).insert d else r.directory kind := by
  rw [insert]
  cases d.kind <;> cases kind <;> rfl

theorem directory_bound (r : Roster) (bound : List Device) (kind : DeviceKind) :
    directory { r with inputs := bound } kind = r.directory kind := by
  cases kind <;> rfl

theorem inputs_insert (r : Roster) (d : Device) : (r.insert d).inputs = r.inputs := by
  rw [insert]
  cases d.kind <;> rfl

theorem ofDevices_append_singleton (devices : List Device) (d : Device) :
    ofDevices (devices ++ [d]) = (ofDevices devices).insert d := List.foldl_concat ..

theorem inputs_ofDevices (devices : List Device) : (ofDevices devices).inputs = [] := by
  induction devices using List.reverseRecOn with
  | nil => rfl
  | append_singleton devices d ih => rw [ofDevices_append_singleton, inputs_insert, ih]

/-- **The directories of a roster hold the devices that it is made of.** -/
theorem indexes_ofDevices (devices : List Device) (kind : DeviceKind) :
    ((ofDevices devices).directory kind).Indexes devices kind := by
  -- the roster is filled from the front, so the list has to grow at its end
  induction devices using List.reverseRecOn with
  | nil => cases kind <;> exact Directory.indexes_empty _
  | append_singleton devices d ih =>
    rw [ofDevices_append_singleton, directory_insert]
    by_cases hd : d.kind = kind
    · rw [if_pos hd]
      exact ih.insert hd
    · rw [if_neg hd]
      exact ih.skip hd

/-- A key means one device at most. -/
theorem means_unique {devices : List Device} {kind : DeviceKind} {key : String} {d d' : Device}
    (h : Means devices kind key d) (h' : Means devices kind key d') : d = d' := by
  have hfind := indexes_ofDevices devices kind
  exact Option.some.inj
    ((hfind.find?_eq_some_iff.mpr h).symm.trans (hfind.find?_eq_some_iff.mpr h'))

theorem device_eq (r : Roster) (kind : DeviceKind) (key : String) : r.device kind key =
    match (r.directory kind).find? key with
    | some d => .ok d
    | none => .error (.ofKind kind key) := by
  cases kind <;> rfl

theorem resolve_ofKind (r : Roster) (kind : DeviceKind) (key : String) :
    r.resolve (.ofKind kind key) = (r.device kind key).map ([·]) := by
  cases kind <;> rfl

section Devices

variable {r : Roster} {devices : List Device}
  (h : ∀ kind, (r.directory kind).Indexes devices kind)

include h

/-- A key is looked up with success if it means a device. -/
theorem device_eq_ok_iff {kind : DeviceKind} {key : String} {d : Device} :
    r.device kind key = .ok d ↔ Means devices kind key d := by
  rw [device_eq, ← (h kind).find?_eq_some_iff]
  cases (r.directory kind).find? key <;> simp

theorem device_eq_error {kind : DeviceKind} {key : String}
    (hkey : ∀ d, ¬Means devices kind key d) : r.device kind key = .error (.ofKind kind key) := by
  have hnone : (r.directory kind).find? key = none := Option.eq_none_iff_forall_ne_some.mpr
    fun d hd => hkey d ((h kind).find?_eq_some_iff.mp hd)
  rw [device_eq, hnone]

end Devices

/-! ### Inputs -/

/-- All inputs are the inputs one by one. -/
theorem resolve_allInputs (r : Roster) (hne : r.inputs ≠ []) :
    r.resolve .allInputs = List.flatten <$>
      (List.range' 1 r.inputs.length).mapM fun n => r.resolve (.input n) := by
  -- each position is one device, and one after the other they are the inputs
  have heach : (List.range' 1 r.inputs.length).mapM (fun n => r.resolve (.input n))
      = .ok (r.inputs.map ([·])) := by
    rw [mapM_eq_ok_iff, List.forall₂_iff_get]
    refine ⟨by simp, fun i hi _ => ?_⟩
    have hi' : i < r.inputs.length := by simpa using hi
    simpa [Nat.add_comm 1 i] using r.resolve_input_succ hi'
  have hall : r.resolve .allInputs = .ok r.inputs := if_neg (by simpa using hne)
  rw [heach, hall]
  show Except.ok r.inputs = Except.ok (r.inputs.map ([·])).flatten
  rw [← List.flatMap_def, List.flatMap_singleton']

/-- **What each reference means**, told from a list of devices and the inputs that are bound.  The
inputs are counted from one, and all inputs are the inputs one after the other. -/
structure Follows (r : Roster) (devices bound : List Device) : Prop where
  key (kind : DeviceKind) (key : String) (d : Device) (hkey : Means devices kind key d) :
    r.resolve (.ofKind kind key) = .ok [d]
  noKey (kind : DeviceKind) (key : String) (hkey : ∀ d, ¬Means devices kind key d) :
    r.resolve (.ofKind kind key) = .error (.ofKind kind key)
  input (i : ℕ) (hi : i < bound.length) : r.resolve (.input (i + 1)) = .ok [bound[i]]
  noInput (n : ℕ) (hn : n = 0 ∨ bound.length < n) : r.resolve (.input n) = .error (.input n)
  allInputs (hbound : bound ≠ []) : r.resolve .allInputs =
    List.flatten <$> (List.range' 1 bound.length).mapM fun n => r.resolve (.input n)
  noInputs (hbound : bound = []) : r.resolve .allInputs = .error .noInputs

/-- A roster whose directories hold some devices follows them and its own inputs. -/
theorem follows_of_indexes {r : Roster} {devices : List Device}
    (h : ∀ kind, (r.directory kind).Indexes devices kind) : r.Follows devices r.inputs where
  key kind key d hkey := by
    rw [resolve_ofKind, (device_eq_ok_iff h).mpr hkey]
    rfl
  noKey kind key hkey := by
    rw [resolve_ofKind, device_eq_error h hkey]
    rfl
  input _ hi := r.resolve_input_succ hi
  noInput _ hn := r.resolve_input_of_unbound hn
  allInputs hbound := r.resolve_allInputs hbound
  noInputs hbound := if_pos (by simp [hbound])

/-- Keys are looked up one after the other, and the devices stay as they are. -/
theorem bind_eq (r : Roster) (keys : List (DeviceKind × String)) :
    r.bind keys = (keys.mapM fun x => r.device x.1 x.2) >>= fun bound =>
      .ok { r with inputs := bound } := rfl

/-- **A roster follows its list of devices, and the inputs bound to it.**  Inputs can be bound if
every key means a device, and they are bound to the devices that the keys mean.  If there is a key
that means nothing, the first one is the failure. -/
theorem follows_list (devices : List Device) (keys : List (DeviceKind × String)) :
    (ofDevices devices).Follows devices [] ∧
    ((∃ r, (ofDevices devices).bind keys = .ok r) ↔ ∀ x ∈ keys, ∃ d, Means devices x.1 x.2 d) ∧
    (∀ r, (ofDevices devices).bind keys = .ok r → ∃ bound,
      List.Forall₂ (fun x d => Means devices x.1 x.2 d) keys bound ∧ r.Follows devices bound) ∧
    ∀ before kind key after, keys = before ++ (kind, key) :: after →
      (∀ x ∈ before, ∃ d, Means devices x.1 x.2 d) → (∀ d, ¬Means devices kind key d) →
      (ofDevices devices).bind keys = .error (.ofKind kind key) := by
  have hdevices := indexes_ofDevices devices
  have hbind : ∀ r, (ofDevices devices).bind keys = .ok r ↔ ∃ bound,
      List.Forall₂ (fun x d => Means devices x.1 x.2 d) keys bound ∧
        r = { ofDevices devices with inputs := bound } := by
    intro r
    rw [bind_eq, bind_eq_ok]
    simp only [mapM_eq_ok_iff, device_eq_ok_iff hdevices, Except.ok.injEq, eq_comm (b := r)]
  refine ⟨?_, ?_, ?_, ?_⟩
  · rw [← inputs_ofDevices devices]
    exact follows_of_indexes hdevices
  · simp only [hbind, ← device_eq_ok_iff hdevices, ← exists_mapM_eq_ok_iff, ← mapM_eq_ok_iff]
    exact ⟨fun ⟨_, bound, hbound, _⟩ => ⟨bound, hbound⟩,
      fun ⟨bound, hbound⟩ => ⟨_, bound, hbound, rfl⟩⟩
  · intro r hr
    obtain ⟨bound, hbound, rfl⟩ := (hbind r).mp hr
    -- binding changes no directory
    refine ⟨bound, hbound, follows_of_indexes fun kind => ?_⟩
    rw [directory_bound]
    exact hdevices kind
  · rintro before kind key after rfl hbefore hkey
    have hfound : ∀ x ∈ before, ∃ d, (ofDevices devices).device x.1 x.2 = .ok d := fun x hx =>
      (hbefore x hx).imp fun d => (device_eq_ok_iff hdevices).mpr
    rw [bind_eq, mapM_append_eq_error hfound (device_eq_error hdevices hkey)]
    rfl

/-- Devices that share numbers and names. -/
def twins : List Device :=
  [⟨.light, 7, "3"⟩, ⟨.light, 3, "Desk"⟩, ⟨.group, 3, "Desk"⟩, ⟨.light, 3, "Lamp"⟩,
    ⟨.light, 7, "Desk"⟩]

/-- A numeral means the number before the name, and a light is no group. -/
theorem twins_follow_list :
    (∃ r, (ofDevices twins).bind [(.light, "+3"), (.group, "Desk")] = .ok r ∧
      r.resolve (.input 1) = .ok [⟨.light, 3, "Lamp"⟩] ∧
      r.resolve (.input 2) = .ok [⟨.group, 3, "Desk"⟩] ∧
      r.resolve (.light "007") = .ok [⟨.light, 7, "Desk"⟩]) ∧
    (ofDevices twins).bind [(.light, "+3"), (.group, "Lamp")] = .error (.group "Lamp") := by
  have hword : ∀ key ∈ ["Desk", "Lamp"], ∀ id : UInt32, ¬PlusNumeral key.toList id.toNat := by
    intro key hkey id hid
    have hnone : ∀ key ∈ ["Desk", "Lamp"], Directory.number? key = none := by decide
    exact nomatch (hnone key hkey).symm.trans (Directory.number?_eq_some_iff.mpr hid)
  have hthree : Means twins .light "+3" ⟨.light, 3, "Lamp"⟩ :=
    .number (show PlusNumeral _ (3 : UInt32).toNat from .inr ⟨_, rfl, 0, rfl⟩) (by decide)
  have hseven : Means twins .light "007" ⟨.light, 7, "Desk"⟩ :=
    .number (show PlusNumeral _ (7 : UInt32).toNat from .inl ⟨2, rfl⟩) (by decide)
  have hdesk : Means twins .group "Desk" ⟨.group, 3, "Desk"⟩ :=
    .name (fun id hid => absurd hid (hword _ (by decide) id)) (by decide)
  have hlamp : ∀ d, ¬Means twins .group "Lamp" d := by
    rintro d (⟨hkey, -⟩ | ⟨-, hd⟩)
    · exact hword _ (by decide) _ hkey
    · exact nomatch hd
  constructor
  · obtain ⟨-, hbinds, hfollows, -⟩ := follows_list twins [(.light, "+3"), (.group, "Desk")]
    obtain ⟨r, hr⟩ := hbinds.mpr (by simpa using ⟨⟨_, hthree⟩, _, hdesk⟩)
    obtain ⟨_, _ | ⟨hfirst, _ | ⟨hsecond, ⟨⟩⟩⟩, hr'⟩ := hfollows r hr
    obtain rfl := means_unique hfirst hthree
    obtain rfl := means_unique hsecond hdesk
    exact ⟨r, hr, hr'.input 0 (by decide), hr'.input 1 (by decide), hr'.key _ _ _ hseven⟩
  · refine (follows_list twins _).2.2.2 [(.light, "+3")] .group "Lamp" [] rfl ?_ hlamp
    exact List.forall_mem_singleton.mpr ⟨_, hthree⟩

end Roster

end Lightshow
