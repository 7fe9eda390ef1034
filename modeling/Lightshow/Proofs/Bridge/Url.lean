import Mathlib.Data.List.DropRight
import Lightshow.Bridge.Url
import Lightshow.Proofs.Written.Text

/-!
# Where the devices of a bridge are

An address is a host, perhaps with a scheme before it and slashes after it.  To build a URL the
slashes are cut off first and only then a scheme is looked for, while the check of settings looks
for neither: it takes any address that is not blank.  So an address may be accepted that names no
host, since it begins with a slash or holds nothing but a scheme.  Of `http://` the slashes of the
scheme are cut off, and **what is left of the scheme is taken for a host**.

That is all that can go wrong.  If what comes after the scheme begins with anything but a slash,
cutting off slashes stops behind it and leaves the scheme alone, and the URL is the scheme, the
host and the user.  Whatever the address is, no two devices have the same URL.

## Main definitions

* `BridgeSettings.scheme`, `BridgeSettings.afterScheme`, `BridgeSettings.host` — an address taken
  apart.
* `BridgeSettings.NamesHost` — there is a host after the scheme.

## Main results

* `BridgeSettings.namesHost_iff` — which hosts can be named.
* `BridgeSettings.apiUrl_of_namesHost` — the URL of the interface.
* `BridgeSettings.urlFor_inj` — devices are told apart by their URLs.
* `BridgeSettings.urls_exactly` — **the URLs of a bridge and its devices.**
* `BridgeSettings.schemeOnly_accepted` — accepted settings without a host.
-/

namespace Lightshow

open Text

/-! ### Slashes at the end -/

theorem withoutSlashes_isPrefix (s : List Char) : withoutSlashes s <+: s :=
  List.rdropWhile_prefix _ s

/-- Slashes are cut off at the end of what comes last, unless there is nothing else in it. -/
theorem withoutSlashes_append {s : List Char} (h : withoutSlashes s ≠ []) (front : List Char) :
    withoutSlashes (front ++ s) = front ++ withoutSlashes s := by
  have hrest : (s.reverse.dropWhile (· = '/')).isEmpty = false := by
    rw [List.isEmpty_eq_false_iff]
    exact fun hnil => h (congrArg List.reverse hnil)
  rw [withoutSlashes, List.reverse_append, List.dropWhile_append, hrest]
  simp [withoutSlashes]

/-- What is no slash stays, with all that is before it. -/
theorem withoutSlashes_cons {c : Char} (hc : c ≠ '/') (s : List Char) :
    withoutSlashes (c :: s) = c :: withoutSlashes s := by
  by_cases h : withoutSlashes s = []
  · have hnil : s.reverse.dropWhile (· = '/') = [] := List.reverse_eq_nil_iff.mp h
    rw [h, withoutSlashes, List.reverse_cons, List.dropWhile_append, hnil]
    simp [hc]
  · exact withoutSlashes_append h [c]

/-! ### Addresses taken apart -/

namespace BridgeSettings

variable {b : BridgeSettings}

/-- The scheme that an address begins with, and that of plain HTTP if it begins with none. -/
def scheme (b : BridgeSettings) : String :=
  (schemes.find? fun scheme => scheme.toList.isPrefixOf b.address.toList).getD "http://"

/-- What comes after the scheme, if the address begins with one. -/
def afterScheme (b : BridgeSettings) : List Char :=
  if hasScheme b.address.toList then b.address.toList.drop b.scheme.length else b.address.toList

/-- An address without its scheme and without the slashes at its end. -/
def host (b : BridgeSettings) : List Char := withoutSlashes b.afterScheme

/-- What comes after the scheme is something, and begins with no slash. -/
def NamesHost (b : BridgeSettings) : Prop := ∃ c s, b.afterScheme = c :: s ∧ c ≠ '/'

theorem scheme_mem (b : BridgeSettings) : b.scheme ∈ schemes := by
  unfold scheme
  cases h : schemes.find? fun scheme => scheme.toList.isPrefixOf b.address.toList with
  | none => exact List.mem_cons_self
  | some scheme => exact List.mem_of_find?_eq_some h

/-- An address that begins with a scheme is this scheme and what comes after it. -/
theorem toList_address_of_hasScheme (h : hasScheme b.address.toList = true) :
    b.address.toList = b.scheme.toList ++ b.afterScheme := by
  obtain ⟨scheme, hscheme⟩ : ∃ scheme,
      schemes.find? (fun scheme => scheme.toList.isPrefixOf b.address.toList) = some scheme := by
    rw [← Option.isSome_iff_exists, List.find?_isSome]
    exact List.any_eq_true.mp h
  have hprefix : scheme.toList.isPrefixOf b.address.toList = true :=
    (List.find?_some hscheme :)
  obtain ⟨rest, hrest⟩ := List.isPrefixOf_iff_prefix.mp hprefix
  rw [afterScheme, if_pos h, BridgeSettings.scheme, hscheme, Option.getD_some, ← hrest,
    ← String.length_toList, List.drop_left]

theorem toList_address_of_not_hasScheme (h : ¬hasScheme b.address.toList = true) :
    b.address.toList = b.afterScheme ∧ b.scheme = "http://" := by
  refine ⟨(if_neg h).symm, ?_⟩
  have hnone : schemes.find? (fun scheme => scheme.toList.isPrefixOf b.address.toList) = none := by
    rw [List.find?_eq_none]
    exact fun scheme hmem hprefix => h (List.any_eq_true.mpr ⟨scheme, hmem, hprefix⟩)
  rw [scheme, hnone, Option.getD_none]

theorem hasScheme_of_isPrefix {s t : List Char} (h : s <+: t) (hs : hasScheme s = true) :
    hasScheme t = true := by
  obtain ⟨scheme, hmem, hprefix⟩ := List.any_eq_true.mp hs
  refine List.any_eq_true.mpr ⟨scheme, hmem, ?_⟩
  exact List.isPrefixOf_iff_prefix.mpr ((List.isPrefixOf_iff_prefix.mp hprefix).trans h)

/-- A host that is named is something, and begins with no slash.  No other host is. -/
theorem namesHost_iff : b.NamesHost ↔ b.host ≠ [] ∧ b.host.head? ≠ some '/' := by
  constructor
  · rintro ⟨c, s, hafter, hc⟩
    rw [host, hafter, withoutSlashes_cons hc]
    exact ⟨List.cons_ne_nil _ _, fun h => hc (Option.some.inj h)⟩
  · rintro ⟨hne, hhead⟩
    obtain ⟨rest, hafter⟩ := withoutSlashes_isPrefix b.afterScheme
    rw [← host] at hafter
    cases hhost : b.host with
    | nil => exact absurd hhost hne
    | cons c s =>
      rw [hhost] at hafter hhead
      exact ⟨c, s ++ rest, hafter.symm, fun h => hhead (congrArg some h)⟩

/-! ### URLs -/

/-- **The URL of the interface is the scheme, the host and the user**, if there is a host. -/
theorem apiUrl_of_namesHost (h : b.NamesHost) :
    b.apiUrl = b.scheme ++ String.ofList b.host ++ "/api/" ++ b.username := by
  have hne : withoutSlashes b.afterScheme ≠ [] := (namesHost_iff.mp h).1
  -- slashes are cut off behind the scheme, so it is found again
  have hbase : (if hasScheme (withoutSlashes b.address.toList) then
      withoutSlashes b.address.toList else "http://".toList ++ withoutSlashes b.address.toList)
        = b.scheme.toList ++ b.host := by
    by_cases hown : hasScheme b.address.toList = true
    · have haddress : withoutSlashes b.address.toList = b.scheme.toList ++ b.host := by
        rw [toList_address_of_hasScheme hown, withoutSlashes_append hne, host]
      have hkept : hasScheme (b.scheme.toList ++ b.host) = true :=
        List.any_eq_true.mpr ⟨b.scheme, b.scheme_mem,
          List.isPrefixOf_iff_prefix.mpr (List.prefix_append _ _)⟩
      rw [haddress, if_pos hkept]
    · obtain ⟨haddress, hscheme⟩ := toList_address_of_not_hasScheme hown
      rw [if_neg fun hkept => hown (hasScheme_of_isPrefix (withoutSlashes_isPrefix _) hkept), haddress,
        hscheme, host]
  rw [apiUrl, hbase, String.ofList_append, String.ofList_toList]

/-- A device has a URL below that of the interface, by its kind and its number. -/
theorem endpoint_inj {d d' : Device} :
    d.endpoint = d'.endpoint ↔ d.kind = d'.kind ∧ d.id = d'.id := by
  have hnumber : ∀ front back : String,
      front ++ toString d.id.toNat ++ back = front ++ toString d'.id.toNat ++ back → d.id = d'.id := by
    intro front back h
    have hdigits := congrArg String.toList
      ((String.append_right_inj front).mp ((String.append_left_inj back).mp h))
    rw [toList_toString, toList_toString] at hdigits
    have hread := natural?_toDigits d.id.toNat
    rw [hdigits, natural?_toDigits] at hread
    exact UInt32.toNat_inj.mp (Option.some.inj hread).symm
  -- the words for lights and for groups differ in their first letter
  have hfirst : ∀ s t s' t' : String, "lights/" ++ s ++ t ≠ "groups/" ++ s' ++ t' := by
    intro s t s' t' h
    have hletter := congrArg (fun u => u.toList.head?) h
    simp only [String.toList_append] at hletter
    exact absurd (show some 'l' = some 'g' from hletter) (by decide)
  constructor
  · intro h
    unfold Device.endpoint at h
    cases hkind : d.kind <;> cases hkind' : d'.kind <;> simp only [hkind, hkind'] at h
    · exact ⟨rfl, hnumber _ _ h⟩
    · exact absurd h (hfirst _ _ _ _)
    · exact absurd h.symm (hfirst _ _ _ _)
    · exact ⟨rfl, hnumber _ _ h⟩
  · rintro ⟨hkind, hid⟩
    rw [Device.endpoint, Device.endpoint, hkind, hid]

/-- **Devices are told apart by their URLs**, but for their names. -/
theorem urlFor_inj (b : BridgeSettings) {d d' : Device} :
    b.urlFor d = b.urlFor d' ↔ d.kind = d'.kind ∧ d.id = d'.id := by
  rw [urlFor, urlFor, String.append_right_inj, endpoint_inj]

/-- **The URLs of a bridge and its devices.**  An address names a host if what comes after the
scheme is something that begins with no slash, and then the URL of the interface is the scheme, the
host and the user, and that of a device is below it.  The scheme is that of the address if it has
one, and the host is the address without its scheme and the slashes at its end.  In any case two
devices have the same URL just if they have the same kind and number. -/
theorem urls_exactly (b : BridgeSettings) :
    b.scheme ∈ ["http://", "https://"] ∧
    (b.NamesHost ↔ b.host ≠ [] ∧ b.host.head? ≠ some '/') ∧
    (b.NamesHost →
      b.apiUrl = b.scheme ++ String.ofList b.host ++ "/api/" ++ b.username ∧
      ∀ d : Device, b.urlFor d
        = b.scheme ++ String.ofList b.host ++ "/api/" ++ b.username ++ "/" ++ d.endpoint) ∧
    ∀ d d' : Device, b.urlFor d = b.urlFor d' ↔ d.kind = d'.kind ∧ d.id = d'.id := by
  refine ⟨b.scheme_mem, namesHost_iff, fun h => ⟨apiUrl_of_namesHost h, fun d => ?_⟩,
    fun _ _ => urlFor_inj b⟩
  rw [urlFor, apiUrl_of_namesHost h]

/-- A bridge whose address has a scheme, a port and needless slashes. -/
def secureBridge : BridgeSettings := { address := "https://hue.local:8443//", username := "abc" }

theorem secureBridge_urls :
    secureBridge.NamesHost ∧
      secureBridge.apiUrl = "https://" ++ "hue.local:8443" ++ "/api/" ++ "abc" ∧
      secureBridge.urlFor ⟨.group, 3, "Hall"⟩
        = "https://" ++ "hue.local:8443" ++ "/api/" ++ "abc" ++ "/" ++ "groups/3/action" := by
  have hhost : secureBridge.NamesHost := ⟨'h', "ue.local:8443//".toList, by decide +kernel, by decide⟩
  obtain ⟨hinterface, hdevice⟩ := secureBridge.urls_exactly.2.2.1 hhost
  refine ⟨hhost, hinterface.trans ?_, (hdevice _).trans ?_⟩ <;> decide +kernel

/-- A bridge whose address is nothing but a scheme. -/
def schemeOnly : BridgeSettings := { address := "http://", username := "abc" }

/-- An address without a host is accepted, and what is left of its scheme is taken for one. -/
theorem schemeOnly_accepted :
    Settings.check { bridge := some schemeOnly } = .ok () ∧
      schemeOnly.apiUrl = "http://http:/api/abc" ∧
      ¬∀ (s : Settings) (b : BridgeSettings), s.bridge = some b → s.check = .ok () →
        b.apiUrl = b.scheme ++ String.ofList b.host ++ "/api/" ++ b.username ∧
          b.host ≠ [] ∧ b.host.head? ≠ some '/' := by
  have hcheck : Settings.check { bridge := some schemeOnly } = .ok () := by decide +kernel
  refine ⟨hcheck, by decide +kernel, fun h => ?_⟩
  exact (h _ schemeOnly rfl hcheck).2.1 (by decide +kernel)

end BridgeSettings

end Lightshow
